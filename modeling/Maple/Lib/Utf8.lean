import Mathlib.Data.List.Basic

/-!
# Decoding UTF-8 from a stream

One character is read at a time from the front of the input. What was read, or refused,
does not depend on what follows; only a truncated character at the end does.
-/

set_option autoImplicit false

namespace Maple.Utf8

open List

inductive Next
  | done
  | char (symbol : Char) (rest : List UInt8)
  | invalid (rest : List UInt8)
  | truncated
deriving DecidableEq, Repr

def continuation (byte : UInt8) : Bool := 0x80 ≤ byte && byte ≤ 0xBF

def secondOfThree (first second : UInt8) : Bool :=
  (first == 0xE0 && 0xA0 ≤ second && second ≤ 0xBF) ||
  (0xE1 ≤ first && first ≤ 0xEC && continuation second) ||
  (first == 0xED && 0x80 ≤ second && second ≤ 0x9F) ||
  (0xEE ≤ first && first ≤ 0xEF && continuation second)

def secondOfFour (first second : UInt8) : Bool :=
  (first == 0xF0 && 0x90 ≤ second && second ≤ 0xBF) ||
  (0xF1 ≤ first && first ≤ 0xF3 && continuation second) ||
  (first == 0xF4 && 0x80 ≤ second && second ≤ 0x8F)

/-- The six payload bits of a continuation byte, below the bits read before. -/
def shifted (high : ℕ) (byte : UInt8) : ℕ := high*64+byte.toNat%64

-- An invalid sequence ends before the first byte that cannot continue it.
def nextOfTwo (first : UInt8) : List UInt8 → Next
  | [] => .truncated
  | second::rest =>
    if continuation second then .char (Char.ofNat (shifted (first.toNat%32) second)) rest
    else .invalid (second::rest)

def nextOfThree (first : UInt8) : List UInt8 → Next
  | [] => .truncated
  | second::rest =>
    if secondOfThree first second then
      match rest with
      | [] => .truncated
      | third::rest =>
        if continuation third then
          .char (Char.ofNat (shifted (shifted (first.toNat%16) second) third)) rest
        else .invalid (third::rest)
    else .invalid (second::rest)

def nextOfFour (first : UInt8) : List UInt8 → Next
  | [] => .truncated
  | second::rest =>
    if secondOfFour first second then
      match rest with
      | [] => .truncated
      | third::rest =>
        if continuation third then
          match rest with
          | [] => .truncated
          | fourth::rest =>
            if continuation fourth then
              .char (Char.ofNat (shifted (shifted (shifted (first.toNat%8) second) third) fourth))
                rest
            else .invalid (fourth::rest)
        else .invalid (third::rest)
    else .invalid (second::rest)

def next : List UInt8 → Next
  | [] => .done
  | first::rest =>
    if first < 0x80 then .char (Char.ofNat first.toNat) rest
    else if 0xC2 ≤ first ∧ first ≤ 0xDF then nextOfTwo first rest
    else if 0xE0 ≤ first ∧ first ≤ 0xEF then nextOfThree first rest
    else if 0xF0 ≤ first ∧ first ≤ 0xF4 then nextOfFour first rest
    else .invalid rest

/-- More input appended to what was left. -/
def Next.extend (more : List UInt8) : Next → Next
  | .char symbol rest => .char symbol (rest++more)
  | .invalid rest => .invalid (rest++more)
  | other => other

def Next.settled : Next → Prop
  | .char _ _ => True
  | .invalid _ => True
  | _ => False

def Next.restLength : Next → ℕ
  | .char _ rest => rest.length
  | .invalid rest => rest.length
  | _ => 0

variable {first : UInt8} (more : List UInt8) {bytes : List UInt8}

theorem two_extend (h : (nextOfTwo first bytes).settled) :
    nextOfTwo first (bytes++more) = (nextOfTwo first bytes).extend more ∧
      (nextOfTwo first bytes).restLength ≤ bytes.length := by
  cases bytes with
  | nil => exact absurd h id
  | cons second rest =>
    simp only [nextOfTwo, cons_append]
    split <;> simp [Next.extend, Next.restLength]

theorem three_extend (h : (nextOfThree first bytes).settled) :
    nextOfThree first (bytes++more) = (nextOfThree first bytes).extend more ∧
      (nextOfThree first bytes).restLength ≤ bytes.length := by
  cases bytes with
  | nil => exact absurd h id
  | cons second rest =>
    by_cases hsecond : secondOfThree first second = true
    · cases rest with
      | nil => simp [nextOfThree, hsecond, Next.settled] at h
      | cons third rest =>
        simp only [nextOfThree, cons_append, if_pos hsecond]
        split
        all_goals
          refine ⟨rfl,?_⟩
          simp only [Next.restLength, length_cons]
          omega
    · simp [nextOfThree, hsecond, Next.extend, Next.restLength]

theorem four_extend (h : (nextOfFour first bytes).settled) :
    nextOfFour first (bytes++more) = (nextOfFour first bytes).extend more ∧
      (nextOfFour first bytes).restLength ≤ bytes.length := by
  cases bytes with
  | nil => exact absurd h id
  | cons second rest =>
    by_cases hsecond : secondOfFour first second = true
    · cases rest with
      | nil => simp [nextOfFour, hsecond, Next.settled] at h
      | cons third rest =>
        by_cases hthird : continuation third = true
        · cases rest with
          | nil => simp [nextOfFour, hsecond, hthird, Next.settled] at h
          | cons fourth rest =>
            simp only [nextOfFour, cons_append, if_pos hsecond, if_pos hthird]
            split
            all_goals
              refine ⟨rfl,?_⟩
              simp only [Next.restLength, length_cons]
              omega
        · simp [nextOfFour, hsecond, hthird, Next.extend, Next.restLength]
    · simp [nextOfFour, hsecond, Next.extend, Next.restLength]

/-- A character or a refusal stands whatever follows, and consumes something. -/
theorem next_extend (h : (next bytes).settled) :
    next (bytes++more) = (next bytes).extend more ∧ (next bytes).restLength < bytes.length := by
  cases bytes with
  | nil => exact absurd h id
  | cons first rest =>
    rw [cons_append, length_cons]
    unfold next at h ⊢
    by_cases hone : first < 0x80
    · simp [hone, Next.extend, Next.restLength]
    by_cases htwo : 0xC2 ≤ first ∧ first ≤ 0xDF
    · simp only [if_neg hone, if_pos htwo] at h ⊢
      obtain ⟨hextend,hlength⟩ := two_extend more h
      exact ⟨hextend,by omega⟩
    by_cases hthree : 0xE0 ≤ first ∧ first ≤ 0xEF
    · simp only [if_neg hone, if_neg htwo, if_pos hthree] at h ⊢
      obtain ⟨hextend,hlength⟩ := three_extend more h
      exact ⟨hextend,by omega⟩
    · by_cases hfour : 0xF0 ≤ first ∧ first ≤ 0xF4
      · simp only [if_neg hone, if_neg htwo, if_neg hthree, if_pos hfour] at h ⊢
        obtain ⟨hextend,hlength⟩ := four_extend more h
        exact ⟨hextend,by omega⟩
      · simp [hone, htwo, hthree, hfour, Next.extend, Next.restLength]

variable {rest : List UInt8}

theorem next_settled {result : Next} (h : next bytes = result) (hsettled : result.settled) :
    result.restLength < bytes.length ∧ ∀ more, next (bytes++more) = result.extend more := by
  subst h
  exact ⟨(next_extend [] hsettled).2,fun more => (next_extend more hsettled).1⟩

theorem next_char {symbol : Char} (h : next bytes = .char symbol rest) :
    rest.length < bytes.length ∧ ∀ more, next (bytes++more) = .char symbol (rest++more) :=
  next_settled h trivial

theorem next_invalid (h : next bytes = .invalid rest) :
    rest.length < bytes.length ∧ ∀ more, next (bytes++more) = .invalid (rest++more) :=
  next_settled h trivial

theorem next_done (h : next bytes = .done) : bytes = [] := by
  cases bytes with
  | nil => rfl
  | cons first rest =>
    simp only [next] at h
    split_ifs at h
    · cases rest with
      | nil => cases h
      | cons second rest =>
        simp only [nextOfTwo] at h
        split at h <;> cases h
    · cases rest with
      | nil => cases h
      | cons second rest =>
        simp only [nextOfThree] at h
        repeat' split at h
        all_goals cases h
    · cases rest with
      | nil => cases h
      | cons second rest =>
        simp only [nextOfFour] at h
        repeat' split at h
        all_goals cases h

def replacement : Char := '\ufffd'

/-- The whole input as text, with a replacement character for every invalid sequence. -/
def lossy (bytes : List UInt8) : List Char :=
  match _h : next bytes with
  | .done => []
  | .char symbol rest => symbol::lossy rest
  | .invalid rest => replacement::lossy rest
  | .truncated => [replacement]
termination_by bytes.length
decreasing_by
  · exact (next_char _h).1
  · exact (next_invalid _h).1

theorem lossy_nil : lossy [] = [] := by
  rw [lossy]
  rfl

theorem lossy_char {symbol : Char} (h : next bytes = .char symbol rest) :
    lossy bytes = symbol::lossy rest := by
  rw [lossy]
  split <;> simp_all

theorem lossy_invalid (h : next bytes = .invalid rest) : lossy bytes = replacement::lossy rest := by
  rw [lossy]
  split <;> simp_all

theorem lossy_truncated (h : next bytes = .truncated) : lossy bytes = [replacement] := by
  rw [lossy]
  split <;> simp_all

/-- What a strict decoder reports: the text up to the first error, and where to resume. -/
inductive Checked
  | valid (text : List Char)
  | invalid (text : List Char) (rest : List UInt8)
  | truncated (text : List Char) (rest : List UInt8)
deriving DecidableEq, Repr

def Checked.push (symbol : Char) : Checked → Checked
  | .valid text => .valid (symbol::text)
  | .invalid text rest => .invalid (symbol::text) rest
  | .truncated text rest => .truncated (symbol::text) rest

def strict (bytes : List UInt8) : Checked :=
  match _h : next bytes with
  | .done => .valid []
  | .char symbol rest => (strict rest).push symbol
  | .invalid rest => .invalid [] rest
  | .truncated => .truncated [] bytes
termination_by bytes.length
decreasing_by exact (next_char _h).1

/-- How a report continues to the whole text, once more bytes are known. -/
def Checked.Continues (bytes : List UInt8) : Checked → Prop
  | .valid text => ∀ more, lossy (bytes++more) = text++lossy more
  | .invalid text rest => rest.length < bytes.length ∧
      ∀ more, lossy (bytes++more) = text++replacement::lossy (rest++more)
  | .truncated text rest => lossy bytes = text++[replacement] ∧
      ∀ more, lossy (bytes++more) = text++lossy (rest++more)

theorem strict_continues (bytes : List UInt8) : (strict bytes).Continues bytes := by
  fun_induction strict bytes with
  | case1 bytes h =>
    cases next_done h
    intro more
    rfl
  | case2 bytes symbol rest h ih =>
    obtain ⟨hshort,hmore⟩ := next_char h
    have hlossy (more : List UInt8) : lossy (bytes++more) = symbol::lossy (rest++more) :=
      lossy_char (hmore more)
    cases hstrict : strict rest with
    | valid text =>
      rw [hstrict] at ih
      intro more
      rw [hlossy, ih more, cons_append]
    | invalid text rest' =>
      rw [hstrict] at ih
      refine ⟨Nat.lt_trans ih.1 hshort,fun more => ?_⟩
      rw [hlossy, ih.2 more, cons_append]
    | truncated text rest' =>
      rw [hstrict] at ih
      refine ⟨?_,fun more => ?_⟩
      · rw [lossy_char h, ih.1, cons_append]
      · rw [hlossy, ih.2 more, cons_append]
  | case3 bytes rest h =>
    obtain ⟨hshort,hmore⟩ := next_invalid h
    exact ⟨hshort,fun more => lossy_invalid (hmore more)⟩
  | case4 bytes h => exact ⟨lossy_truncated h,fun more => rfl⟩

end Maple.Utf8
