import Maple.Transport.Decoder

/-!
# The decoder as a byte machine

`byteStep` is the decoder fed one byte at a time. A chunk pushed through the
slice-taking loop does what its bytes do one after the other, so the carrier's
fragmentation is invisible and a whole frame acts as one record.
-/

set_option autoImplicit false

namespace Maple.Transport.ByteMachine
open BigEndian Feed Crypto Framing Decoder ResponseDecoder List

variable (P : Primitives) (L : Libraries)

def deliver (r : Except TransportV2Error (ResponseDecoder × ResponseEvent)) :
    Except TransportV2Error (ResponseDecoder × List ResponseEvent) :=
  match r with
  | .error e => .error e
  | .ok (d,event) =>
    if event.isTerminal then .ok ({ d with state := .pendingTerminal event }, [])
    else .ok (d,[event])

def idle (d : ResponseDecoder) : ResponseDecoder :=
  { d with ciphertext := [], expectedCiphertextBytes := none, lengthPrefix := [] }

def prefixByte (d : ResponseDecoder) (lengthPrefix : Bytes) :
    Except TransportV2Error (ResponseDecoder × List ResponseEvent) :=
  if lengthPrefix.length < ciphertextLengthBytes then
    .ok ({ d with lengthPrefix := lengthPrefix }, [])
  else if ¬(recordTagBytes ≤ ofBytes lengthPrefix ∧
      ofBytes lengthPrefix ≤ maxResponseRecordCiphertextBytes) then .error .invalidFrame
  else .ok ({ d with
    lengthPrefix := lengthPrefix
    expectedCiphertextBytes := some (ofBytes lengthPrefix) }, [])

def bodyByte (d : ResponseDecoder) (expected : ℕ) (ciphertext : Bytes) :
    Except TransportV2Error (ResponseDecoder × List ResponseEvent) :=
  if ciphertext.length < expected then .ok ({ d with ciphertext := ciphertext }, [])
  else deliver ((idle d).decodeRecord P L ciphertext)

def byteStep (d : ResponseDecoder) (b : UInt8) :
    Except TransportV2Error (ResponseDecoder × List ResponseEvent) :=
  if d.state.live then
    match d.expectedCiphertextBytes with
    | none => prefixByte d (d.lengthPrefix++[b])
    | some expected => bodyByte P L d expected (d.ciphertext++[b])
  else .error .postTerminalData

structure Wf (d : ResponseDecoder) : Prop where
  prefix_short : d.expectedCiphertextBytes = none →
    d.lengthPrefix.length < ciphertextLengthBytes ∧ d.ciphertext = []
  body_short : ∀ n, d.expectedCiphertextBytes = some n →
    d.ciphertext.length < n ∧ d.lengthPrefix ≠ []

theorem wf_idle (d : ResponseDecoder) : Wf (idle d) :=
  ⟨fun _ => ⟨Nat.zero_lt_succ _,rfl⟩,fun n h => by simp [idle] at h⟩

theorem wf_new (opener : ResponseOpener) : Wf (ResponseDecoder.new opener) :=
  wf_idle (new opener)

theorem new_not_finished (opener : ResponseOpener) :
    (ResponseDecoder.new opener).state ≠ .finished := by simp [ResponseDecoder.new]

theorem feed_length (d : ResponseDecoder) (xs : Bytes) (hl : d.state.live = true)
    (he : d.expectedCiphertextBytes = none) (hx : xs ≠ [])
    (hn : d.lengthPrefix.length+xs.length ≤ ciphertextLengthBytes) :
    feed (byteStep P L) d xs = prefixByte d (d.lengthPrefix++xs) := by
  induction xs generalizing d with
  | nil => exact absurd rfl hx
  | cons x xs ih =>
    simp only [feed, byteStep, hl, if_true, he]
    cases xs with
    | nil =>
      simp only [feed]
      cases h : prefixByte d (d.lengthPrefix++[x]) with
      | error e => rfl
      | ok r => simp [andThen]
    | cons y ys =>
      have hs : (d.lengthPrefix++[x]).length < ciphertextLengthBytes := by
        simp only [length_append, length_cons, length_nil] at hn ⊢
        omega
      have hr := ih { d with lengthPrefix := d.lengthPrefix++[x] } hl he (by simp) (by
        simp only [length_append, length_cons, length_nil] at hn ⊢
        omega)
      rw [prefixByte, if_pos hs, andThen_nil, hr]
      simp [prefixByte]

theorem feed_body (d : ResponseDecoder) (n : ℕ) {xs : Bytes} (hl : d.state.live = true)
    (he : d.expectedCiphertextBytes = some n) (hx : xs ≠ [])
    (hn : d.ciphertext.length+xs.length ≤ n) :
    feed (byteStep P L) d xs = bodyByte P L d n (d.ciphertext++xs) := by
  induction xs generalizing d with
  | nil => exact absurd rfl hx
  | cons x xs ih =>
    simp only [feed, byteStep, hl, if_true, he]
    cases xs with
    | nil =>
      simp only [feed]
      cases h : bodyByte P L d n (d.ciphertext++[x]) with
      | error e => rfl
      | ok r => simp [andThen]
    | cons y ys =>
      have hs : (d.ciphertext++[x]).length < n := by
        simp only [length_append, length_cons, length_nil] at hn ⊢
        omega
      have hr := ih { d with ciphertext := d.ciphertext++[x] } hl he (by simp) (by
        simp only [length_append, length_cons, length_nil] at hn ⊢
        omega)
      rw [bodyByte, if_pos hs, andThen_nil, hr]
      simp [bodyByte, idle]

theorem feed_dead (d : ResponseDecoder) (xs : Bytes) (hl : d.state.live = false) (hx : xs ≠ []) :
    feed (byteStep P L) d xs = .error .postTerminalData := by
  cases xs with
  | nil => exact absurd rfl hx
  | cons x xs => simp [feed, byteStep, hl]

def Consumed (d : ResponseDecoder) (input : Bytes) (d' : ResponseDecoder) (rest : Bytes)
    (events : List ResponseEvent) : Prop :=
  ∃ taken, input = taken++rest ∧ feed (byteStep P L) d taken = .ok (d',events) ∧ Wf d'

variable {d : ResponseDecoder} {input : Bytes}

theorem feed_head (hw : Wf d) (hl : d.state.live = true) (hi : input ≠ [])
    (he : d.expectedCiphertextBytes = none) {take : ℕ}
    (ht : min (ciphertextLengthBytes-d.lengthPrefix.length) input.length = take) :
    0 < take ∧ feed (byteStep P L) d (input.take take) =
      prefixByte d (d.lengthPrefix++input.take take) := by
  have hpos : 0 < input.length := length_pos_iff.mpr hi
  obtain ⟨hp,-⟩ := hw.prefix_short he
  refine ⟨by omega,feed_length P L d _ hl he ?_ ?_⟩
  · rw [← length_pos_iff, length_take]
    omega
  · rw [length_take]
    omega

theorem readPrefix_error {e : TransportV2Error} (hw : Wf d) (hl : d.state.live = true)
    (hi : input ≠ []) (h : d.readPrefix input = .error e) :
    feed (byteStep P L) d input = .error e := by
  unfold readPrefix at h
  split at h
  · cases h
  rename_i he
  simp only at h
  generalize ht : min (ciphertextLengthBytes-d.lengthPrefix.length) input.length = take at h
  have hfeed := (feed_head P L hw hl hi he ht).2
  split_ifs at h with h1 h2
  rw [← take_append_drop take input, feed_append, hfeed, prefixByte, if_neg h1, if_pos h2]
  cases h
  rfl

variable {d' : ResponseDecoder} {rest : Bytes}

theorem readPrefix_ok (hw : Wf d) (hl : d.state.live = true) (hi : input ≠ [])
    (h : d.readPrefix input = .ok (d',rest)) :
    Consumed P L d input d' rest [] ∧ d'.state = d.state ∧
      (d'.expectedCiphertextBytes = none → rest = []) ∧
      (d.expectedCiphertextBytes = none → rest.length < input.length) := by
  unfold readPrefix at h
  split at h
  · rename_i n he
    cases h
    exact ⟨⟨[],rfl,rfl,hw⟩,rfl,by simp [he],by simp [he]⟩
  rename_i he
  simp only at h
  obtain ⟨hp,hc⟩ := hw.prefix_short he
  generalize ht : min (ciphertextLengthBytes-d.lengthPrefix.length) input.length = take at h
  obtain ⟨hpos,hfeed⟩ := feed_head P L hw hl hi he ht
  have hdrop : (input.drop take).length < input.length := by
    rw [length_drop]
    omega
  split_ifs at h with h1 h2
  · cases h
    rw [prefixByte, if_pos h1] at hfeed
    refine ⟨⟨_,(take_append_drop take input).symm,hfeed,⟨fun _ => ⟨h1,hc⟩,?_⟩⟩,
      rfl,fun _ => ?_,fun _ => hdrop⟩
    · intro n hn
      simp [he] at hn
    · rw [length_append, length_take] at h1
      exact drop_eq_nil_of_le (by omega)
  · cases h
    rw [prefixByte, if_neg h1, if_neg (not_not.mpr h2)] at hfeed
    refine ⟨⟨_,(take_append_drop take input).symm,hfeed,⟨fun hn => by simp at hn,?_⟩⟩,
      rfl,fun hn => by simp at hn,fun _ => hdrop⟩
    intro n hn
    simp only [Option.some.injEq] at hn
    subst hn
    refine ⟨?_,?_⟩
    · rw [hc]
      exact lt_of_lt_of_le (by decide) h2.1
    · intro hnil
      simp only at hnil
      rw [hnil] at h1
      exact h1 (by decide)

variable {events : List ResponseEvent}

theorem deliver_ok {r : Except TransportV2Error (ResponseDecoder × ResponseEvent)}
    (h : deliver r = .ok (d,events)) :
    ∃ d₀ event, r = .ok (d₀,event) ∧
      ((event.isTerminal = true ∧ d = { d₀ with state := .pendingTerminal event } ∧ events = []) ∨
        (event.isTerminal = false ∧ d = d₀ ∧ events = [event])) := by
  unfold deliver at h
  split at h
  · cases h
  rename_i d₀ event
  split_ifs at h with ht
  · cases h
    exact ⟨_,event,rfl,Or.inl ⟨ht,rfl,rfl⟩⟩
  · cases h
    exact ⟨_,event,rfl,Or.inr ⟨by simpa using ht,rfl,rfl⟩⟩

variable {ciphertext : Bytes} {event : ResponseEvent}

theorem decodeRecord_ok (h : d.decodeRecord P L ciphertext = .ok (d',event)) :
    ∃ plaintext opener state, d.opener.openNext P ciphertext = .ok (plaintext,opener) ∧
      decodePlaintextRecord L plaintext = .ok event ∧ admits d.state event = some state ∧
      d' = { d with opener := opener, state := state } := by
  unfold decodeRecord at h
  split at h
  · cases h
  rename_i plaintext opener ho
  split at h
  · cases h
  rename_i event' hp
  split at h
  · cases h
  rename_i state ha
  cases h
  exact ⟨plaintext,opener,state,ho,hp,ha,rfl⟩

theorem admits_opened {state state' : DecodeState}
    (h : admits state event = some state') : state' = .opened := by
  unfold admits at h
  split at h <;> cases h <;> rfl

theorem wf_deliver (h : deliver ((idle d).decodeRecord P L ciphertext) = .ok (d',events)) :
    Wf d' ∧ idle d' = d' := by
  obtain ⟨d₀,event,hr,hd⟩ := deliver_ok h
  obtain ⟨plaintext,opener,state,-,-,-,rfl⟩ := decodeRecord_ok P L hr
  rcases hd with ⟨-,rfl,-⟩ | ⟨-,rfl,-⟩
  · exact ⟨wf_idle ⟨opener,.pendingTerminal event,[],none,[]⟩,rfl⟩
  · exact ⟨wf_idle ⟨opener,state,[],none,[]⟩,rfl⟩

def resume (r : Except TransportV2Error (ResponseDecoder × Bytes × List ResponseEvent)) :
    Except TransportV2Error (ResponseDecoder × List ResponseEvent) :=
  match r with
  | .error e => .error e
  | .ok (d,rest,events) => andThen (.ok (d,events)) (fun d => feed (byteStep P L) d rest)

theorem completeRecord_resume (d : ResponseDecoder) (ciphertext rest : Bytes) :
    resume P L (d.completeRecord P L ciphertext rest) =
      andThen (deliver ((idle d).decodeRecord P L ciphertext))
        (fun d => feed (byteStep P L) d rest) := by
  unfold completeRecord
  rw [← idle]
  cases hr : (idle d).decodeRecord P L ciphertext with
  | error e => rfl
  | ok p =>
    obtain ⟨d',event⟩ := p
    cases ht : event.isTerminal with
    | false => simp [deliver, ht, resume]
    | true =>
      cases rest with
      | nil => simp [deliver, ht, resume]
      | cons b rest =>
        simp only [deliver, ht, if_true, andThen_nil]
        rw [feed_dead P L _ _ rfl (by simp)]
        rfl

theorem pushStep_resume (input : Bytes) (hw : Wf d) (hl : d.state.live = true) (hi : input ≠ []) :
    resume P L (d.pushStep P L input) = feed (byteStep P L) d input := by
  unfold pushStep
  cases hr : d.readPrefix input with
  | error e => exact (readPrefix_error P L hw hl hi hr).symm
  | ok p =>
    obtain ⟨d₁,rest⟩ := p
    obtain ⟨⟨taken,rfl,hf,hw₁⟩,hs,hn,-⟩ := readPrefix_ok P L hw hl hi hr
    rw [feed_append, hf, andThen_nil]
    simp only
    split
    · simp [resume]
    rename_i n he
    obtain ⟨hc,-⟩ := hw₁.body_short n he
    generalize ht : min (n-d₁.ciphertext.length) rest.length = take
    cases rest with
    | nil =>
      simp only [take_nil, append_nil, drop_nil, if_pos hc]
      simp [resume]
    | cons b rest =>
      have htaken : (b::rest).take take ≠ [] := by
        rw [← length_pos_iff, length_take]
        simp only [length_cons] at ht ⊢
        omega
      have hb := feed_body P L d₁ n (hs ▸ hl) he htaken (by
        rw [length_take]
        omega)
      conv_rhs => rw [← take_append_drop take (b::rest), feed_append, hb, bodyByte]
      split_ifs with hlt
      · simp [resume]
      · rw [completeRecord_resume]

theorem completeRecord_ok {rest' : Bytes}
    (h : d.completeRecord P L ciphertext rest = .ok (d',rest',events)) :
    Wf d' ∧ rest' = rest ∧ (d'.state.live = true ∨ rest' = []) := by
  unfold completeRecord at h
  rw [← idle] at h
  split at h
  · cases h
  rename_i d₀ event hr
  obtain ⟨plaintext,opener,state,-,-,ha,rfl⟩ := decodeRecord_ok P L hr
  split_ifs at h with ht he
  · cases h
    exact ⟨wf_idle ⟨opener,.pendingTerminal event,[],none,[]⟩,rfl,
      Or.inr (List.isEmpty_iff.mp he)⟩
  · cases h
    exact ⟨wf_idle ⟨opener,state,[],none,[]⟩,rfl,Or.inl (by rw [admits_opened ha]; rfl)⟩

theorem pushStep_ok (hw : Wf d) (hl : d.state.live = true)
    (hi : input ≠ []) (h : d.pushStep P L input = .ok (d',rest,events)) :
    Wf d' ∧ rest.length < input.length ∧ (d'.state.live = true ∨ rest = []) := by
  have hpos : 0 < input.length := length_pos_iff.mpr hi
  unfold pushStep at h
  cases hr : d.readPrefix input with
  | error e => simp [hr] at h
  | ok p =>
    obtain ⟨d₁,rest₁⟩ := p
    obtain ⟨⟨taken,hin,hf,hw₁⟩,hs,hn,hshort⟩ := readPrefix_ok P L hw hl hi hr
    have hlen : rest₁.length ≤ input.length := by
      rw [hin, length_append]
      omega
    simp only [hr] at h
    split at h
    · rename_i he
      cases h
      obtain rfl := hn he
      exact ⟨hw₁,by simpa using hpos,Or.inr rfl⟩
    rename_i n he
    obtain ⟨hc,hp⟩ := hw₁.body_short n he
    generalize ht : min (n-d₁.ciphertext.length) rest₁.length = take at h
    have hdrop : (rest₁.drop take).length < input.length := by
      rw [length_drop]
      omega
    split_ifs at h with hlt
    · cases h
      refine ⟨⟨fun hnone => by simp [he] at hnone,fun m hm => ?_⟩,hdrop,Or.inl (hs ▸ hl)⟩
      simp only [he, Option.some.injEq] at hm
      subst hm
      exact ⟨hlt,hp⟩
    · obtain ⟨hw',rfl,hlive⟩ := completeRecord_ok P L h
      exact ⟨hw',hdrop,hlive⟩

theorem pushLoop_eq_feed {fuel : ℕ} (d : ResponseDecoder) (input : Bytes)
    (events : List ResponseEvent) (hw : Wf d) (hl : d.state.live = true ∨ input = [])
    (hf : input.length ≤ fuel) : d.pushLoop P L fuel input events =
      some (andThen (.ok (d,events)) (fun d => feed (byteStep P L) d input)) := by
  induction fuel generalizing d input events with
  | zero =>
    obtain rfl := length_eq_zero_iff.mp (Nat.le_zero.mp hf)
    simp [pushLoop, andThen]
  | succ fuel ih =>
    cases input with
    | nil => simp [pushLoop, andThen]
    | cons b input =>
      have hlive : d.state.live = true := by simpa using hl
      have hstep := pushStep_resume P L (b::input) hw hlive (by simp)
      rw [pushLoop]
      cases hr : d.pushStep P L (b::input) with
      | error e =>
        rw [hr] at hstep
        simp [andThen, ← hstep, resume]
      | ok p =>
        obtain ⟨d',rest,new⟩ := p
        obtain ⟨hw',hlt,hl'⟩ := pushStep_ok P L hw hlive (by simp) hr
        simp only
        rw [ih d' rest (events++new) hw' hl' (by simp only [length_cons] at *; omega)]
        rw [hr] at hstep
        simp only [andThen, ← hstep, resume]
        cases feed (byteStep P L) d' rest with
        | error e => rfl
        | ok q => simp

/-- A pushed chunk does what its bytes do, and the loop always ends. -/
theorem push_eq_feed (input : Bytes) (hw : Wf d) (hs : d.state ≠ .finished) :
    d.push P L input = some (feed (byteStep P L) d input) := by
  unfold push
  split
  · contradiction
  · rename_i event he
    cases input with
    | nil => simp
    | cons b input => simp [feed_dead P L d (b::input) (by rw [he]; rfl) (by simp)]
  rename_i h1 h2
  have hl : d.state.live = true := by
    cases hd : d.state with
    | awaitingStart | opened => rfl
    | pendingTerminal event => exact absurd hd (h2 event)
    | finished => contradiction
  rw [pushLoop_eq_feed P L d input [] hw (Or.inl hl) le_rfl, andThen_nil]

theorem feed_frame {frame : Bytes} (hi : idle d = d) (hl : d.state.live = true)
    (h : frameCiphertext ciphertext = .ok frame) :
    feed (byteStep P L) d frame = deliver (d.decodeRecord P L ciphertext) := by
  obtain ⟨hmin,hmax,rfl⟩ := (frameCiphertext_ok_iff ciphertext frame).mp h
  have hpos : 0 < ciphertext.length := lt_of_lt_of_le (by decide) hmin
  have hlen : ciphertext.length < 256^ciphertextLengthBytes :=
    lt_of_le_of_lt hmax (by decide)
  have hof := ofBytes_toBytes ciphertext.length hlen
  have hle := toBytes_length ciphertextLengthBytes ciphertext.length
  have hlp : d.lengthPrefix = [] := by rw [← hi]; rfl
  have hct : d.ciphertext = [] := by rw [← hi]; rfl
  have hex : d.expectedCiphertextBytes = none := by rw [← hi]; rfl
  have hlead : feed (byteStep P L) d (toBytes ciphertextLengthBytes ciphertext.length) =
      .ok ({ d with
        lengthPrefix := toBytes ciphertextLengthBytes ciphertext.length
        expectedCiphertextBytes := some ciphertext.length }, []) := by
    rw [feed_length P L d _ hl hex (by rw [← length_pos_iff, hle]; decide)
      (by rw [hle, hlp]; exact le_rfl), hlp, nil_append, prefixByte,
      if_neg (by rw [hle]; exact lt_irrefl _), hof, if_neg (not_not.mpr ⟨hmin,hmax⟩)]
  have hbody := feed_body P L ({ d with
    lengthPrefix := toBytes ciphertextLengthBytes ciphertext.length
    expectedCiphertextBytes := some ciphertext.length }) ciphertext.length hl rfl
    (length_pos_iff.mp hpos) (by simp [hct])
  rw [feed_append, hlead, andThen_nil, hbody]
  simp only [hct, nil_append, bodyByte, lt_irrefl, if_false]
  conv_rhs => rw [← hi]
  rfl

/-- From one record boundary to another the input starts with a whole frame. -/
theorem feed_idle_cases (hi : idle d = d) (hi' : idle d' = d') (hl : d.state.live = true)
    (hn : input ≠ []) (h : feed (byteStep P L) d input = .ok (d',events)) :
    ∃ ciphertext frame rest, frameCiphertext ciphertext = .ok frame ∧ input = frame++rest := by
  have hlp : d.lengthPrefix = [] := by rw [← hi]; rfl
  have hct : d.ciphertext = [] := by rw [← hi]; rfl
  have hex : d.expectedCiphertextBytes = none := by rw [← hi]; rfl
  have hlp' : d'.lengthPrefix = [] := by rw [← hi']; rfl
  have hex' : d'.expectedCiphertextBytes = none := by rw [← hi']; rfl
  by_cases hshort : input.length < ciphertextLengthBytes
  · rw [feed_length P L d input hl hex hn (by rw [hlp]; simpa using hshort.le), hlp,
      nil_append, prefixByte, if_pos hshort] at h
    cases h
    exact absurd hlp' hn
  have htake : (input.take ciphertextLengthBytes).length = ciphertextLengthBytes := by
    rw [length_take]
    omega
  have hne : input.take ciphertextLengthBytes ≠ [] := by
    rw [← length_pos_iff, htake]
    decide
  rw [← take_append_drop ciphertextLengthBytes input, feed_append,
    feed_length P L d _ hl hex hne (by rw [hlp, htake]; exact le_rfl), hlp, nil_append,
    prefixByte, if_neg (by rw [htake]; exact lt_irrefl _)] at h
  split_ifs at h with hr
  swap
  · cases h
  rw [andThen_nil] at h
  generalize hsize : ofBytes (input.take ciphertextLengthBytes) = n at h hr
  generalize hrest : input.drop ciphertextLengthBytes = body at h
  have hpos : 0 < n := lt_of_lt_of_le (by decide) hr.1
  by_cases hfull : n ≤ body.length
  · have hc : (body.take n).length = n := by
      rw [length_take]
      omega
    refine ⟨body.take n,_,body.drop n,
      (frameCiphertext_ok_iff _ _).mpr ⟨by omega,by omega,rfl⟩,?_⟩
    have hlead : toBytes ciphertextLengthBytes n = input.take ciphertextLengthBytes := by
      have hb := toBytes_ofBytes (input.take ciphertextLengthBytes)
      rwa [htake, hsize] at hb
    rw [hc, hlead, append_assoc, take_append_drop, ← hrest, take_append_drop]
  · exfalso
    by_cases hbody : body = []
    · subst hbody
      cases h
      simp at hex'
    · have hb := h.symm.trans
        (feed_body P L _ n hl rfl hbody (by simp only [hct, length_nil]; omega))
      simp only [hct, nil_append, bodyByte, if_pos (not_le.mp hfull)] at hb
      cases hb
      simp at hex'

/-- A run that ends on a record boundary starts with one whole record, and a
terminal record is the last thing in it. -/
theorem first_record (hi : idle d = d) (hi' : idle d' = d')
    (hl : d.state.live = true) (hn : input ≠ [])
      (h : feed (byteStep P L) d input = .ok (d',events)) :
    ∃ ciphertext frame rest plaintext opener event,
      frameCiphertext ciphertext = .ok frame ∧ input = frame++rest ∧
      d.opener.openNext P ciphertext = .ok (plaintext,opener) ∧
      decodePlaintextRecord L plaintext = .ok event ∧ admits d.state event = some .opened ∧
      ((event.isTerminal = true ∧ rest = [] ∧ events = [] ∧
          d' = ⟨opener,.pendingTerminal event,[],none,[]⟩) ∨
        (event.isTerminal = false ∧ ∃ more, events = event::more ∧
          feed (byteStep P L) ⟨opener,.opened,[],none,[]⟩ rest = .ok (d',more))) := by
  obtain ⟨ciphertext,frame,rest,hframe,rfl⟩ :=
    feed_idle_cases P L hi hi' hl hn h
  rw [feed_append, feed_frame P L hi hl hframe] at h
  obtain ⟨d₁,out,more,hd,hrest,rfl⟩ := (andThen_ok_iff _ _ _ _).mp h
  obtain ⟨d₀,event,hr,hcases⟩ := deliver_ok hd
  obtain ⟨plaintext,opener,state,ho,hp,ha,rfl⟩ := decodeRecord_ok P L hr
  obtain rfl := admits_opened ha
  refine ⟨ciphertext,frame,rest,plaintext,opener,event,hframe,rfl,ho,hp,ha,?_⟩
  have hd₀ : ∀ s, ({ d with opener := opener, state := s } : ResponseDecoder) =
      ⟨opener,s,[],none,[]⟩ := by
    intro s
    rw [← hi]
    rfl
  rcases hcases with ⟨ht,rfl,rfl⟩ | ⟨ht,rfl,rfl⟩
  · have hnil : rest = [] := by
      by_contra hne
      rw [feed_dead P L _ rest rfl hne] at hrest
      cases hrest
    subst hnil
    cases hrest
    exact Or.inl ⟨ht,rfl,rfl,hd₀ _⟩
  · rw [hd₀] at hrest
    exact Or.inr ⟨ht,more,rfl,hrest⟩

theorem byteStep_ok {b : UInt8} (hw : Wf d)
    (h : byteStep P L d b = .ok (d',events)) : Wf d' ∧ d'.state ≠ .finished := by
  unfold byteStep at h
  split_ifs at h with hl
  have hne : d.state ≠ .finished := by
    intro hf
    rw [hf] at hl
    cases hl
  split at h
  · rename_i he
    obtain ⟨-,hc⟩ := hw.prefix_short he
    unfold prefixByte at h
    split_ifs at h with h1 h2
    · cases h
      exact ⟨⟨fun _ => ⟨h1,hc⟩,fun n hn => by simp [he] at hn⟩,hne⟩
    · cases h
      refine ⟨⟨fun hn => by simp at hn,fun n hn => ?_⟩,hne⟩
      simp only [Option.some.injEq] at hn
      subst hn
      exact ⟨by simpa [hc] using lt_of_lt_of_le (by decide) h2.1,by simp⟩
  · rename_i n he
    obtain ⟨-,hp⟩ := hw.body_short n he
    unfold bodyByte at h
    split_ifs at h with h1
    · cases h
      refine ⟨⟨fun hn => by simp [he] at hn,fun m hm => ?_⟩,hne⟩
      simp only [he, Option.some.injEq] at hm
      subst hm
      exact ⟨h1,hp⟩
    · refine ⟨(wf_deliver P L h).1,?_⟩
      obtain ⟨d₀,event,hr,hd⟩ := deliver_ok h
      obtain ⟨plaintext,opener,state,-,-,ha,rfl⟩ := decodeRecord_ok P L hr
      rcases hd with ⟨-,rfl,-⟩ | ⟨-,rfl,-⟩
      · simp
      · simp [admits_opened ha]

theorem feed_ok (d : ResponseDecoder) (events : List ResponseEvent) (hw : Wf d)
    (hs : d.state ≠ .finished) (h : feed (byteStep P L) d input = .ok (d',events)) :
    Wf d' ∧ d'.state ≠ .finished := by
  induction input generalizing d events with
  | nil =>
    cases h
    exact ⟨hw,hs⟩
  | cons b input ih =>
    obtain ⟨d₁,out,more,hb,hf,-⟩ := (andThen_ok_iff _ _ _ _).mp h
    obtain ⟨hw₁,hs₁⟩ := byteStep_ok P L hw hb
    exact ih d₁ more hw₁ hs₁ hf

def settle (r : Except TransportV2Error (ResponseDecoder × List ResponseEvent)) :
    Except TransportV2Error (List ResponseEvent) :=
  match r with
  | .error e => .error e
  | .ok (d,events) =>
    match d.finish with
    | .error e => .error e
    | .ok event => .ok (events++[event])

/-- However the carrier cuts the bytes, the client's loop ends, and it completes
exactly when the byte machine does. -/
theorem receive_complete_iff (d : ResponseDecoder) (chunks : List Bytes)
    (events : List ResponseEvent) (hw : Wf d) (hs : d.state ≠ .finished) :
    receive P L d (chunks.map .ok) = some (events,none) ↔
      settle (feed (byteStep P L) d chunks.flatten) = .ok events := by
  induction chunks generalizing d events with
  | nil =>
    simp only [map_nil, receive, flatten_nil, feed_nil, settle]
    cases d.finish <;> simp
  | cons chunk chunks ih =>
    rw [map_cons, receive, push_eq_feed P L chunk hw hs, flatten_cons, feed_append]
    cases hf : feed (byteStep P L) d chunk with
    | error e => simp [settle]
    | ok p =>
      obtain ⟨d₁,out⟩ := p
      obtain ⟨hw₁,hs₁⟩ := feed_ok P L d out hw hs hf
      simp only [Option.map_eq_some_iff, Prod.mk.injEq, Prod.exists]
      constructor
      · rintro ⟨es,r,he,rfl,rfl⟩
        have hset := (ih d₁ es hw₁ hs₁).mp he
        simp only [settle, andThen] at hset ⊢
        split at hset <;> rename_i hrest
        · cases hset
        · simp only [hrest]
          split at hset <;> rename_i hfin
          · cases hset
          · cases hset
            simp
      · intro hset
        simp only [settle, andThen] at hset
        split at hset
        · cases hset
        rename_i d₂ more hrest
        split at hset
        · cases hset
        rename_i last hfin
        cases hset
        split at hrest
        · cases hrest
        rename_i d₃ more' hrest'
        cases hrest
        refine ⟨more'++[last],none,(ih d₁ _ hw₁ hs₁).mpr ?_,by simp,rfl⟩
        simp [settle, hrest', hfin]

theorem receive_total (d : ResponseDecoder) (chunks : List Bytes) (hw : Wf d)
    (hs : d.state ≠ .finished) : (receive P L d (chunks.map .ok)).isSome = true := by
  induction chunks generalizing d with
  | nil =>
    simp only [map_nil, receive]
    cases d.finish <;> rfl
  | cons chunk chunks ih =>
    rw [map_cons, receive, push_eq_feed P L chunk hw hs]
    cases hf : feed (byteStep P L) d chunk with
    | error e => rfl
    | ok p =>
      obtain ⟨hw₁,hs₁⟩ := feed_ok P L d p.2 hw hs hf
      simpa using ih p.1 hw₁ hs₁

def Begun (seen : List ResponseEvent) : Prop :=
  ∃ status headers, ∃ chunks : List Bytes, seen = .start status headers::chunks.map .chunk

/-- What the client has seen of a decoder in this state; a terminal event is held back. -/
def Seen (seen : List ResponseEvent) : DecodeState → Prop
  | .awaitingStart => seen = []
  | .opened => Begun seen
  | .pendingTerminal event => event.isTerminal = true ∧ Begun seen
  | .finished => False

theorem admitted_seen {seen : List ResponseEvent} {state state' : DecodeState}
    (hseen : Seen seen state) (h : admits state event = some state') :
    if event.isTerminal then Begun seen else Begun (seen++[event]) := by
  unfold admits at h
  split at h <;> cases h
  · subst hseen
    exact ⟨_,_,[],rfl⟩
  · obtain ⟨status,headers,chunks,rfl⟩ := hseen
    exact ⟨status,headers,chunks++[_],by rw [map_append]; rfl⟩
  · exact hseen
  · exact hseen

theorem byteStep_seen {seen : List ResponseEvent} {b : UInt8} (hseen : Seen seen d.state)
    (h : byteStep P L d b = .ok (d',events)) : Seen (seen++events) d'.state := by
  unfold byteStep at h
  split_ifs at h
  split at h
  · unfold prefixByte at h
    split_ifs at h <;> cases h <;> rwa [append_nil]
  unfold bodyByte at h
  split_ifs at h
  · cases h
    rwa [append_nil]
  obtain ⟨d₀,event,hr,hd⟩ := deliver_ok h
  obtain ⟨plaintext,opener,state,-,-,ha,rfl⟩ := decodeRecord_ok P L hr
  have hnow := admitted_seen hseen ha
  obtain rfl := admits_opened ha
  rcases hd with ⟨ht,rfl,rfl⟩ | ⟨ht,rfl,rfl⟩
  · rw [ht] at hnow
    rw [append_nil]
    exact ⟨ht,hnow⟩
  · rwa [ht] at hnow

theorem feed_seen (d : ResponseDecoder) (seen events : List ResponseEvent)
    (hseen : Seen seen d.state) (h : feed (byteStep P L) d input = .ok (d',events)) :
    Seen (seen++events) d'.state := by
  induction input generalizing d seen events with
  | nil =>
    cases h
    rwa [append_nil]
  | cons b input ih =>
    obtain ⟨d₁,out,more,hb,hf,rfl⟩ := (andThen_ok_iff _ _ _ _).mp h
    rw [← append_assoc]
    exact ih d₁ _ more (byteStep_seen P L hseen hb) hf

/-- What a client has seen when it stops, with an error or without one. -/
def InOrder (seen : List ResponseEvent) : Option TransportV2Error → Prop
  | none => ∃ before last, seen = before++[last] ∧ last.isTerminal = true ∧ Begun before
  | some _ => seen = [] ∨ Begun seen

theorem seen_failed {seen : List ResponseEvent} {state : DecodeState} (h : Seen seen state)
    (e : TransportV2Error) : InOrder (seen++[]) (some e) := by
  rw [append_nil]
  cases state with
  | awaitingStart => exact .inl h
  | opened => exact .inr h
  | pendingTerminal event => exact .inr h.2
  | finished => exact h.elim

theorem receive_seen (d : ResponseDecoder) (carrier : List (Except Unit Bytes))
    (seen : List ResponseEvent) (hw : Wf d) (hseen : Seen seen d.state) :
    ∃ events failure, receive P L d carrier = some (events,failure) ∧
      InOrder (seen++events) failure := by
  have hs : d.state ≠ .finished := fun hfinished => by rw [hfinished] at hseen; exact hseen
  induction carrier generalizing d seen with
  | nil =>
    cases hfin : d.finish with
    | error e => exact ⟨[],some e,by rw [receive, hfin],seen_failed hseen e⟩
    | ok last =>
      have hstate : d.state = .pendingTerminal last := by
        unfold finish at hfin
        split_ifs at hfin
        split at hfin <;> cases hfin
        assumption
      rw [hstate] at hseen
      exact ⟨[last],none,by rw [receive, hfin],seen,last,rfl,hseen⟩
  | cons item carrier ih =>
    cases item with
    | error unread => exact ⟨[],some .http,rfl,seen_failed hseen .http⟩
    | ok chunk =>
      simp only [receive, push_eq_feed P L chunk hw hs]
      cases hf : feed (byteStep P L) d chunk with
      | error e => exact ⟨[],some e,rfl,seen_failed hseen e⟩
      | ok p =>
        obtain ⟨hw₁,hs₁⟩ := feed_ok P L d p.2 hw hs hf
        obtain ⟨events,failure,hrest,horder⟩ :=
          ih p.1 (seen++p.2) hw₁ (feed_seen P L d seen p.2 hseen hf) hs₁
        rw [append_assoc] at horder
        exact ⟨p.2++events,failure,by simp only [hrest, Option.map_some],horder⟩

/-- Whatever the carrier holds and however it ends, the client sees nothing, or one start and
then chunks, and a terminal event after them exactly if it stops without an error. -/
theorem receive_in_order (opener : ResponseOpener) (carrier : List (Except Unit Bytes)) :
    ∃ events failure, receive P L (ResponseDecoder.new opener) carrier = some (events,failure) ∧
      InOrder events failure := receive_seen P L _ carrier [] (wf_new opener) rfl

end Maple.Transport.ByteMachine
