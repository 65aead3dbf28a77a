import Maple.Compaction.Publication

/-!
# Items that arrive

While a response runs, items are appended to its conversation: replies, calls,
outputs of calls that have none, and further user items. An arriving item can
only reach back to an open item, that is a call without output or a reasoning
item of the current response that nothing has followed.
-/

set_option autoImplicit false

namespace Maple.Compaction.Arrivals
open Tiling Items Groups Coverage Window List

def IsCall (item : ItemMeta) (id : Uuid) : Prop :=
  item.key.kind = .toolCall ∧ item.toolCallId.getD item.key.uuid = id

def IsOutput (item : ItemMeta) (id : Uuid) : Prop :=
  item.key.kind = .toolOutput ∧ item.toolCallId = some id

/-- What may arrive: a user item, or an item of the current response. A call is new, and an
output belongs to a call that has none. -/
inductive Arrives (f : Frame) (item : ItemMeta) : Prop
  | user (hk : item.key.kind = .user)
  | reply (hr : item.responseUuid = some f.currentResponse)
      (hk : item.key.kind = .reasoning ∨ item.key.kind = .assistant)
  | call (hr : item.responseUuid = some f.currentResponse) (id : Uuid) (hk : IsCall item id)
      (hnew : ∀ other ∈ f.items, ¬IsCall other id)
  | output (hr : item.responseUuid = some f.currentResponse) (id : Uuid) (hk : IsOutput item id)
      (hcall : ∃ call ∈ f.items, IsCall call id) (hopen : ∀ other ∈ f.items, ¬IsOutput other id)

def arrive (f : Frame) (item : ItemMeta) : Frame := { f with items := f.items++[item] }

inductive Appended (f : Frame) : Frame → Prop
  | refl : Appended f f
  | step (f' : Frame) (item : ItemMeta) (run : Appended f f') (hk : item.key ∉ f'.keys)
      (ha : Arrives f' item) : Appended f (arrive f' item)

def Unanswered (response : Option Uuid) (items : List ItemMeta) : Prop :=
  ∀ next ∈ items, next.responseUuid = response → next.key.kind = .reasoning

/-- A reasoning item of the current response that only reasoning has followed. -/
def OpenReasoning (f : Frame) (o : ℕ) : Prop :=
  ∃ item, f.items[o]? = some item ∧ item.key.kind = .reasoning ∧
    item.responseUuid = some f.currentResponse ∧
    Unanswered item.responseUuid (f.items.drop (o+1))

def OpenCall (f : Frame) (o : ℕ) : Prop :=
  ∃ item id, f.items[o]? = some item ∧ callId item = some id ∧ calls f.items id = some o ∧
    ∀ other ∈ f.items, ¬IsOutput other id

def Open (f : Frame) (o : ℕ) : Prop := OpenReasoning f o ∨ OpenCall f o

variable {item : ItemMeta} {id : Uuid}

theorem callId_some (h : callId item = some id) : pairs item = true ∧ IsCall item id := by
  unfold callId at h
  split_ifs at h with hc
  rw [Bool.and_eq_true, decide_eq_true_eq] at hc
  exact ⟨hc.1,hc.2,Option.some.inj h⟩

theorem outputId_some (h : outputId item = some id) : IsOutput item id := by
  unfold outputId at h
  split_ifs at h with hc
  rw [Bool.and_eq_true, decide_eq_true_eq] at hc
  exact ⟨hc.2,h⟩

theorem lastIndexLoop_concat (p : ItemMeta → Bool) (items : List ItemMeta) (item : ItemMeta) (i : ℕ)
    (found : Option ℕ) : lastIndexLoop p (items++[item]) i found =
      if p item then some (i+items.length) else lastIndexLoop p items i found := by
  induction items generalizing i found with
  | nil => rfl
  | cons first items ih =>
    rw [cons_append, lastIndexLoop, ih, lastIndexLoop, length_cons,
      show i+1+items.length = i+(items.length+1) by omega]

theorem calls_concat (items : List ItemMeta) (item : ItemMeta) (id : Uuid) :
    calls (items++[item]) id = if callId item = some id then some items.length
      else calls items id := by
  simp [calls, lastIndexLoop_concat]

theorem outputs_concat (items : List ItemMeta) (item : ItemMeta) (id : Uuid) :
    outputs (items++[item]) id = if outputId item = some id then some items.length
      else outputs items id := by
  simp [outputs, lastIndexLoop_concat]

theorem lastIndexLoop_none (p : ItemMeta → Bool) (items : List ItemMeta) (i : ℕ)
    (h : ∀ item ∈ items, p item = false) : lastIndexLoop p items i none = none := by
  induction items generalizing i with
  | nil => rfl
  | cons item items ih =>
    rw [lastIndexLoop, h item mem_cons_self, if_neg Bool.false_ne_true]
    exact ih (i+1) (fun other ho => h other (mem_cons_of_mem _ ho))

variable {items : List ItemMeta}

theorem calls_none (h : ∀ other ∈ items, ¬IsCall other id) : calls items id = none := by
  refine lastIndexLoop_none _ items 0 (fun item hi => ?_)
  exact decide_eq_false (fun hc => h item hi (callId_some hc).2)

theorem outputs_none (h : ∀ other ∈ items, ¬IsOutput other id) : outputs items id = none := by
  refine lastIndexLoop_none _ items 0 (fun item hi => ?_)
  exact decide_eq_false (fun hc => h item hi (outputId_some hc))

variable {response : Option Uuid}

theorem attachment_unanswered (rest : List ItemMeta) (j : ℕ) (h : Unanswered response items) :
    attachment response (items++rest) j = attachment response rest (j+items.length) := by
  induction items generalizing j with
  | nil => rfl
  | cons first items ih =>
    have hrest := ih (j+1) (fun next hn => h next (mem_cons_of_mem _ hn))
    rw [cons_append, attachment, length_cons,
      show j+(items.length+1) = j+1+items.length by omega]
    by_cases hr : first.responseUuid = response
    · rw [if_neg (not_not.mpr hr), h first mem_cons_self hr]
      exact hrest
    · rw [if_pos hr]
      exact hrest

theorem attachment_answered (rest : List ItemMeta) (j : ℕ) (h : ¬Unanswered response items) :
    attachment response (items++rest) j = attachment response items j := by
  induction items generalizing j with
  | nil => exact absurd (fun next hn => absurd hn not_mem_nil) h
  | cons first items ih =>
    have hrest : (first.responseUuid = response → first.key.kind = .reasoning) →
        attachment response (items++rest) (j+1) = attachment response items (j+1) := by
      intro hfirst
      refine ih (j+1) (fun hall => h (fun next hn => ?_))
      rcases mem_cons.mp hn with rfl | hn
      · exact hfirst
      · exact hall next hn
    rw [cons_append, attachment, attachment]
    by_cases hr : first.responseUuid = response
    · rw [if_neg (not_not.mpr hr), if_neg (not_not.mpr hr)]
      cases hk : first.key.kind with
      | reasoning => exact hrest (fun _ => hk)
      | user | assistant | toolCall | toolOutput => rfl
    · rw [if_pos hr, if_pos hr]
      exact hrest (fun hr' => absurd hr' hr)

theorem attachment_one {j k : ℕ} (h : attachment response [item] j = some k) :
    k = j ∧ item.responseUuid = response ∧
      (item.key.kind = .assistant ∨ item.key.kind = .toolCall) := by
  rw [attachment] at h
  split_ifs at h with hr
  · cases h
  · cases hk : item.key.kind <;> rw [hk] at h <;> cases h
    · exact ⟨rfl,not_not.mp hr,Or.inl rfl⟩
    · exact ⟨rfl,not_not.mp hr,Or.inr rfl⟩

section Arrive
variable (f : Frame) (item : ItemMeta) (ha : Arrives f item)
include ha

variable {item}

theorem arrives_response (hk : item.key.kind = .assistant ∨ item.key.kind = .toolCall) :
    item.responseUuid = some f.currentResponse := by
  cases ha with
  | user h => rcases hk with hk | hk <;> rw [h] at hk <;> cases hk
  | reply hr _ => exact hr
  | call hr _ _ _ => exact hr
  | output hr _ _ _ _ => exact hr

theorem arrives_call (id : Uuid) (h : callId item = some id) :
    ∀ other ∈ f.items, ¬IsCall other id := by
  obtain ⟨-,hc⟩ := callId_some h
  cases ha with
  | user hk => exact absurd (hk.symm.trans hc.1) (by decide)
  | reply _ hk => rcases hk with hk | hk <;> rw [hc.1] at hk <;> cases hk
  | call _ id' hk hnew =>
    obtain rfl : id' = id := hk.2.symm.trans hc.2
    exact hnew
  | output _ id' hk _ _ => exact absurd (hk.1.symm.trans hc.1) (by decide)

theorem arrives_output (id : Uuid) (h : outputId item = some id) :
    ∀ other ∈ f.items, ¬IsOutput other id := by
  have ho := outputId_some h
  cases ha with
  | user hk => exact absurd (hk.symm.trans ho.1) (by decide)
  | reply _ hk => rcases hk with hk | hk <;> rw [ho.1] at hk <;> cases hk
  | call _ id' hk _ => exact absurd (hk.1.symm.trans ho.1) (by decide)
  | output _ id' hk _ hopen =>
    obtain rfl : id' = id := Option.some.inj (hk.2.symm.trans ho.2)
    exact hopen

/-- A call of the conversation keeps its output, or it was open and gets the arriving one. -/
theorem matchedOutput_arrive {i : ℕ} {call : ItemMeta} (hi : f.items[i]? = some call) :
    matchedOutput (f.items++[item]) i call = matchedOutput f.items i call ∨
    OpenCall f i ∧ matchedOutput (f.items++[item]) i call = some f.items.length ∧
      matchedOutput f.items i call = none := by
  unfold matchedOutput
  cases hc : callId call with
  | none => exact Or.inl rfl
  | some id =>
    have hcalls : calls (f.items++[item]) id = calls f.items id := by
      rw [calls_concat, if_neg]
      intro hid
      exact arrives_call f ha id hid call (List.mem_of_getElem? hi) (callId_some hc).2
    simp only [hcalls]
    by_cases hid : outputId item = some id
    · have hopen := arrives_output f ha id hid
      rw [outputs_concat, if_pos hid, outputs_none hopen]
      by_cases hlast : calls f.items id = some i
      · right
        rw [if_pos hlast, if_pos hlast]
        refine ⟨⟨call,id,hi,hc,hlast,hopen⟩,?_,rfl⟩
        exact Option.filter_some_pos (decide_eq_true (List.getElem?_eq_some_iff.mp hi).1)
      · left
        rw [if_neg hlast, if_neg hlast]
    · left
      rw [outputs_concat, if_neg hid]

/-- The spans of the conversation stay as they are, but for those of open items, which may
reach to the arriving one. -/
theorem spanEnd_arrive (i : ℕ) (hi : i < f.items.length) :
    spanEnd (f.items++[item]) i = spanEnd f.items i ∨
    Open f i ∧ spanEnd (f.items++[item]) i = f.items.length ∧ spanEnd f.items i = i := by
  have hitem := List.getElem?_eq_getElem hi
  unfold spanEnd
  rw [List.getElem?_append_left hi, hitem]
  dsimp only
  cases hk : f.items[i].key.kind with
  | toolCall =>
    rcases matchedOutput_arrive f ha hitem with h | ⟨ho,h,hnone⟩
    · exact Or.inl (by rw [h])
    · exact Or.inr ⟨Or.inr ho,by rw [h]; rfl,by rw [hnone]; rfl⟩
  | reasoning =>
    dsimp only
    rw [drop_append_of_le_length hi]
    by_cases hall : Unanswered f.items[i].responseUuid (f.items.drop (i+1))
    swap
    · exact Or.inl (by rw [attachment_answered _ _ hall])
    have h := attachment_unanswered [item] (i+1) hall
    have hnone := attachment_unanswered [] (i+1) hall
    rw [append_nil, attachment] at hnone
    cases hone : attachment f.items[i].responseUuid [item] (i+1+(f.items.drop (i+1)).length) with
    | none => exact Or.inl (by rw [h, hone, hnone])
    | some k =>
      obtain ⟨hk',hr,hreply⟩ := attachment_one hone
      right
      refine ⟨Or.inl ⟨f.items[i],hitem,hk,?_,hall⟩,?_,by rw [hnone]; rfl⟩
      · rw [← hr]
        exact arrives_response f ha hreply
      · rw [h, hone, hk', length_drop, Option.getD_some]
        omega
  | user | assistant | toolOutput => exact Or.inl rfl

theorem incomplete_arrive {i : ℕ} (hi : i < f.items.length) (ho : ¬Open f i) :
    incomplete (f.items++[item]) i = incomplete f.items i := by
  have hitem := List.getElem?_eq_getElem hi
  have hcall : ∀ id, callId f.items[i] = some id →
      calls (f.items++[item]) id = calls f.items id := by
    intro id hid
    rw [calls_concat, if_neg]
    intro hc
    exact arrives_call f ha id hc _ (getElem_mem hi) (callId_some hid).2
  have hmatch : matchedOutput (f.items++[item]) i f.items[i] = matchedOutput f.items i f.items[i] := by
    rcases matchedOutput_arrive f ha hitem with h | ⟨hopen,-⟩
    · exact h
    · exact absurd (Or.inr hopen) ho
  unfold incomplete
  rw [List.getElem?_append_left hi, hitem]
  dsimp only
  congr 1
  · congr 1
    rw [hmatch]
    cases hc : callId f.items[i] with
    | none => rfl
    | some id =>
      dsimp only
      rw [hcall id hc]
  · cases hout : outputId f.items[i] with
    | none => rfl
    | some id =>
      have houtputs : outputs (f.items++[item]) id = outputs f.items id := by
        rw [outputs_concat, if_neg]
        intro hx
        exact arrives_output f ha id hx _ (getElem_mem hi) (outputId_some hout)
      dsimp only
      rw [houtputs, calls_concat]
      split_ifs with hid
      · -- a call that arrives behind an output leaves it without a call before it
        rw [calls_none (arrives_call f ha id hid)]
        simp [Nat.le_of_lt hi]
      · rfl

omit ha in
theorem open_arrive {o : ℕ} (ho : o < f.items.length) (h : Open (arrive f item) o) : Open f o := by
  have hget : (arrive f item).items[o]? = f.items[o]? := List.getElem?_append_left ho
  rcases h with ⟨first,hfirst,hk,hr,hall⟩ | ⟨call,id,hcall,hid,hlast,hall⟩
  · refine Or.inl ⟨first,hget ▸ hfirst,hk,hr,fun next hn => hall next ?_⟩
    rw [arrive, drop_append_of_le_length ho]
    exact mem_append_left _ hn
  refine Or.inr ⟨call,id,hget ▸ hcall,hid,?_,fun other hin => hall other ?_⟩
  · rw [arrive, calls_concat] at hlast
    split_ifs at hlast with hx
    · cases hlast
      omega
    · exact hlast
  · exact mem_append_left _ hin

end Arrive

end Maple.Compaction.Arrivals
