import Maple.Compaction.Rounds

/-!
# Compaction makes progress

Whatever part of a plan is completed, the next checkpoint is accepted and covers
strictly more. Each round of a forced compaction covers at least one item, so it
ends in an empty plan within as many rounds as there are items.
-/

set_option autoImplicit false

namespace Maple.Compaction.Progress
open Items Groups Coverage Units Window Archive Projection Plan Growth Completion Steps Rounds List

def firstWork {V : Type} (p : ContextPlan V) : ContextPlan V := ⟨p.summaryWork.take 1⟩

structure Sound (f : Frame) (next : CheckpointPayload) (covered : List ContextItemKey) : Prop where
  current : f.currentUser ∉ covered
  items : ∀ (i : ℕ) (item : ItemMeta), f.items[i]? = some item → item.key ∈ covered →
    item.settled = true ∧ ¬(item.protectedInput = true ∧ item.responseUuid = some f.currentResponse)
  groups : ∀ g ∈ atomicGroups f,
    (∀ i key, g.Contains i → keyAt f i = some key → key ∉ covered) ∨
    (g.complete = true ∧ ∀ i key, g.Contains i → keyAt f i = some key → key ∈ covered)
  start : ∀ key, next.activeStart = some key → ∃ part, next.history = some part ∧ key ∈ part.covered

variable {f : Frame} {c : CheckpointPayload} {current : ℕ}

theorem sound_accepted (ha : Accepted f (some c) current) : Sound f c (coveredKeys (some c)) := by
  refine ⟨current_uncovered ha,?_,?_,?_⟩
  · intro i item hi hk
    obtain ⟨j,other,hpos,hother,-,hr⟩ := covered_item ha hk
    rw [position_getElem ha.keys hi] at hpos
    cases hpos
    rw [hi] at hother
    cases hother
    simp only [isRequired, Bool.or_eq_false_iff, Bool.and_eq_false_iff, Bool.not_eq_false',
      decide_eq_false_iff_not] at hr
    refine ⟨hr.1.2,fun hin => ?_⟩
    rcases hr.2 with hr | hr
    · rw [hin.1] at hr
      cases hr
    · exact hr hin.2
  · intro g hg
    exact (groupWhole_keys f _ g).mp (ha.groups g hg)
  · intro key hk
    have hmem := (ha.payload c rfl).start key hk
    cases hh : c.history with
    | none => simp [hh, sectionKeys] at hmem
    | some part => exact ⟨part,rfl,by simpa [hh, sectionKeys] using hmem⟩

/-- The checkpoint `next` is accepted, covers strictly more than `c` and keeps its readiness. -/
structure Extends (f : Frame) (c : CheckpointPayload) (current : ℕ) (next : CheckpointPayload) :
    Prop where
  accepted : Accepted f (some next) current
  kept : ∀ key ∈ coveredKeys (some c), key ∈ coveredKeys (some next)
  grown : ∃ key ∈ coveredKeys (some next), key ∉ coveredKeys (some c)
  ready : InsertionReady f (some c) → InsertionReady f (some next)

theorem ready_of_active (f : Frame) (next : CheckpointPayload)
    (h : ∀ part, next.active = some part → part.anchor = some f.currentUser) :
    InsertionReady f (some next) := by
  intro part anchor a current after i hp
  obtain ⟨hactive,hne⟩ := (previousActive_some f (some next) part).mp hp
  exact absurd (h part hactive) hne

theorem extends_trans {next last : CheckpointPayload} (h : Extends f c current next)
    (h' : Extends f next current last) : Extends f c current last := by
  refine ⟨h'.accepted,fun key hk => h'.kept key (h.kept key hk),?_,fun hr => h'.ready (h.ready hr)⟩
  obtain ⟨key,hk,hn⟩ := h.grown
  exact ⟨key,h'.kept key hk,hn⟩

theorem fresh_grows {old new all : List ContextItemKey} {side : ℕ → Prop}
    (hf : Fresh f old side new) (hne : new ≠ []) (hall : ∀ key, key ∈ all ↔ key ∈ old ∨ key ∈ new) :
    ∃ key ∈ all, key ∉ old := by
  obtain ⟨key,hkey⟩ := exists_mem_of_ne_nil _ hne
  exact ⟨key,(hall key).mpr (Or.inr hkey),hf.uncovered key hkey⟩

variable {V : Type} {w : SummaryWork V}

theorem history_extends (ha : Accepted f (some c) current) {new : List ContextItemKey}
    (h : HistoryStep f c current w new) (hk : Keeps f c current w new) {summary : String}
    (hb : isBlank summary = false) : Extends f c current (completeWork c w summary) := by
  obtain ⟨hacc,hcov⟩ := complete_history c ha w new hb h
  refine ⟨hacc,fun key hkey => (hcov key).mpr (Or.inl hkey),
    fresh_grows h.fresh h.some_new hcov,fun hr => ?_⟩
  by_cases hcl : Closes w
  · apply ready_of_active
    intro part hp
    have hcl' : (w.foldsPreviousActive || w.dropsPreviousActive) = true := hcl
    simp [completeWork, h.kind, hcl'] at hp
  have hactive : (completeWork c w summary).active = c.active := by
    have hcl' : (w.foldsPreviousActive || w.dropsPreviousActive) = false := by
      simpa [Closes] using hcl
    simp [completeWork, h.kind, hcl']
  intro part anchor a cur after i hp hanchor hpos hcur hlt hafter hi
  have hp' : previousActive f (some c) = some part := by
    rw [previousActive_some] at hp ⊢
    simpa [hactive] using hp
  obtain ⟨hfree,hkey⟩ := hr part anchor a cur after i hp' hanchor hpos hcur hlt hafter hi
  rw [ha.position] at hcur
  cases hcur
  refine ⟨fun hin => ?_,hkey⟩
  rcases (hcov after).mp hin with hin | hin
  · exact hfree hin
  · exact hk hr hcl part anchor after a hp' hanchor hpos hlt hafter hin

theorem active_extends (ha : Accepted f (some c) current)
    {new : List ContextItemKey} (h : ActiveStep f c current w new) {summary : String}
    (hb : isBlank summary = false) : Extends f c current (completeWork c w summary) := by
  obtain ⟨hacc,hcov⟩ := complete_active c ha w new hb h
  refine ⟨hacc,fun key hkey => (hcov key).mpr (Or.inl hkey),
    fresh_grows h.fresh h.some_new hcov,fun _ => ?_⟩
  apply ready_of_active
  intro part hp
  simp only [completeWork, h.kind, Option.some.injEq] at hp
  rw [← hp]
  exact h.anchor

variable {works : List (SummaryWork V)}

theorem shape_part {part : List (SummaryWork V)} (h : PlanShape f c current works)
    (hp : part <+: works) : PlanShape f c current part := by
  cases part with
  | nil => exact .none
  | cons w part =>
    obtain ⟨rest,hp⟩ := hp
    subst hp
    cases part with
    | nil =>
      cases h with
      | history w new h hk => exact .history w new h hk
      | active w new h => exact .active w new h
      | both w w' new new' h hk h' => exact .history w new h hk
    | cons w' part =>
      generalize hall : w::w'::part++rest = all at h
      cases h with
      | none | history | active => simp at hall
      | both v v' new new' h hk h' =>
        obtain ⟨rfl,rfl,hnil⟩ : w = v ∧ w' = v' ∧ part++rest = [] := by simpa using hall
        rw [(append_eq_nil_iff.mp hnil).1]
        exact .both w w' new new' h hk h'

variable {summaries : List String}

theorem completeLoop_one (c : CheckpointPayload)
    (hl : summaries.length = [w].length) (hb : ∀ text ∈ summaries, isBlank text = false) :
    ∃ summary, isBlank summary = false ∧
      completeLoop ([w].zip summaries) c = .ok (completeWork c w summary) := by
  obtain ⟨summary,rfl⟩ := length_eq_one_iff.mp hl
  have hsummary := hb summary mem_cons_self
  exact ⟨summary,hsummary,by simp [completeLoop, hsummary]⟩

/-- A plan of any form completes, and covers more unless it is empty. -/
theorem shape_complete (ha : Accepted f (some c) current) (h : PlanShape f c current works)
    (hl : summaries.length = works.length) (hb : ∀ text ∈ summaries, isBlank text = false) :
    ∃ next, completeLoop (works.zip summaries) c = .ok next ∧
      ((works = [] ∧ next = c) ∨ Extends f c current next) := by
  cases h with
  | none => exact ⟨c,rfl,Or.inl ⟨rfl,rfl⟩⟩
  | history w new h hk =>
    obtain ⟨summary,hs,hloop⟩ := completeLoop_one c hl hb
    exact ⟨_,hloop,Or.inr (history_extends ha h hk hs)⟩
  | active w new h =>
    obtain ⟨summary,hs,hloop⟩ := completeLoop_one c hl hb
    exact ⟨_,hloop,Or.inr (active_extends ha h hs)⟩
  | both w w' new new' h hk h' =>
    obtain ⟨first,second,rfl⟩ := length_eq_two.mp hl
    have h1 := hb first (by simp)
    have h2 := hb second (by simp)
    have hfirst := history_extends ha h hk h1
    refine ⟨completeWork (completeWork c w first) w' second,by simp [completeLoop, h1, h2],Or.inr ?_⟩
    exact extends_trans hfirst (active_extends hfirst.accepted (h' first h1) h2)

variable {s : ContextSnapshot V} {checkpoint : Option CheckpointPayload} {lib : Library V}

/-- Completing a plan, or its first work only. -/
theorem complete_plan {active : ActiveContext} {policy : CompactionPolicy}
    {force : Bool} (ha : Accepted s.frame checkpoint current)
    (har : Archives s.frame checkpoint current active.archived) {p part : ContextPlan V}
    (h : plan lib s checkpoint active policy force = .ok p) (hpart : part = p ∨ part = firstWork p)
    (summaries : List String) (hl : summaries.length = part.summaryWork.length)
    (hb : ∀ text ∈ summaries, isBlank text = false) :
    ∃ next, completePlan checkpoint part summaries = .ok next ∧
      ((p.summaryWork = [] ∧ next = checkpoint.getD CheckpointPayload.default) ∨
        Extends s.frame (checkpoint.getD CheckpointPayload.default) current next) := by
  have hshape := plan_shape lib s active policy force current ha har h
  have hacc := accepted_getD ha
  have hshape' : PlanShape s.frame (checkpoint.getD CheckpointPayload.default) current
      part.summaryWork ∧ (part.summaryWork = [] → p.summaryWork = []) := by
    rcases hpart with rfl | rfl
    · exact ⟨hshape,id⟩
    · exact ⟨shape_part hshape ⟨_,take_append_drop 1 _⟩,by simp [firstWork]⟩
  obtain ⟨next,hloop,hor⟩ := shape_complete hacc hshape'.1 hl hb
  refine ⟨next,?_,?_⟩
  · rw [completePlan, if_neg (not_not.mpr hl)]
    exact hloop
  · rcases hor with ⟨hnil,hnext⟩ | hext
    · exact Or.inl ⟨hshape'.2 hnil,hnext⟩
    · exact Or.inr hext

/-- What one round is given: a window, a policy and the summary a helper writes. -/
structure Round where
  active : ActiveContext
  policy : CompactionPolicy
  summary : String

/-- Forced planning, completing the first work of each plan, comes to an empty plan after
`n` rounds. -/
inductive Reaches {V : Type} (lib : Library V) (s : ContextSnapshot V)
    (choose : ℕ → Option CheckpointPayload → Round) : ℕ → Option CheckpointPayload → ℕ → Prop
  | done (round : ℕ) (checkpoint : Option CheckpointPayload)
      (h : plan lib s checkpoint (choose round checkpoint).active (choose round checkpoint).policy
        true = .ok ⟨[]⟩) : Reaches lib s choose round checkpoint 0
  | more (round n : ℕ) (checkpoint : Option CheckpointPayload) (p : ContextPlan V)
      (next : CheckpointPayload)
      (h : plan lib s checkpoint (choose round checkpoint).active (choose round checkpoint).policy
        true = .ok p) (hne : p.summaryWork ≠ [])
      (hc : completePlan checkpoint (firstWork p) [(choose round checkpoint).summary] = .ok next)
      (rest : Reaches lib s choose (round+1) (some next) n) :
      Reaches lib s choose round checkpoint (n+1)

def uncovered (f : Frame) (checkpoint : Option CheckpointPayload) : ℕ :=
  (f.keys.filter (fun key => key ∉ coveredKeys checkpoint)).length

theorem uncovered_lt {next : CheckpointPayload} (h : Extends f c current next) :
    uncovered f (some next) < uncovered f (some c) := by
  have hsub : f.keys.filter (fun key => key ∉ coveredKeys (some next)) =
      (f.keys.filter (fun key => key ∉ coveredKeys (some c))).filter
        (fun key => key ∉ coveredKeys (some next)) := by
    rw [filter_filter]
    apply filter_congr
    intro key _
    by_cases hk : key ∈ coveredKeys (some c)
    · simp [hk, h.kept key hk]
    · simp [hk]
  unfold uncovered
  rw [hsub, length_filter_lt_length_iff_exists]
  obtain ⟨key,hin,hout⟩ := h.grown
  obtain ⟨i,item,-,hitem,rfl,-⟩ := covered_item h.accepted hin
  refine ⟨item.key,mem_filter.mpr ⟨?_,by simpa using hout⟩,by simpa using hin⟩
  exact mem_map.mpr ⟨item,List.mem_of_getElem? hitem,rfl⟩

/-- One forced round: the plan is empty, or its first work completes and covers more. -/
theorem round_step
    {r : Round} (ha : Accepted s.frame checkpoint current) (hr : InsertionReady s.frame checkpoint)
    (hs : Selected lib s.frame checkpoint r.active) (hb : isBlank r.summary = false) :
    plan lib s checkpoint r.active r.policy true = .ok ⟨[]⟩ ∨
    ∃ p next, plan lib s checkpoint r.active r.policy true = .ok p ∧ p.summaryWork ≠ [] ∧
      completePlan checkpoint (firstWork p) [r.summary] = .ok next ∧
      Extends s.frame (checkpoint.getD CheckpointPayload.default) current next := by
  have har := selected_archives ha hs
  obtain ⟨p,hp⟩ := plan_total lib s r.policy true ha har hr
  by_cases hne : p.summaryWork = []
  · left
    rw [hp]
    exact congrArg _ (congrArg ContextPlan.mk hne)
  right
  obtain ⟨next,hnext,hor⟩ := complete_plan ha har hp (Or.inr rfl) [r.summary] (by
      obtain ⟨w,works,hw⟩ := exists_cons_of_ne_nil hne
      simp [firstWork, hw]) (by simpa using hb)
  refine ⟨p,next,hp,hne,hnext,?_⟩
  rcases hor with ⟨hnil,-⟩ | hext
  · exact absurd hnil hne
  · exact hext

theorem rounds_end (choose : ℕ → Option CheckpointPayload → Round)
    (hch : ∀ round checkpoint, (∃ covered, validatedCoverage s.frame checkpoint = .ok covered) →
      Selected lib s.frame checkpoint (choose round checkpoint).active ∧
      isBlank (choose round checkpoint).summary = false)
    {bound : ℕ} (round : ℕ) (checkpoint : Option CheckpointPayload)
    (ha : Accepted s.frame checkpoint current) (hr : InsertionReady s.frame checkpoint)
    (hb : uncovered s.frame checkpoint ≤ bound) :
    ∃ n, n ≤ bound ∧ Reaches lib s choose round checkpoint n := by
  induction bound using Nat.strong_induction_on generalizing round checkpoint with
  | _ bound ih =>
    obtain ⟨hsel,hblank⟩ := hch round checkpoint
      ⟨_,(validatedCoverage_ok_iff _ _ _).mpr ⟨rfl,current,ha⟩⟩
    rcases round_step ha hr hsel hblank with
      hdone | ⟨p,next,hp,hne,hnext,hext⟩
    · exact ⟨0,Nat.zero_le _,.done round checkpoint hdone⟩
    have hlt := uncovered_lt hext
    have heq : uncovered s.frame (some (checkpoint.getD CheckpointPayload.default)) =
        uncovered s.frame checkpoint := by
      rw [uncovered, coveredKeys_getD, uncovered]
    obtain ⟨n,hn,hreach⟩ := ih (uncovered s.frame (some next)) (by omega) (round+1) (some next)
      hext.accepted (hext.ready ((insertionReady_getD s.frame checkpoint).mpr hr)) (Nat.le_refl _)
    exact ⟨n+1,by omega,.more round n checkpoint p next hp hne hnext hreach⟩

/-- Planning over an accepted checkpoint yields accepted checkpoints that cover more, and comes
to an end. Only the memory of an older section without a place can stop it. -/
theorem plan_extends_checkpoint {V : Type} (lib : Library V) (s : ContextSnapshot V)
    (checkpoint : Option CheckpointPayload) (covered : List ContextItemKey)
    (hv : validatedCoverage s.frame checkpoint = .ok covered) (active : ActiveContext)
    (hs : Selected lib s.frame checkpoint active) :
    (InsertionReady s.frame checkpoint → ∀ (policy : CompactionPolicy) (force : Bool),
      ∃ p, plan lib s checkpoint active policy force = .ok p) ∧
    (∀ (policy : CompactionPolicy) (force : Bool) (p : ContextPlan V),
      plan lib s checkpoint active policy force = .ok p →
      ∀ part : ContextPlan V, part = p ∨ part = firstWork p → ∀ summaries : List String,
      summaries.length = part.summaryWork.length → (∀ text ∈ summaries, isBlank text = false) →
      ∃ next out, completePlan checkpoint part summaries = .ok next ∧
        validatedCoverage s.frame (some next) = .ok out ∧ Sound s.frame next out ∧
        (∀ key ∈ covered, key ∈ out) ∧
        (p.summaryWork ≠ [] → ∃ key ∈ out, key ∉ covered) ∧
        (InsertionReady s.frame checkpoint → InsertionReady s.frame (some next))) ∧
    (InsertionReady s.frame checkpoint → ∀ choose : ℕ → Option CheckpointPayload → Round,
      (∀ round checkpoint, (∃ covered, validatedCoverage s.frame checkpoint = .ok covered) →
        Selected lib s.frame checkpoint (choose round checkpoint).active ∧
          isBlank (choose round checkpoint).summary = false) →
      ∃ n, n ≤ s.items.length ∧ Reaches lib s choose 0 checkpoint n) := by
  obtain ⟨rfl,current,ha⟩ := (validatedCoverage_ok_iff s.frame checkpoint covered).mp hv
  have har := selected_archives ha hs
  refine ⟨?_,?_,?_⟩
  · intro hr policy force
    exact plan_total lib s policy force ha har hr
  · intro policy force p hp part hpart summaries hl hb
    obtain ⟨next,hnext,hor⟩ := complete_plan ha har hp hpart summaries hl hb
    rcases hor with ⟨hnil,rfl⟩ | hext
    · have hacc := accepted_getD ha
      refine ⟨_,_,hnext,(validatedCoverage_ok_iff _ _ _).mpr ⟨rfl,current,hacc⟩,
        sound_accepted hacc,?_,fun hne => absurd hnil hne,(insertionReady_getD _ _).mpr⟩
      rw [coveredKeys_getD]
      exact fun key hk => hk
    · refine ⟨next,_,hnext,(validatedCoverage_ok_iff _ _ _).mpr ⟨rfl,current,hext.accepted⟩,
        sound_accepted hext.accepted,?_,fun _ => ?_,
        fun hr => hext.ready ((insertionReady_getD _ _).mpr hr)⟩
      · have := hext.kept
        rwa [coveredKeys_getD] at this
      · have := hext.grown
        rwa [coveredKeys_getD] at this
  · intro hr choose hch
    have hle : uncovered s.frame checkpoint ≤ s.items.length := by
      refine Nat.le_trans (List.length_filter_le _ _) ?_
      simp [Frame.keys, ContextSnapshot.frame]
    exact rounds_end choose hch 0 checkpoint ha hr hle

def plainItem (kind : ContextItemKind) (uuid response : Uuid) (isInput : Bool) :
    ContextItem String :=
  ⟨⟨⟨kind, uuid⟩, some response, true, none, isInput, false⟩, [], [], 100, true⟩

def plainLibrary : Library String := ⟨fun _ => 50, id, id, 50⟩

def plainPolicy : CompactionPolicy := ⟨1000, 800, 0, 10000⟩

/-- A question with a request-derived description, and the next question. -/
def describedSnapshot : ContextSnapshot String :=
  ⟨[], 0, [plainItem .user 1 10 false, plainItem .assistant 2 10 true, plainItem .user 3 11 false],
    ⟨.user, 3⟩, 11⟩

def describedCheckpoint : CheckpointPayload :=
  ⟨1, none, some ⟨"memory", [⟨.assistant, 2⟩], some ⟨.user, 1⟩⟩, none⟩

/-- The checkpoint is accepted, but the memory's place is covered and planning fails. -/
theorem plan_without_insertion_source :
    validatedCoverage describedSnapshot.frame (some describedCheckpoint) =
      .ok [⟨.assistant, 2⟩] ∧
    Selected plainLibrary describedSnapshot.frame (some describedCheckpoint)
      ActiveContext.default ∧
    plan plainLibrary describedSnapshot (some describedCheckpoint) ActiveContext.default plainPolicy
      true = .error (.checkpoint "active memory insertion source is absent") :=
  ⟨by rfl,.select describedSnapshot none _ rfl (by rfl),by rfl⟩

/-- The same conversation with an ordinary reply in place of the description. -/
def repliedSnapshot : ContextSnapshot String :=
  ⟨[], 0, [plainItem .user 1 10 false, plainItem .assistant 2 10 false, plainItem .user 3 11 false],
    ⟨.user, 3⟩, 11⟩

theorem replied_ready : InsertionReady repliedSnapshot.frame (some describedCheckpoint) := by
  intro part anchor a current after i hp hanchor hpos hcur hlt hafter hi
  cases (Option.some.inj hp : (⟨"memory",[⟨.assistant,2⟩],some ⟨.user,1⟩⟩ : CheckpointSection) =
    part)
  cases (Option.some.inj hafter : (⟨.user,1⟩ : ContextItemKey) = after)
  cases (Option.some.inj hi : 0 = i)
  exact ⟨by decide,⟨.assistant,2⟩,by decide,1,rfl,Nat.zero_le _⟩

theorem plan_extends_checkpoint_replied :
    validatedCoverage repliedSnapshot.frame (some describedCheckpoint) = .ok [⟨.assistant, 2⟩] ∧
    Selected plainLibrary repliedSnapshot.frame (some describedCheckpoint) ActiveContext.default ∧
    ∃ p, plan plainLibrary repliedSnapshot (some describedCheckpoint) ActiveContext.default
      plainPolicy true = .ok p :=
  have hv : validatedCoverage repliedSnapshot.frame (some describedCheckpoint) =
      .ok [⟨.assistant, 2⟩] := by rfl
  have hs : Selected plainLibrary repliedSnapshot.frame (some describedCheckpoint)
      ActiveContext.default := .select repliedSnapshot none _ rfl (by rfl)
  ⟨hv,hs,(plan_extends_checkpoint plainLibrary repliedSnapshot _ _ hv _ hs).1 replied_ready
    plainPolicy true⟩

end Maple.Compaction.Progress
