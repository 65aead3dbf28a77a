import Maple.Responses.Execution

/-!
# Invariants of the execution registry

The owner flag, the counter and the acceptance of tasks change together under the lock,
so an execution without owner and guards is sealed, and only then does its entry go.
-/

set_option autoImplicit false

namespace Maple.Responses.Execution

open Function

variable {Id User : Type}

def Phase.notifies : Phase → Prop
  | .ownerStored => True
  | .guardTaken => True
  | .notifying => True
  | _ => False

def ResponseExecution.gone (x : ResponseExecution Id User) : Prop :=
  x.ownerFinished = true ∧ x.activeTasks = 0

/-- What holds of an execution and the phases of the threads at work on it. -/
structure Kept (x : ResponseExecution Id User) (phases : ℕ → Option Phase) : Prop where
  counted : x.activeTasks = x.guards
  holder : ∀ t, x.lock = some t ↔ phases t = some .ownerStored ∨ phases t = some .guardTaken
  stored : ∀ t, phases t = some .ownerStored → x.ownerFinished = true
  closed : x.lock = none → x.gone → x.acceptingTasks = false
  sealing : ∀ t, phases t = some .sealing → x.ownerFinished = true
  removing : ∀ t, phases t = some .removing → x.gone
  waiting : ∀ t, phases t = some (.waiting false) → x.gone →
    ∃ u phase, phases u = some phase ∧ phase.notifies

def phasesAfter (phases : ℕ → Option Phase) (thread : ℕ) (phase : Option Phase) :
    ℕ → Option Phase :=
  Function.update (if phases thread = some .notifying
    then fun u => (phases u).map Phase.notify else phases) thread phase

theorem kept_new (responseId : Id) (userId : User) :
    Kept (newExecution responseId userId) (fun _ => none) :=
  ⟨rfl,by simp [newExecution],by simp,by simp [newExecution, ResponseExecution.gone],
    by simp,by simp,by simp⟩

variable {x x' : ResponseExecution Id User} {phases : ℕ → Option Phase} {thread : ℕ}

variable {phase : Option Phase}

theorem update_cases {t : ℕ} {p : Phase} (ht : Function.update phases thread phase t = some p) :
    t = thread ∧ phase = some p ∨ t ≠ thread ∧ phases t = some p := by
  by_cases htt : t = thread
  · rw [htt, update_self] at ht
    exact .inl ⟨htt,ht⟩
  · rw [update_of_ne htt] at ht
    exact .inr ⟨htt,ht⟩

/-- One thread moves on, and an execution that is gone stays so: the lock and the waiters remain
to be shown. -/
theorem kept_update (h : Kept x phases) (hcounted : x'.activeTasks = x'.guards)
    (howner : x.ownerFinished = true → x'.ownerFinished = true) (hgone : x.gone → x'.gone)
    (hstored : phase = some .ownerStored → x'.ownerFinished = true)
    (hsealing : phase = some .sealing → x'.ownerFinished = true)
    (hremoving : phase = some .removing → x'.gone)
    (hholder : ∀ t, x'.lock = some t ↔ Function.update phases thread phase t = some .ownerStored ∨
      Function.update phases thread phase t = some .guardTaken)
    (hclosed : x'.lock = none → x'.gone → x'.acceptingTasks = false)
    (hwaiting : ∀ t, Function.update phases thread phase t = some (.waiting false) → x'.gone →
      ∃ u q, Function.update phases thread phase u = some q ∧ q.notifies) :
    Kept x' (Function.update phases thread phase) where
  counted := hcounted
  holder := hholder
  closed := hclosed
  waiting := hwaiting
  stored t ht := by
    rcases update_cases ht with ⟨_,hnew⟩ | ⟨_,hbefore⟩
    · exact hstored hnew
    · exact howner (h.stored t hbefore)
  sealing t ht := by
    rcases update_cases ht with ⟨_,hnew⟩ | ⟨_,hbefore⟩
    · exact hsealing hnew
    · exact howner (h.sealing t hbefore)
  removing t ht := by
    rcases update_cases ht with ⟨_,hnew⟩ | ⟨_,hbefore⟩
    · exact hremoving hnew
    · exact hgone (h.removing t hbefore)

theorem not_holding {p : Option Phase} (h : ∀ q, p = some q → ¬q.notifies) :
    ¬(p = some .ownerStored ∨ p = some .guardTaken) := by
  rintro (heq | heq) <;> exact h _ heq trivial

/-- A thread that neither takes nor leaves the lock and whose notice is not awaited. -/
theorem kept_quiet (h : Kept x phases) (hactive : x'.activeTasks = x.activeTasks)
    (hguards : x'.guards = x.guards) (howner : x'.ownerFinished = x.ownerFinished)
    (hlock : x'.lock = x.lock) (haccepting : x.acceptingTasks = false → x'.acceptingTasks = false)
    (hold : ∀ p, phases thread = some p → ¬p.notifies) (hnew : ∀ p, phase = some p → ¬p.notifies)
    (hsealing : phase = some .sealing → x.ownerFinished = true)
    (hremoving : phase = some .removing → x.gone)
    (hwaiting : phase = some (.waiting false) → ¬x.gone) :
    Kept x' (Function.update phases thread phase) := by
  have hgone : x'.gone ↔ x.gone := by
    rw [ResponseExecution.gone, ResponseExecution.gone, hactive, howner]
  refine kept_update h (by rw [hactive, hguards, h.counted]) howner.trans hgone.mpr
    (fun hp => absurd trivial (hnew _ hp)) (fun hp => howner.trans (hsealing hp))
    (fun hp => hgone.mpr (hremoving hp)) (fun t => ?_)
    (fun hfree hx => haccepting (h.closed (hlock ▸ hfree) (hgone.mp hx))) (fun t ht hx => ?_)
  · rw [hlock, h.holder t]
    by_cases htt : t = thread
    · subst htt
      rw [update_self]
      exact iff_of_false (not_holding hold) (not_holding hnew)
    · rw [update_of_ne htt]
  · rcases update_cases ht with ⟨_,hp⟩ | ⟨_,hbefore⟩
    · exact absurd (hgone.mp hx) (hwaiting hp)
    obtain ⟨u,p,hu,hp⟩ := h.waiting t hbefore (hgone.mp hx)
    have hut : u ≠ thread := by
      rintro rfl
      exact hold p hu hp
    exact ⟨u,p,by rwa [update_of_ne hut],hp⟩

/-- A thread that takes the free lock and does not add to the tasks. -/
theorem kept_lock {phase : Phase} (h : Kept x phases) (hfree : x.lock = none)
    (hlock : x'.lock = some thread) (hcounted : x'.activeTasks = x'.guards)
    (howner : x.ownerFinished = true → x'.ownerFinished = true)
    (hactive : x'.activeTasks ≤ x.activeTasks) (hidle : phases thread = none)
    (hphase : phase = .ownerStored ∧ x'.ownerFinished = true ∨ phase = .guardTaken) :
    Kept x' (Function.update phases thread (some phase)) := by
  have hnotifies : phase.notifies := by
    rcases hphase with ⟨rfl,-⟩ | rfl
    · trivial
    · trivial
  have hgone : x.gone → x'.gone := fun hx => ⟨howner hx.1,by have := hx.2; omega⟩
  have hnone : ∀ t, ¬(phases t = some .ownerStored ∨ phases t = some .guardTaken) := by
    intro t ht
    rw [← h.holder t, hfree] at ht
    cases ht
  have hplain : ∀ p, some phase = some p → p.notifies := by
    intro p hp
    cases hp
    exact hnotifies
  refine kept_update h hcounted howner hgone (fun hp => ?_) (fun hp => (hplain _ hp).elim)
    (fun hp => (hplain _ hp).elim) (fun t => ?_) (fun hlocked => ?_)
    (fun _ _ _ => ⟨thread,phase,update_self ..,hnotifies⟩)
  · rcases hphase with ⟨-,hfinished⟩ | rfl
    · exact hfinished
    · cases hp
  · rw [hlock]
    by_cases htt : t = thread
    · subst htt
      rw [update_self]
      refine iff_of_true rfl ?_
      rcases hphase with ⟨rfl,-⟩ | rfl
      · exact .inl rfl
      · exact .inr rfl
    · rw [update_of_ne htt]
      exact iff_of_false (fun heq => htt (Option.some.inj heq).symm) (hnone t)
  · rw [hlock] at hlocked
    cases hlocked

/-- The holder of the lock leaves it, sealing an execution that is gone. -/
theorem kept_unlock (h : Kept x phases) (hactive : x'.activeTasks = x.activeTasks)
    (hguards : x'.guards = x.guards) (howner : x'.ownerFinished = x.ownerFinished)
    (hlock : x'.lock = none) (hseal : x.gone → x'.acceptingTasks = false)
    (hheld : x.lock = some thread) : Kept x' (Function.update phases thread (some .notifying)) := by
  have hgone : x'.gone ↔ x.gone := by
    rw [ResponseExecution.gone, ResponseExecution.gone, hactive, howner]
  have hother : ∀ t, t ≠ thread →
      ¬(phases t = some .ownerStored ∨ phases t = some .guardTaken) := by
    intro t htt ht
    rw [← h.holder t, hheld] at ht
    exact htt (Option.some.inj ht).symm
  refine kept_update h (by rw [hactive, hguards, h.counted]) howner.trans hgone.mpr
    (fun hp => (by cases hp)) (fun hp => (by cases hp)) (fun hp => (by cases hp)) (fun t => ?_)
    (fun _ hx => hseal (hgone.mp hx))
    (fun _ _ _ => ⟨thread,.notifying,update_self ..,trivial⟩)
  rw [hlock]
  refine iff_of_false (fun heq => nomatch heq) ?_
  by_cases htt : t = thread
  · rw [htt, update_self]
    simp
  · rw [update_of_ne htt]
    exact hother t htt

def Phase.enabled : Phase → Bool
  | .counting _ => true
  | .loading _ => true
  | .waiting _ => true
  | _ => false

theorem notify_eq {phase : Phase} (p : Option Phase) (h : phase.enabled = false) :
    p.map Phase.notify = some phase ↔ p = some phase := by
  cases p with
  | none => simp
  | some q => cases phase <;> cases q <;> simp_all [Phase.notify, Phase.enabled]

/-- After a notice every enabled waiter has it. -/
theorem kept_notify (h : Kept x phases) (hold : phases thread = some .notifying) :
    Kept x (Function.update (fun u => (phases u).map Phase.notify) thread (some .checking)) := by
  have hsame : ∀ t phase, phase.enabled = false → phase ≠ .notifying → phase ≠ .checking →
      (Function.update (fun u => (phases u).map Phase.notify) thread (some Phase.checking) t =
        some phase ↔ phases t = some phase) := by
    intro t phase hplain hnotifying hchecking
    by_cases htt : t = thread
    · subst htt
      rw [update_self, hold]
      simp [hnotifying.symm, hchecking.symm]
    · rw [update_of_ne htt]
      exact notify_eq (phases t) hplain
  refine ⟨h.counted,fun t => ?_,fun t ht => ?_,h.closed,fun t ht => ?_,fun t ht => ?_,
    fun t ht => ?_⟩
  · rw [hsame t .ownerStored rfl (by simp) (by simp), hsame t .guardTaken rfl (by simp) (by simp)]
    exact h.holder t
  · exact h.stored t ((hsame t .ownerStored rfl (by simp) (by simp)).mp ht)
  · exact h.sealing t ((hsame t .sealing rfl (by simp) (by simp)).mp ht)
  · exact h.removing t ((hsame t .removing rfl (by simp) (by simp)).mp ht)
  · by_cases htt : t = thread
    · rw [htt, update_self] at ht
      cases ht
    · rw [update_of_ne htt] at ht
      obtain ⟨q,-,hq⟩ := Option.map_eq_some_iff.mp ht
      cases q <;> simp [Phase.notify] at hq

theorem kept_begin (h : Kept x phases) (hfree : x.lock = none)
    (haccepting : x.acceptingTasks = true) (hidle : phases thread = none) :
    Kept { x with activeTasks := x.activeTasks+1, guards := x.guards+1 }
      (Function.update phases thread none) := by
  have hgone : ¬x.gone := by
    intro hx
    rw [h.closed hfree hx] at haccepting
    cases haccepting
  rw [← hidle, update_eq_self]
  refine ⟨by simp [h.counted],h.holder,h.stored,fun _ hx => ?_,h.sealing,fun t ht => ?_,
    fun t _ hx => ?_⟩
  · exact absurd hx.2 (by simp)
  · exact absurd (h.removing t ht) hgone
  · exact absurd hx.2 (by simp)

variable {command : Command}

/-- A thread that is at rest begins a command. -/
theorem kept_start (h : Kept x phases) (hp : phases thread = none)
    (hmove : move thread x command none = some (phase, x')) :
    Kept x' (phasesAfter phases thread phase) := by
  unfold phasesAfter
  rw [hp]
  rw [if_neg (by simp)]
  have hold : ∀ p, phases thread = some p → ¬p.notifies := by simp [hp]
  cases command with
  | beginTask =>
    simp only [move] at hmove
    split_ifs at hmove with hlock haccepting
    · cases hmove
      exact kept_begin h (by simpa using hlock) haccepting hp
    · cases hmove
      exact kept_quiet h rfl rfl rfl rfl id hold (by simp) (by simp) (by simp) (by simp)
  | dropRegistration =>
    simp only [move] at hmove
    split_ifs at hmove with hlock
    cases hmove
    exact kept_lock h (by simp_all) rfl h.counted (fun _ => rfl) (Nat.le_refl _) hp (.inl ⟨rfl,rfl⟩)
  | dropGuard =>
    simp only [move] at hmove
    split_ifs at hmove with hlock
    cases hmove
    exact kept_lock h (by simp_all) rfl (by simp [h.counted]) id (by simp) hp (.inr rfl)
  | cancel =>
    simp only [move] at hmove
    split_ifs at hmove with hlock
    cases hmove
    exact kept_quiet h rfl rfl rfl rfl (fun _ => rfl) hold (by simp [Phase.notifies]) (by simp)
      (by simp) (by simp)
  | waitForQuiescence =>
    cases hmove
    exact kept_quiet h rfl rfl rfl rfl id hold (by simp [Phase.notifies]) (by simp) (by simp)
      (by simp)
  | advance => cases hmove

theorem kept_advance {p : Phase} (h : Kept x phases) (hp : phases thread = some p)
    (hmove : move thread x .advance (some p) = some (phase, x')) :
    Kept x' (phasesAfter phases thread phase) := by
  unfold phasesAfter
  rw [hp]
  cases p with
  | ownerStored =>
    cases hmove
    rw [if_neg (by simp)]
    refine kept_unlock h rfl rfl rfl rfl (fun hx => ?_) ((h.holder thread).mpr (.inl hp))
    simp [hx.2]
  | guardTaken =>
    cases hmove
    rw [if_neg (by simp)]
    refine kept_unlock h rfl rfl rfl rfl (fun hx => ?_) ((h.holder thread).mpr (.inr hp))
    simp [hx.1, hx.2]
  | notifying =>
    cases hmove
    rw [if_pos rfl]
    exact kept_notify h hp
  | checking =>
    cases hmove
    rw [if_neg (by simp)]
    refine kept_quiet h rfl rfl rfl rfl id (by simp [hp, Phase.notifies]) ?_ ?_ ?_ ?_
    · split_ifs <;> simp [Phase.notifies]
    · split_ifs with howner <;> simp [howner]
    · split_ifs <;> simp
    · split_ifs <;> simp
  | sealing =>
    simp only [move] at hmove
    rw [if_neg (by simp)]
    have howner := h.sealing thread hp
    split_ifs at hmove with hlock hactive
    · cases hmove
      exact kept_quiet h rfl rfl rfl rfl id (by simp [hp, Phase.notifies]) (by simp) (by simp)
        (by simp) (by simp)
    · cases hmove
      exact kept_quiet h rfl rfl rfl rfl (fun _ => rfl) (by simp [hp, Phase.notifies])
        (by simp [Phase.notifies]) (by simp) (fun _ => ⟨howner,by simpa using hactive⟩) (by simp)
  | removing | cancelling | enabling =>
    cases hmove
    rw [if_neg (by simp)]
    exact kept_quiet h rfl rfl rfl rfl id (by simp [hp, Phase.notifies])
      (by simp [Phase.notifies]) (by simp) (by simp) (by simp)
  | counting notified =>
    simp only [move] at hmove
    rw [if_neg (by simp)]
    split_ifs at hmove with hlock hactive
    · cases hmove
      exact kept_quiet h rfl rfl rfl rfl id (by simp [hp, Phase.notifies])
        (by simp [Phase.notifies]) (by simp) (by simp) (by simp)
    · cases hmove
      exact kept_quiet h rfl rfl rfl rfl id (by simp [hp, Phase.notifies])
        (by simp [Phase.notifies]) (by simp) (by simp) (fun _ hx => hactive hx.2)
  | loading notified =>
    cases hmove
    rw [if_neg (by simp)]
    refine kept_quiet h rfl rfl rfl rfl id (by simp [hp, Phase.notifies]) ?_ ?_ ?_ ?_
    · split_ifs <;> simp [Phase.notifies]
    · split_ifs <;> simp
    · split_ifs <;> simp
    · split_ifs with howner
      · simp
      · exact fun _ hx => howner hx.1
  | waiting notified =>
    cases notified with
    | false => cases hmove
    | true =>
      cases hmove
      rw [if_neg (by simp)]
      exact kept_quiet h rfl rfl rfl rfl id (by simp [hp, Phase.notifies])
        (by simp [Phase.notifies]) (by simp) (by simp) (by simp)

theorem kept_move (h : Kept x phases)
    (hmove : move thread x command (phases thread) = some (phase, x')) :
    Kept x' (phasesAfter phases thread phase) := by
  cases hp : phases thread with
  | none => exact kept_start h hp (hp ▸ hmove)
  | some p =>
    rw [hp] at hmove
    obtain rfl : command = .advance := by
      cases command <;> first | rfl | cases hmove
    exact kept_advance h hp hmove

variable {before : Option Phase}

theorem move_named {after : Option Phase}
    (hmove : move thread x command before = some (after, x')) :
    x'.responseId = x.responseId ∧ (x.acceptingTasks = false → x'.acceptingTasks = false) := by
  revert hmove
  fun_cases move thread x command before <;> intro hmove <;> cases hmove <;> simp_all

theorem move_gone {after : Option Phase} (h : Kept x phases) (hx : x.gone)
    (hmove : move thread x command before = some (after, x')) : x'.gone := by
  have hclosed := fun hlock => h.closed hlock hx
  have hcounted := h.counted
  obtain ⟨howner,hactive⟩ := hx
  revert hmove
  fun_cases move thread x command before <;> intro hmove <;> cases hmove <;>
    simp_all [ResponseExecution.gone]

section Machine

structure Inv (s : State Id User) : Prop where
  known : ∀ e x, s.executions e = some x → e < s.count
  targets : ∀ t e p, s.threads t = some (e, p) → e < s.count
  kept : ∀ e x, s.executions e = some x → Kept x (s.phase e)
  named : ∀ id e, s.entries id = some e → ∃ x, s.executions e = some x ∧ x.responseId = id
  entered : ∀ e x, s.executions e = some x → ¬x.gone → s.entries x.responseId = some e

theorem start_inv : Inv (start : State Id User) :=
  ⟨by simp [start],by simp [start],by simp [start],by simp [start],by simp [start]⟩

variable {s : State Id User} {thread e other : ℕ}

theorem phase_elsewhere (hother : other ≠ e) (hready : s.ready e thread = true) :
    s.phase other thread = none := by
  unfold State.ready at hready
  unfold State.phase
  cases hthread : s.threads thread with
  | none => rfl
  | some entry =>
    rw [hthread] at hready
    have htarget : entry.1 = e := of_decide_eq_true hready
    simp [htarget, hother.symm]

variable [DecidableEq Id] {s' : State Id User} {x : ResponseExecution Id User}

theorem act_cases {command : Command} (hx : s.executions e = some x)
    (hready : s.ready e thread = true)
    (h : (match move thread x command (s.phase e thread) with
      | none => none
      | some (phase, x') => some (s.moved thread e x.responseId phase x')) = some s') :
    ∃ thread' e' command' x phase x', Action.act thread e command =
        (.act thread' e' command' : Action Id User) ∧ s.executions e' = some x ∧
      s.ready e' thread' = true ∧ move thread' x command' (s.phase e' thread') = some (phase, x') ∧
      s' = s.moved thread' e' x.responseId phase x' := by
  cases hmove : move thread x command (s.phase e thread) with
  | none =>
    rw [hmove] at h
    cases h
  | some result =>
    obtain ⟨phase,x'⟩ := result
    rw [hmove] at h
    exact ⟨thread,e,command,x,phase,x',rfl,hx,hready,hmove,(Option.some.inj h).symm⟩

variable {action : Action Id User}

/-- What a step does: a registration, or a move on one execution. -/
theorem step_cases (h : step s action = some s') : s' = s ∨
    (∃ responseId userId, action = .register responseId userId ∧ s.entries responseId = none ∧
      s' = { s with
        entries := Function.update s.entries responseId (some s.count)
        count := s.count+1
        executions := Function.update s.executions s.count
          (some (newExecution responseId userId)) }) ∨
    ∃ thread e command x phase x', action = .act thread e command ∧ s.executions e = some x ∧
      s.ready e thread = true ∧ move thread x command (s.phase e thread) = some (phase, x') ∧
      s' = s.moved thread e x.responseId phase x' := by
  cases action with
  | register responseId userId =>
    simp only [step] at h
    cases hentry : s.entries responseId with
    | some e =>
      rw [hentry] at h
      exact .inl (Option.some.inj h).symm
    | none =>
      rw [hentry] at h
      exact .inr (.inl ⟨responseId,userId,rfl,hentry,(Option.some.inj h).symm⟩)
  | act thread e command =>
    simp only [step] at h
    cases hx : s.executions e with
    | none =>
      rw [hx] at h
      cases h
    | some x =>
      rw [hx] at h
      dsimp only at h
      by_cases hready : s.ready e thread = true
      · rw [if_pos hready] at h
        exact .inr (.inr (act_cases hx hready h))
      · rw [if_neg hready] at h
        cases h

/-- The phases at one execution after a move on it. -/
theorem phase_moved (s : State Id User) (thread e : ℕ) (responseId : Id) (phase : Option Phase)
    (x : ResponseExecution Id User) :
    (s.moved thread e responseId phase x).phase e = phasesAfter (s.phase e) thread phase := by
  funext t
  by_cases htt : t = thread
  · subst htt
    cases phase <;> simp [State.phase, State.moved, phasesAfter]
  by_cases hnotify : s.phase e thread = some .notifying
  · have hthreads : (s.moved thread e responseId phase x).threads t =
        notifyWaiters e s.threads t := by simp [State.moved, update_of_ne htt, hnotify]
    rw [State.phase, hthreads, phasesAfter, update_of_ne htt, if_pos hnotify,
      State.phase, notifyWaiters]
    cases s.threads t with
    | none => rfl
    | some entry =>
      by_cases htarget : entry.1 = e
      · simp [htarget]
      · simp [htarget]
  · have hthreads : (s.moved thread e responseId phase x).threads t = s.threads t := by
      simp [State.moved, update_of_ne htt, hnotify]
    rw [State.phase, hthreads, phasesAfter, update_of_ne htt, if_neg hnotify, State.phase]

theorem phase_other (responseId : Id) (phase : Option Phase) (x : ResponseExecution Id User)
    (hready : s.ready e thread = true) (hother : other ≠ e) :
    (s.moved thread e responseId phase x).phase other = s.phase other := by
  funext t
  by_cases htt : t = thread
  · subst htt
    rw [phase_elsewhere hother hready]
    cases phase with
    | none => simp [State.phase, State.moved]
    | some p => simp [State.phase, State.moved, hother.symm]
  · by_cases hnotify : s.phase e thread = some .notifying
    · have hthreads : (s.moved thread e responseId phase x).threads t =
          notifyWaiters e s.threads t := by simp [State.moved, update_of_ne htt, hnotify]
      rw [State.phase, hthreads, State.phase, notifyWaiters]
      cases s.threads t with
      | none => rfl
      | some entry =>
        by_cases htarget : entry.1 = e
        · simp [htarget, hother.symm]
        · simp [htarget]
    · have hthreads : (s.moved thread e responseId phase x).threads t = s.threads t := by
        simp [State.moved, update_of_ne htt, hnotify]
      rw [State.phase, hthreads, State.phase]

theorem moved_execution {responseId : Id} {x' : ResponseExecution Id User}
    (h : (s.moved thread e responseId phase x).executions other = some x') :
    other = e ∧ x' = x ∨ other ≠ e ∧ s.executions other = some x' := by
  by_cases hother : other = e
  · subst hother
    simp only [State.moved, update_self] at h
    exact .inl ⟨rfl,(Option.some.inj h).symm⟩
  · simp only [State.moved, update_of_ne hother] at h
    exact .inr ⟨hother,h⟩

/-- Only the entry of the removed execution goes. -/
theorem moved_entry (s : State Id User) (thread e : ℕ) (responseId id : Id)
    (phase : Option Phase) (x : ResponseExecution Id User) :
    (s.moved thread e responseId phase x).entries id = s.entries id ∨
      s.phase e thread = some .removing ∧ id = responseId ∧ s.entries id = some e ∧
        (s.moved thread e responseId phase x).entries id = none := by
  by_cases hremoving : s.phase e thread = some .removing
  · by_cases hentry : s.entries responseId = some e
    · by_cases hid : id = responseId
      · subst hid
        exact .inr ⟨hremoving,rfl,hentry,by simp [State.moved, hremoving, removeEntry, hentry]⟩
      · exact .inl (by simp [State.moved, hremoving, removeEntry, hentry, update_of_ne hid])
    · exact .inl (by simp [State.moved, hremoving, removeEntry, hentry])
  · exact .inl (by simp [State.moved, hremoving])

theorem moved_inv {command : Command} {x' : ResponseExecution Id User}
    (h : Inv s) (hx : s.executions e = some x) (hready : s.ready e thread = true)
    (hmove : move thread x command (s.phase e thread) = some (phase, x')) :
    Inv (s.moved thread e x.responseId phase x') := by
  have hkept := h.kept e x hx
  obtain ⟨hname,-⟩ := move_named hmove
  refine ⟨fun other y hy => ?_,fun t target p ht => ?_,fun other y hy => ?_,
    fun id target hentry => ?_,fun other y hy hgone => ?_⟩
  · rcases moved_execution hy with ⟨rfl,rfl⟩ | ⟨-,hy⟩
    · exact h.known other x hx
    · exact h.known other y hy
  · by_cases htt : t = thread
    · subst htt
      simp only [State.moved, update_self] at ht
      obtain ⟨q,-,hq⟩ := Option.map_eq_some_iff.mp ht
      cases hq
      exact h.known e x hx
    · simp only [State.moved, update_of_ne htt] at ht
      split_ifs at ht
      · obtain ⟨⟨target',q⟩,hthread,hq⟩ := Option.map_eq_some_iff.mp ht
        have htarget : target' = target := by
          split_ifs at hq
          · exact congrArg Prod.fst hq
          · exact congrArg Prod.fst hq
        exact htarget ▸ h.targets t target' q hthread
      · exact h.targets t target p ht
  · rcases moved_execution hy with ⟨rfl,rfl⟩ | ⟨hother,hy⟩
    · rw [phase_moved]
      exact kept_move hkept hmove
    · rw [phase_other _ phase x' hready hother]
      exact h.kept other y hy
  · rcases moved_entry s thread e x.responseId id phase x' with heq | ⟨-,-,-,hnone⟩
    · rw [heq] at hentry
      obtain ⟨y,hy,hid⟩ := h.named id target hentry
      by_cases htarget : target = e
      · subst htarget
        rw [hx] at hy
        cases hy
        exact ⟨x',by simp [State.moved],hname.trans hid⟩
      · exact ⟨y,by simpa [State.moved, update_of_ne htarget] using hy,hid⟩
    · rw [hnone] at hentry
      cases hentry
  · have hbefore : ∃ z, s.executions other = some z ∧ ¬z.gone ∧ y.responseId = z.responseId := by
      rcases moved_execution hy with ⟨rfl,rfl⟩ | ⟨hother,hy⟩
      · exact ⟨x,hx,fun hold => hgone (move_gone hkept hold hmove),hname⟩
      · exact ⟨y,hy,hgone,rfl⟩
    obtain ⟨z,hz,hlive,hid⟩ := hbefore
    have hentry := h.entered other z hz hlive
    rcases moved_entry s thread e x.responseId y.responseId phase x' with heq | ⟨hphase,-,hthis,-⟩
    · rw [heq, hid, hentry]
    · rw [hid, hentry] at hthis
      cases hthis
      rw [hx] at hz
      cases hz
      exact absurd (hkept.removing thread hphase) hlive

theorem register_inv {responseId : Id} {userId : User} (h : Inv s)
    (hfree : s.entries responseId = none) : Inv { s with
      entries := Function.update s.entries responseId (some s.count)
      count := s.count+1
      executions := Function.update s.executions s.count
        (some (newExecution responseId userId)) } := by
  have hidle : s.phase s.count = fun _ => none := by
    funext t
    unfold State.phase
    cases hthread : s.threads t with
    | none => rfl
    | some entry =>
      have hlt := h.targets t entry.1 entry.2 hthread
      have hne : ¬entry.1 = s.count := by omega
      simp [hne]
  have hcases : ∀ e x, Function.update s.executions s.count
      (some (newExecution responseId userId)) e = some x →
      e = s.count ∧ x = newExecution responseId userId ∨ e < s.count ∧ s.executions e = some x := by
    intro e x hx
    by_cases he : e = s.count
    · subst he
      rw [update_self] at hx
      exact .inl ⟨rfl,(Option.some.inj hx).symm⟩
    · rw [update_of_ne he] at hx
      exact .inr ⟨h.known e x hx,hx⟩
  refine ⟨fun e x hx => ?_,fun t e p ht => ?_,fun e x hx => ?_,fun id e hentry => ?_,
    fun e x hx hgone => ?_⟩
  · show e < s.count+1
    rcases hcases e x hx with ⟨rfl,-⟩ | ⟨hlt,-⟩
    · omega
    · omega
  · have hlt := h.targets t e p ht
    show e < s.count+1
    omega
  · rcases hcases e x hx with ⟨rfl,rfl⟩ | ⟨-,hold⟩
    · have hkept := kept_new responseId userId
      rw [← hidle] at hkept
      exact hkept
    · exact h.kept e x hold
  · dsimp only at hentry ⊢
    by_cases hid : id = responseId
    · subst hid
      rw [update_self] at hentry
      cases hentry
      exact ⟨newExecution id userId,update_self ..,rfl⟩
    rw [update_of_ne hid] at hentry
    obtain ⟨x,hx,hname⟩ := h.named id e hentry
    have hlt := h.known e x hx
    refine ⟨x,?_,hname⟩
    rw [update_of_ne (by omega)]
    exact hx
  · dsimp only at hx ⊢
    rcases hcases e x hx with ⟨rfl,rfl⟩ | ⟨hlt,hold⟩
    · exact update_self ..
    have hentry := h.entered e x hold hgone
    have hid : x.responseId ≠ responseId := by
      rintro heq
      rw [heq, hfree] at hentry
      cases hentry
    rw [update_of_ne hid]
    exact hentry

theorem step_inv (h : Inv s) (hstep : step s action = some s') : Inv s' := by
  rcases step_cases hstep with rfl | ⟨responseId,userId,-,hfree,rfl⟩ |
    ⟨thread,e,command,x,phase,x',-,hx,hready,hmove,rfl⟩
  · exact h
  · exact register_inv h hfree
  · exact moved_inv h hx hready hmove

end Machine

end Maple.Responses.Execution
