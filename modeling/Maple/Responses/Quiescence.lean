import Maple.Responses.Registry

/-!
# Quiescence of a response execution

A waiter reads the counter before the owner flag. A task that begins between the two reads
is missed; while no task begins there, a waiter that returns leaves nothing running.
-/

set_option autoImplicit false

namespace Maple.Responses.Execution

open Run Function

variable {Id User : Type} {thread : ℕ} {phases : ℕ → Option Phase}

theorem loading_after {u : ℕ} {phase : Option Phase} {notified : Bool}
    (h : phasesAfter phases thread phase u = some (.loading notified)) (hu : u ≠ thread) :
    ∃ before, phases u = some (.loading before) := by
  rw [phasesAfter, update_of_ne hu] at h
  split_ifs at h
  · obtain ⟨q,hq,heq⟩ := Option.map_eq_some_iff.mp h
    cases q with
    | loading before => exact ⟨before,hq⟩
    | _ => simp [Phase.notify] at heq
  · exact ⟨notified,h⟩

variable {x x' : ResponseExecution Id User} {before : Option Phase}

/-- The counter grows only with a task that begins. -/
theorem move_counter {command : Command} {after : Option Phase}
    (hmove : move thread x command before = some (after, x')) :
    x'.activeTasks ≤ x.activeTasks ∨ command = .beginTask ∧ x.begins = true := by
  revert hmove
  fun_cases move thread x command before <;> intro hmove <;> cases hmove <;>
    simp_all [ResponseExecution.begins]

theorem move_loading {command : Command} {notified : Bool}
    (hmove : move thread x command before = some (some (.loading notified), x')) :
    x'.activeTasks = 0 := by
  revert hmove
  generalize hafter : some (Phase.loading notified) = after
  fun_cases move thread x command before <;> intro hmove <;> cases hmove <;> simp_all
  · split_ifs at hafter
    · simp_all

theorem gone_closed (h : Kept x phases) (hx : x.gone) : x.begins = false := by
  unfold ResponseExecution.begins
  cases hlock : x.lock with
  | some t => rfl
  | none => simp [h.closed hlock hx]

/-- The phases on the way to the removal of an entry. -/
def Phase.clears : Phase → Bool
  | .ownerStored | .guardTaken | .notifying | .checking | .sealing | .removing => true
  | _ => false

theorem move_clears {command : Command} {after : Option Phase}
    (hmove : move thread x command before = some (after, x')) (hgone : x'.gone)
    (hbefore : x.gone → before.any Phase.clears = true) :
    before = some .removing ∨ after.any Phase.clears = true := by
  revert hmove
  fun_cases move thread x command before <;> intro hmove <;> cases hmove <;>
    simp_all [ResponseExecution.gone, Phase.clears]

variable [DecidableEq Id]

/-- No task begins on an execution while a waiter stands between its two reads. -/
def Calm (s : State Id User) (action : Action Id User) : Prop :=
  ∀ thread e x, action = .act thread e .beginTask → s.executions e = some x → x.begins = true →
    ∀ u notified, s.phase e u ≠ some (.loading notified)

inductive CalmRun : State Id User → List (Action Id User) → State Id User → Prop
  | nil (s : State Id User) : CalmRun s [] s
  | cons {s s' s'' : State Id User} {action : Action Id User} {actions : List (Action Id User)} :
      Calm s action → step s action = some s' → CalmRun s' actions s'' →
      CalmRun s (action::actions) s''

def Settled (s : State Id User) : Prop :=
  ∀ e x u notified, s.executions e = some x → s.phase e u = some (.loading notified) →
    x.activeTasks = 0

variable {s s' : State Id User} {action : Action Id User}

theorem settled_step (h : Inv s) (hs : Settled s) (hcalm : Calm s action)
    (hstep : step s action = some s') : Settled s' := by
  rcases step_cases hstep with rfl | ⟨responseId,userId,-,-,rfl⟩ |
    ⟨thread,e,command,x,phase,x',hact,hx,hready,hmove,rfl⟩
  · exact hs
  · intro e x u notified hx hu
    dsimp only at hx
    by_cases he : e = s.count
    · subst he
      rw [update_self] at hx
      cases hx
      rfl
    · rw [update_of_ne he] at hx
      exact hs e x u notified hx hu
  · intro other y u notified hy hu
    rcases moved_execution hy with ⟨rfl,rfl⟩ | ⟨hother,hy⟩
    · rw [phase_moved] at hu
      by_cases hut : u = thread
      · subst hut
        rw [phasesAfter, update_self] at hu
        rw [hu] at hmove
        exact move_loading hmove
      · obtain ⟨before,hbefore⟩ := loading_after hu hut
        have hzero := hs other x u before hx hbefore
        rcases move_counter hmove with hle | ⟨rfl,hbegins⟩
        · omega
        · exact absurd hbefore (hcalm thread other x hact hx hbegins u before)
    · rw [phase_other _ phase x' hready hother] at hu
      exact hs other y u notified hy hu

variable {actions : List (Action Id User)}

theorem calm_run (hrun : CalmRun s actions s') (h : Inv s)
    (hs : Settled s) : Inv s' ∧ Settled s' := by
  induction hrun with
  | nil s => exact ⟨h,hs⟩
  | cons hcalm hstep _ ih => exact ih (step_inv h hstep) (settled_step h hs hcalm hstep)

variable {e : ℕ} {more : List (Action Id User)}

/-- A fact about an execution that every move on it keeps is kept by every run. -/
theorem execution_run (P : ResponseExecution Id User → Prop)
    (hmove : ∀ (s : State Id User) thread command x phase x', Inv s → s.executions e = some x →
      P x → move thread x command (s.phase e thread) = some (phase, x') → P x')
    (hrun : run step s more = some s') (h : Inv s) (hx : s.executions e = some x) (hP : P x) :
    Inv s' ∧ ∃ x', s'.executions e = some x' ∧ P x' := by
  refine run_invariant (fun s => Inv s ∧ ∃ x, s.executions e = some x ∧ P x) ?_ s hrun
    ⟨h,x,hx,hP⟩
  rintro s action s' ⟨h,x,hx,hP⟩ hstep
  refine ⟨step_inv h hstep,?_⟩
  rcases step_cases hstep with rfl | ⟨responseId,userId,-,-,rfl⟩ |
    ⟨thread,other,command,y,phase,y',-,hy,-,hm,rfl⟩
  · exact ⟨x,hx,hP⟩
  · have hlt := h.known e x hx
    exact ⟨x,by rw [← hx]; exact update_of_ne (by omega) ..,hP⟩
  by_cases hother : e = other
  · subst hother
    rw [hx] at hy
    cases hy
    exact ⟨y',by simp [State.moved],hmove s thread command x phase y' h hx hP hm⟩
  · exact ⟨x,by simpa [State.moved, update_of_ne hother] using hx,hP⟩

theorem gone_run (hrun : run step s more = some s') (h : Inv s) (hx : s.executions e = some x)
    (hgone : x.gone) (hx' : s'.executions e = some x') : x'.begins = false ∧ x'.guards = 0 := by
  obtain ⟨h',y,hy,hgone'⟩ := execution_run ResponseExecution.gone
    (fun s thread command x phase x' h hx hgone hmove => move_gone (h.kept e x hx) hgone hmove)
    hrun h hx hgone
  rw [hx'] at hy
  cases hy
  have hkept := h'.kept e x' hx'
  exact ⟨gone_closed hkept hgone',hkept.counted ▸ hgone'.2⟩

theorem cancelled_run (hrun : run step s more = some s') (h : Inv s) (hx : s.executions e = some x)
    (hclosed : x.acceptingTasks = false) (hx' : s'.executions e = some x') : x'.begins = false := by
  obtain ⟨-,y,hy,hclosed'⟩ := execution_run (fun x => x.acceptingTasks = false)
    (fun s thread command x phase x' h hx hclosed hmove => (move_named hmove).2 hclosed)
    hrun h hx hclosed
  rw [hx'] at hy
  cases hy
  simp [ResponseExecution.begins, hclosed']

theorem cancel_closes (hstep : step s (.act thread e .cancel) = some s') :
    ∃ x, s'.executions e = some x ∧ x.acceptingTasks = false := by
  simp only [step] at hstep
  cases hx : s.executions e with
  | none =>
    rw [hx] at hstep
    cases hstep
  | some x =>
    rw [hx] at hstep
    dsimp only at hstep
    by_cases hready : s.ready e thread = true
    · rw [if_pos hready] at hstep
      obtain ⟨thread',e',command,y,phase,y',hact,hy,-,hmove,rfl⟩ := act_cases hx hready hstep
      cases hact
      refine ⟨y',by simp [State.moved],?_⟩
      cases hphase : s.phase e thread with
      | some p =>
        rw [hphase] at hmove
        cases hmove
      | none =>
        rw [hphase] at hmove
        simp only [move] at hmove
        split_ifs at hmove
        cases hmove
        rfl
    · rw [if_neg hready] at hstep
      cases hstep

/-- An entry goes only when its execution has neither owner nor guards. -/
theorem entry_step (h : Inv s) (hstep : step s action = some s') {id : Id}
    (hentry : s.entries id = some e) :
    s'.entries id = some e ∨ s'.entries id = none ∧ ∃ x, s.executions e = some x ∧
      x.responseId = id ∧ x.ownerFinished = true ∧ x.guards = 0 := by
  rcases step_cases hstep with rfl | ⟨responseId,userId,-,hfree,rfl⟩ |
    ⟨thread,other,command,y,phase,y',-,hy,-,-,rfl⟩
  · exact .inl hentry
  · refine .inl ?_
    have hid : id ≠ responseId := by
      rintro rfl
      rw [hfree] at hentry
      cases hentry
    rw [← hentry]
    exact update_of_ne hid ..
  · rcases moved_entry s thread other y.responseId id phase y' with heq | ⟨hphase,hid,hthis,hnone⟩
    · exact .inl (heq.trans hentry)
    · rw [hentry] at hthis
      cases hthis
      have hkept := h.kept e y hy
      obtain ⟨howner,hactive⟩ := hkept.removing thread hphase
      exact .inr ⟨hnone,y,hy,hid.symm,howner,hkept.counted ▸ hactive⟩

/-- While no task begins between a waiter's two reads, quiescence means nothing runs. -/
theorem quiescence_when_calm (actions : List (Action Id User)) (s : State Id User)
    (hrun : CalmRun start actions s) :
    (∀ e thread, s.returns e thread → ∃ x, s.executions e = some x ∧ x.ownerFinished = true ∧
      x.guards = 0 ∧ ∀ more s', run step s more = some s' → ∀ x', s'.executions e = some x' →
        x'.begins = false ∧ x'.guards = 0) ∧
    (∀ e thread after, step s (.act thread e .cancel) = some after →
      ∀ more s', run step after more = some s' → ∀ x', s'.executions e = some x' →
        x'.begins = false) ∧
    (∀ e x, s.executions e = some x → x.ownerFinished = false ∨ 0 < x.guards →
      s.entries x.responseId = some e ∧
        ∀ userId, step s (.register x.responseId userId) = some s) ∧
    (∀ action s' id e, step s action = some s' → s.entries id = some e →
      s'.entries id = some e ∨ s'.entries id = none ∧ ∃ x, s.executions e = some x ∧
        x.responseId = id ∧ x.ownerFinished = true ∧ x.guards = 0) ∧
    ∀ e x, s.executions e = some x → x.ownerFinished = true → x.guards = 0 →
      (∀ t phase, s.phase e t = some phase → ¬phase.notifies) →
      ∀ t, s.phase e t ≠ some (.waiting false) := by
  obtain ⟨h,hs⟩ := calm_run hrun start_inv (fun e x u notified hx => nomatch hx)
  refine ⟨?_, ?_, ?_, fun action s' id e hstep hentry => entry_step h hstep hentry, ?_⟩
  · rintro e thread ⟨x,notified,hx,hphase,howner⟩
    have hzero := hs e x thread notified hx hphase
    refine ⟨x, hx, howner, (h.kept e x hx).counted ▸ hzero, ?_⟩
    intro more s' hmore x' hx'
    exact gone_run hmore h hx ⟨howner, hzero⟩ hx'
  · intro e thread after hcancel more s' hmore x' hx'
    obtain ⟨x,hx,hclosed⟩ := cancel_closes hcancel
    exact cancelled_run hmore (step_inv h hcancel) hx hclosed hx'
  · intro e x hx hlive
    have hgone : ¬x.gone := by
      rintro ⟨howner,hactive⟩
      have hguards := (h.kept e x hx).counted
      rcases hlive with hfalse | hpositive
      · rw [howner] at hfalse
        cases hfalse
      · omega
    have hentry := h.entered e x hx hgone
    refine ⟨hentry, fun userId => ?_⟩
    simp only [step, hentry]
  · intro e x hx howner hguards hquiet t ht
    have hkept := h.kept e x hx
    obtain ⟨u,phase,hu,hnotifies⟩ :=
      hkept.waiting t ht ⟨howner, hkept.counted.trans hguards⟩
    exact hquiet u phase hu hnotifies

theorem calm_without_begin {s : State Id User}
    (hplain : ∀ thread e, .act thread e .beginTask ∉ actions)
      (hrun : run step s actions = some s') :
    CalmRun s actions s' := by
  induction actions generalizing s with
  | nil =>
    cases hrun
    exact .nil _
  | cons action actions ih =>
    obtain ⟨t,hstep,hrest⟩ := run_cons_some hrun
    refine .cons (fun thread e x hact => ?_) hstep
      (ih (fun thread e hmem => hplain thread e (by simp [hmem])) hrest)
    exact absurd (by simp [hact]) (hplain thread e)

def sampleEnd : List (Action ℕ ℕ) :=
  [.act 0 0 .dropRegistration, .act 0 0 .advance, .act 1 0 .dropGuard, .act 1 0 .advance,
    .act 2 0 .waitForQuiescence, .act 2 0 .advance, .act 2 0 .advance]

def sampleActions : List (Action ℕ ℕ) := .register 7 7::.act 1 0 .beginTask::sampleEnd

def finalState (actions : List (Action ℕ ℕ)) : State ℕ ℕ := (run step start actions).getD start

theorem sample_calm : CalmRun start sampleActions (finalState sampleActions) := by
  refine .cons (fun thread e x hact => nomatch hact) rfl ?_
  refine .cons (fun thread e x _ _ _ u notified hphase => nomatch hphase) rfl ?_
  refine calm_without_begin (fun thread e => ?_) rfl
  simp [sampleEnd]

theorem quiescence_when_calm_sample :
    (finalState sampleActions).returns 0 2 ∧ ∃ x, (finalState sampleActions).executions 0 = some x ∧
      x.ownerFinished = true ∧ x.guards = 0 := by
  have hreturns : (finalState sampleActions).returns 0 2 := ⟨_, false, rfl, rfl, rfl⟩
  obtain ⟨x,hx,howner,hguards,-⟩ :=
    (quiescence_when_calm sampleActions _ sample_calm).1 0 2 hreturns
  exact ⟨hreturns, x, hx, howner, hguards⟩

def lateTask : List (Action ℕ ℕ) :=
  [.register 7 7, .act 1 0 .waitForQuiescence, .act 1 0 .advance, .act 1 0 .advance,
    .act 2 0 .beginTask, .act 0 0 .dropRegistration, .act 0 0 .advance]

/-- A task begun between a waiter's two reads is still live when the waiter returns, and
further tasks begin after it. -/
theorem late_task_missed : run step start lateTask = some (finalState lateTask) ∧
    (finalState lateTask).returns 0 1 ∧ ∃ x, (finalState lateTask).executions 0 = some x ∧
      x.guards = 1 ∧ x.begins = true :=
  ⟨rfl, ⟨_, false, rfl, rfl, rfl⟩, _, rfl, rfl, rfl⟩

/-- Of an execution that is gone the entry is out, or a thread is on its way to take it out. -/
def Clearing (s : State Id User) : Prop :=
  ∀ id e x, s.entries id = some e → s.executions e = some x → x.gone →
    ∃ t, (s.phase e t).any Phase.clears = true

theorem moved_clearing {command : Command} {phase : Option Phase} (h : Inv s) (hs : Clearing s)
    (hx : s.executions e = some x) (hready : s.ready e thread = true)
    (hmove : move thread x command (s.phase e thread) = some (phase, x')) :
    Clearing (s.moved thread e x.responseId phase x') := by
  intro id other y hentry hy hgone
  rcases moved_entry s thread e x.responseId id phase x' with heq | ⟨-,-,-,hnone⟩
  swap
  · rw [hnone] at hentry
    cases hentry
  have hold := heq ▸ hentry
  rcases moved_execution hy with ⟨rfl,rfl⟩ | ⟨hother,hy⟩
  swap
  · rw [phase_other _ phase x' hready hother]
    exact hs id other y hold hy hgone
  obtain ⟨z,hz,hid⟩ := h.named id other hold
  cases hx.symm.trans hz
  -- the thread that moves is on its way itself, unless another one already is
  by_cases hthis : x.gone → (s.phase other thread).any Phase.clears = true
  · rcases move_clears hmove hgone hthis with hremoving | hclears
    · simp [State.moved, hremoving, removeEntry, hid, hold] at hentry
    · exact ⟨thread,by simpa [phase_moved, phasesAfter] using hclears⟩
  · obtain ⟨hwas,hnot⟩ := Classical.not_imp.mp hthis
    obtain ⟨t,ht⟩ := hs id other x hold hx hwas
    have htt : t ≠ thread := fun heq => hnot (heq ▸ ht)
    refine ⟨t,?_⟩
    rw [phase_moved, phasesAfter, update_of_ne htt]
    split_ifs
    · cases hphase : s.phase other t with
      | none => simp [hphase] at ht
      | some p => cases p <;> simp_all [Phase.clears]
    · exact ht

theorem step_clearing (h : Inv s) (hs : Clearing s) (hstep : step s action = some s') :
    Clearing s' := by
  rcases step_cases hstep with rfl | ⟨responseId,userId,-,-,rfl⟩ |
    ⟨thread,e,command,x,phase,x',-,hx,hready,hmove,rfl⟩
  · exact hs
  · intro id e x hentry hx hgone
    dsimp only at hentry hx
    by_cases he : e = s.count
    · subst he
      rw [update_self] at hx
      cases hx
      cases hgone.1
    rw [update_of_ne he] at hx
    by_cases hid : id = responseId
    · subst hid
      rw [update_self] at hentry
      cases hentry
      exact absurd rfl he
    · rw [update_of_ne hid] at hentry
      exact hs id e x hentry hx hgone
  · exact moved_clearing h hs hx hready hmove

/-- An execution has its entry as long as its owner or a guard is there, and no longer once
the drops on it are done. -/
theorem registry_exact (actions : List (Action Id User)) (s : State Id User)
    (hrun : run step start actions = some s) :
    (∀ e x, s.executions e = some x → x.ownerFinished = false ∨ 0 < x.guards →
      s.entries x.responseId = some e) ∧
    ∀ id e, s.entries id = some e → (∀ t, (s.phase e t).any Phase.clears = false) →
      ∃ x, s.executions e = some x ∧ x.responseId = id ∧
        (x.ownerFinished = false ∨ 0 < x.guards) := by
  obtain ⟨h,hs⟩ := run_invariant (fun s => Inv s ∧ Clearing s)
    (fun _ _ _ h hstep => ⟨step_inv h.1 hstep, step_clearing h.1 h.2 hstep⟩) start hrun
    ⟨start_inv, fun _ _ _ hentry => nomatch hentry⟩
  have hlive : ∀ e x, s.executions e = some x →
      (x.ownerFinished = false ∨ 0 < x.guards ↔ ¬x.gone) := fun e x hx => by
    rw [← (h.kept e x hx).counted, ResponseExecution.gone, not_and_or, Bool.not_eq_true,
      Nat.pos_iff_ne_zero]
  refine ⟨fun e x hx hxl => h.entered e x hx ((hlive e x hx).mp hxl), fun id e hentry hidle => ?_⟩
  obtain ⟨x,hx,hid⟩ := h.named id e hentry
  refine ⟨x, hx, hid, (hlive e x hx).mpr fun hgone => ?_⟩
  obtain ⟨t,ht⟩ := hs id e x hentry hx hgone
  exact Bool.false_ne_true ((hidle t).symm.trans ht)

/-- A task outlives its owner, the entry goes with it, and the response is registered again. -/
def replacedActions : List (Action ℕ ℕ) :=
  [.register 7 7, .act 1 0 .beginTask, .act 0 0 .dropRegistration]++
    List.replicate 4 (.act 0 0 .advance)++[.act 1 0 .dropGuard]++
    List.replicate 5 (.act 1 0 .advance)++
    [.register 7 8, .act 1 1 .beginTask, .act 0 1 .dropRegistration]++
    List.replicate 4 (.act 0 1 .advance)

theorem registry_exact_registered :
    (finalState (replacedActions.take 13)).entries 7 = none ∧
    (∃ x, (finalState replacedActions).executions 0 = some x ∧ x.gone) ∧
    (finalState replacedActions).entries 7 = some 1 ∧
    ∃ x, (finalState replacedActions).executions 1 = some x ∧ x.responseId = 7 ∧
      x.ownerFinished = true ∧ 0 < x.guards := by
  obtain ⟨hentry,hlive⟩ := registry_exact replacedActions _ rfl
  have hidle : ∀ t, ((finalState replacedActions).phase 1 t).any Phase.clears = false := by
    intro t
    obtain _ | _ | t := t <;> rfl
  have hseven : (finalState replacedActions).entries 7 = some 1 :=
    hentry 1 _ rfl (.inr Nat.one_pos)
  obtain ⟨x,hx,hid,hguards⟩ := hlive 7 1 hseven hidle
  have howner : x.ownerFinished = true := by
    cases hx
    rfl
  exact ⟨rfl, ⟨_, rfl, rfl, rfl⟩, hseven, x, hx, hid, howner, by simpa [howner] using hguards⟩

end Maple.Responses.Execution
