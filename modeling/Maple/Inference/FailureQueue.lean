import Maple.Inference.Health
import Maple.Lib.Run

/-!
# The failure queue against the whole history

A route's gate keeps a queue of failure times that is pruned by age and trimmed to the
threshold. Next to it a run of the gate keeps every failure since the last success or
heal. As long as the gate is not open the two agree at every later time, so a failure
opens the gate exactly if the history says so.
-/

set_option autoImplicit false

namespace Maple.Health

open Run List

inductive RouteOp where
  | failure (now : ℕ)
  | success (now : ℕ)
  | claim (leaseId : ℕ)
  | release (leaseId generationAtClaim : ℕ)
  | resolve (leaseId generationAtClaim : ℕ)

/-- A gate, the failures since its last success or heal, and the latest time. -/
structure Tracked where
  state : RouteHealthState
  history : List ℕ
  clock : ℕ
  deriving DecidableEq

def Tracked.new : Tracked := ⟨⟨.default, []⟩, [], 0⟩

section Queue
variable {R : Type} (setting : Setting R)

def trackedStep (tracked : Tracked) : RouteOp → Option Tracked
  | .failure now =>
    if tracked.clock ≤ now then
      some ⟨applyRouteFailure setting now tracked.state, tracked.history++[now], now⟩
    else none
  | .success now =>
    if tracked.clock ≤ now then some ⟨applyRouteSuccess tracked.state, [], now⟩ else none
  | .claim leaseId => some { tracked with
      state := { tracked.state with toGateState := tracked.state.toGateState.claim leaseId } }
  | .release leaseId generation => some { tracked with
      state := { tracked.state with
        toGateState := tracked.state.toGateState.release leaseId generation } }
  | .resolve leaseId generation => some { tracked with
      state := tracked.state.resolve leaseId generation
      history := if tracked.state.toGateState.heals leaseId generation then []
        else tracked.history }

def within (now : ℕ) (times : List ℕ) : List ℕ :=
  times.filter (fun failureAt => decide (now-setting.policy.routeFailureWindow ≤ failureAt) &&
    decide (failureAt ≤ now))

/-- At every time from now on the queue and the history hold the same failures. -/
structure Agrees (clock : ℕ) (queue history : List ℕ) : Prop where
  past : ∀ failureAt ∈ history, failureAt ≤ clock
  queued : ∀ failureAt ∈ queue, failureAt ≤ clock
  same : ∀ now, clock ≤ now → within setting now queue = within setting now history

theorem agrees_nil (clock : ℕ) : Agrees setting clock [] [] := ⟨by simp,by simp,fun _ _ => rfl⟩

/-- Of failures that are not in the future, the recent ones are those within the window. -/
theorem recent_within (now : ℕ) (times : List ℕ) (h : ∀ failureAt ∈ times, failureAt ≤ now) :
    times.filter (recentFailure setting.policy.routeFailureWindow now) =
      within setting now times := by
  apply filter_congr
  intro failureAt hmem
  have hpast := h failureAt hmem
  rw [recentFailure, ← Bool.decide_or, ← Bool.decide_and, decide_eq_decide]
  omega

variable {now : ℕ}

/-- A failure that is out of the window stays out of it. -/
theorem within_within {early : ℕ} (times : List ℕ) (h : early ≤ now)
    (hpast : ∀ failureAt ∈ times, failureAt ≤ early) :
    within setting now (within setting early times) = within setting now times := by
  rw [within, within, filter_filter]
  apply filter_congr
  intro failureAt hmem
  have hle := hpast failureAt hmem
  rw [← Bool.decide_and, ← Bool.decide_and, ← Bool.decide_and, decide_eq_decide]
  omega

variable {clock : ℕ} {history : List ℕ}

/-- Pruning at a failure and appending it keeps the agreement. -/
theorem agrees_push {queue : List ℕ} (hnow : clock ≤ now) (h : Agrees setting clock queue history) :
    Agrees setting now (within setting now queue++[now]) (history++[now]) := by
  refine ⟨?_,?_,?_⟩
  · intro failureAt hmem
    rcases mem_append.mp hmem with hold | hnew
    · exact (h.past failureAt hold).trans hnow
    · exact (mem_singleton.mp hnew).le
  · intro failureAt hmem
    rcases mem_append.mp hmem with hold | hnew
    · exact (h.queued failureAt (mem_filter.mp hold).1).trans hnow
    · exact (mem_singleton.mp hnew).le
  intro later hlater
  have hqueue := within_within setting queue hlater
    (fun failureAt hmem => (h.queued failureAt hmem).trans hnow)
  have hsame := h.same later (hnow.trans hlater)
  unfold within at hqueue hsame ⊢
  rw [filter_append, filter_append, hqueue, hsame]

theorem threshold_pos : 0 < failureThreshold setting := Nat.le_max_right _ 1

/-- The queue after a failure: its last entries within the window, up to the threshold. -/
theorem pushed_queue {queue : List ℕ} (hnow : clock ≤ now)
    (h : Agrees setting clock queue history) :
    (pushFailure setting queue now).length =
        min (within setting now (history++[now])).length (failureThreshold setting) ∧
      ((pushFailure setting queue now).length < failureThreshold setting →
        pushFailure setting queue now = within setting now queue++[now]) := by
  have hrecent := recent_within setting now queue
    (fun failureAt hmem => (h.queued failureAt hmem).trans hnow)
  have hself : within setting now [now] = [now] := by
    simp [within]
  have hlength : (within setting now (history++[now])).length =
      (within setting now queue++[now]).length := by
    have happend : within setting now (history++[now]) = within setting now queue++[now] := by
      rw [h.same now hnow]
      exact (filter_append _ _).trans (congrArg (within setting now history++·) hself)
    rw [happend]
  unfold pushFailure
  simp only [hrecent]
  rw [hlength]
  generalize within setting now queue++[now] = recent
  have hcut : (recent.drop (recent.length-failureThreshold setting)).length =
      min recent.length (failureThreshold setting) := by
    rw [length_drop]
    omega
  refine ⟨hcut,fun hshort => ?_⟩
  rw [hcut] at hshort
  rw [show recent.length-failureThreshold setting = 0 by omega, drop_zero]

/-- A failure opens a closed gate exactly if the window holds enough of the history. -/
theorem failure_opens_iff {state : RouteHealthState} (hnow : clock ≤ now)
    (hclosed : state.openUntil = none) (h : Agrees setting clock state.failureTimes history) :
    (applyRouteFailure setting now state).openUntil.isSome = true ↔
      failureThreshold setting ≤ (within setting now (history++[now])).length := by
  obtain ⟨hlength,_⟩ := pushed_queue setting hnow h
  simp only [applyRouteFailure, hclosed, Option.isSome_none, Bool.false_eq_true, if_false, hlength]
  by_cases hopens : failureThreshold setting ≤ (within setting now (history++[now])).length
  · rw [if_pos (by omega)]
    simp [extendOpenUntil, hopens]
  · rw [if_neg (by omega)]
    simp [hopens]

/-- What a run keeps: a gate that is not open agrees with its history, and is below the
threshold. -/
structure Counted (tracked : Tracked) : Prop where
  agrees : tracked.state.openUntil = none →
    Agrees setting tracked.clock tracked.state.failureTimes tracked.history
  below : tracked.state.openUntil = none →
    tracked.state.failureTimes.length < failureThreshold setting

theorem counted_new : Counted setting .new :=
  ⟨fun _ => agrees_nil setting 0,fun _ => threshold_pos setting⟩

variable {tracked : Tracked}

theorem failure_counted (hnow : tracked.clock ≤ now) (h : Counted setting tracked) :
    Counted setting ⟨applyRouteFailure setting now tracked.state,tracked.history++[now],now⟩ := by
  cases hopen : tracked.state.openUntil with
  | some deadline =>
    have hstays : (applyRouteFailure setting now tracked.state).openUntil ≠ none := by
      simp [applyRouteFailure, hopen, extendOpenUntil]
    exact ⟨fun hclosed => absurd hclosed hstays,fun hclosed => absurd hclosed hstays⟩
  | none =>
    have hagrees := h.agrees hopen
    obtain ⟨_,hqueue⟩ := pushed_queue setting hnow hagrees
    have hshort (hclosed : (applyRouteFailure setting now tracked.state).openUntil = none) :
        (pushFailure setting tracked.state.failureTimes now).length < failureThreshold setting := by
      by_contra hfull
      simp [applyRouteFailure, hopen, extendOpenUntil, Nat.not_lt.mp hfull] at hclosed
    have htimes : (applyRouteFailure setting now tracked.state).failureTimes =
        pushFailure setting tracked.state.failureTimes now := by
      simp [applyRouteFailure, hopen]
    constructor
    · intro hclosed
      simp only [htimes, hqueue (hshort hclosed)]
      exact agrees_push setting hnow hagrees
    · intro hclosed
      simp only [htimes]
      exact hshort hclosed

theorem success_counted (tracked : Tracked) (now : ℕ) :
    Counted setting ⟨applyRouteSuccess tracked.state,[],now⟩ := by
  cases hopen : tracked.state.openUntil with
  | some deadline =>
    have hstays : (applyRouteSuccess tracked.state).openUntil ≠ none := by
      simp [applyRouteSuccess, hopen]
    exact ⟨fun hclosed => absurd hclosed hstays,fun hclosed => absurd hclosed hstays⟩
  | none =>
    have htimes : (applyRouteSuccess tracked.state).failureTimes = [] := by
      simp [applyRouteSuccess, hopen]
    constructor
    · intro _
      simp only [htimes]
      exact agrees_nil setting now
    · intro _
      simp only [htimes]
      exact threshold_pos setting

/-- An operation that keeps the opening time and the queue. -/
theorem kept_counted (state : RouteHealthState) (hopen : state.openUntil = tracked.state.openUntil)
    (htimes : state.failureTimes = tracked.state.failureTimes) (h : Counted setting tracked) :
    Counted setting { tracked with state := state } := by
  constructor
  · intro hclosed
    simp only [htimes]
    exact h.agrees (hopen.symm.trans hclosed)
  · intro hclosed
    simp only [htimes]
    exact h.below (hopen.symm.trans hclosed)

theorem release_open_until (state : GateState) (leaseId generation : ℕ) :
    (state.release leaseId generation).openUntil = state.openUntil := by
  unfold GateState.release
  split <;> rfl

theorem step_counted {op : RouteOp} {after : Tracked} (h : Counted setting tracked)
    (hstep : trackedStep setting tracked op = some after) : Counted setting after := by
  cases op with
  | failure now =>
    simp only [trackedStep] at hstep
    split_ifs at hstep with hnow
    cases hstep
    exact failure_counted setting hnow h
  | success now =>
    simp only [trackedStep] at hstep
    split_ifs at hstep with hnow
    cases hstep
    exact success_counted setting tracked now
  | claim leaseId =>
    cases hstep
    exact kept_counted setting _ rfl rfl h
  | release leaseId generation =>
    cases hstep
    exact kept_counted setting _ (release_open_until _ leaseId generation) rfl h
  | resolve leaseId generation =>
    cases hstep
    cases hheals : tracked.state.toGateState.heals leaseId generation with
    | true =>
      constructor
      · intro _
        simp only [RouteHealthState.resolve, hheals, if_true]
        exact agrees_nil setting _
      · intro _
        simp only [RouteHealthState.resolve, hheals, if_true]
        exact threshold_pos setting
    | false =>
      refine kept_counted setting _ ?_ ?_ h
      · simp [RouteHealthState.resolve, GateState.resolve, hheals, release_open_until]
      · simp [RouteHealthState.resolve, hheals]

theorem run_counted {ops : List RouteOp} (hrun : run (trackedStep setting) .new ops = some
    tracked) :
    Counted setting tracked :=
  run_invariant (Counted setting) (fun _ _ _ h hstep => step_counted setting h hstep)
    .new hrun (counted_new setting)

/-- The disposition of a closed gate counts the history in the window. -/
theorem closed_disposition (h : Counted setting tracked)
    (hbyte : setting.policy.routeFailuresToOpen ≤ 255) (hclosed : tracked.state.openUntil = none)
    (hnow : tracked.clock ≤ now) (hidle : tracked.state.activeProbe = none) :
    routeHealthDisposition tracked.state setting.policy.routeFailureWindow
        setting.policy.minimumCapacityCooldown now =
      if within setting now tracked.history = [] then .healthy
      else .watch (min (within setting now tracked.history).length (failureThreshold setting)) := by
  have hagrees := h.agrees hclosed
  have hrecent := recent_within setting now tracked.state.failureTimes
    (fun failureAt hmem => (hagrees.queued failureAt hmem).trans hnow)
  have hlength : (within setting now tracked.history).length < failureThreshold setting := by
    rw [← hagrees.same now hnow]
    exact (length_filter_le _ _).trans_lt (h.below hclosed)
  simp only [routeHealthDisposition, hidle, hclosed, Option.isSome_none, Bool.false_eq_true,
    if_false, hrecent, hagrees.same now hnow]
  have hsmall : failureThreshold setting ≤ 255 := by
    unfold failureThreshold
    omega
  cases hwithin : within setting now tracked.history with
  | nil => simp
  | cons failureAt rest =>
    rw [hwithin] at hlength
    simp only [length_cons] at hlength ⊢
    rw [if_pos (Nat.succ_pos _), if_neg (by simp), Nat.min_eq_left (by omega),
      Nat.min_eq_left (by omega)]

/-- On a gate that is not open the trimmed queue decides like the whole history: when a
failure opens the gate, and how many failures are reported at any later time. -/
theorem trimmed_queue_decides (hbyte : setting.policy.routeFailuresToOpen ≤ 255)
    (ops : List RouteOp) (tracked : Tracked)
    (hrun : run (trackedStep setting) .new ops = some tracked)
    (hclosed : tracked.state.openUntil = none) :
    (∀ now, tracked.clock ≤ now →
      ((applyRouteFailure setting now tracked.state).openUntil.isSome = true ↔
        failureThreshold setting ≤ (within setting now (tracked.history++[now])).length)) ∧
      ∀ now, tracked.clock ≤ now →
        (∀ count, routeHealthDisposition tracked.state setting.policy.routeFailureWindow
          setting.policy.minimumCapacityCooldown now = .watch count →
          count = min (within setting now tracked.history).length (failureThreshold setting)) ∧
        (tracked.state.activeProbe = none →
          routeHealthDisposition tracked.state setting.policy.routeFailureWindow
            setting.policy.minimumCapacityCooldown now =
            if within setting now tracked.history = [] then .healthy
            else .watch (min (within setting now tracked.history).length
              (failureThreshold setting))) := by
  have hcounted := run_counted setting hrun
  refine ⟨fun now hnow => failure_opens_iff setting hnow hclosed
    (hcounted.agrees hclosed), fun now hnow => ?_⟩
  have hdisposition := closed_disposition setting hcounted hbyte hclosed hnow
  refine ⟨?_, hdisposition⟩
  intro count hwatch
  have hidle : tracked.state.activeProbe = none := by
    cases hprobe : tracked.state.activeProbe with
    | none => rfl
    | some probe => simp [routeHealthDisposition, hprobe] at hwatch
  rw [hdisposition hidle] at hwatch
  split at hwatch
  · cases hwatch
  · exact (ShadowDisposition.watch.inj hwatch).symm

end Queue

def sampleTracked : Tracked :=
  ⟨⟨⟨none, 3, none⟩, [seconds 9, seconds 18]⟩, [0, seconds 9, seconds 18], seconds 18⟩

def sampleWindow : Setting ℕ :=
  ⟨⟨seconds 10, 3, seconds 30, seconds 30, seconds 3600, by decide⟩, [0], seconds 1000000,
    by decide⟩

theorem trimmed_queue_decides_sample :
    run (trackedStep sampleWindow) .new
        [.failure 0, .failure (seconds 9), .failure (seconds 18)] = some sampleTracked ∧
      ((applyRouteFailure sampleWindow (seconds 19) sampleTracked.state).openUntil.isSome = true ↔
        failureThreshold sampleWindow ≤
          (within sampleWindow (seconds 19) (sampleTracked.history++[seconds 19])).length) :=
  have hrun : run (trackedStep sampleWindow) .new
      [.failure 0, .failure (seconds 9), .failure (seconds 18)] = some sampleTracked := by
    decide +kernel
  ⟨hrun, (trimmed_queue_decides sampleWindow (by decide) _ sampleTracked hrun rfl).1
    (seconds 19) (by decide)⟩

end Maple.Health
