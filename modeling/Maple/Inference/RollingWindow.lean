import Maple.Inference.RateLimit

/-!
# The rolling window over every sequence of calls

The table keeps of each account exactly the admissions that can still count, whether
or not the account was reclaimed in between. The number of admissions in any window,
the cooldown of a blocked account and the size of the table follow.
-/

set_option autoImplicit false

namespace Maple.Inference.RollingWindow

open Keyed RateLimit List

section Window
variable (L : RateLimiter)

theorem admitWindow_cases (state : AccountWindow) (now : ℕ) :
    (∃ u, state.blockedUntil = some u ∧ now < u ∧
      admitWindow L state now = (state, rateLimited (u-now))) ∨
      admitWindow L state now = admitFree L state now := by
  unfold admitWindow
  cases hblocked : state.blockedUntil with
  | none => exact .inr rfl
  | some u =>
    by_cases hactive : now < u
    · exact .inl ⟨u,rfl,hactive,if_pos hactive⟩
    · exact .inr (if_neg hactive)

theorem rateLimited_ne_ok (remaining : ℕ) : rateLimited remaining ≠ .ok := by
  unfold rateLimited
  simp

/-- Either the window is full and a cooldown starts, or the request is admitted. -/
theorem admitFree_cases (state : AccountWindow) (now : ℕ) :
    (L.rpm ≤ (expire now state.admitted).length ∧
      admitFree L state now = (⟨expire now state.admitted,some (now+L.cooldown),
        max state.retainUntil (now+L.cooldown)⟩, rateLimited L.cooldown)) ∨
    ((expire now state.admitted).length < L.rpm ∧
      admitFree L state now = (⟨expire now state.admitted++[now],none,now+window⟩, .ok)) := by
  unfold admitFree
  by_cases hfull : L.rpm ≤ (expire now state.admitted).length
  · exact .inl ⟨hfull,if_pos hfull⟩
  · exact .inr ⟨Nat.lt_of_not_le hfull,if_neg hfull⟩

variable {state : AccountWindow} {now : ℕ}

theorem admitFree_sound (h : Sound L state now) : Sound L (admitFree L state now).1 now := by
  have hsub := expire_sublist now state.admitted
  rcases admitFree_cases L state now with ⟨-,heq⟩ | ⟨hroom,heq⟩
  · rw [heq]
    refine ⟨h.sorted.sublist hsub,fun time htime => h.past time (hsub.subset htime),
      hsub.length_le.trans h.full,?_,?_⟩
    · intro time htime
      exact (h.kept time (hsub.subset htime)).trans (le_max_left _ _)
    · intro u hu
      cases hu
      exact le_max_right _ _
  · rw [heq]
    refine ⟨?_,?_,?_,?_,?_⟩
    · rw [pairwise_append]
      refine ⟨h.sorted.sublist hsub,pairwise_singleton _ _,?_⟩
      intro a ha b hb
      rw [mem_singleton.mp hb]
      exact h.past a (hsub.subset ha)
    · intro time htime
      rcases mem_append.mp htime with hold | hnew
      · exact h.past time (hsub.subset hold)
      · exact (mem_singleton.mp hnew).le
    · rw [length_append, length_singleton]
      exact hroom
    · intro time htime
      have hpast : time ≤ now := by
        rcases mem_append.mp htime with hold | hnew
        · exact h.past time (hsub.subset hold)
        · exact (mem_singleton.mp hnew).le
      exact Nat.add_le_add_right hpast window
    · intro u hu
      cases hu

theorem admitWindow_sound (h : Sound L state now) : Sound L (admitWindow L state now).1 now := by
  rcases admitWindow_cases L state now with ⟨u,-,-,heq⟩ | heq
  · rw [heq]
    exact h
  · rw [heq]
    exact admitFree_sound L h

def counting (at' : ℕ) (times : List ℕ) : List ℕ :=
  times.filter (fun time => at' < time+window)

theorem counting_append (at' : ℕ) (times more : List ℕ) :
    counting at' (times++more) = counting at' times++counting at' more := List.filter_append ..

theorem counting_expire {later : ℕ} (hle : now ≤ later) {times : List ℕ}
    (hsorted : times.Pairwise (· ≤ ·)) :
    counting later (expire now times) = counting later times := by
  rw [expire_counts now hsorted]
  unfold counting
  rw [filter_filter]
  refine filter_congr (fun time _ => ?_)
  by_cases hlater : later < time+window
  · simp only [hlater, decide_true, Bool.true_and, decide_eq_true_eq]
    omega
  · simp [hlater]

/-- An answer adds to what counts exactly when it is an admission. -/
theorem admitWindow_counting {later : ℕ} (h : Sound L state now) (hle : now ≤ later) :
    counting later (admitWindow L state now).1.admitted =
      counting later (state.admitted++if (admitWindow L state now).2 = .ok then [now] else []) := by
  rcases admitWindow_cases L state now with ⟨u,-,-,heq⟩ | heq
  · rw [heq, if_neg (rateLimited_ne_ok _), append_nil]
  rw [heq]
  rcases admitFree_cases L state now with ⟨-,hfree⟩ | ⟨-,hfree⟩
  · rw [hfree, if_neg (rateLimited_ne_ok _), append_nil]
    exact counting_expire hle h.sorted
  · rw [hfree, if_pos rfl, counting_append, counting_append, counting_expire hle h.sorted]

/-- An admission finds fewer than the limit still counting. -/
theorem admitWindow_room (h : Sound L state now) (hok : (admitWindow L state now).2 = .ok) :
    (counting now state.admitted).length < L.rpm := by
  rcases admitWindow_cases L state now with ⟨u,-,-,heq⟩ | heq
  · rw [heq] at hok
    exact absurd hok (rateLimited_ne_ok _)
  rw [heq] at hok
  rcases admitFree_cases L state now with ⟨-,hfree⟩ | ⟨hroom,-⟩
  · rw [hfree] at hok
    exact absurd hok (rateLimited_ne_ok _)
  · rw [expire_counts now h.sorted] at hroom
    exact hroom

end Window

section Accounts
variable (L : RateLimiter) {A : Type} [DecidableEq A]

/-- Reclaiming drops only accounts that nothing remembers any more. -/
theorem reclaim_get (accounts : Map A AccountWindow) (account other : A) (now : ℕ) :
    (reclaim L accounts account now).get other = accounts.get other ∨
      ∃ state, accounts.get other = some state ∧ state.retainUntil ≤ now ∧
        (reclaim L accounts account now).get other = none := by
  unfold reclaim
  split_ifs with hfull
  · rw [get_retain]
    cases hget : accounts.get other with
    | none => exact .inl rfl
    | some state =>
      by_cases hlive : now < state.retainUntil
      · exact .inl (Option.filter_some_pos (decide_eq_true hlive))
      · exact .inr ⟨state,rfl,Nat.le_of_not_lt hlive,
          Option.filter_some_neg (decide_eq_false hlive)⟩
  · exact .inl rfl

variable {accounts : Map A AccountWindow} {now : ℕ} {state : AccountWindow}

theorem reclaim_live (account : A) {other : A} (hget : accounts.get other = some state)
    (hlive : now < state.retainUntil) :
    (reclaim L accounts account now).get other = some state := by
  rcases reclaim_get L accounts account other now with hsame | ⟨old,hold,hdead,-⟩
  · rw [hsame, hget]
  · rw [hget] at hold
    cases hold
    omega

theorem reclaim_size (accounts : Map A AccountWindow) (account : A) (now : ℕ) :
    (reclaim L accounts account now).size ≤ accounts.size := by
  unfold reclaim
  split_ifs
  · exact size_retain _ _
  · exact le_rfl

def found (accounts : Map A AccountWindow) (account : A) (now : ℕ) : AccountWindow :=
  ((reclaim L accounts account now).get account).getD (newWindow now)

theorem admit_cases (accounts : Map A AccountWindow) (account : A) (now : ℕ) :
    ((reclaim L accounts account now).get account = none ∧ admitAccount L accounts account now =
        (reclaim L accounts account now, .serviceUnavailable)) ∨
    (((reclaim L accounts account now).get account = none →
        (reclaim L accounts account now).size < L.maxAccounts) ∧
      admitAccount L accounts account now = ((reclaim L accounts account now).set account
          (admitWindow L (found L accounts account now) now).1,
        (admitWindow L (found L accounts account now) now).2)) := by
  unfold admitAccount
  by_cases hfull : ((reclaim L accounts account now).get account).isNone ∧
      L.maxAccounts ≤ (reclaim L accounts account now).size
  · exact .inl ⟨Option.isNone_iff_eq_none.mp hfull.1,if_pos hfull⟩
  · refine .inr ⟨fun hnone => ?_,if_neg hfull⟩
    by_contra hsize
    exact hfull ⟨by rw [hnone]; rfl,Nat.le_of_not_lt hsize⟩

theorem admit_size (account : A) (now : ℕ) (h : accounts.size ≤ L.maxAccounts) :
    (admitAccount L accounts account now).1.size ≤ L.maxAccounts := by
  have hsize := (reclaim_size L accounts account now).trans h
  rcases admit_cases L accounts account now with ⟨-,heq⟩ | ⟨hroom,heq⟩
  · rw [heq]
    exact hsize
  · rw [heq, size_set]
    cases hget : (reclaim L accounts account now).get account with
    | none => exact hroom hget
    | some state => exact hsize

def held (accounts : Map A AccountWindow) (account : A) : List ℕ :=
  ((accounts.get account).map AccountWindow.admitted).getD []

structure Ledger (accounts : Map A AccountWindow) (log : List ((A × ℕ) × Outcome)) (now : ℕ) :
    Prop where
  size : accounts.size ≤ L.maxAccounts
  sound : ∀ account state, accounts.get account = some state → Sound L state now
  counted : ∀ account later, now ≤ later →
    counting later (admissions account log) = counting later (held accounts account)
  past : ∀ account, ∀ time ∈ admissions account log, time ≤ now
  bounded : ∀ account at', ((admissions account log).filter
    (fun time => at' < time+window ∧ time ≤ at')).length ≤ L.rpm

theorem ledger_empty (now : ℕ) : Ledger L (Map.empty : Map A AccountWindow) [] now :=
  ⟨Nat.zero_le _,fun _ _ h => (nomatch h),fun _ _ _ => rfl,
    fun _ _ h => absurd h not_mem_nil,fun _ _ => Nat.zero_le _⟩

variable {later : ℕ}

theorem found_sound {log : List ((A × ℕ) × Outcome)} (account : A) (h : Ledger L accounts log now)
    (hle : now ≤ later) : Sound L (found L accounts account later) later := by
  unfold found
  rcases reclaim_get L accounts account account later with hsame | ⟨state,-,-,hnone⟩
  · rw [hsame]
    cases hget : accounts.get account with
    | none => exact newWindow_sound L later
    | some state => exact sound_later L (h.sound account state hget) hle
  · rw [hnone]
    exact newWindow_sound L later

/-- Reclaiming loses nothing that still counts. -/
theorem reclaim_counting {log : List ((A × ℕ) × Outcome)} (account other : A) {time : ℕ}
    (h : Ledger L accounts log now) (hlater : time ≤ later) :
    counting later (held (reclaim L accounts account time) other) =
      counting later (held accounts other) := by
  unfold held
  rcases reclaim_get L accounts account other time with hsame | ⟨state,hget,hdead,hnone⟩
  · rw [hsame]
  · rw [hnone, hget]
    refine (filter_eq_nil_iff.mpr (fun old hold => ?_)).symm
    have hkept := (h.sound other state hget).kept old hold
    simp only [decide_eq_true_eq]
    omega

theorem found_admitted (accounts : Map A AccountWindow) (account : A) (now : ℕ) :
    (found L accounts account now).admitted = held (reclaim L accounts account now) account := by
  unfold found held
  cases (reclaim L accounts account now).get account <;> rfl

theorem admissions_push (account : A) (log : List ((A × ℕ) × Outcome)) (call : A × ℕ)
    (outcome : Outcome) :
    admissions account (log++[(call, outcome)]) =
      admissions account log++if call.1 = account ∧ outcome = .ok then [call.2] else [] := by
  unfold admissions
  rw [filter_append, map_append]
  congr 1
  by_cases hcall : call.1 = account ∧ outcome = .ok
  · simp [hcall]
  · simp [hcall]

/-- The bound on every window survives one more answer: before the call nothing new
counts, and from the call on at most what the window still held. -/
theorem bounded_push {log : List ((A × ℕ) × Outcome)} {call : A × ℕ} (h : Ledger L accounts log now)
    (hfound : Sound L (found L accounts call.1 call.2) call.2)
    (hold : ∀ account later, call.2 ≤ later →
      counting later (admissions account log) = counting later
      (held (reclaim L accounts call.1 call.2) account))
    (account : A) (at' : ℕ) : ((admissions account (log++[(call,
        (admitWindow L (found L accounts call.1 call.2) call.2).2)])).filter
      (fun time => at' < time+window ∧ time ≤ at')).length ≤ L.rpm := by
  rw [admissions_push]
  by_cases hadmitted : call.1 = account ∧
      (admitWindow L (found L accounts call.1 call.2) call.2).2 = .ok
  · rw [if_pos hadmitted, filter_append, length_append]
    by_cases hbefore : at' < call.2
    · have hnone : [call.2].filter (fun time => at' < time+window ∧ time ≤ at') = [] := by
        rw [filter_eq_nil_iff]
        intro time htime
        rw [mem_singleton.mp htime]
        simp only [decide_eq_true_eq]
        omega
      rw [hnone]
      exact h.bounded account at'
    · have hsub : ((admissions account log).filter
          (fun time => at' < time+window ∧ time ≤ at')).length ≤
          (counting call.2 (admissions account log)).length := by
        refine List.Sublist.length_le (monotone_filter_right _ (fun time => ?_))
        simp only [decide_eq_true_eq]
        omega
      have hroom := admitWindow_room L hfound hadmitted.2
      rw [found_admitted, hadmitted.1] at hroom
      rw [hold account call.2 le_rfl, hadmitted.1] at hsub
      have hone : ([call.2].filter (fun time => at' < time+window ∧ time ≤ at')).length ≤ 1 :=
        length_filter_le _ _
      omega
  · rw [if_neg hadmitted, append_nil]
    exact h.bounded account at'

/-- One call keeps the table in step with the log. -/
theorem admit_ledger (accounts : Map A AccountWindow) (log : List ((A × ℕ) × Outcome))
    (now : ℕ) (call : A × ℕ) (h : Ledger L accounts log now) (hle : now ≤ call.2) :
    Ledger L (admitAccount L accounts call.1 call.2).1
      (log++[(call, (admitAccount L accounts call.1 call.2).2)]) call.2 := by
  have hfound := found_sound L call.1 h hle
  have hold : ∀ account later, call.2 ≤ later → counting later (admissions account log) =
      counting later (held (reclaim L accounts call.1 call.2) account) := by
    intro account later hlater
    rw [reclaim_counting L call.1 account h hlater]
    exact h.counted account later (hle.trans hlater)
  have hreclaimed : ∀ account state,
      (reclaim L accounts call.1 call.2).get account = some state → Sound L state call.2 := by
    intro account state hget
    rcases reclaim_get L accounts call.1 account call.2 with hsame | ⟨-,-,-,hnone⟩
    · rw [hsame] at hget
      exact sound_later L (h.sound account state hget) hle
    · rw [hnone] at hget
      cases hget
  have hpast : ∀ account outcome, ∀ time ∈ admissions account (log++[(call, outcome)]),
      time ≤ call.2 := by
    intro account outcome time htime
    rw [admissions_push] at htime
    rcases mem_append.mp htime with hmem | hnew
    · exact (h.past account time hmem).trans hle
    · split_ifs at hnew
      · exact (mem_singleton.mp hnew).le
      · cases hnew
  rcases admit_cases L accounts call.1 call.2 with ⟨-,heq⟩ | ⟨-,heq⟩
  · have hsame : ∀ account, admissions account (log++[(call, Outcome.serviceUnavailable)]) =
        admissions account log := by
      intro account
      rw [admissions_push]
      simp
    refine ⟨admit_size L call.1 call.2 h.size,?_,?_,?_,?_⟩
    · rw [heq]
      exact hreclaimed
    · intro account later hlater
      rw [heq, hsame]
      exact hold account later hlater
    · intro account
      exact hpast account _
    · intro account at'
      rw [heq, hsame]
      exact h.bounded account at'
  · refine ⟨admit_size L call.1 call.2 h.size,?_,?_,?_,?_⟩
    · rw [heq]
      intro account state hget
      rw [get_set] at hget
      split_ifs at hget with hsame
      · cases hget
        exact admitWindow_sound L hfound
      · exact hreclaimed account state hget
    · rw [heq]
      intro account later hlater
      rw [admissions_push, counting_append, hold account later hlater]
      by_cases hsame : call.1 = account
      · subst hsame
        simp only [held, get_set, if_true, Option.map_some, Option.getD_some, true_and]
        rw [admitWindow_counting L hfound hlater, counting_append, found_admitted]
        rfl
      · have hother : ¬account = call.1 := fun h => hsame h.symm
        simp only [held, get_set, hother, if_false, hsame, false_and]
        exact append_nil _
    · intro account
      exact hpast account _
    · rw [heq]
      intro account at'
      exact bounded_push L h hfound hold account at'

theorem serve_ledger {calls : List (A × ℕ)} (accounts : Map A AccountWindow)
    (log : List ((A × ℕ) × Outcome)) (now : ℕ) (h : Ledger L accounts log now)
    (hsorted : calls.Pairwise (fun a b => a.2 ≤ b.2)) (hnow : ∀ call ∈ calls, now ≤ call.2) :
    ∃ last, (∀ call ∈ calls, call.2 ≤ last) ∧ now ≤ last ∧
      (∀ later, now ≤ later → (∀ call ∈ calls, call.2 ≤ later) → last ≤ later) ∧
      Ledger L (serve L accounts calls) (log++answers L accounts calls) last := by
  induction calls generalizing accounts log now with
  | nil =>
    refine ⟨now,fun _ h => absurd h not_mem_nil,le_rfl,fun _ hlater _ => hlater,?_⟩
    rw [show answers L accounts [] = [] from rfl, append_nil]
    exact h
  | cons call rest ih =>
    obtain ⟨hfirst,hrest⟩ := pairwise_cons.mp hsorted
    have hstep := admit_ledger L accounts log now call h (hnow call mem_cons_self)
    obtain ⟨last,hlast,hcall,hleast,hledger⟩ := ih _ _ call.2 hstep hrest hfirst
    refine ⟨last,?_,(hnow call mem_cons_self).trans hcall,?_,?_⟩
    · intro other hother
      rcases mem_cons.mp hother with rfl | hother
      · exact hcall
      · exact hlast other hother
    · intro later _ hall
      exact hleast later (hall call mem_cons_self)
        (fun other hother => hall other (mem_cons_of_mem call hother))
    · rw [append_assoc] at hledger
      exact hledger

/-- The ledger of a run from the start, at the time of its last call. -/
theorem served_ledger {calls : List (A × ℕ)} (hsorted : calls.Pairwise (fun a b => a.2 ≤ b.2)) :
    ∃ last, Ledger L (serve L Map.empty calls) (answers L Map.empty calls) last ∧
      ∀ later, (∀ call ∈ calls, call.2 ≤ later) → last ≤ later := by
  obtain ⟨last,-,-,hleast,hledger⟩ := serve_ledger L Map.empty [] 0 (ledger_empty L 0)
    hsorted (fun _ _ => Nat.zero_le _)
  exact ⟨last,hledger,fun later => hleast later (Nat.zero_le _)⟩

variable {account : A}

/-- A call that is refused for its rate leaves its account blocked. -/
theorem refused_blocked {retry : ℕ}
    (h : (admitAccount L accounts account now).2 = .inferenceRateLimited retry) :
    ∃ state u, (admitAccount L accounts account now).1.get account = some state ∧
      state.blockedUntil = some u ∧ rateLimited (u-now) = .inferenceRateLimited retry ∧
      (u = now+L.cooldown ∨ now < u ∧ accounts.get account = some state) := by
  rcases admit_cases L accounts account now with ⟨-,heq⟩ | ⟨-,heq⟩
  · rw [heq] at h
    cases h
  rw [heq] at h ⊢
  rw [get_set, if_pos rfl]
  rcases admitWindow_cases L (found L accounts account now) now with ⟨u,hu,hlt,hwindow⟩ | hwindow
  · rw [hwindow] at h ⊢
    refine ⟨_,u,rfl,hu,h,.inr ⟨hlt,?_⟩⟩
    unfold found at hu ⊢
    cases hget : (reclaim L accounts account now).get account with
    | none =>
      rw [hget] at hu
      cases hu
    | some old =>
      rcases reclaim_get L accounts account account now with hsame | ⟨-,-,-,hnone⟩
      · exact hsame.symm.trans hget
      · rw [hget] at hnone
        cases hnone
  rw [hwindow] at h ⊢
  rcases admitFree_cases L (found L accounts account now) now with ⟨-,hfree⟩ | ⟨-,hfree⟩
  · rw [hfree] at h ⊢
    exact ⟨_,_,rfl,rfl,by rw [Nat.add_sub_cancel_left]; exact h,.inl rfl⟩
  · rw [hfree] at h
    cases h

/-- While a block is active no call moves it, and its account's calls are refused. -/
theorem admit_blocked (caller : A) {u : ℕ} (hget : accounts.get account = some state)
    (hblocked : state.blockedUntil = some u) (hretain : u ≤ state.retainUntil) (hnow : now < u) :
    (admitAccount L accounts caller now).1.get account = some state ∧
      (caller = account → (admitAccount L accounts caller now).2 = rateLimited (u-now)) := by
  have hkept := reclaim_live L caller hget (hnow.trans_le hretain)
  have hactive : admitWindow L state now = (state, rateLimited (u-now)) := by
    unfold admitWindow
    rw [hblocked]
    exact if_pos hnow
  rcases admit_cases L accounts caller now with ⟨hnone,heq⟩ | ⟨-,heq⟩
  · rw [heq]
    refine ⟨hkept,?_⟩
    rintro rfl
    rw [hkept] at hnone
    cases hnone
  · rw [heq, get_set]
    by_cases hsame : caller = account
    · subst hsame
      have hfound : found L accounts caller now = state := by
        unfold found
        rw [hkept]
        rfl
      rw [hfound, hactive]
      exact ⟨if_pos rfl,fun _ => rfl⟩
    · exact ⟨by rw [if_neg (fun h => hsame h.symm)]; exact hkept,fun h => absurd h hsame⟩

theorem serve_blocked {calls : List (A × ℕ)} (accounts : Map A AccountWindow) {u : ℕ}
    (hget : accounts.get account = some state) (hblocked : state.blockedUntil = some u)
    (hretain : u ≤ state.retainUntil) (hcalls : ∀ call ∈ calls, call.2 < u) :
    (serve L accounts calls).get account = some state := by
  induction calls generalizing accounts with
  | nil => exact hget
  | cons call rest ih =>
    exact ih _ (admit_blocked L call.1 hget hblocked hretain (hcalls call mem_cons_self)).1
      (fun other hother => hcalls other (mem_cons_of_mem call hother))

/-- A call that finds no room for its account leaves every window that is still retained. -/
theorem unavailable_keeps {other : A} (hget : accounts.get other = some state)
    (hretained : now < state.retainUntil)
    (h : (admitAccount L accounts account now).2 = .serviceUnavailable) :
    (admitAccount L accounts account now).1.get other = some state := by
  rcases admit_cases L accounts account now with ⟨-,heq⟩ | ⟨-,heq⟩
  · rw [heq]
    exact reclaim_live L account hget hretained
  rw [heq] at h
  rcases admitWindow_cases L (found L accounts account now) now with ⟨u,-,-,hwindow⟩ | hwindow
  · rw [hwindow] at h
    cases h
  rw [hwindow] at h
  rcases admitFree_cases L (found L accounts account now) now with ⟨-,hfree⟩ | ⟨-,hfree⟩
  all_goals
    rw [hfree] at h
    cases h

/-- An account with an admission that counts, or with an active block. -/
def Live (state : AccountWindow) (now : ℕ) : Prop :=
  (∃ time ∈ state.admitted, now < time+window) ∨ ∃ u, state.blockedUntil = some u ∧ now < u

theorem live_retained (at' : ℕ) (h : Sound L state now) (hlive : Live state at') :
    at' < state.retainUntil := by
  rcases hlive with ⟨time,htime,hcounts⟩ | ⟨u,hu,hactive⟩
  · exact hcounts.trans_le (h.kept time htime)
  · exact hactive.trans_le (h.blocked u hu)

theorem rate_limit_holds (calls : List (A × ℕ))
    (hsorted : calls.Pairwise (fun a b => a.2 ≤ b.2)) :
    (∀ account at', ((admissions account (answers L Map.empty calls)).filter
      (fun time => at' < time+window ∧ time ≤ at')).length ≤ L.rpm) ∧
    (∀ (before between after : List (A × ℕ)) (account : A) (time later retry : ℕ),
      calls = before++(account, time)::(between++(account, later)::after) →
      (admitAccount L (serve L Map.empty before) account time).2 = .inferenceRateLimited retry →
      ∃ state u, (serve L Map.empty (before++[(account, time)])).get account = some state ∧
        state.blockedUntil = some u ∧ rateLimited (u-time) = .inferenceRateLimited retry ∧
        (u = time+L.cooldown ∨ time < u ∧ (serve L Map.empty before).get account = some state) ∧
        (later < u →
          (admitAccount L (serve L Map.empty (before++(account, time)::between)) account later).2 =
            rateLimited (u-later) ∧
          (serve L Map.empty (before++(account, time)::(between++[(account, later)]))).get account =
            some state)) ∧
    (∀ (before after : List (A × ℕ)), calls = before++after →
      (serve L Map.empty before).size ≤ L.maxAccounts) ∧
    (∀ (before after : List (A × ℕ)) (caller other : A) (now : ℕ) (state : AccountWindow),
      calls = before++(caller, now)::after →
      (admitAccount L (serve L Map.empty before) caller now).2 = .serviceUnavailable →
      (serve L Map.empty before).get other = some state →
      Live state now ∨ now < state.retainUntil →
      (serve L Map.empty (before++[(caller, now)])).get other = some state) := by
  refine ⟨?_, ?_, ?_, ?_⟩
  · obtain ⟨last,hledger,-⟩ := served_ledger L hsorted
    exact hledger.bounded
  · intro before between after account time later retry hcalls hrefused
    rw [hcalls, List.pairwise_append] at hsorted
    obtain ⟨hbefore,hrest,hcross⟩ := hsorted
    obtain ⟨hfirst,hrest⟩ := List.pairwise_cons.mp hrest
    obtain ⟨state,u,hget,hblocked,hhint,hsince⟩ := refused_blocked L hrefused
    have hthen (rest : List (A × ℕ)) : serve L Map.empty (before++(account, time)::rest) =
        serve L (admitAccount L (serve L Map.empty before) account time).1 rest := by
      rw [serve_append]
      rfl
    refine ⟨state, u, by rw [hthen]; exact hget, hblocked, hhint, hsince, fun hlater => ?_⟩
    have hpast : ∀ call ∈ before, call.2 ≤ time := fun call hcall =>
      hcross call hcall _ List.mem_cons_self
    obtain ⟨last,hledger,hleast⟩ := served_ledger L hbefore
    have hretain : u ≤ state.retainUntil :=
      ((admit_ledger L _ _ last (account, time) hledger (hleast time hpast)).sound account state
        hget).blocked u hblocked
    have hmid : ∀ call ∈ between, call.2 < u := by
      intro call hcall
      have hle : call.2 ≤ later :=
        (List.pairwise_append.mp hrest).2.2 call hcall _ List.mem_cons_self
      exact hle.trans_lt hlater
    have hstill := serve_blocked L _ hget hblocked hretain hmid
    obtain ⟨hkept,hanswer⟩ := admit_blocked L account hstill hblocked hretain hlater
    refine ⟨by rw [hthen]; exact hanswer rfl, ?_⟩
    rw [← List.cons_append, ← List.append_assoc, serve_append, hthen]
    exact hkept
  · intro before after hcalls
    rw [hcalls, List.pairwise_append] at hsorted
    obtain ⟨last,hledger,-⟩ := served_ledger L hsorted.1
    exact hledger.size
  · intro before after caller other now state hcalls hanswer hget hlive
    rw [hcalls, List.pairwise_append] at hsorted
    obtain ⟨last,hledger,-⟩ := served_ledger L hsorted.1
    have hretained : now < state.retainUntil := hlive.elim
      (live_retained L now (hledger.sound other state hget)) id
    rw [serve_append]
    exact unavailable_keeps L hget hretained hanswer

end Accounts

def strict : RateLimiter := ⟨1, window, 1, le_rfl, le_rfl⟩

/-- An admission, a refusal, a second refusal, and another account turned away. -/
def strictCalls : List (Bool × ℕ) := [(true, 0), (true, 1), (true, 2), (false, 3)]

theorem rate_limit_holds_strict :
    strictCalls.Pairwise (fun a b => a.2 ≤ b.2) ∧
    (admissions true (answers strict Map.empty strictCalls)).length = 1 ∧
    (admitAccount strict (serve strict Map.empty [(true, 0)]) true 1).2 = .inferenceRateLimited 60 ∧
    (∃ state u, (serve strict Map.empty [(true, 0), (true, 1)]).get true = some state ∧
      state.blockedUntil = some u ∧ rateLimited (u-1) = .inferenceRateLimited 60 ∧
      (u = 1+window ∨ 1 < u ∧ (serve strict Map.empty [(true, 0)]).get true = some state) ∧
      (2 < u → (admitAccount strict (serve strict Map.empty [(true, 0), (true, 1)]) true 2).2 =
        rateLimited (u-2) ∧
        (serve strict Map.empty [(true, 0), (true, 1), (true, 2)]).get true = some state)) ∧
    (admitAccount strict (serve strict Map.empty [(true, 0), (true, 1), (true, 2)]) false 3).2 =
      .serviceUnavailable ∧
    (serve strict Map.empty strictCalls).size ≤ 1 := by
  have hsorted : strictCalls.Pairwise (fun a b => a.2 ≤ b.2) := by decide
  obtain ⟨-,hblock,hsize,-⟩ := rate_limit_holds strict strictCalls hsorted
  refine ⟨hsorted, by decide +kernel, by decide +kernel, ?_, by decide +kernel, ?_⟩
  · exact hblock [(true, 0)] [] [(false, 3)] true 1 2 60 rfl (by decide +kernel)
  · exact hsize strictCalls [] (List.append_nil _).symm

end Maple.Inference.RollingWindow
