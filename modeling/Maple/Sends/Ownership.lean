import Maple.Sends.Rows

/-!
# Who owns a receipt

A request that was admitted owns the row of its id, no other request does, and every
dispatch has the row of its reservation. Steps and so runs keep this.
-/

set_option autoImplicit false

namespace Maple.Sends

open Session.Entries Text JsonText Timeline.Value Timeline.Item List Function

section Invariant
variable {Digest : Type} (host : Host Digest)

/-- A row has the fingerprint, the account and the task of its reservation's parameters. -/
def RowOk (accounts : List Account) (row : Receipt Digest) : Prop :=
  sendFingerprint host.sha256 row.first.value = .ok row.fingerprint ∧
    Names host accounts row.first row.account row.task

def Sound (accounts : List Account) (table : Table Digest) : Prop :=
  ∀ id row, table id = some row → RowOk host accounts row

structure Inv (s : State Digest) : Prop where
  rows : Sound host s.accounts s.table
  owned : ∀ request flight, s.flights request = some flight → flight.phase ≠ .arrived →
    ∃ row, s.table flight.id = some row ∧ row.first = flight.parameters
  sole : ∀ request request' flight flight', s.flights request = some flight →
    s.flights request' = some flight' → flight.phase ≠ .arrived → flight'.phase ≠ .arrived →
    flight.id = flight'.id → request = request'
  fresh : ∀ request flight, s.flights request = some flight → flight.phase = .admitted →
    ∀ entry ∈ s.log, entry.id ≠ flight.id
  logged : ∀ entry ∈ s.log, ∃ row, s.table entry.id = some row ∧ row.first = entry.parameters
  once : (s.log.map Dispatch.id).Nodup

theorem inv_start : Inv host start where
  rows := fun _ _ h => nomatch h
  owned := fun _ _ h => nomatch h
  sole := fun _ _ _ _ h => nomatch h
  fresh := fun _ _ h => nomatch h
  logged := fun _ h => nomatch h
  once := List.nodup_nil

variable {accounts : List Account} {parameters : Parameters} {host} {accounts' : List Account}

theorem names_kept {account : ℕ} {task : String}
    (hk : AccountsKept accounts accounts') (h : Names host accounts parameters account task) :
    Names host accounts' parameters account task := by
  obtain ⟨htask,user,huser,haccount⟩ := h
  exact ⟨htask,user,huser,account_kept host hk haccount⟩

variable {table : Table Digest}

theorem sound_accounts (hk : AccountsKept accounts accounts')
    (h : Sound host accounts table) : Sound host accounts' table :=
  fun id row hrow => ⟨(h id row hrow).1,names_kept hk (h id row hrow).2⟩

theorem sound_mark (h : Sound host accounts table) :
    Sound host accounts (markInterruptedReceipts table) := by
  intro id row hrow
  obtain ⟨old,hold,rfl⟩ := Option.map_eq_some_iff.mp hrow
  have hok := h id old hold
  split_ifs
  · exact hok
  · exact hok

theorem sound_update (id : String) (row : Receipt Digest) (hrow : RowOk host accounts row)
    (h : Sound host accounts table) :
    Sound host accounts (Function.update table id (some row)) := by
  intro key found hfound
  by_cases hkey : key = id
  · subst hkey
    rw [update_self] at hfound
    cases hfound
    exact hrow
  · rw [update_of_ne hkey] at hfound
    exact h key found hfound

variable {id : String} {table' : Table Digest}

theorem sound_finish {user : String} {result : SendResult}
    (h : Receipts.finish host accounts table user id result = .ok table')
    (hs : Sound host accounts table) : Sound host accounts table' := by
  obtain ⟨account,hf⟩ := finish_ok h
  obtain rfl | ⟨row,hrow,-,-,rfl⟩ := finishSend_ok hf
  · exact hs
  · exact sound_update id _ (hs id row hrow) hs

theorem sound_reserve [DecidableEq Digest] {taskLive : Bool} {outcome : Option Outcome}
    (h : Receipts.reserve host accounts table id parameters taskLive = .ok (outcome, table'))
    (hs : Sound host accounts table) : Sound host accounts table' := by
  obtain ⟨account,task,hnames,hr⟩ := reserve_ok h
  obtain ⟨fingerprint,hprint,⟨-,-,rfl⟩ | ⟨row,reported,-,rfl,-⟩⟩ :=
    reserveSend_ok host hr
  · exact sound_update id _ ⟨hprint,hnames⟩ hs
  · exact hs

variable {s : State Digest}

/-- Requests may go, the table may move on and accounts may be added. -/
theorem inv_fewer {s' : State Digest} (hs : Inv host s) (hk : Kept s.table s'.table)
    (hrows : Sound host s'.accounts s'.table)
    (hflights : ∀ request flight, s'.flights request = some flight →
      s.flights request = some flight)
    (hlog : s'.log = s.log) : Inv host s' where
  rows := hrows
  owned := by
    intro request flight hf hphase
    obtain ⟨row,hrow,hfirst⟩ := hs.owned request flight (hflights request flight hf) hphase
    obtain ⟨row',hrow',hl⟩ := hk flight.id row hrow
    exact ⟨row',hrow',hl.first.trans hfirst⟩
  sole := fun request request' flight flight' hf hf' =>
    hs.sole request request' flight flight' (hflights _ _ hf) (hflights _ _ hf')
  fresh := fun request flight hf hphase entry he =>
    hs.fresh request flight (hflights _ _ hf) hphase entry (hlog ▸ he)
  logged := by
    intro entry he
    obtain ⟨row,hrow,hfirst⟩ := hs.logged entry (hlog ▸ he)
    obtain ⟨row',hrow',hl⟩ := hk entry.id row hrow
    exact ⟨row',hrow',hl.first.trans hfirst⟩
  once := hlog ▸ hs.once

variable {request : ℕ}

theorem put_flight {other : ℕ} {flight found : Flight}
    (h : (s.put request flight).flights other = some found) :
    (other = request ∧ found = flight) ∨ (other ≠ request ∧ s.flights other = some found) := by
  by_cases ho : other = request
  · subst ho
    simp only [State.put, update_self] at h
    exact .inl ⟨rfl,(Option.some.inj h).symm⟩
  · simp only [State.put, update_of_ne ho] at h
    exact .inr ⟨ho,h⟩

theorem drop_flight {other : ℕ} {found : Flight} (h : (s.drop request).flights other = some found) :
    s.flights other = some found := by
  by_cases ho : other = request
  · subst ho
    simp only [State.drop, update_self] at h
    cases h
  · simpa only [State.drop, update_of_ne ho] using h

theorem inv_arrive (hs : Inv host s) (request : ℕ) (id : String) (parameters : Parameters) :
    Inv host (s.put request ⟨id,parameters,.arrived⟩) where
  rows := hs.rows
  owned := by
    intro other flight hf hphase
    obtain ⟨-,rfl⟩ | ⟨-,hf⟩ := put_flight hf
    · exact absurd rfl hphase
    · exact hs.owned other flight hf hphase
  sole := by
    intro other other' flight flight' hf hf' hphase hphase' hid
    obtain ⟨-,rfl⟩ | ⟨-,hf⟩ := put_flight hf
    · exact absurd rfl hphase
    · obtain ⟨-,rfl⟩ | ⟨-,hf'⟩ := put_flight hf'
      · exact absurd rfl hphase'
      · exact hs.sole other other' flight flight' hf hf' hphase hphase' hid
  fresh := by
    intro other flight hf hphase
    obtain ⟨-,rfl⟩ | ⟨-,hf⟩ := put_flight hf
    · cases hphase
    · exact hs.fresh other flight hf hphase
  logged := hs.logged
  once := hs.once

/-- A request that owns a row goes on: nobody else's row changes hands. -/
theorem inv_advance (hs : Inv host s) {old : Flight} (new : Flight)
    (hf : s.flights request = some old) (hphase : old.phase ≠ .arrived) (hid : new.id = old.id)
    (hparameters : new.parameters = old.parameters) (hadmitted : new.phase ≠ .admitted) :
    Inv host (s.put request new) where
  rows := hs.rows
  owned := by
    intro other flight hflight hp
    obtain ⟨-,rfl⟩ | ⟨-,hflight⟩ := put_flight hflight
    · rw [hid, hparameters]
      exact hs.owned request old hf hphase
    · exact hs.owned other flight hflight hp
  sole := by
    intro other other' flight flight' h h' hp hp' hsame
    obtain ⟨rfl,rfl⟩ | ⟨-,hold⟩ := put_flight h
    · obtain ⟨rfl,-⟩ | ⟨-,hold'⟩ := put_flight h'
      · rfl
      · exact hs.sole other other' old flight' hf hold' hphase hp' (hid.symm.trans hsame)
    · obtain ⟨rfl,rfl⟩ | ⟨-,hold'⟩ := put_flight h'
      · exact hs.sole other other' flight old hold hf hp hphase (hsame.trans hid)
      · exact hs.sole other other' flight flight' hold hold' hp hp' hsame
  fresh := by
    intro other flight hflight hp
    obtain ⟨-,rfl⟩ | ⟨-,hflight⟩ := put_flight hflight
    · exact absurd hp hadmitted
    · exact hs.fresh other flight hflight hp
  logged := hs.logged
  once := hs.once

theorem inv_dispatch (hs : Inv host s) (hf : s.flights request = some ⟨id,parameters,.admitted⟩) :
    Inv host { s.put request ⟨id,parameters,.dispatched⟩ with
      log := s.log++[⟨id,parameters⟩] } := by
  have hmoved : Inv host (s.put request ⟨id,parameters,.dispatched⟩) :=
    inv_advance hs _ hf (by simp) rfl rfl (by simp)
  have hnew := hs.fresh request _ hf rfl
  refine ⟨hmoved.rows,hmoved.owned,hmoved.sole,?_,?_,?_⟩
  · intro other flight hflight hp entry he
    obtain he | he := mem_append.mp he
    · exact hmoved.fresh other flight hflight hp entry he
    -- another admitted request with this id would own the same row
    rw [mem_singleton] at he
    subst he
    obtain ⟨-,rfl⟩ | ⟨hother,hflight⟩ := put_flight hflight
    · cases hp
    · intro hid
      exact hother (hs.sole other request flight _ hflight hf (by simp [hp]) (by simp) hid.symm)
  · intro entry he
    obtain he | he := mem_append.mp he
    · exact hs.logged entry he
    · rw [mem_singleton] at he
      subst he
      exact hs.owned request _ hf (by simp)
  · rw [map_append, nodup_append]
    refine ⟨hs.once,by simp,?_⟩
    intro a ha b hb
    obtain ⟨entry,he,rfl⟩ := mem_map.mp ha
    simp only [map_cons, map_nil, mem_singleton] at hb
    rw [hb]
    exact hnew entry he

/-- The row of a new reservation had no owner and no dispatch. -/
theorem inv_admitted (hs : Inv host s) (request : ℕ) {flight : Flight} (row : Receipt Digest)
    (hnone : s.table flight.id = none) (hrow : RowOk host s.accounts row)
    (hfirst : row.first = flight.parameters) :
    Inv host ((s.save (Function.update s.table flight.id (some row))).put request
      { flight with phase := .admitted }) := by
  have hkept := kept_insert s.table flight.id row hnone
  have hbase : Inv host (s.save (Function.update s.table flight.id (some row))) :=
    inv_fewer hs hkept (sound_update flight.id row hrow hs.rows) (fun _ _ h => h) rfl
  have hfree : ∀ other found, s.flights other = some found → found.phase ≠ .arrived →
      found.id ≠ flight.id := by
    intro other found hfound hp hid
    obtain ⟨old,hold,-⟩ := hs.owned other found hfound hp
    rw [hid, hnone] at hold
    cases hold
  refine ⟨hbase.rows,?_,?_,?_,hbase.logged,hbase.once⟩
  · intro other found hfound hp
    obtain ⟨-,rfl⟩ | ⟨-,hfound⟩ := put_flight hfound
    · exact ⟨row,by simp [State.save, State.put],hfirst⟩
    · exact hbase.owned other found hfound hp
  · intro other other' found found' h h' hp hp' hid
    obtain ⟨rfl,rfl⟩ | ⟨-,hold⟩ := put_flight h
    · obtain ⟨rfl,-⟩ | ⟨-,hold'⟩ := put_flight h'
      · rfl
      · exact absurd hid.symm (hfree other' found' hold' hp')
    · obtain ⟨rfl,rfl⟩ | ⟨-,hold'⟩ := put_flight h'
      · exact absurd hid (hfree other found hold hp)
      · exact hs.sole other other' found found' hold hold' hp hp' hid
  · intro other found hfound hp entry he
    obtain ⟨-,rfl⟩ | ⟨-,hfound⟩ := put_flight hfound
    · intro hid
      obtain ⟨old,hold,-⟩ := hs.logged entry he
      rw [hid] at hold
      exact absurd hold (by simp [hnone])
    · exact hs.fresh other found hfound hp entry he

end Invariant

section Steps
variable {Digest : Type} (host : Host Digest)

/-- What one step does to the requests, the rows and the log. -/
inductive Change (s : State Digest) (action : Action) : State Digest → Prop
  | fewer {s' : State Digest} (kept : Kept s.table s'.table)
      (accounts : AccountsKept s.accounts s'.accounts)
      (rows : Sound host s.accounts s.table → Sound host s'.accounts s'.table)
      (flights : ∀ request flight, s'.flights request = some flight →
        s.flights request = some flight)
      (log : s'.log = s.log) : Change s action s'
  | arrived (request : ℕ) (id : String) (parameters : Parameters)
      (sent : action = .send request id parameters) :
      Change s action (s.put request ⟨id, parameters, .arrived⟩)
  | admitted (request : ℕ) (id : String) (parameters : Parameters) (row : Receipt Digest)
      (flight : s.flights request = some ⟨id, parameters, .arrived⟩) (free : s.table id = none)
      (ok : RowOk host s.accounts row) (first : row.first = parameters) :
      Change s action ((s.save (Function.update s.table id (some row))).put request
        ⟨id, parameters, .admitted⟩)
  | dispatched (request : ℕ) (id : String) (parameters : Parameters)
      (flight : s.flights request = some ⟨id, parameters, .admitted⟩) :
      Change s action { s.put request ⟨id, parameters, .dispatched⟩ with
        log := s.log++[⟨id, parameters⟩] }
  | completed (request : ℕ) (id : String) (parameters : Parameters) (result : SendResult)
      (flight : s.flights request = some ⟨id, parameters, .dispatched⟩) :
      Change s action (s.put request ⟨id, parameters, .completed result⟩)

variable {host} {s s' : State Digest} {action : Action} {request : ℕ} {id : String}
  {parameters : Parameters}

theorem change_accounts (ha : AccountsKept s.accounts s'.accounts) (htable : s'.table = s.table)
    (hflights : s'.flights = s.flights) (hlog : s'.log = s.log) : Change host s action s' := by
  refine .fewer (htable ▸ kept_refl _) ha ?_ (fun _ _ h => hflights ▸ h) hlog
  rw [htable]
  exact sound_accounts ha

theorem change_access (access : Access) : Change host s action { s with access := access } :=
  change_accounts (fun _ _ h => h) rfl rfl rfl

theorem change_mark (access : Access) :
    Change host s action { s.save (markInterruptedReceipts s.table) with access := access } :=
  .fewer (kept_mark _) (fun _ _ h => h) sound_mark (fun _ _ h => h) rfl

theorem change_reply {table : Table Digest} (request : ℕ) (result : SendResult)
    (hk : Kept s.table table) (hrows : Sound host s.accounts s.table → Sound host s.accounts table) :
    Change host s action ((s.save table).reply request result) :=
  .fewer hk (fun _ _ h => h) hrows (fun _ _ h => drop_flight h) rfl

theorem change_unchanged_reply (request : ℕ) (result : SendResult) :
    Change host s action (s.reply request result) :=
  change_reply request result (kept_refl s.table) (fun h => h)

theorem finishStep_change (flight : Flight) (result : SendResult) (fault : Fault) :
    Change host s action (finishStep host s request flight result fault) := by
  fun_cases finishStep host s request flight result fault
  case case6 hfinish => exact change_reply request _ (finish_kept hfinish) (sound_finish hfinish)
  case case5 hfinish _ => exact change_reply request _ (finish_kept hfinish) (sound_finish hfinish)
  all_goals exact change_unchanged_reply request _

variable [DecidableEq Digest]

theorem reserveStep_change (hf : s.flights request = some ⟨id,parameters,.arrived⟩)
    (fault : Fault) (taskLive : Bool) :
    Change host s action (reserveStep host s request ⟨id,parameters,.arrived⟩ fault taskLive) := by
  cases ho : ensureOpen s.access with
  | error e =>
    simp only [reserveStep, ho]
    exact change_unchanged_reply request _
  | ok =>
    cases hr : Receipts.reserve host s.accounts s.table id parameters taskLive with
    | error e =>
      simp only [reserveStep, ho, hr]
      exact change_unchanged_reply request _
    | ok reserved =>
      obtain ⟨outcome,table⟩ := reserved
      have hk := reserve_kept hr
      have hrows := sound_reserve hr
      simp only [reserveStep, ho, hr]
      cases fault with
      | before e => exact change_unchanged_reply request _
      | after e => exact change_reply request _ hk hrows
      | done =>
        obtain ⟨account,task,hnames,hsend⟩ := reserve_ok hr
        obtain ⟨fingerprint,hprint,⟨rfl,hnone,rfl⟩ | ⟨row,reported,rfl,rfl,-⟩⟩ :=
          reserveSend_ok host hsend
        · exact .admitted request id parameters _ hf hnone ⟨hprint,hnames⟩ rfl
        · cases reported <;> exact change_reply request _ hk hrows

variable (host)

theorem step_change (h : step host s action = some s') : Change host s action s' := by
  cases action with
  | upsert user =>
    simp only [step] at h
    split_ifs at h
    split at h
    · cases h
      exact change_access _
    · next accounts hu =>
      cases h
      exact change_accounts (accounts_upsert host hu) rfl rfl rfl
  | deletion account deleting =>
    simp only [step] at h
    split_ifs at h
    cases h
    exact change_accounts (accounts_deletion s.accounts account deleting) rfl rfl rfl
  | send request id parameters =>
    simp only [step] at h
    split at h <;> cases h
    exact .arrived request id parameters rfl
  | reserve request fault taskLive =>
    simp only [step] at h
    split at h
    · next hf =>
      cases h
      exact reserveStep_change hf fault taskLive
    · cases h
  | dispatch request =>
    simp only [step] at h
    split at h
    · next id parameters hf =>
      cases h
      exact .dispatched request id parameters hf
    · cases h
  | complete request result =>
    simp only [step] at h
    split at h
    · next id parameters hf =>
      cases h
      exact .completed request id parameters result hf
    · cases h
  | finish request fault =>
    simp only [step] at h
    split at h <;> cases h
    exact finishStep_change _ _ fault
  | cancel request =>
    cases h
    exact .fewer (kept_refl _) (fun _ _ h => h) id (fun _ _ h => drop_flight h) rfl
  | hold | resume =>
    simp only [step] at h
    split_ifs at h
    cases h
    exact change_access _
  | close =>
    cases h
    exact change_access _
  | crash =>
    cases h
    exact .fewer (kept_refl _) (fun _ _ h => h) id (fun _ _ h => nomatch h) rfl
  | reopen fault =>
    simp only [step] at h
    split at h
    · cases fault <;> cases h
      · exact change_mark _
      · exact change_access _
      · exact change_mark _
    · cases h

/-- Between two states of a run, rows and accounts only move on. -/
def Moved (s s' : State Digest) : Prop :=
  Kept s.table s'.table ∧ AccountsKept s.accounts s'.accounts

theorem step_moved (s s' : State Digest) (action : Action) (h : step host s action = some s') :
    Moved s s' := by
  have hsame : AccountsKept s.accounts s.accounts := fun _ _ h => h
  cases step_change host h with
  | fewer kept accounts rows flights log => exact ⟨kept,accounts⟩
  | arrived request id parameters sent => exact ⟨kept_refl _,hsame⟩
  | admitted request id parameters row flight free ok first =>
    exact ⟨kept_insert s.table id row free,hsame⟩
  | dispatched | completed => exact ⟨kept_refl _,hsame⟩

theorem step_inv (s : State Digest) (action : Action) (s' : State Digest) (hs : Inv host s)
    (h : step host s action = some s') : Inv host s' := by
  cases step_change host h with
  | fewer kept accounts rows flights log => exact inv_fewer hs kept (rows hs.rows) flights log
  | arrived request id parameters sent => exact inv_arrive hs request id parameters
  | admitted request id parameters row flight free ok first =>
    exact @inv_admitted _ _ s hs request ⟨id,parameters,.arrived⟩ row free ok first
  | dispatched request id parameters flight => exact inv_dispatch hs flight
  | completed request id parameters result flight =>
    exact inv_advance hs _ flight (by simp) rfl rfl (by simp)

variable {actions : List Action}

theorem run_inv (h : Run.run (step host) start actions = some s) : Inv host s :=
  Run.run_invariant (Inv host) (step_inv host) start h (inv_start host)

theorem run_moved {s' : State Digest} (h : Run.run (step host) s actions = some s') : Moved s s' :=
  Run.run_relation Moved (fun _ => ⟨kept_refl _,fun _ _ h => h⟩)
    (fun _ _ _ hab hbc => ⟨kept_trans hab.1 hbc.1,fun key id h => hbc.2 key id (hab.2 key id h)⟩)
    (fun s action s' => step_moved host s s' action) s h

end Steps

end Maple.Sends
