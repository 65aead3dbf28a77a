import Maple.Sends.Receipts

/-!
# What becomes of a receipt

A row keeps its identity, and its outcome once it has one. Each store function is described
by what it may do to the table.
-/

set_option autoImplicit false

namespace Maple.Sends

open Session.Entries Text JsonText Timeline.Value Timeline.Item

/-- What a row may become: its identity stays, and so does a result or an interruption. -/
structure Later {Digest : Type} (row row' : Receipt Digest) : Prop where
  account : row'.account = row.account
  fingerprint : row'.fingerprint = row.fingerprint
  task : row'.task = row.task
  first : row'.first = row.first
  result : ∀ text, row.result = some text → row'.result = some text
  interrupted : row.result = none → row.interrupted = true →
    row'.result = none ∧ row'.interrupted = true

def Kept {Digest : Type} (table table' : Table Digest) : Prop :=
  ∀ id row, table id = some row → ∃ row', table' id = some row' ∧ Later row row'

section Tables
variable {Digest : Type} (host : Host Digest)

theorem later_refl (row : Receipt Digest) : Later row row :=
  ⟨rfl,rfl,rfl,rfl,fun _ h => h,fun h hi => ⟨h,hi⟩⟩

theorem later_trans {a b c : Receipt Digest} (hab : Later a b) (hbc : Later b c) : Later a c where
  account := hbc.account.trans hab.account
  fingerprint := hbc.fingerprint.trans hab.fingerprint
  task := hbc.task.trans hab.task
  first := hbc.first.trans hab.first
  result := fun text h => hbc.result text (hab.result text h)
  interrupted := fun h hi =>
    have hb := hab.interrupted h hi
    hbc.interrupted hb.1 hb.2

variable (table : Table Digest)

theorem kept_refl : Kept table table :=
  fun _ row h => ⟨row,h,later_refl row⟩

theorem kept_trans {a b c : Table Digest} (hab : Kept a b) (hbc : Kept b c) : Kept a c := by
  intro id row h
  obtain ⟨row',h',hl⟩ := hab id row h
  obtain ⟨row'',h'',hl'⟩ := hbc id row' h'
  exact ⟨row'',h'',later_trans hl hl'⟩

theorem kept_insert (id : String) (new : Receipt Digest) (hnone : table id = none) :
    Kept table (Function.update table id (some new)) := by
  intro key row h
  have hkey : key ≠ id := by
    rintro rfl
    simp [hnone] at h
  exact ⟨row,by simpa [hkey] using h,later_refl row⟩

theorem kept_result (id text : String) {row : Receipt Digest} (hrow : table id = some row)
    (hresult : row.result = none) (hopen : row.interrupted = false) :
    Kept table (Function.update table id (some { row with result := some text })) := by
  intro key old h
  by_cases hkey : key = id
  · subst hkey
    have hold : old = row := Option.some.inj (h.symm.trans hrow)
    subst hold
    refine ⟨{ old with result := some text },by simp,⟨rfl,rfl,rfl,rfl,?_,?_⟩⟩
    · simp [hresult]
    · simp [hopen]
  · exact ⟨old,by simpa [hkey] using h,later_refl old⟩

theorem kept_mark : Kept table (markInterruptedReceipts table) := by
  intro id row h
  by_cases hopen : row.result = none ∧ row.interrupted = false
  · refine ⟨{ row with interrupted := true },?_,⟨rfl,rfl,rfl,rfl,fun _ h => h,?_⟩⟩
    · simp [markInterruptedReceipts, h, hopen]
    · simp [hopen]
  · exact ⟨row,by simp [markInterruptedReceipts, h, hopen],later_refl row⟩

/-- An outcome that is not pending is the same of every later row. -/
theorem later_outcome {row row' : Receipt Digest} {outcome : Outcome} (hl : Later row row')
    (h : decodeOutcome host row = .ok outcome) (hp : outcome ≠ .pending) :
    decodeOutcome host row' = .ok outcome := by
  cases hr : row.result with
  | some text =>
    have hr' := hl.result text hr
    simpa only [decodeOutcome, hr, hr'] using h
  | none =>
    cases hi : row.interrupted with
    | true =>
      obtain ⟨hr',hi'⟩ := hl.interrupted hr hi
      simpa only [decodeOutcome, hr, hi, hr', hi'] using h
    | false =>
      have hout : Outcome.pending = outcome := by simpa [decodeOutcome, hr, hi] using h
      exact absurd hout.symm hp

end Tables

/-- Accounts are never taken away and keep their ids. -/
def AccountsKept (accounts accounts' : List Account) : Prop :=
  ∀ key id, (accounts.find? (fun account => account.key = key)).map Account.id = some id →
    (accounts'.find? (fun account => account.key = key)).map Account.id = some id

section Accounts
variable {Digest : Type} (host : Host Digest) {accounts' accounts : List Account}

theorem accounts_upsert {user : String}
    (h : upsertAccount host accounts user = .ok accounts') : AccountsKept accounts accounts' := by
  intro key id hkey
  fun_cases upsertAccount host accounts user <;> simp_all [upsertAccount]
  subst h
  obtain ⟨account,hfound,hid⟩ := hkey
  exact ⟨account,by simp [List.find?_append, hfound],hid⟩

theorem accounts_deletion (accounts : List Account) (account : ℕ) (deleting : Bool) :
    AccountsKept accounts (accounts.map (fun saved =>
      if saved.id = account then { saved with deleting := deleting } else saved)) := by
  intro key id hkey
  induction accounts with
  | nil => simp at hkey
  | cons saved rest ih =>
    by_cases hsaved : saved.key = key
    · by_cases hid : saved.id = account <;> simp_all
    · have hrest := ih (by simpa [hsaved] using hkey)
      by_cases hid : saved.id = account <;> simpa [hid, hsaved] using hrest

theorem account_kept {user : String} {id : ℕ}
    (hk : AccountsKept accounts accounts') (h : Receipts.account host accounts user = .ok id) :
    Receipts.account host accounts' user = .ok id := by
  cases hn : normalizeUserKey host user with
  | error e => simp [Receipts.account, accountId, hn] at h
  | ok key =>
    cases hf : (accounts.find? (fun account => account.key = key)).map Account.id with
    | none => simp only [Receipts.account, accountId, hn, hf] at h; cases h
    | some found =>
      have hfound := hk key found hf
      simpa only [Receipts.account, accountId, hn, hf, hfound] using h

end Accounts

section Specs
variable {Digest : Type} (host : Host Digest)

variable {accounts : List Account} {table table' : Table Digest} {id : String}
  {parameters : Parameters} {taskLive : Bool}

theorem reserveSend_ok [DecidableEq Digest] {account : ℕ} {task : String} {outcome : Option Outcome}
    (h : reserveSend host accounts table account id task parameters taskLive = .ok
      (outcome, table')) :
    ∃ fingerprint, sendFingerprint host.sha256 parameters.value = .ok fingerprint ∧
      ((outcome = none ∧ table id = none ∧ table' = Function.update table id
          (some ⟨account,fingerprint,task,none,false,parameters⟩)) ∨
        (∃ row reported, outcome = some reported ∧ table' = table ∧ table id = some row ∧
          row.account = account ∧ row.fingerprint = fingerprint ∧ row.task = task ∧
          decodeOutcome host row = .ok reported)) := by
  revert h
  fun_cases reserveSend host accounts table account id task parameters taskLive <;> intro h <;>
    cases h <;> simp_all

/-- The account and the task of a reservation are those its parameters name. -/
def Names (accounts : List Account) (parameters : Parameters) (account : ℕ) (task : String) :
    Prop :=
  parameters.task = some task ∧
    ∃ user, parameters.user = some user ∧ Receipts.account host accounts user = .ok account

variable {host}

theorem reserve_ok [DecidableEq Digest] {outcome : Option Outcome}
    (h : Receipts.reserve host accounts table id parameters taskLive = .ok (outcome, table')) :
    ∃ account task, Names host accounts parameters account task ∧
      reserveSend host accounts table account id task parameters taskLive =
        .ok (outcome, table') := by
  cases hu : parameters.user with
  | none => simp [Receipts.reserve, hu] at h
  | some user =>
    cases ht : parameters.task with
    | none => simp [Receipts.reserve, hu, ht] at h
    | some task =>
      cases ha : Receipts.account host accounts user with
      | error e => simp [Receipts.reserve, hu, ht, ha] at h
      | ok account =>
        cases hr : reserveSend host accounts table account id task parameters taskLive with
        | error e => simp [Receipts.reserve, hu, ht, ha, hr, Except.mapError] at h
        | ok found =>
          simp only [Receipts.reserve, hu, ht, ha, hr, Except.mapError, Except.ok.injEq] at h
          exact ⟨account,task,⟨ht,user,hu,ha⟩,by rw [hr, h]⟩

theorem finishSend_ok {account : ℕ} {result : SendResult}
    (h : finishSend host accounts table account id result = .ok table') :
    table' = table ∨ ∃ row, table id = some row ∧ row.result = none ∧ row.interrupted = false ∧
      table' = Function.update table id
        (some { row with result := some (host.resultText result) }) := by
  revert h
  fun_cases finishSend host accounts table account id result <;> intro h <;> cases h
  · exact .inl rfl
  · next row hrow _ hresult hopen =>
    exact .inr ⟨row,hrow,hresult,by simpa using hopen,rfl⟩

theorem finish_ok {user : String} {result : SendResult}
    (h : Receipts.finish host accounts table user id result = .ok table') :
    ∃ account, finishSend host accounts table account id result = .ok table' := by
  cases ha : Receipts.account host accounts user with
  | error e => simp [Receipts.finish, ha] at h
  | ok account =>
    cases hf : finishSend host accounts table account id result with
    | error e => simp [Receipts.finish, ha, hf, Except.mapError] at h
    | ok saved =>
      simp only [Receipts.finish, ha, hf, Except.mapError, Except.ok.injEq] at h
      exact ⟨account,by rw [hf, h]⟩

theorem finish_kept {user : String} {result : SendResult}
    (h : Receipts.finish host accounts table user id result = .ok table') : Kept table table' := by
  obtain ⟨account,hf⟩ := finish_ok h
  obtain rfl | ⟨row,hrow,hresult,hopen,rfl⟩ := finishSend_ok hf
  · exact kept_refl _
  · exact kept_result table id _ hrow hresult hopen

theorem reserve_kept [DecidableEq Digest] {outcome : Option Outcome}
    (h : Receipts.reserve host accounts table id parameters taskLive = .ok (outcome, table')) :
    Kept table table' := by
  obtain ⟨account,task,-,hr⟩ := reserve_ok h
  obtain ⟨fingerprint,-,⟨-,hnone,rfl⟩ | ⟨row,reported,-,rfl,-⟩⟩ :=
    reserveSend_ok host hr
  · exact kept_insert table id _ hnone
  · exact kept_refl _

end Specs

end Maple.Sends
