import Maple.Sends.Ownership

/-!
# A message is sent at most once

What a caller is told is read off the row of the id, so it follows from who owns the row
and from what the row may become.
-/

set_option autoImplicit false

namespace Maple.Sends

open Session.Entries Text JsonText Timeline.Value Timeline.Item

section Outcomes
variable {Digest : Type} [DecidableEq Digest] (host : Host Digest)

/-- An outcome a caller is told, by a query or by sending again under the same id. -/
def Reported (s : State Digest) (user id : String) (outcome : Outcome) : Prop :=
  ensureOpen s.access = .ok () ∧
    (receiptOutcome host s user id = .ok outcome ∨
      ∃ parameters taskLive table, parameters.user = some user ∧
        Receipts.reserve host s.accounts s.table id parameters taskLive =
          .ok (some outcome, table))

variable {s : State Digest} {id : String}

omit [DecidableEq Digest] in
theorem receiptOutcome_ok {user : String} {outcome : Outcome}
    (h : receiptOutcome host s user id = .ok outcome) :
    ∃ account, Receipts.account host s.accounts user = .ok account ∧
      ((∃ row, s.table id = some row ∧ row.account = account ∧
          decodeOutcome host row = .ok outcome) ∨
        (outcome = .missing ∧ ∀ row, s.table id = some row → row.account ≠ account)) := by
  cases ho : ensureOpen s.access with
  | error e => simp [receiptOutcome, ho] at h
  | ok =>
    cases ha : Receipts.account host s.accounts user with
    | error e => simp [receiptOutcome, ho, Receipts.outcome, ha] at h
    | ok account =>
      refine ⟨account,rfl,?_⟩
      simp only [receiptOutcome, ho, Receipts.outcome, ha] at h
      cases hw : writableAccount s.accounts account with
      | error e => simp [sendOutcome, hw, Except.mapError] at h
      | ok =>
        cases hrow : s.table id with
        | none =>
          simp only [sendOutcome, hw, hrow, Except.mapError, Except.ok.injEq] at h
          exact .inr ⟨h.symm,fun _ hr => nomatch hr⟩
        | some row =>
          by_cases hown : row.account = account
          · cases hd : decodeOutcome host row with
            | error e => simp [sendOutcome, hw, hrow, hown, hd, Except.mapError] at h
            | ok found =>
              simp only [sendOutcome, hw, hrow, hown, if_true, hd, Except.mapError,
                Except.ok.injEq] at h
              exact .inl ⟨row,rfl,hown,by rw [hd, h]⟩
          · simp only [sendOutcome, hw, hrow, hown, if_false, Except.mapError, Except.ok.injEq] at h
            refine .inr ⟨h.symm,?_⟩
            rintro other ⟨⟩
            exact hown

theorem reported_cases {user : String} {outcome : Outcome} (h : Reported host s user id outcome) :
    ∃ account, Receipts.account host s.accounts user = .ok account ∧
      ((∃ row, s.table id = some row ∧ row.account = account ∧
          decodeOutcome host row = .ok outcome) ∨
        (outcome = .missing ∧ ∀ row, s.table id = some row → row.account ≠ account)) := by
  obtain ⟨-,h | ⟨parameters,taskLive,table,huser,h⟩⟩ := h
  · exact receiptOutcome_ok host h
  obtain ⟨account,task,⟨-,named,hnamed,haccount⟩,hsend⟩ := reserve_ok h
  have hsame : named = user := Option.some.inj (hnamed.symm.trans huser)
  subst hsame
  obtain ⟨fingerprint,-,⟨hnone,-⟩ | ⟨row,reported,hout,-,hrow,hown,-,-,hd⟩⟩ :=
    reserveSend_ok host hsend
  · cases hnone
  · cases hout
    exact ⟨account,haccount,.inl ⟨row,hrow,hown,hd⟩⟩

/-- A settled outcome is what every later caller of that account is told. -/
theorem reported_settled {s' : State Digest} (hmoved : Moved s s') (user id : String)
    {outcome : Outcome} (outcome' : Outcome) (hpending : outcome ≠ .pending)
    (hmissing : outcome ≠ .missing) (h : Reported host s user id outcome)
    (h' : Reported host s' user id outcome') : outcome' = outcome := by
  obtain ⟨account,ha,⟨row,hrow,hown,hd⟩ | ⟨hm,-⟩⟩ := reported_cases host h
  · obtain ⟨row',hrow',hl⟩ := hmoved.1 id row hrow
    have hd' := later_outcome host hl hd hpending
    obtain ⟨account',ha',hcase⟩ := reported_cases host h'
    have hsame : account' = account :=
      Except.ok.inj (ha'.symm.trans (account_kept host hmoved.2 ha))
    subst hsame
    obtain ⟨found,hfound,-,hdecode⟩ | ⟨-,hnot⟩ := hcase
    · have hrows : found = row' := Option.some.inj (hfound.symm.trans hrow')
      subst hrows
      exact Except.ok.inj (hdecode.symm.trans hd')
    · exact absurd (hl.account.trans hown) (hnot row' hrow')
  · exact absurd hm hmissing

/-- Other parameters, or another account or task, under a reserved id are refused. -/
theorem reserve_refused (hsha : Function.Injective host.sha256) (hs : Inv host s) (request : ℕ)
    {parameters : Parameters} (fault : Fault) (taskLive : Bool) {row : Receipt Digest}
    (hrow : s.table id = some row)
    (hother : ¬Same parameters.value row.first.value ∨
      ¬Names host s.accounts parameters row.account row.task) :
    ∃ e, reserveStep host s request ⟨id,parameters,.arrived⟩ fault taskLive =
      s.reply request (.error e) := by
  cases ho : ensureOpen s.access with
  | error e => exact ⟨e,by simp only [reserveStep, ho]⟩
  | ok =>
    cases hr : Receipts.reserve host s.accounts s.table id parameters taskLive with
    | error e => exact ⟨e,by simp only [reserveStep, ho, hr]⟩
    | ok reserved =>
      obtain ⟨account,task,hnames,hsend⟩ := reserve_ok hr
      obtain ⟨fingerprint,hprint,⟨-,hnone,-⟩ | ⟨found,-,-,-,hfound,hown,hsaved,htask,-⟩⟩ :=
        reserveSend_ok host hsend
      · rw [hrow] at hnone
        cases hnone
      have hsame : found = row := Option.some.inj (hfound.symm.trans hrow)
      subst hsame
      subst hown hsaved htask
      have hcontent : Same parameters.value found.first.value :=
        fingerprint_determined hsha parameters.keyed parameters.printed
          found.first.keyed found.first.printed hprint (hs.rows id found hfound).1
      exact absurd hnames (hother.resolve_left (not_not.mpr hcontent))

/-- In every run, with faults, crashes and restarts anywhere: an id is dispatched at most once
and with the parameters of its reservation, reuse with others is refused, settled outcomes
stay, and an account is told an id is missing only if it has no dispatch under it. -/
theorem send_at_most_once (hsha : Function.Injective host.sha256) (actions : List Action)
    (s : State Digest) (h : Run.run (step host) start actions = some s) :
    (s.log.map Dispatch.id).Nodup ∧
    (∀ entry ∈ s.log, ∃ row, s.table entry.id = some row ∧ row.first = entry.parameters ∧
      Names host s.accounts entry.parameters row.account row.task) ∧
    (∀ request id parameters row fault taskLive s',
      s.flights request = some ⟨id, parameters, .arrived⟩ → s.table id = some row →
      (¬Same parameters.value row.first.value ∨
        ¬Names host s.accounts parameters row.account row.task) →
      step host s (.reserve request fault taskLive) = some s' →
      ∃ e, s' = s.reply request (.error e)) ∧
    (∀ more s', Run.run (step host) s more = some s' →
      (∀ id row, s.table id = some row → ∃ row', s'.table id = some row' ∧
        row'.first = row.first ∧ row'.account = row.account ∧ row'.task = row.task ∧
        ∀ outcome, outcome ≠ .pending → decodeOutcome host row = .ok outcome →
          decodeOutcome host row' = .ok outcome) ∧
      (∀ user id outcome outcome', outcome ≠ .pending → outcome ≠ .missing →
        Reported host s user id outcome → Reported host s' user id outcome' →
        outcome' = outcome)) ∧
    (∀ user id account task, receiptOutcome host s user id = .ok .missing →
      Receipts.account host s.accounts user = .ok account →
      ∀ entry ∈ s.log, entry.id = id → ¬Names host s.accounts entry.parameters account task) := by
  have hs := run_inv host h
  refine ⟨hs.once,?_,?_,?_,?_⟩
  · intro entry he
    obtain ⟨row,hrow,hfirst⟩ := hs.logged entry he
    exact ⟨row,hrow,hfirst,hfirst ▸ (hs.rows entry.id row hrow).2⟩
  · intro request id parameters row fault taskLive s' hf hrow hother hstep
    obtain ⟨e,hrefused⟩ := reserve_refused host hsha hs request fault taskLive
      hrow hother
    simp only [step, hf, Option.some.injEq] at hstep
    exact ⟨e,hstep.symm.trans hrefused⟩
  · intro more s' hmore
    have hmoved := run_moved host hmore
    refine ⟨?_,?_⟩
    · intro id row hrow
      obtain ⟨row',hrow',hl⟩ := hmoved.1 id row hrow
      exact ⟨row',hrow',hl.first,hl.account,hl.task,
        fun outcome hp hd => later_outcome host hl hd hp⟩
    · exact fun user id outcome outcome' hp hm =>
        reported_settled host hmoved user id outcome' hp hm
  · intro user id account task hmissing haccount entry he hid hnames
    obtain ⟨row,hrow,hfirst⟩ := hs.logged entry he
    obtain ⟨htask,named,hnamed,hown⟩ := hfirst ▸ (hs.rows entry.id row hrow).2
    obtain ⟨-,user',huser',haccount'⟩ := hnames
    have huser : named = user' := Option.some.inj (hnamed.symm.trans huser')
    subst huser
    have hrowAccount : row.account = account := Except.ok.inj (hown.symm.trans haccount')
    obtain ⟨found,hfound,⟨old,hold,-,hd⟩ | ⟨-,hnot⟩⟩ := receiptOutcome_ok host hmissing
    · simp only [decodeOutcome] at hd
      split at hd
      · split at hd <;> cases hd
      · split at hd <;> cases hd
    · have hsame : found = account := Except.ok.inj (hfound.symm.trans haccount)
      exact hnot row (hid ▸ hrow) (hrowAccount.trans hsame.symm)

end Outcomes

def isHyphenated (text : String) : Bool :=
  text.length = 36 && text.toList.zipIdx.all (fun entry =>
    if entry.2 ∈ [8, 13, 18, 23] then entry.1 = '-'
    else entry.1.isDigit || ('a' ≤ entry.1 && entry.1 ≤ 'f'))

def sampleHost : Host Bytes :=
  ⟨id, fun _ => false, isHyphenated, id, fun _ => "null", fun _ => some (.ok .null)⟩

def firstId : String := "5f2b1f0e-8c6d-4a35-9d7b-3e1f0a2b4c5d"

def sampleParameters (task : String) : Parameters where
  value := .arr [.str "a", .obj [("sessionId", .str task)]]
  keyed := .arr _ (by simpa using ⟨.str _, .obj _ (by simp) (by simpa using .str _)⟩)
  printed := .arr _ (by simpa using ⟨.str _, .obj _ (by simpa using .str _)⟩)

/-- A dispatched send is lost in a crash, sent again, and its id used for another task. -/
def sampleActions : List Action :=
  [.upsert "a", .send 0 firstId (sampleParameters "t"), .reserve 0 .done true, .dispatch 0, .crash,
    .reopen .done, .send 1 firstId (sampleParameters "t"), .reserve 1 .done true,
    .send 2 firstId (sampleParameters "u")]

def Phase.isArrived : Phase → Bool
  | .arrived => true
  | _ => false

def sampleCheck (s : State Bytes) : Bool :=
  decide (s.log.length = 1) && decide (s.replies.length = 1) &&
    (s.flights 2).any (fun flight => decide (flight.id = firstId) &&
      decide (flight.parameters.task = some "u") && flight.phase.isArrived) &&
    (s.table firstId).any (fun row => decide (row.task = "t") && row.interrupted && row.result.isNone)

theorem sample_checked :
    (Run.run (step sampleHost) start sampleActions).any sampleCheck = true := by
  decide +kernel

theorem send_at_most_once_sample : ∃ s, Run.run (step sampleHost) start sampleActions = some s ∧
    s.log.length = 1 ∧ (s.log.map Dispatch.id).Nodup ∧
    ∃ e, step sampleHost s (.reserve 2 .done true) = some (s.reply 2 (.error e)) := by
  obtain ⟨s,hs,hcheck⟩ := (Option.any_eq_true _ _).mp sample_checked
  simp only [sampleCheck, Bool.and_eq_true, decide_eq_true_eq, Option.any_eq_true] at hcheck
  obtain ⟨⟨⟨hlog,-⟩,flight,hflight,⟨hid,htask⟩,hphase⟩,row,hrow,⟨hrowTask,-⟩,-⟩ := hcheck
  obtain ⟨id,parameters,phase⟩ := flight
  cases phase with
  | arrived =>
    simp only at hid htask
    subst hid
    obtain ⟨honce,-,hrefused,-⟩ := send_at_most_once sampleHost Function.injective_id
      sampleActions s hs
    have hother : ¬Names sampleHost s.accounts parameters row.account row.task := by
      rintro ⟨hnamed,-⟩
      rw [htask, hrowTask] at hnamed
      exact absurd hnamed (by decide)
    have hstep : step sampleHost s (.reserve 2 .done true) =
        some (reserveStep sampleHost s 2 ⟨firstId, parameters, .arrived⟩ .done true) := by
      simp only [step, hflight]
    obtain ⟨e,he⟩ := hrefused 2 firstId parameters row .done true _ hflight hrow (.inr hother) hstep
    exact ⟨s,hs,hlog,honce,e,by rw [hstep, he]⟩
  | admitted | dispatched | completed => cases hphase

end Maple.Sends
