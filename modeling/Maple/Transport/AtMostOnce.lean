import Maple.Transport.Admission

/-!
# Admission over whole runs

From an empty process, through any interleaving of calls, map operations and
drops: one admission for each session object and request id, no trace of a
refused call, and a shared counter that is exact up to the calls standing
between their claim of the budget and their insertion.
-/

set_option autoImplicit false

namespace Maple.Transport.AtMostOnce
open Run Table Crypto Sessions Process Admission

variable {cfg : Config} {σ : System}

theorem run_inv {cfg : Config} {labels : List Label} {σ : System}
    (h : run (step cfg) System.init labels = some σ) : Consistent cfg σ :=
  run_invariant (Consistent cfg) (fun _ _ _ hi hs => step_inv hi hs) _ h (init_inv cfg)

variable {σ' : System} {l : Label} {phase' phase : Phase} {clock : ℕ} {o' o : Object}

theorem action_secrets {claimed c n : ℕ} (h : Action cfg clock claimed c o phase o' phase' n) :
    o'.session.secrets = o.session.secrets := by
  cases h with
  | refuse _ e _ hr hb ha ho => rcases ho with ⟨-,rfl⟩ | ⟨-,rfl⟩ <;> rfl
  | insert claim _ _ _ _ _ hs => exact hs
  | _ => rfl

def secretsOf (t : List Object) : List SessionSecrets := t.map (fun o => o.session.secrets)

theorem addRefs_secrets (t : List Object) (handles : List ℕ) :
    secretsOf (handles.foldl (fun t s => t.modify s Object.addRef) t) = secretsOf t := by
  have h := congrArg (List.map (fun x => x.1.secrets)) (addRefs_core t handles)
  rw [List.map_map, List.map_map] at h
  exact h

/-- How a step changes the calls: one is added, one takes an action, or one that was admitted
leaves its claim. -/
def CallsChange (cfg : Config) (σ : System) (l : Label) (calls : List Call) : Prop :=
  calls = σ.calls ∨
  (∃ s record, l = .openAndAdmit s record ∧ calls = σ.calls++[⟨s, .opening record⟩]) ∨
  (∃ c call o o' phase n, l = .advance c ∧ σ.calls[c]? = some call ∧
    σ.sessions[call.session]? = some o ∧ Action cfg σ.clock σ.claimed c o call.phase o' phase n ∧
    calls = σ.calls.set c ⟨call.session, phase⟩) ∨
  ∃ c s usage claim, σ.calls[c]? = some ⟨s, .returned .unused claim⟩ ∧
    calls = σ.calls.set c ⟨s, .returned usage claim⟩

/-- What a step does to the calls, the writers and the log; keys are fixed when a session
object is made. -/
theorem step_effect (h : step cfg σ l = some σ') :
    (∃ new, secretsOf σ'.sessions = secretsOf σ.sessions++new) ∧
    ((σ'.writers = σ.writers ∧ σ'.log = σ.log ∧ CallsChange cfg σ l σ'.calls) ∨
    (∃ c s o claim sealer, σ.calls[c]? = some ⟨s,.returned .unused claim⟩ ∧
      σ'.calls = σ.calls.set c ⟨s,.returned .consumed claim⟩ ∧ σ.sessions[s]? = some o ∧
      o.session.secrets.responseSealer cfg.P claim.requestId = .ok sealer ∧
      σ'.writers = σ.writers++[⟨c,sealer⟩] ∧ σ'.log = σ.log) ∨
    (∃ w writer next, σ'.calls = σ.calls ∧ σ.writers[w]? = some writer ∧
      checkedSucc writer.sealer.nextSequence = some next ∧
      σ'.writers = σ.writers.set w
        { writer with sealer := { writer.sealer with nextSequence := next } } ∧
      σ'.log = σ.log++[⟨w,writer.sealer.key,writer.sealer.nextSequence,
        responseNonce writer.sealer.nextSequence⟩])) := by
  have same : ∀ {τ : System}, secretsOf τ.sessions = secretsOf σ.sessions →
      ∃ new, secretsOf τ.sessions = secretsOf σ.sessions++new :=
    fun ht => ⟨[],by rw [ht, List.append_nil]⟩
  cases l with
  | tick =>
    cases h
    exact ⟨same rfl,.inl ⟨rfl,rfl,.inl rfl⟩⟩
  | create secrets lifetime capacity =>
    simp only [step] at h
    split at h <;> cases h
    · exact ⟨same rfl,.inl ⟨rfl,rfl,.inl rfl⟩⟩
    · exact ⟨⟨_,List.map_append⟩,.inl ⟨rfl,rfl,.inl rfl⟩⟩
  | clone s =>
    obtain ⟨o,-,rfl⟩ := Option.map_eq_some_iff.mp h
    exact ⟨same (addRefs_secrets _ _),.inl ⟨rfl,rfl,.inl rfl⟩⟩
  | drop s =>
    obtain ⟨o,ho,rfl⟩ := Option.map_eq_some_iff.mp h
    have hs := (looseObject_some ho).1
    unfold dropRef
    split_ifs <;> exact ⟨same (map_set_same _ _ _ hs rfl),.inl ⟨rfl,rfl,.inl rfl⟩⟩
  | storeInsert s now =>
    obtain ⟨o,ho,rfl⟩ := Option.map_eq_some_iff.mp h
    have hs := (looseObject_some ho).1
    unfold storeInsert
    split
    · exact ⟨same ((addRefs_secrets _ _).trans (map_set_same _ _ _ hs rfl)),
        .inl ⟨rfl,rfl,.inl rfl⟩⟩
    · exact ⟨same (addRefs_secrets _ _),.inl ⟨rfl,rfl,.inl rfl⟩⟩
  | storeGet id now =>
    cases h
    unfold storeGet
    split <;> exact ⟨same (addRefs_secrets _ _),.inl ⟨rfl,rfl,.inl rfl⟩⟩
  | storeRemove | purgeExpired =>
    cases h
    exact ⟨same (addRefs_secrets _ _),.inl ⟨rfl,rfl,.inl rfl⟩⟩
  | openAndAdmit s record =>
    obtain ⟨o,ho,rfl⟩ := Option.map_eq_some_iff.mp h
    exact ⟨same (map_set_same _ _ _ (looseObject_some ho).1 rfl),
      .inl ⟨rfl,rfl,.inr (.inl ⟨s,record,rfl,rfl⟩)⟩⟩
  | advance c =>
    obtain ⟨call,o,o',phase,n,hc,ho,hact,rfl⟩ := advance_some h
    exact ⟨same (map_set_same _ _ o' ho (action_secrets hact)),
      .inl ⟨rfl,rfl,.inr (.inr (.inl ⟨c,call,o,o',phase,n,rfl,hc,ho,hact,rfl⟩))⟩⟩
  | beginResponse c =>
    obtain ⟨τ,call,claim,o,hl,ho,hcases⟩ := beginResponse_some h
    obtain ⟨s,hc,rfl,rfl⟩ := leave_some hl
    rcases hcases with ⟨e,-,rfl⟩ | ⟨sealer,hs,rfl⟩
    · exact ⟨same (addRefs_secrets _ _),
        .inl ⟨rfl,rfl,.inr (.inr (.inr ⟨c,s,.consumed,claim,hc,rfl⟩))⟩⟩
    · exact ⟨same (addRefs_secrets _ _),.inr (.inl ⟨c,s,o,claim,sealer,hc,rfl,ho,hs,rfl,rfl⟩)⟩
  | abandon c =>
    obtain ⟨⟨τ,call,claim⟩,hl,rfl⟩ := Option.map_eq_some_iff.mp h
    obtain ⟨s,hc,-,rfl⟩ := leave_some hl
    exact ⟨same (addRefs_secrets _ _),
      .inl ⟨rfl,rfl,.inr (.inr (.inr ⟨c,s,.abandoned,claim,hc,rfl⟩))⟩⟩
  | sealNext w plaintext =>
    obtain ⟨writer,hw,⟨-,rfl⟩ | ⟨next,hn,rfl⟩⟩ := sealNext_some h
    · exact ⟨same rfl,.inl ⟨rfl,rfl,.inl rfl⟩⟩
    · exact ⟨same rfl,.inr (.inr ⟨w,writer,next,rfl,hw,hn,rfl,rfl⟩)⟩

theorem step_calls (h : step cfg σ l = some σ') : CallsChange cfg σ l σ'.calls := by
  rcases (step_effect h).2 with ⟨-,-,hcalls⟩ | ⟨c,s,_,claim,_,hc,he,-⟩ | ⟨_,_,_,he,-⟩
  · exact hcalls
  · exact .inr (.inr (.inr ⟨c,s,.consumed,claim,hc,he⟩))
  · exact .inl he

def Committed : Phase → Prop
  | .held .budgeted _ => True
  | .held .inserted _ => True
  | .returned _ _ => True
  | _ => False

variable {c : ℕ}

theorem action_committed {claimed : ℕ} {n : ℕ} (h : Action cfg clock claimed c o phase o' phase' n)
    (hc : Committed phase) : Committed phase' := by
  cases h with
  | refuse _ e _ hr hb ha ho =>
    cases phase with
    | held stage claim =>
      cases stage with
      | locked | checked => exact hc
      | budgeted => cases hb
      | inserted => cases ha
    | returned usage claim => cases ha
    | _ => exact hc
  | insert | unlock | budget => trivial
  | _ => exact hc

theorem action_uncommitted {claimed : ℕ} {n : ℕ}
    (h : Action cfg clock claimed c o phase o' phase' n) (hc : ¬Committed phase') :
    n = claimed ∧ o'.session.replay = o.session.replay := by
  cases h with
  | refuse _ e _ hr hb ha ho => rcases ho with ⟨-,rfl⟩ | ⟨-,rfl⟩ <;> exact ⟨rfl,rfl⟩
  | decrypt | sample | lock | check => exact ⟨rfl,rfl⟩
  | budget | insert => exact absurd trivial hc
  | unlock claim => exact ⟨rfl,rfl⟩

def CommittedCall (c : ℕ) (σ : System) : Prop :=
  ∃ call, σ.calls[c]? = some call ∧ Committed call.phase

theorem step_committed (hc : CommittedCall c σ) (h : step cfg σ l = some σ') :
    CommittedCall c σ' := by
  obtain ⟨call,hcall,hcom⟩ := hc
  rcases step_calls h with he | ⟨s,record,-,he⟩ | ⟨d,x,o,o',phase,n,-,hd,-,hact,he⟩ |
      ⟨d,s,usage,claim,hd,he⟩
  · exact ⟨call,by rw [he]; exact hcall,hcom⟩
  · exact ⟨call,by rw [he]; exact getElem?_push_old _ hcall,hcom⟩
  · by_cases hcd : c = d
    · subst hcd
      rw [hcall] at hd
      cases hd
      exact ⟨_,by rw [he]; exact getElem?_set_self_of _ hcall,action_committed hact hcom⟩
    · exact ⟨call,by rw [he, List.getElem?_set_ne (Ne.symm hcd)]; exact hcall,hcom⟩
  · by_cases hcd : c = d
    · subst hcd
      exact ⟨⟨s,.returned usage claim⟩,by rw [he]; exact getElem?_set_self_of _ hcall,
        trivial⟩
    · exact ⟨call,by rw [he, List.getElem?_set_ne (Ne.symm hcd)]; exact hcall,hcom⟩

theorem run_committed {labels : List Label} (hc : CommittedCall c σ)
    (h : run (step cfg) σ labels = some σ') : CommittedCall c σ' :=
  run_invariant (CommittedCall c) (fun _ _ _ hi hs => step_committed hi hs) _ h hc

/-- A step of the process that is an action of call `c`. -/
def OfCall (σ : System) (c : ℕ) (l : Label) : Prop :=
  l = .advance c ∨ ∃ s record, l = .openAndAdmit s record ∧ c = σ.calls.length

/-- A call that will be refused has touched neither counter nor set. -/
theorem refused_unchanged {σ'' : System} {rest : List Label} {s : ℕ} {e : SessionError}
    (hl : OfCall σ c l) (h : step cfg σ l = some σ') (hrest : run (step cfg) σ' rest = some σ'')
    (hend : σ''.calls[c]? = some ⟨s,.refused e⟩) : σ'.claimed = σ.claimed ∧
      σ'.sessions.map (fun o => o.session.replay) = σ.sessions.map (fun o => o.session.replay) := by
  rcases hl with rfl | ⟨s',record,rfl,-⟩
  · obtain ⟨call,o,o',phase,n,hc,ho,hact,rfl⟩ := advance_some h
    have hun : ¬Committed phase := by
      intro hcom
      have hcc : CommittedCall c { σ.move call.session c o' phase with claimed := n } :=
        ⟨⟨call.session,phase⟩,getElem?_set_self_of _ hc,hcom⟩
      obtain ⟨y,hy,hyc⟩ := run_committed hcc hrest
      rw [hend] at hy
      cases hy
      exact hyc
    obtain ⟨rfl,hreplay⟩ := action_uncommitted hact hun
    exact ⟨rfl,map_set_same _ _ o' ho hreplay⟩
  · obtain ⟨o,ho,rfl⟩ := Option.map_eq_some_iff.mp h
    exact ⟨rfl,map_set_same _ _ _ (looseObject_some ho).1 rfl⟩

/-- At-most-once admission in every interleaving: one admission per session
object and id, no trace of a refused call, a counter that is the retained ids of
the live sessions plus the calls between their two updates and that a drop never
takes below zero, and no admission at or after expiry. -/
theorem admission_at_most_once (cfg : Config) (labels : List Label) (σ : System)
    (h : run (step cfg) System.init labels = some σ) :
    (∀ (c d : ℕ) (x y : Call) (u v : Usage) (a b : Claim),
      σ.calls[c]? = some x → σ.calls[d]? = some y → x.session = y.session →
      x.phase = .returned u a → y.phase = .returned v b → a.requestId = b.requestId → c = d) ∧
    (∀ (c : ℕ) (l : Label) (σ' σ'' : System) (rest : List Label) (s : ℕ) (e : SessionError),
      OfCall σ c l → step cfg σ l = some σ' → run (step cfg) σ' rest = some σ'' →
      σ''.calls[c]? = some ⟨s, .refused e⟩ →
      σ'.claimed = σ.claimed ∧
        σ'.sessions.map (fun o => o.session.replay) =
          σ.sessions.map (fun o => o.session.replay)) ∧
    (σ.claimed = weight Object.retained σ.sessions+
        weight (fun call => call.phase.budgeting) σ.calls ∧
      σ.claimed ≤ cfg.budget.get ∧
      ∀ (s : ℕ) (o : Object), σ.looseObject s = some o → o.requestIds.length ≤ σ.claimed) ∧
    (∀ (c : ℕ) (x : Call) (u : Usage) (a : Claim), σ.calls[c]? = some x →
      x.phase = .returned u a →
      ∃ o, σ.sessions[x.session]? = some o ∧ a.now < o.session.expiresAt) := by
  have hi := run_inv h
  refine ⟨?_, ?_, ⟨hi.budget, hi.bounded, ?_⟩, ?_⟩
  · intro c d x y u v a b hx hy hs ha hb hab
    exact hi.distinct c d x y hx hy hs a b (by rw [ha]; rfl) (by rw [hb]; rfl) hab
  · intro c l σ' σ'' rest s e hl hstep hrest hend
    exact refused_unchanged hl hstep hrest hend
  · intro s o ho
    exact retained_le hi (looseObject_some ho).1 (loose_alive hi ho)
  · intro c x u a hx ha
    obtain ⟨o,ho,hok⟩ := hi.calls c x hx
    exact ⟨o,ho,hok.timely a (by rw [ha]; rfl)⟩

def oneWord : NonZeroUsize := ⟨8, by decide, by decide⟩

def sampleConfig : Config where
  P := ⟨fun _ _ => some ⟨Vector.replicate 32 0⟩, fun _ _ _ p => some p, fun _ _ _ c => some c⟩
  budget := oneWord
  storeCapacity := oneWord

def sampleSession : SessionSecrets :=
  ⟨⟨Vector.replicate 16 1⟩, ⟨Vector.replicate 32 2⟩, ⟨Vector.replicate 32 3⟩⟩

/-- One call, stopped after its budget claim and before its insertion. -/
def claimedLabels : List Label :=
  [.create sampleSession 10 oneWord, .openAndAdmit 0 (List.replicate 40 7), .advance 0, .advance 0,
    .advance 0, .advance 0, .advance 0]

theorem claimed_before_insert :
    (run (step sampleConfig) System.init claimedLabels).map
      (fun σ => (σ.claimed, weight Object.retained σ.sessions)) = some (1,0) := by
  decide +kernel

def replayLabels : List Label :=
  claimedLabels++[.advance 0, .advance 0, .openAndAdmit 0 (List.replicate 40 7), .advance 1,
    .advance 1, .advance 1, .advance 1]

theorem admission_at_most_once_replay :
    ∃ σ, run (step sampleConfig) System.init replayLabels = some σ ∧
      (σ.claimed = weight Object.retained σ.sessions+
        weight (fun call => call.phase.budgeting) σ.calls ∧ σ.claimed ≤ 8) ∧
      (σ.claimed, σ.calls.length) = (1,2) := by
  have hsome : (run (step sampleConfig) System.init replayLabels).isSome = true := by
    decide +kernel
  obtain ⟨σ,h⟩ := Option.isSome_iff_exists.mp hsome
  have hmain := (admission_at_most_once sampleConfig replayLabels σ h).2.2.1
  refine ⟨σ,h,⟨hmain.1,hmain.2.1⟩,?_⟩
  have hcount : (run (step sampleConfig) System.init replayLabels).map
      (fun σ => (σ.claimed, σ.calls.length)) = some (1,2) := by decide +kernel
  rw [h] at hcount
  exact Option.some.inj hcount

end Maple.Transport.AtMostOnce
