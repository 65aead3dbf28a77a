import Maple.Transport.Process

/-!
# At-most-once admission

The replay set of a session and the process-wide budget are separate objects
that a call updates one after the other. The invariant ties them together in
every interleaving: the counter is the sum of the retained sets of the live
sessions and of the calls that stand between their two updates.
-/

set_option autoImplicit false

namespace Maple.Transport.Admission
open Run Table Crypto Sessions Process List

/-- Everything one action of a call can do. -/
inductive Action (cfg : Config) (clock claimed c : ℕ) (o : Object) :
    Phase → Object → Phase → ℕ → Prop where
  | refuse (phase : Phase) (e : SessionError) (o' : Object) :
      phase.holdsRef = true → phase.budgeting = 0 → phase.admitted = none →
      (phase.holdsLock = false ∧ o' = o.addRef ∨
        phase.holdsLock = true ∧ o' = (o.unlock c).addRef) →
      Action cfg clock claimed c o phase o' (.refused e) claimed
  | decrypt (record : Bytes) (requestId : RequestId) (plaintext : Bytes) :
      Action cfg clock claimed c o (.opening record) o (.decrypted requestId plaintext) claimed
  | sample (requestId : RequestId) (plaintext : Bytes) :
      clock < o.session.expiresAt →
      Action cfg clock claimed c o (.decrypted requestId plaintext) o
        (.claiming ⟨requestId, plaintext, clock⟩) claimed
  | lock (claim : Claim) : o.holder = none →
      Action cfg clock claimed c o (.claiming claim) { o with holder := some c }
        (.held .locked claim) claimed
  | check (claim : Claim) : claim.requestId ∉ o.requestIds →
      Action cfg clock claimed c o (.held .locked claim) o (.held .checked claim) claimed
  | budget (claim : Claim) : claimed < cfg.budget.get →
      Action cfg clock claimed c o (.held .checked claim) o (.held .budgeted claim) (claimed+1)
  | insert (claim : Claim) (o' : Object) : o'.requestIds = claim.requestId::o.requestIds →
      o'.alive = o.alive → o'.holder = o.holder → o'.session.expiresAt = o.session.expiresAt →
      o'.session.secrets = o.session.secrets →
      Action cfg clock claimed c o (.held .budgeted claim) o' (.held .inserted claim) claimed
  | unlock (claim : Claim) :
      Action cfg clock claimed c o (.held .inserted claim) (o.unlock c).addRef
        (.returned .unused claim) claimed

variable {c : ℕ} {o o' : Object}

theorem localStep_action {cfg : Config} {clock claimed : ℕ} {phase phase' : Phase} {n : ℕ}
    (h : localStep cfg clock claimed c o phase = some (o',phase',n)) :
    Action cfg clock claimed c o phase o' phase' n := by
  cases phase with
  | opening record =>
    simp only [localStep] at h
    split at h <;> cases h
    · exact .refuse _ _ _ rfl rfl rfl (Or.inl ⟨rfl,rfl⟩)
    · exact .decrypt record _ _
  | decrypted requestId plaintext =>
    simp only [localStep] at h
    split_ifs at h with he <;> cases h
    · exact .refuse _ _ _ rfl rfl rfl (Or.inl ⟨rfl,rfl⟩)
    · exact .sample requestId plaintext (by simpa [Session.isExpired] using he)
  | claiming claim =>
    simp only [localStep] at h
    split at h
    · cases h
    rename_i hfree
    split_ifs at h <;> cases h
    · exact .refuse _ _ _ rfl rfl rfl (Or.inl ⟨rfl,rfl⟩)
    · exact .lock claim hfree
  | held stage claim =>
    cases stage with
    | locked =>
      simp only [localStep] at h
      split at h <;> cases h
      · exact .refuse _ _ _ rfl rfl rfl (Or.inr ⟨rfl,rfl⟩)
      · rename_i hok
        exact .check claim (precheck_ok hok)
    | checked =>
      simp only [localStep] at h
      split at h <;> cases h
      · exact .refuse _ _ _ rfl rfl rfl (Or.inr ⟨rfl,rfl⟩)
      · rename_i hok
        obtain ⟨hlt,rfl⟩ := claimOne_ok hok
        exact .budget claim hlt
    | budgeted =>
      cases h
      exact .insert claim _ rfl rfl rfl rfl rfl
    | inserted =>
      cases h
      exact .unlock claim
  | returned | refused => cases h

structure CallOk (c : ℕ) (phase : Phase) (o : Object) : Prop where
  live : phase.holdsRef = true → o.alive = true
  owner : phase.holdsLock = true → o.holder = some c
  fresh : ∀ claim, phase = .held .checked claim ∨ phase = .held .budgeted claim →
    claim.requestId ∉ o.requestIds
  recorded : ∀ claim, phase.admitted = some claim → claim.requestId ∈ o.requestIds
  timely : ∀ claim, phase.claim = some claim → claim.now < o.session.expiresAt

section Action
variable {cfg : Config} {clock claimed c : ℕ} {o o' : Object} {phase phase' : Phase} {n : ℕ}

theorem action_callOk (h : Action cfg clock claimed c o phase o' phase' n)
    (hok : CallOk c phase o) : CallOk c phase' o' := by
  have hlive := hok.live
  have htime := hok.timely
  have hown := hok.owner
  cases h with
  | refuse _ e _ hr hb ha ho =>
    exact ⟨by simp [Phase.holdsRef],by simp [Phase.holdsLock],by simp,
      by simp [Phase.admitted],by simp [Phase.claim]⟩
  | decrypt record requestId plaintext =>
    exact ⟨fun _ => hlive rfl,by simp [Phase.holdsLock],by simp,by simp [Phase.admitted],
      by simp [Phase.claim]⟩
  | sample requestId plaintext hlt =>
    exact ⟨fun _ => hlive rfl,by simp [Phase.holdsLock],by simp,by simp [Phase.admitted],
      by simpa [Phase.claim] using hlt⟩
  | lock claim hfree =>
    exact ⟨fun _ => hlive rfl,fun _ => rfl,by simp,by simp [Phase.admitted],
      fun d hd => htime d hd⟩
  | check claim hnew =>
    refine ⟨fun _ => hlive rfl,fun _ => hown rfl,?_,by simp [Phase.admitted],
      fun d hd => htime d hd⟩
    rintro d (hd | hd) <;> cases hd
    exact hnew
  | budget claim hlt =>
    refine ⟨fun _ => hlive rfl,fun _ => hown rfl,?_,by simp [Phase.admitted],
      fun d hd => htime d hd⟩
    rintro d (hd | hd) <;> cases hd
    exact hok.fresh _ (Or.inl rfl)
  | insert claim _ hids halive hholder hexp _ =>
    refine ⟨fun _ => by rw [halive]; exact hlive rfl,fun _ => by rw [hholder]; exact hown rfl,
      by simp,?_,fun d hd => by rw [hexp]; exact htime d hd⟩
    rintro d ⟨rfl⟩
    simp [hids]
  | unlock claim =>
    exact ⟨fun _ => hlive rfl,by simp [Phase.holdsLock],by simp,
      fun d hd => hok.recorded d hd,fun d hd => htime d hd⟩

/-- The parts of an object another call can rely on. -/
theorem action_frame (h : Action cfg clock claimed c o phase o' phase' n) (hok : CallOk c phase o) :
    o'.alive = o.alive ∧ o'.session.expiresAt = o.session.expiresAt ∧
      (∀ c', c' ≠ c → o.holder = some c' → o'.holder = some c' ∧ o'.requestIds = o.requestIds) ∧
      ∀ r ∈ o.requestIds, r ∈ o'.requestIds := by
  cases h with
  | refuse _ e _ hr hb ha ho =>
    rcases ho with ⟨-,rfl⟩ | ⟨hl,rfl⟩
    · exact ⟨rfl,rfl,fun c' _ hc => ⟨hc,rfl⟩,fun r hr => hr⟩
    · refine ⟨rfl,rfl,fun c' hne hc => ?_,fun r hr => hr⟩
      rw [hok.owner hl] at hc
      exact absurd (Option.some.inj hc).symm hne
  | decrypt | sample => exact ⟨rfl,rfl,fun c' _ hc => ⟨hc,rfl⟩,fun r hr => hr⟩
  | lock claim hfree =>
    refine ⟨rfl,rfl,fun c' _ hc => ?_,fun r hr => hr⟩
    rw [hfree] at hc
    cases hc
  | check | budget => exact ⟨rfl,rfl,fun c' _ hc => ⟨hc,rfl⟩,fun r hr => hr⟩
  | insert claim _ hids halive hholder hexp _ =>
    refine ⟨halive,hexp,fun c' hne hc => ?_,fun r hr => by simp [hids, hr]⟩
    rw [hok.owner rfl] at hc
    exact absurd (Option.some.inj hc).symm hne
  | unlock claim =>
    refine ⟨rfl,rfl,fun c' hne hc => ?_,fun r hr => hr⟩
    rw [hok.owner rfl] at hc
    exact absurd (Option.some.inj hc).symm hne

theorem action_holdsRef (h : Action cfg clock claimed c o phase o' phase' n) :
    phase.holdsRef = true := by
  cases h with
  | refuse _ e _ hr hb ha ho => exact hr
  | _ => rfl

theorem action_budget (h : Action cfg clock claimed c o phase o' phase' n)
    (hok : CallOk c phase o) :
    n+o.retained+phase.budgeting = claimed+o'.retained+phase'.budgeting ∧
      (n = claimed ∨ n = claimed+1 ∧ claimed < cfg.budget.get) := by
  have halive := hok.live (action_holdsRef h)
  have hframe := (action_frame h hok).1
  rw [Object.retained, Object.retained, hframe, halive, if_pos rfl, if_pos rfl]
  cases h with
  | refuse _ e _ hr hb ha ho =>
    rcases ho with ⟨-,rfl⟩ | ⟨-,rfl⟩ <;> rw [hb] <;> exact ⟨rfl,Or.inl rfl⟩
  | decrypt | sample | lock | check => exact ⟨rfl,Or.inl rfl⟩
  | budget claim hlt =>
    refine ⟨?_,Or.inr ⟨rfl,hlt⟩⟩
    simp only [Phase.budgeting]
    omega
  | insert claim _ hids _ _ _ _ =>
    refine ⟨?_,Or.inl rfl⟩
    simp only [Phase.budgeting, hids, length_cons]
    omega
  | unlock claim => exact ⟨rfl,Or.inl rfl⟩

theorem action_admitted (h : Action cfg clock claimed c o phase o' phase' n) {claim : Claim}
    (ha : phase'.admitted = some claim) :
    phase.admitted = some claim ∨ phase = .held .budgeted claim := by
  cases h with
  | insert d _ _ _ _ _ _ =>
    cases ha
    exact Or.inr rfl
  | unlock d => exact Or.inl ha
  | _ => cases ha

end Action

def core (o : Object) : Session × Option ℕ × Bool := (o.session, o.holder, o.alive)

theorem callOk_core {phase : Phase} (h : core o' = core o) (hok : CallOk c phase o) :
    CallOk c phase o' := by
  simp only [core, Prod.mk.injEq] at h
  obtain ⟨hs,hh,ha⟩ := h
  exact ⟨fun hr => ha ▸ hok.live hr,fun hl => hh ▸ hok.owner hl,
    fun d hd => by rw [Object.requestIds, hs]; exact hok.fresh d hd,
    fun d hd => by rw [Object.requestIds, hs]; exact hok.recorded d hd,
    fun d hd => by rw [hs]; exact hok.timely d hd⟩

variable {t : List Object} {s : ℕ}

theorem core_lookup {t' : List Object} (h : t'.map core = t.map core) (ho : t[s]? = some o) :
    ∃ o', t'[s]? = some o' ∧ core o' = core o := by
  have hs := congrArg (fun l => l[s]?) h
  simp only [List.getElem?_map, ho, Option.map_some, Option.map_eq_some_iff] at hs
  exact hs

theorem retained_core {t' : List Object} (h : t'.map core = t.map core) :
    weight Object.retained t' = weight Object.retained t := by
  have hr : Object.retained =
      (fun x : Session × Option ℕ × Bool => if x.2.2 then x.1.replay.requestIds.length else 0) ∘
        core := rfl
  simp only [weight]
  rw [hr, ← map_map, ← map_map, h]

structure Consistent (cfg : Config) (σ : System) : Prop where
  budget : σ.claimed =
    weight Object.retained σ.sessions+weight (fun call => call.phase.budgeting) σ.calls
  bounded : σ.claimed ≤ cfg.budget.get
  calls : ∀ (c : ℕ) (call : Call), σ.calls[c]? = some call →
    ∃ o, σ.sessions[call.session]? = some o ∧ CallOk c call.phase o
  dead : ∀ (s : ℕ) (o : Object), σ.sessions[s]? = some o → o.alive = false → o.loose = 0
  stored : ∀ e ∈ σ.store, ∃ o, σ.sessions[e.2]? = some o ∧ o.alive = true
  distinct : ∀ (c d : ℕ) (x y : Call), σ.calls[c]? = some x → σ.calls[d]? = some y → x.session = y.session →
    ∀ (a b : Claim), x.phase.admitted = some a → y.phase.admitted = some b →
      a.requestId = b.requestId → c = d

theorem init_inv (cfg : Config) : Consistent cfg System.init :=
  ⟨rfl,Nat.zero_le _,by simp [System.init],by simp [System.init],by simp [System.init],
    by simp [System.init]⟩

variable {cfg : Config} {σ : System}

/-- Moving references around changes nothing that admission looks at. -/
theorem inv_refs (hi : Consistent cfg σ) {store : SessionStore}
    (hcore : t.map core = σ.sessions.map core)
    (hloose : ∀ (s : ℕ) (o o' : Object), σ.sessions[s]? = some o → t[s]? = some o' →
      o.alive = false → o'.loose = o.loose)
    (hstore : ∀ e ∈ store, ∃ o, σ.sessions[e.2]? = some o ∧ o.alive = true) :
    Consistent cfg { σ with sessions := t, store := store } := by
  refine ⟨by rw [hi.budget, retained_core hcore],hi.bounded,?_,?_,?_,hi.distinct⟩
  · intro c call hc
    obtain ⟨o,ho,hok⟩ := hi.calls c call hc
    obtain ⟨o',ho',hco⟩ := core_lookup hcore ho
    exact ⟨o',ho',callOk_core hco hok⟩
  · intro s o' ho' hdead
    obtain ⟨o,ho,hco⟩ := core_lookup hcore.symm ho'
    have halive : o.alive = false := by
      simp only [core, Prod.mk.injEq] at hco
      rw [hco.2.2, hdead]
    rw [hloose s o o' ho ho' halive, hi.dead s o ho halive]
  · intro e he
    obtain ⟨o,ho,halive⟩ := hstore e he
    obtain ⟨o',ho',hco⟩ := core_lookup hcore ho
    simp only [core, Prod.mk.injEq] at hco
    exact ⟨o',ho',hco.2.2.trans halive⟩

theorem addRefs_core (t : List Object) (handles : List ℕ) :
    (handles.foldl (fun t s => t.modify s Object.addRef) t).map core = t.map core := by
  induction handles generalizing t with
  | nil => rfl
  | cons s handles ih =>
    rw [foldl_cons, ih, map_modify_same core Object.addRef (fun _ => rfl)]

theorem addRefs_other (t : List Object) {handles : List ℕ} (hs : s ∉ handles) :
    (handles.foldl (fun t s => t.modify s Object.addRef) t)[s]? = t[s]? := by
  induction handles generalizing t with
  | nil => rfl
  | cons r handles ih =>
    simp only [mem_cons, not_or] at hs
    rw [foldl_cons, ih _ hs.2, List.getElem?_modify_ne _ _ (Ne.symm hs.1)]

theorem inv_addRefs (hi : Consistent cfg σ) (store : SessionStore) (handles : List ℕ)
    (hstore : ∀ e ∈ store, ∃ o, σ.sessions[e.2]? = some o ∧ o.alive = true)
    (halive : ∀ s ∈ handles, ∀ o, σ.sessions[s]? = some o → o.alive = true) :
    Consistent cfg ({ σ with store := store }.addRefs handles) := by
  refine inv_refs hi (addRefs_core _ _) ?_ hstore
  intro s o o' ho ho' hdead
  have hs : s ∉ handles := by
    intro hmem
    rw [halive s hmem o ho] at hdead
    cases hdead
  rw [addRefs_other _ hs, ho] at ho'
  cases ho'
  rfl

variable {σ : System}

theorem looseObject_some (h : σ.looseObject s = some o) :
    σ.sessions[s]? = some o ∧ 0 < o.loose := by
  unfold System.looseObject at h
  split at h
  · rename_i x hx
    split_ifs at h with hl
    cases h
    exact ⟨hx,hl⟩
  · cases h

theorem loose_alive (hi : Consistent cfg σ) (h : σ.looseObject s = some o) : o.alive = true := by
  obtain ⟨ho,hl⟩ := looseObject_some h
  by_contra hne
  have := hi.dead s o ho (by simpa using hne)
  omega

theorem inv_takeRef (hi : Consistent cfg σ) (h : σ.looseObject s = some o) :
    Consistent cfg { σ with sessions := σ.sessions.set s o.takeRef } := by
  have ho := (looseObject_some h).1
  have halive := loose_alive hi h
  refine inv_refs hi (map_set_same core s _ ho rfl) ?_ hi.stored
  intro s' x x' hx hx' hdead
  rcases getElem?_set_some hx' with ⟨rfl,rfl⟩ | ⟨-,hx'⟩
  · rw [ho] at hx
    cases hx
    rw [halive] at hdead
    cases hdead
  · rw [hx] at hx'
    cases hx'
    rfl

theorem inv_create (hi : Consistent cfg σ) (session : Session)
    (hnew : session.replay.requestIds = []) :
    Consistent cfg { σ with sessions := σ.sessions++[⟨session,none,1,true⟩] } := by
  refine ⟨?_,hi.bounded,?_,?_,?_,hi.distinct⟩
  · simp [Object.retained, Object.requestIds, hnew, hi.budget]
  · intro c call hc
    obtain ⟨o,ho,hok⟩ := hi.calls c call hc
    exact ⟨o,getElem?_push_old _ ho,hok⟩
  · intro s o ho hdead
    rcases getElem?_push ho with ho | ⟨-,rfl⟩
    · exact hi.dead s o ho hdead
    · cases hdead
  · intro e he
    obtain ⟨o,ho,halive⟩ := hi.stored e he
    exact ⟨o,getElem?_push_old _ ho,halive⟩

theorem not_referenced (h : ¬σ.referenced s = true) : (∀ e ∈ σ.store, e.2 ≠ s) ∧
      ∀ call ∈ σ.calls, call.session = s → call.phase.holdsRef = false := by
  simp only [System.referenced, Bool.or_eq_true, any_eq_true, Bool.and_eq_true,
    decide_eq_true_eq, not_or, not_exists, not_and, Bool.not_eq_true] at h
  exact h

theorem holdsLock_holdsRef {phase : Phase} (h : phase.holdsLock = true) :
    phase.holdsRef = true := by
  cases phase <;> first | rfl | cases h

/-- The last reference: the registry's ids were counted, so the counter covers
them. -/
theorem retained_le (hi : Consistent cfg σ) (ho : σ.sessions[s]? = some o)
    (halive : o.alive = true) :
    o.requestIds.length ≤ σ.claimed := by
  have hle := le_weight Object.retained s ho
  rw [Object.retained, halive, if_pos rfl] at hle
  rw [hi.budget]
  omega

theorem inv_dropRef (hi : Consistent cfg σ) (h : σ.looseObject s = some o) :
    Consistent cfg (dropRef σ s o) := by
  obtain ⟨ho,-⟩ := looseObject_some h
  have halive := loose_alive hi h
  unfold dropRef
  split_ifs with hlast
  swap
  · exact inv_takeRef hi h
  obtain ⟨hone,href⟩ := hlast
  obtain ⟨hstore,hcalls⟩ := not_referenced href
  have hcovered := retained_le hi ho halive
  have hfits : σ.claimed < 2^64 := lt_of_le_of_lt hi.bounded cfg.budget.fits
  have hrel := release_eq hcovered hfits
  refine ⟨?_,?_,?_,?_,?_,hi.distinct⟩
  · have hw := weight_set Object.retained s { o.takeRef with alive := false } ho
    have hold : o.retained = o.requestIds.length := by rw [Object.retained, halive, if_pos rfl]
    have hnew : ({ o.takeRef with alive := false } : Object).retained = 0 := rfl
    have hb := hi.budget
    change release σ.claimed o.requestIds.length =
      weight Object.retained (σ.sessions.set s { o.takeRef with alive := false })+
        weight (fun call : Call => call.phase.budgeting) σ.calls
    omega
  · rw [hrel]
    exact le_trans (Nat.sub_le _ _) hi.bounded
  · intro c call hc
    obtain ⟨x,hx,hok⟩ := hi.calls c call hc
    by_cases hs : call.session = s
    · have hno := hcalls call (List.mem_of_getElem? hc) hs
      rw [hs, ho] at hx
      cases hx
      rw [hs]
      refine ⟨_,getElem?_set_self_of _ ho,?_⟩
      exact ⟨fun hr => absurd hr (by simp [hno]),
        fun hl => absurd (holdsLock_holdsRef hl) (by simp [hno]),
        hok.fresh,hok.recorded,hok.timely⟩
    · exact ⟨x,by rw [List.getElem?_set_ne (Ne.symm hs)]; exact hx,hok⟩
  · intro s' x hx hdead
    rcases getElem?_set_some hx with ⟨rfl,rfl⟩ | ⟨-,hx⟩
    · simp [Object.takeRef, hone]
    · exact hi.dead s' x hx hdead
  · intro e he
    obtain ⟨x,hx,hxa⟩ := hi.stored e he
    exact ⟨x,by rw [List.getElem?_set_ne (Ne.symm (hstore e he))]; exact hx,hxa⟩

theorem inv_open (hi : Consistent cfg σ) (record : Bytes) (h : σ.looseObject s = some o) :
    Consistent cfg { σ with
      sessions := σ.sessions.set s o.takeRef
      calls := σ.calls++[⟨s,.opening record⟩] } := by
  have ht := inv_takeRef hi h
  have ho := (looseObject_some h).1
  have halive := loose_alive hi h
  refine ⟨by simpa [Phase.budgeting] using ht.budget,ht.bounded,?_,ht.dead,ht.stored,?_⟩
  · intro c call hc
    rcases getElem?_push hc with hc | ⟨-,rfl⟩
    · exact ht.calls c call hc
    · exact ⟨o.takeRef,getElem?_set_self_of _ ho,fun _ => halive,
        by simp [Phase.holdsLock],by simp,by simp [Phase.admitted],by simp [Phase.claim]⟩
  · intro c d x y hx hy hs a b ha hb hab
    rcases getElem?_push hx with hx | ⟨-,rfl⟩
    · rcases getElem?_push hy with hy | ⟨-,rfl⟩
      · exact hi.distinct c d x y hx hy hs a b ha hb hab
      · cases hb
    · cases ha

theorem inv_frame (hi : Consistent cfg σ) (clock : ℕ) (writers : List Writer)
    (log : List SealEvent) :
    Consistent cfg { σ with clock := clock, writers := writers, log := log } :=
  ⟨hi.budget,hi.bounded,hi.calls,hi.dead,hi.stored,hi.distinct⟩

variable {σ' : System}

theorem advance_some (h : advance cfg σ c = some σ') :
    ∃ call o o' phase n, σ.calls[c]? = some call ∧ σ.sessions[call.session]? = some o ∧
      Action cfg σ.clock σ.claimed c o call.phase o' phase n ∧
      σ' = { σ.move call.session c o' phase with claimed := n } := by
  unfold advance at h
  split at h
  · cases h
  rename_i call hc
  split at h
  · cases h
  rename_i o ho
  split at h
  · cases h
  rename_i o' phase n hl
  cases h
  exact ⟨call,o,o',phase,n,hc,ho,localStep_action hl,rfl⟩

theorem action_other {d : ℕ} {phase phase' other : Phase} {clock claimed n : ℕ}
    (h : Action cfg clock claimed c o phase o' phase' n) (hok : CallOk c phase o) (hne : d ≠ c)
    (hother : CallOk d other o) : CallOk d other o' := by
  obtain ⟨halive,hexp,hlock,hgrow⟩ := action_frame h hok
  refine ⟨fun hr => by rw [halive]; exact hother.live hr,
    fun hl => (hlock d hne (hother.owner hl)).1,?_,fun a ha => hgrow _ (hother.recorded a ha),
    fun a ha => by rw [hexp]; exact hother.timely a ha⟩
  intro a ha
  have hl : other.holdsLock = true := by rcases ha with rfl | rfl <;> rfl
  rw [(hlock d hne (hother.owner hl)).2]
  exact hother.fresh a ha

theorem inv_advance (hi : Consistent cfg σ) (h : advance cfg σ c = some σ') :
    Consistent cfg σ' := by
  obtain ⟨call,o,o',phase,n,hc,ho,hact,rfl⟩ := advance_some h
  have hok : CallOk c call.phase o := by
    obtain ⟨x,hx,hok⟩ := hi.calls c call hc
    rw [ho] at hx
    cases hx
    exact hok
  have halive := hok.live (action_holdsRef hact)
  have hframe := action_frame hact hok
  obtain ⟨hcount,hgrow⟩ := action_budget hact hok
  have hobj : ∀ s x, (σ.sessions.set call.session o')[s]? = some x →
      (s = call.session ∧ x = o') ∨ (s ≠ call.session ∧ σ.sessions[s]? = some x) :=
    fun s x hx => getElem?_set_some hx
  refine ⟨?_,?_,?_,?_,?_,?_⟩
  · have hw := weight_set Object.retained call.session o' ho
    have hv := weight_set (fun x : Call => x.phase.budgeting) c ⟨call.session,phase⟩ hc
    have hb := hi.budget
    simp only [System.move]
    simp only at hv
    omega
  · have hb := hi.bounded
    simp only
    omega
  · intro d x hd
    rcases getElem?_set_some hd with ⟨rfl,rfl⟩ | ⟨hne,hd⟩
    · exact ⟨o',getElem?_set_self_of _ ho,action_callOk hact hok⟩
    obtain ⟨y,hy,hyok⟩ := hi.calls d x hd
    by_cases hs : x.session = call.session
    · rw [hs, ho] at hy
      cases hy
      rw [hs]
      exact ⟨o',getElem?_set_self_of _ ho,action_other hact hok hne hyok⟩
    · exact ⟨y,by simp only [System.move]; rw [List.getElem?_set_ne (Ne.symm hs)]; exact hy,hyok⟩
  · intro s x hx hdead
    rcases hobj s x hx with ⟨rfl,rfl⟩ | ⟨-,hx⟩
    · rw [hframe.1, halive] at hdead
      cases hdead
    · exact hi.dead s x hx hdead
  · intro e he
    obtain ⟨x,hx,hxa⟩ := hi.stored e he
    by_cases hs : e.2 = call.session
    · rw [hs]
      exact ⟨o',getElem?_set_self_of _ ho,by rw [hframe.1, halive]⟩
    · exact ⟨x,by simp only [System.move]; rw [List.getElem?_set_ne (Ne.symm hs)]; exact hx,hxa⟩
  · have hnew : ∀ d y, d ≠ c → σ.calls[d]? = some y → y.session = call.session →
        ∀ a b, phase.admitted = some a → y.phase.admitted = some b → a.requestId ≠ b.requestId := by
      intro d y hne hy hs a b ha hb hab
      rcases action_admitted hact ha with hold | hold
      · exact hne (hi.distinct d c y call hy hc hs b a hb hold hab.symm)
      · obtain ⟨z,hz,hzok⟩ := hi.calls d y hy
        rw [hs, ho] at hz
        cases hz
        exact hok.fresh a (Or.inr hold) (hab ▸ hzok.recorded b hb)
    intro d e x y hx hy hs a b ha hb hab
    rcases getElem?_set_some hx with ⟨rfl,rfl⟩ | ⟨hdne,hx'⟩
    · rcases getElem?_set_some hy with ⟨rfl,rfl⟩ | ⟨hene,hy'⟩
      · rfl
      · exact absurd hab (hnew e y hene hy' hs.symm a b ha hb)
    · rcases getElem?_set_some hy with ⟨rfl,rfl⟩ | ⟨hene,hy'⟩
      · exact absurd hab.symm (hnew d x hdne hx' hs b a hb ha)
      · exact hi.distinct d e x y hx' hy' hs a b ha hb hab

theorem leave_some {usage : Usage} {call : Call} {claim : Claim}
    (h : leave σ c usage = some (σ',call,claim)) :
    ∃ s, σ.calls[c]? = some ⟨s,.returned .unused claim⟩ ∧ call = ⟨s,.returned .unused claim⟩ ∧
      σ' = ({ σ with calls := σ.calls.set c ⟨s,.returned usage claim⟩ } : System).addRefs [s] := by
  unfold leave at h
  split at h
  · rename_i s d hc
    cases h
    exact ⟨s,hc,rfl,rfl⟩
  · cases h

theorem inv_leave (hi : Consistent cfg σ) {usage : Usage} {call : Call} {claim : Claim}
    (h : leave σ c usage = some (σ',call,claim)) : Consistent cfg σ' := by
  obtain ⟨s,hc,-,rfl⟩ := leave_some h
  obtain ⟨o,ho,hok⟩ := hi.calls c _ hc
  have halive : o.alive = true := hok.live rfl
  have hset : Consistent cfg { σ with calls := σ.calls.set c ⟨s,.returned usage claim⟩ } := by
    refine ⟨?_,hi.bounded,?_,hi.dead,hi.stored,?_⟩
    · have hw := weight_set_same (fun x : Call => x.phase.budgeting)
        ⟨s,.returned usage claim⟩ hc rfl
      simp only [hw]
      exact hi.budget
    · intro d x hd
      rcases getElem?_set_some hd with ⟨rfl,rfl⟩ | ⟨-,hd⟩
      · exact ⟨o,ho,fun _ => halive,by simp [Phase.holdsLock],by simp,
          fun a ha => hok.recorded a ha,fun a ha => hok.timely a ha⟩
      · exact hi.calls d x hd
    · intro d e x y hx hy hs a b ha hb hab
      rcases getElem?_set_some hx with ⟨rfl,rfl⟩ | ⟨-,hx'⟩
      · rcases getElem?_set_some hy with ⟨rfl,rfl⟩ | ⟨-,hy'⟩
        · rfl
        · exact hi.distinct d e _ y hc hy' hs a b ha hb hab
      · rcases getElem?_set_some hy with ⟨rfl,rfl⟩ | ⟨-,hy'⟩
        · exact hi.distinct d e x _ hx' hc hs a b ha hb hab
        · exact hi.distinct d e x y hx' hy' hs a b ha hb hab
  refine inv_addRefs hset σ.store [s] hi.stored ?_
  intro t ht x hx
  obtain rfl := mem_singleton.mp ht
  rw [ho] at hx
  cases hx
  exact halive

theorem find_mem (store : SessionStore) (id : SessionId) (s : ℕ) (h : store.find id = some s) :
    (id,s) ∈ store := by
  simp only [SessionStore.find, Option.map_eq_some_iff] at h
  obtain ⟨e,he,rfl⟩ := h
  have hid := List.find?_some he
  simp only [decide_eq_true_eq] at hid
  rw [← hid]
  exact List.mem_of_find?_eq_some he

theorem erase_subset (store : SessionStore) (id : SessionId) :
    ∀ e ∈ store.erase id, e ∈ store := fun _ he => List.mem_of_mem_filter he

theorem stored_alive (hi : Consistent cfg σ) {id : SessionId} (h : (id,s) ∈ σ.store)
    (ho : σ.sessions[s]? = some o) : o.alive = true := by
  obtain ⟨x,hx,hxa⟩ := hi.stored (id,s) h
  rw [ho] at hx
  cases hx
  exact hxa

/-- Taking entries out of the map turns their references loose. -/
theorem inv_reclaim (hi : Consistent cfg σ) (store : SessionStore) (handles : List ℕ)
    (hstore : ∀ e ∈ store, e ∈ σ.store) (hh : ∀ s ∈ handles, ∃ id, (id,s) ∈ σ.store) :
    Consistent cfg ({ σ with store := store }.addRefs handles) := by
  refine inv_addRefs hi store handles (fun e he => hi.stored e (hstore e he)) ?_
  intro s hs o ho
  obtain ⟨id,hid⟩ := hh s hs
  exact stored_alive hi hid ho

theorem inv_storeGet (hi : Consistent cfg σ) (id : SessionId) (now : ℕ) :
    Consistent cfg (storeGet σ id now) := by
  unfold storeGet SessionStore.getAt
  cases hf : σ.store.find id with
  | none => exact inv_reclaim hi σ.store [] (fun _ he => he) (by simp)
  | some s =>
    have hmem := find_mem _ _ _ hf
    simp only
    split_ifs with he
    · exact inv_reclaim hi _ [s] (erase_subset _ _) (by simpa using ⟨id,hmem⟩)
    · exact inv_reclaim hi σ.store [s] (fun _ he => he) (by simpa using ⟨id,hmem⟩)

theorem inv_storeInsert (hi : Consistent cfg σ) (now : ℕ) (h : σ.looseObject s = some o) :
    Consistent cfg (storeInsert cfg σ s now o) := by
  have ho := (looseObject_some h).1
  have halive := loose_alive hi h
  have ht := inv_takeRef hi h
  have hself : ∃ x, (σ.sessions.set s o.takeRef)[s]? = some x ∧ x.alive = true :=
    ⟨_,getElem?_set_self_of _ ho,halive⟩
  unfold storeInsert SessionStore.insertAt
  cases hf : σ.store.find o.session.secrets.sessionId with
  | none =>
    simp only
    split_ifs with he hfull
    · exact inv_reclaim hi σ.store [] (fun _ he => he) (by simp)
    · exact inv_reclaim hi σ.store [] (fun _ he => he) (by simp)
    · refine inv_addRefs ht _ [] ?_ (by simp)
      intro e he
      rcases mem_cons.mp he with rfl | he
      · exact hself
      · exact ht.stored e he
  | some existing =>
    have hmem := find_mem _ _ _ hf
    simp only
    split_ifs with he hex hfull
    · exact inv_reclaim hi σ.store [] (fun _ he => he) (by simp)
    · exact inv_reclaim hi _ [existing] (erase_subset _ _) (by simpa using ⟨_,hmem⟩)
    · refine inv_addRefs ht _ [existing] ?_ ?_
      · intro e he
        rcases mem_cons.mp he with rfl | he
        · exact hself
        · exact ht.stored e (erase_subset _ _ e he)
      · intro t ht' x hx
        obtain rfl := mem_singleton.mp ht'
        exact stored_alive ht hmem hx
    · exact inv_reclaim hi σ.store [] (fun _ he => he) (by simp)

theorem beginResponse_some (h : beginResponse cfg σ c = some σ') :
    ∃ τ call claim o, leave σ c .consumed = some (τ,call,claim) ∧
      σ.sessions[call.session]? = some o ∧
      ((∃ e, o.session.secrets.responseSealer cfg.P claim.requestId = .error e ∧ σ' = τ) ∨
        ∃ sealer, o.session.secrets.responseSealer cfg.P claim.requestId = .ok sealer ∧
          σ' = { τ with writers := τ.writers++[⟨c,sealer⟩] }) := by
  unfold beginResponse at h
  split at h
  · cases h
  rename_i τ call claim hl
  split at h
  · cases h
  rename_i o ho
  split at h <;> rename_i hs <;> cases h
  · exact ⟨_,call,claim,o,hl,ho,Or.inl ⟨_,hs,rfl⟩⟩
  · exact ⟨τ,call,claim,o,hl,ho,Or.inr ⟨_,hs,rfl⟩⟩

theorem sealNext_some {w : ℕ} {plaintext : Bytes} (h : sealNext cfg σ w plaintext = some σ') :
    ∃ writer, σ.writers[w]? = some writer ∧
      (checkedSucc writer.sealer.nextSequence = none ∧ σ' = σ ∨
        ∃ next, checkedSucc writer.sealer.nextSequence = some next ∧ σ' = { σ with
            writers := σ.writers.set w
              { writer with sealer := { writer.sealer with nextSequence := next } }
            log := σ.log++[⟨w,writer.sealer.key,writer.sealer.nextSequence,
              responseNonce writer.sealer.nextSequence⟩] }) := by
  unfold sealNext at h
  split at h
  · cases h
  rename_i writer hw
  refine ⟨writer,hw,?_⟩
  unfold ResponseSealer.sealNext at h
  cases hn : checkedSucc writer.sealer.nextSequence with
  | none =>
    simp only [hn] at h
    cases h
    exact Or.inl ⟨rfl,rfl⟩
  | some next =>
    refine Or.inr ⟨next,rfl,?_⟩
    simp only [hn, sealDetachedNonce] at h
    split at h
    · rename_i hs
      split at hs <;> cases hs
    · rename_i hs
      cases hs
      cases h
      rfl

theorem step_inv {l : Label} (hi : Consistent cfg σ) (h : step cfg σ l = some σ') :
    Consistent cfg σ' := by
  cases l with
  | tick =>
    cases h
    exact inv_frame hi _ _ _
  | create secrets lifetime capacity =>
    simp only [step, Session.newAt] at h
    split_ifs at h
    · cases h
      exact hi
    · cases h
      exact inv_create hi _ rfl
  | clone s =>
    obtain ⟨o,ho,rfl⟩ := Option.map_eq_some_iff.mp h
    refine inv_addRefs hi σ.store [s] hi.stored ?_
    intro t ht x hx
    obtain rfl := mem_singleton.mp ht
    rw [(looseObject_some ho).1] at hx
    cases hx
    exact loose_alive hi ho
  | drop s =>
    obtain ⟨o,ho,rfl⟩ := Option.map_eq_some_iff.mp h
    exact inv_dropRef hi ho
  | storeInsert s now =>
    obtain ⟨o,ho,rfl⟩ := Option.map_eq_some_iff.mp h
    exact inv_storeInsert hi now ho
  | storeGet id now =>
    cases h
    exact inv_storeGet hi id now
  | storeRemove id =>
    cases h
    refine inv_reclaim hi _ _ (erase_subset _ _) ?_
    intro s hs
    exact ⟨id,find_mem _ _ _ (by simpa [SessionStore.remove] using hs)⟩
  | purgeExpired now =>
    cases h
    refine inv_reclaim hi _ _ (fun _ he => mem_of_mem_filter he) ?_
    intro s hs
    obtain ⟨e,he,rfl⟩ := mem_map.mp hs
    exact ⟨e.1,mem_of_mem_filter he⟩
  | openAndAdmit s record =>
    obtain ⟨o,ho,rfl⟩ := Option.map_eq_some_iff.mp h
    exact inv_open hi record ho
  | advance c => exact inv_advance hi h
  | beginResponse c =>
    obtain ⟨τ,call,claim,o,hl,-,hcases⟩ := beginResponse_some h
    have ht := inv_leave hi hl
    rcases hcases with ⟨e,-,rfl⟩ | ⟨sealer,-,rfl⟩
    · exact ht
    · exact inv_frame ht _ _ _
  | abandon c =>
    obtain ⟨⟨τ,call,claim⟩,hl,rfl⟩ := Option.map_eq_some_iff.mp h
    exact inv_leave hi hl
  | sealNext w plaintext =>
    obtain ⟨writer,-,⟨-,rfl⟩ | ⟨next,-,rfl⟩⟩ := sealNext_some h
    · exact hi
    · exact inv_frame hi _ _ _

end Maple.Transport.Admission
