import Maple.Transport.AtMostOnce

/-!
# No nonce reuse on responses

A response record is sealed under the subkey of its request and a nonce that is
its sequence number. An admitted request is consumed by the one writer it
yields, and the writer's counter only moves up, so with distinct subkeys no pair
of subkey and nonce is ever used twice.
-/

set_option autoImplicit false

namespace Maple.Transport.Nonces
open Run Table Crypto Sessions Process Admission AtMostOnce List

variable {cfg : Config} {σ : System}

variable {σ' : System} {l : Label}

theorem step_secrets_lookup (h : step cfg σ l = some σ') (s : ℕ) (secrets : SessionSecrets)
    (hs : (secretsOf σ.sessions)[s]? = some secrets) :
    (secretsOf σ'.sessions)[s]? = some secrets := by
  obtain ⟨new,hnew⟩ := (step_effect h).1
  rw [hnew, List.getElem?_append_left (List.getElem?_eq_some_iff.mp hs).1]
  exact hs

variable {s : ℕ}

/-- A consumed request stays consumed. -/
theorem step_consumed (h : step cfg σ l = some σ') {c : ℕ} {claim : Claim}
    (hc : σ.calls[c]? = some ⟨s,.returned .consumed claim⟩) :
    σ'.calls[c]? = some ⟨s,.returned .consumed claim⟩ := by
  rcases step_calls h with he | ⟨_,_,-,he⟩ | ⟨d,x,o,o',phase,n,-,hd,-,hact,he⟩ |
      ⟨d,_,usage,b,hd,he⟩
  · rw [he]
    exact hc
  · rw [he]
    exact getElem?_push_old _ hc
  · have hne : d ≠ c := by
      rintro rfl
      rw [hc] at hd
      cases hd
      exact absurd (action_holdsRef hact) (by simp [Phase.holdsRef])
    rw [he, List.getElem?_set_ne hne]
    exact hc
  · have hne : d ≠ c := by
      rintro rfl
      rw [hc] at hd
      cases hd
    rw [he, List.getElem?_set_ne hne]
    exact hc

def responseSubkey (P : Primitives) (secrets : SessionSecrets) (requestId : RequestId) :
    Option TrafficKey :=
  deriveRecordSubkey P secrets.responseKey responseSubkeyInfo secrets.sessionId requestId

/-- The sessions of the system derive distinct subkeys for distinct requests. -/
def SeparatedSubkeys (cfg : Config) (σ : System) : Prop :=
  ∀ s₁ ∈ secretsOf σ.sessions, ∀ s₂ ∈ secretsOf σ.sessions, ∀ r₁ r₂ key,
    responseSubkey cfg.P s₁ r₁ = some key → responseSubkey cfg.P s₂ r₂ = some key →
    s₁.sessionId = s₂.sessionId ∧ r₁ = r₂

/-- A writer belongs to one consumed request and holds that request's subkey. -/
structure WriterOk (cfg : Config) (σ : System) (x : Writer) (s : ℕ) (claim : Claim)
    (secrets : SessionSecrets) : Prop where
  consumed : σ.calls[x.call]? = some ⟨s, .returned .consumed claim⟩
  session : (secretsOf σ.sessions)[s]? = some secrets
  subkey : responseSubkey cfg.P secrets claim.requestId = some x.sealer.key

structure Sealing (cfg : Config) (σ : System) : Prop where
  writers : ∀ (w : ℕ) (x : Writer), σ.writers[w]? = some x →
    ∃ s claim secrets, WriterOk cfg σ x s claim secrets
  single : ∀ (w v : ℕ) (x y : Writer), σ.writers[w]? = some x → σ.writers[v]? = some y →
    x.call = y.call → w = v
  logged : ∀ e ∈ σ.log, ∃ x, σ.writers[e.writer]? = some x ∧ e.key = x.sealer.key ∧
    e.nonce = responseNonce e.sequence ∧ e.sequence.toNat < x.sealer.nextSequence.toNat
  ordered : σ.log.Pairwise (fun e f => e.writer = f.writer → e.sequence.toNat < f.sequence.toNat)

theorem init_sealing (cfg : Config) : Sealing cfg System.init :=
  ⟨by simp [System.init],by simp [System.init],by simp [System.init],List.Pairwise.nil⟩

variable {secrets : SessionSecrets} {sealer : ResponseSealer} {requestId : RequestId}

theorem responseSealer_ok {P : Primitives} (h : secrets.responseSealer P requestId = .ok sealer) :
    responseSubkey P secrets requestId = some sealer.key ∧ sealer.nextSequence = 0 := by
  unfold SessionSecrets.responseSealer at h
  split at h
  · rename_i key hk
    cases h
    exact ⟨hk,rfl⟩
  · cases h

theorem step_writerOk (h : step cfg σ l = some σ') {x : Writer} (x' : Writer) {claim : Claim}
    (hx : WriterOk cfg σ x s claim secrets) (hcall : x'.call = x.call)
    (hkey : x'.sealer.key = x.sealer.key) : WriterOk cfg σ' x' s claim secrets :=
  ⟨by rw [hcall]; exact step_consumed h hx.consumed,
    step_secrets_lookup h s secrets hx.session,by rw [hkey]; exact hx.subkey⟩

theorem step_sealing (hi : Sealing cfg σ) (h : step cfg σ l = some σ') : Sealing cfg σ' := by
  rcases (step_effect h).2 with ⟨hw,hlog,-⟩ | ⟨c,s,o,claim,sealer,hc,hc',ho,hs,hw,hlog⟩ |
      ⟨w,writer,next,-,hwr,hn,hw,hlog⟩
  · refine ⟨?_,?_,?_,?_⟩
    · intro v x hx
      rw [hw] at hx
      obtain ⟨s,claim,secrets,hok⟩ := hi.writers v x hx
      exact ⟨s,claim,secrets,step_writerOk h x hok rfl rfl⟩
    · rw [hw]
      exact hi.single
    · rw [hw, hlog]
      exact hi.logged
    · rw [hlog]
      exact hi.ordered
  · have hold : ∀ (v : ℕ) (x : Writer), σ.writers[v]? = some x → x.call ≠ c := by
      intro v x hx hcx
      obtain ⟨t,b,secrets,hok⟩ := hi.writers v x hx
      have hcons := hok.consumed
      rw [hcx, hc] at hcons
      cases hcons
    refine ⟨?_,?_,?_,?_⟩
    · intro v x hx
      rw [hw] at hx
      rcases getElem?_push hx with hx | ⟨-,rfl⟩
      · obtain ⟨t,b,secrets,hok⟩ := hi.writers v x hx
        exact ⟨t,b,secrets,step_writerOk h x hok rfl rfl⟩
      · refine ⟨s,claim,o.session.secrets,by rw [hc']; exact getElem?_set_self_of _ hc,?_,
          (responseSealer_ok hs).1⟩
        exact step_secrets_lookup h s _ (by simp [secretsOf, ho])
    · intro v u x y hx hy hxy
      rw [hw] at hx hy
      rcases getElem?_push hx with hx' | ⟨rfl,rfl⟩
      · rcases getElem?_push hy with hy' | ⟨rfl,rfl⟩
        · exact hi.single v u x y hx' hy' hxy
        · exact absurd hxy (hold v x hx')
      · rcases getElem?_push hy with hy' | ⟨rfl,rfl⟩
        · exact absurd hxy.symm (hold u y hy')
        · rfl
    · intro e he
      rw [hlog] at he
      obtain ⟨x,hx,hrest⟩ := hi.logged e he
      exact ⟨x,by rw [hw]; exact getElem?_push_old _ hx,hrest⟩
    · rw [hlog]
      exact hi.ordered
  · have hsucc := checkedSucc_some hn
    have hself : σ'.writers[w]? =
        some { writer with sealer := { writer.sealer with nextSequence := next } } := by
      rw [hw]
      exact getElem?_set_self_of _ hwr
    refine ⟨?_,?_,?_,?_⟩
    · intro v x hx
      rw [hw] at hx
      rcases getElem?_set_some hx with ⟨rfl,rfl⟩ | ⟨-,hx⟩
      · obtain ⟨t,b,secrets,hok⟩ := hi.writers v writer hwr
        exact ⟨t,b,secrets,step_writerOk h _ hok rfl rfl⟩
      · obtain ⟨t,b,secrets,hok⟩ := hi.writers v x hx
        exact ⟨t,b,secrets,step_writerOk h x hok rfl rfl⟩
    · intro v u x y hx hy hxy
      rw [hw] at hx hy
      rcases getElem?_set_some hx with ⟨rfl,rfl⟩ | ⟨-,hx'⟩
      · rcases getElem?_set_some hy with ⟨rfl,rfl⟩ | ⟨-,hy'⟩
        · rfl
        · exact hi.single v u writer y hwr hy' hxy
      · rcases getElem?_set_some hy with ⟨rfl,rfl⟩ | ⟨-,hy'⟩
        · exact hi.single v u x writer hx' hwr hxy
        · exact hi.single v u x y hx' hy' hxy
    · intro e he
      rw [hlog] at he
      rcases mem_append.mp he with he | he
      · obtain ⟨x,hx,hkey,hnonce,hlt⟩ := hi.logged e he
        by_cases hew : e.writer = w
        · rw [hew, hwr] at hx
          cases hx
          rw [hew]
          exact ⟨_,hself,hkey,hnonce,by simp only [hsucc]; omega⟩
        · exact ⟨x,by rw [hw, List.getElem?_set_ne (Ne.symm hew)]; exact hx,hkey,hnonce,hlt⟩
      · obtain rfl := mem_singleton.mp he
        exact ⟨_,hself,rfl,rfl,by simp only [hsucc]; omega⟩
    · rw [hlog, pairwise_append]
      refine ⟨hi.ordered,pairwise_singleton _ _,?_⟩
      intro e he f hf hef
      obtain rfl := mem_singleton.mp hf
      obtain ⟨x,hx,-,-,hlt⟩ := hi.logged e he
      simp only at hef
      rw [hef, hwr] at hx
      cases hx
      exact hlt

theorem run_sealing {cfg : Config} {labels : List Label} {σ : System}
    (h : run (step cfg) System.init labels = some σ) : Sealing cfg σ :=
  run_invariant (Sealing cfg) (fun _ _ _ hi hs => step_sealing hi hs) _ h (init_sealing cfg)

/-- The record was sealed by a writer of an admitted request of session `s`. -/
def SealedFor (σ : System) (s : ℕ) (e : SealEvent) : Prop :=
  ∃ x call, σ.writers[e.writer]? = some x ∧ σ.calls[x.call]? = some call ∧ call.session = s

theorem writer_unique (hi : Consistent cfg σ) (hs : Sealing cfg σ) {w v : ℕ} {x y : Writer}
    {cx cy : Call} (u u' : Usage) {a b : Claim} (hx : σ.writers[w]? = some x)
    (hy : σ.writers[v]? = some y) (hcx : σ.calls[x.call]? = some cx)
    (hcy : σ.calls[y.call]? = some cy) (hsame : cx.session = cy.session)
    (ha : cx.phase = .returned u a) (hb : cy.phase = .returned u' b)
    (hab : a.requestId = b.requestId) : w = v :=
  hs.single w v x y hx hy (hi.distinct _ _ cx cy hcx hcy hsame a b (by rw [ha]; rfl)
    (by rw [hb]; rfl) hab)

theorem sealNext_exhausted (P : Primitives) (plaintext : Bytes)
    (h : sealer.nextSequence.toNat = 2^64-1) :
    sealer.sealNext P plaintext = (.error .sequenceExhausted, sealer) := by
  have hnone : checkedSucc sealer.nextSequence = none := by
    rw [checkedSucc, if_neg (by omega)]
  simp only [ResponseSealer.sealNext, hnone]

/-- Two records of one session sealed under one subkey come from one writer. -/
theorem same_key_same_writer (hi : Consistent cfg σ) (hs : Sealing cfg σ)
    (hkdf : SeparatedSubkeys cfg σ) {e f : SealEvent} (he : e ∈ σ.log) (hf : f ∈ σ.log)
    (hse : SealedFor σ s e) (hsf : SealedFor σ s f) (hkey : e.key = f.key) : e.writer = f.writer := by
  obtain ⟨x,cx,hx,hcx,hsx⟩ := hse
  obtain ⟨y,cy,hy,hcy,hsy⟩ := hsf
  obtain ⟨x',hx',hkx,-,-⟩ := hs.logged e he
  obtain ⟨y',hy',hky,-,-⟩ := hs.logged f hf
  rw [hx] at hx'
  cases hx'
  rw [hy] at hy'
  cases hy'
  obtain ⟨_,a,secrets,hxok⟩ := hs.writers _ x hx
  obtain ⟨_,b,secrets',hyok⟩ := hs.writers _ y hy
  have hca := hxok.consumed
  have hcb := hyok.consumed
  rw [hcx] at hca
  rw [hcy] at hcb
  cases hca
  cases hcb
  have hsub := hyok.subkey
  rw [← hky, ← hkey, hkx] at hsub
  have hab := (hkdf secrets (List.mem_of_getElem? hxok.session) secrets'
    (List.mem_of_getElem? hyok.session) _ _ _ hxok.subkey hsub).2
  exact writer_unique hi hs _ _ hx hy hcx hcy (hsx.trans hsy.symm) rfl rfl hab

/-- No response nonce is reused: in every run no two records of a session are
sealed under one subkey and nonce, a request id yields at most one writer, a
writer's sequence numbers strictly increase, and the last one is refused. -/
theorem response_nonces_unique (cfg : Config) (labels : List Label) (σ : System)
    (h : run (step cfg) System.init labels = some σ) (hkdf : SeparatedSubkeys cfg σ) :
    (∀ (s i j : ℕ) (e f : SealEvent), σ.log[i]? = some e → σ.log[j]? = some f →
      SealedFor σ s e → SealedFor σ s f → i ≠ j → (e.key, e.nonce) ≠ (f.key, f.nonce)) ∧
    (∀ (w v : ℕ) (x y : Writer) (cx cy : Call) (u u' : Usage) (a b : Claim),
      σ.writers[w]? = some x → σ.writers[v]? = some y → σ.calls[x.call]? = some cx →
      σ.calls[y.call]? = some cy → cx.session = cy.session → cx.phase = .returned u a →
      cy.phase = .returned u' b → a.requestId = b.requestId → w = v) ∧
    (∀ (i j : ℕ) (e f : SealEvent), σ.log[i]? = some e → σ.log[j]? = some f → i < j →
      e.writer = f.writer → e.sequence.toNat < f.sequence.toNat) ∧
    (∀ (w : ℕ) (x : Writer) (plaintext : Bytes), σ.writers[w]? = some x →
      x.sealer.nextSequence.toNat = 2^64-1 →
      x.sealer.sealNext cfg.P plaintext = (.error .sequenceExhausted, x.sealer)) := by
  have hi := run_inv h
  have hs := run_sealing h
  have hordered : ∀ (i j : ℕ) (e f : SealEvent), σ.log[i]? = some e → σ.log[j]? = some f →
      i < j → e.writer = f.writer → e.sequence.toNat < f.sequence.toNat := by
    intro i j e f he hf hij
    obtain ⟨hi',rfl⟩ := List.getElem?_eq_some_iff.mp he
    obtain ⟨hj',rfl⟩ := List.getElem?_eq_some_iff.mp hf
    exact List.pairwise_iff_getElem.mp hs.ordered i j hi' hj' hij
  refine ⟨?_,?_,hordered,?_⟩
  · intro s i j e f he hf hse hsf hij heq
    simp only [Prod.mk.injEq] at heq
    have hme := List.mem_of_getElem? he
    have hmf := List.mem_of_getElem? hf
    have hw := same_key_same_writer hi hs hkdf hme hmf hse hsf heq.1
    obtain ⟨x,hx,-,hne,-⟩ := hs.logged e hme
    obtain ⟨y,hy,-,hnf,-⟩ := hs.logged f hmf
    have hseq : e.sequence = f.sequence :=
      responseNonce_injective _ _ (by rw [← hne, ← hnf]; exact heq.2)
    rcases Nat.lt_or_gt_of_ne hij with hlt | hgt
    · have := hordered i j e f he hf hlt hw
      rw [hseq] at this
      omega
    · have := hordered j i f e hf he hgt hw.symm
      rw [hseq] at this
      omega
  · intro w v x y cx cy u u' a b hx hy hcx hcy hsame ha hb hab
    exact writer_unique hi hs u u' hx hy hcx hcy hsame ha hb hab
  · intro w x plaintext _ hmax
    exact sealNext_exhausted cfg.P plaintext hmax

def lastBytes (info : Bytes) : Option TrafficKey :=
  if h : (info.drop (info.length-32)).length = 32 then
    some ⟨⟨(info.drop (info.length-32)).toArray, by simpa using h⟩⟩
  else none

/-- Key expansion that keeps the session and request ids of its label. -/
def labelConfig : Config where
  P := ⟨fun _ info => lastBytes info, fun _ _ _ p => some p, fun _ _ _ c => some c⟩
  budget := oneWord
  storeCapacity := oneWord

theorem labelConfig_subkey {key : TrafficKey}
    (h : responseSubkey labelConfig.P secrets requestId = some key) :
    key.bytes.toList = secrets.sessionId.bytes.toList++requestId.bytes.toList := by
  simp only [responseSubkey, deriveRecordSubkey, labelConfig, lastBytes] at h
  split_ifs at h with hlen
  cases h
  simp only [Vector.toList_mk]
  rw [subkeyInfo, append_assoc, drop_left']
  simp only [length_append, Vector.length_toList]
  omega

theorem labelConfig_distinct (s₁ s₂ : SessionSecrets) (r₁ r₂ : RequestId) (key : TrafficKey)
    (h₁ : responseSubkey labelConfig.P s₁ r₁ = some key)
    (h₂ : responseSubkey labelConfig.P s₂ r₂ = some key) :
    s₁.sessionId = s₂.sessionId ∧ r₁ = r₂ := by
  have h := (labelConfig_subkey h₁).symm.trans (labelConfig_subkey h₂)
  obtain ⟨hs,hr⟩ := append_inj h (by simp)
  rcases s₁ with ⟨⟨i₁⟩,_,_⟩
  rcases s₂ with ⟨⟨i₂⟩,_,_⟩
  rcases r₁ with ⟨r₁⟩
  rcases r₂ with ⟨r₂⟩
  simp only [Vector.toList_inj] at hs hr
  rw [hs, hr]
  exact ⟨rfl,rfl⟩

def twoRecordLabels : List Label :=
  claimedLabels++[.advance 0, .advance 0, .beginResponse 0, .sealNext 0 [1], .sealNext 0 [2]]

theorem response_nonces_unique_two_records :
    ∃ σ, run (step labelConfig) System.init twoRecordLabels = some σ ∧ σ.log.length = 2 ∧
      ∀ (i j : ℕ) (e f : SealEvent), σ.log[i]? = some e → σ.log[j]? = some f → i < j →
        e.writer = f.writer → e.sequence.toNat < f.sequence.toNat := by
  have hsome : (run (step labelConfig) System.init twoRecordLabels).isSome = true := by
    decide +kernel
  obtain ⟨σ,h⟩ := Option.isSome_iff_exists.mp hsome
  have hmain := response_nonces_unique labelConfig twoRecordLabels σ h
    (fun s₁ _ s₂ _ => labelConfig_distinct s₁ s₂)
  refine ⟨σ,h,?_,hmain.2.2.1⟩
  have hcount : (run (step labelConfig) System.init twoRecordLabels).map
      (fun σ => σ.log.length) = some 2 := by decide +kernel
  rw [h] at hcount
  exact Option.some.inj hcount

end Maple.Transport.Nonces
