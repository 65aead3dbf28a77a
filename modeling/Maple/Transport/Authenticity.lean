import Mathlib.Data.List.Forall2
import Maple.Transport.Delivery

/-!
# Authenticity of a whole response

An adversary holds every record the world has sealed and assembles any bytes.
Under an ideal cipher and separated subkeys the client completes on exactly one
byte string: the frames of the sealer's records from the first one, a start,
through chunks, to the first terminal.
-/

set_option autoImplicit false

namespace Maple.Transport.Authenticity
open Feed Crypto Framing Decoder ByteMachine Delivery List

inductive Direction where
  | request
  | response
  deriving DecidableEq, Repr

def Direction.label : Direction → Bytes
  | .request => requestSubkeyInfo
  | .response => responseSubkeyInfo

def Direction.baseKey (secrets : SessionSecrets) : Direction → TrafficKey
  | .request => secrets.requestKey
  | .response => secrets.responseKey

structure Sealed where
  key : TrafficKey
  nonce : Nonce
  aad : Bytes
  ciphertext : Bytes

variable (P : Primitives) (L : Libraries)

def recordSubkey (secrets : SessionSecrets) (direction : Direction) (requestId : RequestId) :
    Option TrafficKey :=
  deriveRecordSubkey P (direction.baseKey secrets) direction.label secrets.sessionId requestId

/-- The ciphertexts of successive `sealNext` calls, none of which failed. -/
def sealRun : ResponseSealer → List Bytes → Except CryptoError (List Bytes)
  | _, [] => .ok []
  | writer, plaintext::plaintexts =>
    match writer.sealNext P plaintext with
    | (.error e, _) => .error e
    | (.ok ciphertext, writer) =>
      match sealRun writer plaintexts with
      | .error e => .error e
      | .ok ciphertexts => .ok (ciphertext::ciphertexts)

def sealedTuples (writer : ResponseSealer) : ℕ → List Bytes → List Sealed
  | _, [] => []
  | n, ciphertext::ciphertexts =>
    ⟨writer.key, responseNonce (UInt64.ofNat n),
      responseAad writer.sessionId writer.requestId (UInt64.ofNat n), ciphertext⟩::
      sealedTuples writer (n+1) ciphertexts

/-- The ideal cipher around one sealer: its records open, and what opens was sealed, by this
sealer or under the subkey of another direction, session or request, and such a subkey is
never this sealer's. -/
structure Ideal (world : Set SessionSecrets) (secrets : SessionSecrets) (requestId : RequestId)
    (writer : ResponseSealer) (plaintexts ciphertexts : List Bytes) (others : Set Sealed) :
    Prop where
  opens : ∀ i plaintext ciphertext, plaintexts[i]? = some plaintext →
    ciphertexts[i]? = some ciphertext →
    P.decrypt writer.key (responseNonce (UInt64.ofNat i))
      (responseAad writer.sessionId writer.requestId (UInt64.ofNat i)) ciphertext = some plaintext
  authentic : ∀ key nonce aad ciphertext plaintext,
    P.decrypt key nonce aad ciphertext = some plaintext →
    ⟨key, nonce, aad, ciphertext⟩ ∈ sealedTuples writer 0 ciphertexts ∨
      ⟨key, nonce, aad, ciphertext⟩ ∈ others
  foreign : ∀ e ∈ others, ∃ s ∈ world, ∃ direction r,
    (direction, s.sessionId, r) ≠ (Direction.response, secrets.sessionId, requestId) ∧
    recordSubkey P s direction r = some e.key
  separated : ∀ s ∈ world, ∀ direction r key,
    recordSubkey P secrets .response requestId = some key →
    recordSubkey P s direction r = some key →
    (direction, s.sessionId, r) = (Direction.response, secrets.sessionId, requestId)

/-- Records `0` to `n` of a run, with `bytes` their frames in order and `events`
what they decode to: a start, then chunks, then a terminal. -/
structure CompleteRun (plaintexts ciphertexts : List Bytes) (n : ℕ) (bytes : Bytes)
    (events : List ResponseEvent) : Prop where
  sealed : n < ciphertexts.length
  framed : ∃ frames, List.Forall₂ (fun c frame => frameCiphertext c = .ok frame)
    (ciphertexts.take (n+1)) frames ∧ bytes = frames.flatten
  decoded : List.Forall₂ (fun p event => decodePlaintextRecord L p = .ok event)
    (plaintexts.take (n+1)) events
  shaped : ∃ status headers, ∃ bodies : List Bytes, ∃ last,
    events = .start status headers::bodies.map .chunk++[last] ∧ last.isTerminal = true

variable {P} {L} {plaintexts : List Bytes} {writer : ResponseSealer}

theorem sealRun_cons {plaintext : Bytes} {cs : List Bytes}
    (h : sealRun P writer (plaintext::plaintexts) = .ok cs) :
    ∃ ciphertext ciphertexts next, cs = ciphertext::ciphertexts ∧
      P.encrypt writer.key (responseNonce writer.nextSequence)
        (responseAad writer.sessionId writer.requestId writer.nextSequence) plaintext =
          some ciphertext ∧
      checkedSucc writer.nextSequence = some next ∧
      sealRun P { writer with nextSequence := next } plaintexts = .ok ciphertexts := by
  unfold sealRun at h
  unfold ResponseSealer.sealNext at h
  cases hn : checkedSucc writer.nextSequence with
  | none => simp [hn] at h
  | some next =>
    simp only [hn, sealDetachedNonce] at h
    split at h
    · cases h
    rename_i ciphertext writer' hs
    split at hs
    · rename_i c henc
      cases hs
      split at h
      · cases h
      rename_i ciphertexts hrest
      cases h
      exact ⟨ciphertext,ciphertexts,next,rfl,henc,rfl,hrest⟩
    · cases hs

variable {c : Bytes}

theorem sealRun_encrypt (writer : ResponseSealer) (ciphertexts : List Bytes) (i : ℕ)
    (h : sealRun P writer plaintexts = .ok ciphertexts) (hc : ciphertexts[i]? = some c) :
    ∃ p, plaintexts[i]? = some p ∧ writer.nextSequence.toNat+i+1 < 2^64 ∧
      P.encrypt writer.key (responseNonce (UInt64.ofNat (writer.nextSequence.toNat+i)))
        (responseAad writer.sessionId writer.requestId
          (UInt64.ofNat (writer.nextSequence.toNat+i))) p = some c := by
  induction plaintexts generalizing writer ciphertexts i with
  | nil =>
    cases h
    simp at hc
  | cons plaintext plaintexts ih =>
    obtain ⟨c₀,cs,next,rfl,henc,hnext,hrest⟩ := sealRun_cons h
    have hsucc := checkedSucc_some hnext
    cases i with
    | zero =>
      simp only [List.getElem?_cons_zero, Option.some.injEq] at hc
      subst hc
      refine ⟨plaintext,rfl,?_,?_⟩
      · rw [Nat.add_zero, ← hsucc]
        exact next.toNat_lt
      · simpa using henc
    | succ i =>
      obtain ⟨p,hp,hlt,he⟩ := ih { writer with nextSequence := next } cs i hrest (by simpa using hc)
      simp only [hsucc] at hlt he
      refine ⟨p,by simpa using hp,by omega,?_⟩
      rwa [show writer.nextSequence.toNat+(i+1) = writer.nextSequence.toNat+1+i by omega]

variable {ciphertexts : List Bytes}

theorem mem_sealedTuples (n : ℕ) {e : Sealed}
    (h : e ∈ sealedTuples writer n ciphertexts) : ∃ i, ciphertexts[i]? = some e.ciphertext ∧
      e.nonce = responseNonce (UInt64.ofNat (n+i)) := by
  induction ciphertexts generalizing n with
  | nil => simp [sealedTuples] at h
  | cons c cs ih =>
    rcases mem_cons.mp h with rfl | h
    · exact ⟨0,rfl,rfl⟩
    · obtain ⟨i,hi,hn⟩ := ih (n+1) h
      exact ⟨i+1,by simpa using hi,by rw [hn, show n+1+i = n+(i+1) by omega]⟩

theorem finish_ok {d : ResponseDecoder} {last : ResponseEvent} (h : d.finish = .ok last) :
    idle d = d ∧ d.state = .pendingTerminal last := by
  unfold ResponseDecoder.finish at h
  split_ifs at h with hi
  simp only [not_or, not_not, Bool.not_eq_true, Option.isSome_eq_false_iff,
    Option.isNone_iff_eq_none] at hi
  obtain ⟨h1,h2,h3⟩ := hi
  refine ⟨?_,?_⟩
  · cases d
    simp only at h1 h2 h3
    rw [h1, h2, h3]
    rfl
  · split at h <;> cases h
    assumption

def openerAt (sessionId : SessionId) (requestId : RequestId) (key : TrafficKey) (i : ℕ) :
    ResponseOpener := ⟨sessionId, requestId, key, UInt64.ofNat i⟩

variable {p : Bytes}

theorem openNext_ok {o opener : ResponseOpener} (h : o.openNext P c = .ok (p,opener)) :
    P.decrypt o.key (responseNonce o.nextSequence)
        (responseAad o.sessionId o.requestId o.nextSequence) c = some p ∧
      ∃ next, checkedSucc o.nextSequence = some next ∧ opener = { o with nextSequence := next } := by
  unfold ResponseOpener.openNext at h
  split at h
  · cases h
  rename_i plaintext ho
  unfold openRecord at ho
  split_ifs at ho
  split at ho
  · rename_i q hd
    cases ho
    split at h
    · cases h
    rename_i next hn
    cases h
    exact ⟨hd,next,hn,rfl⟩
  · cases ho

section Run
variable (key : TrafficKey) (sessionId : SessionId) (requestId : RequestId)

/-- At each sequence only the run's own record opens, to its own plaintext. -/
def OpensOnly (i : ℕ) (plaintexts ciphertexts : List Bytes) : Prop :=
  ∀ k c p, i+k < 2^64 →
    P.decrypt key (responseNonce (UInt64.ofNat (i+k)))
      (responseAad sessionId requestId (UInt64.ofNat (i+k))) c = some p →
    ciphertexts[k]? = some c ∧ plaintexts[k]? = some p

variable {key} {sessionId} {requestId} {ciphertexts : List Bytes}

theorem opensOnly_tail {i : ℕ} {plaintexts : List Bytes}
    (h : OpensOnly (P := P) key sessionId requestId i (p::plaintexts) (c::ciphertexts)) :
    OpensOnly (P := P) key sessionId requestId (i+1) plaintexts ciphertexts := by
  intro k c' p' hlt hd
  have hk := h (k+1) c' p' (by omega)
  rw [show i+(k+1) = i+1+k by omega] at hk
  simpa using hk hd

/-- The next record the decoder takes is the next record of the run. -/
theorem next_record {i : ℕ} (hi : i < 2^64) {plaintexts : List Bytes}
    (ho : OpensOnly (P := P) key sessionId requestId i plaintexts ciphertexts)
    {opener : ResponseOpener}
    (h : (openerAt sessionId requestId key i).openNext P c = .ok (p,opener)) :
    ∃ ps cs, plaintexts = p::ps ∧ ciphertexts = c::cs ∧ i+1 < 2^64 ∧
      opener = openerAt sessionId requestId key (i+1) ∧
      OpensOnly (P := P) key sessionId requestId (i+1) ps cs := by
  obtain ⟨hd,next,hnext,rfl⟩ := openNext_ok h
  obtain ⟨hc,hp⟩ := ho 0 c p (by omega) hd
  obtain ⟨cs,rfl⟩ : ∃ cs, ciphertexts = c::cs := by
    cases ciphertexts with
    | nil => simp at hc
    | cons a cs => exact ⟨cs,by simpa using hc⟩
  obtain ⟨ps,rfl⟩ : ∃ ps, plaintexts = p::ps := by
    cases plaintexts with
    | nil => simp at hp
    | cons a ps => exact ⟨ps,by simpa using hp⟩
  have hsucc := checkedSucc_some hnext
  have hi' : (UInt64.ofNat i).toNat = i := UInt64.toNat_ofNat_of_lt' hi
  simp only [openerAt, hi'] at hsucc
  have hlt : i+1 < 2^64 := hsucc ▸ next.toNat_lt
  refine ⟨ps,cs,rfl,rfl,hlt,?_,opensOnly_tail ho⟩
  have hnext' : next = UInt64.ofNat (i+1) :=
    UInt64.toNat_inj.mp (hsucc.trans (UInt64.toNat_ofNat_of_lt' hlt).symm)
  rw [hnext', openerAt, openerAt]

theorem accepted_suffix (i : ℕ) (hi : i < 2^64) (plaintexts : List Bytes)
    (ho : OpensOnly (P := P) key sessionId requestId i plaintexts ciphertexts) (input : Bytes)
    {d : ResponseDecoder} (events : List ResponseEvent) {last : ResponseEvent}
    (hf : feed (byteStep P L) ⟨openerAt sessionId requestId key i,.opened,[],none,[]⟩ input =
      .ok (d,events))
    (hfin : d.finish = .ok last) : ∃ n frames, ∃ bodies : List Bytes, n < ciphertexts.length ∧
      List.Forall₂ (fun c frame => frameCiphertext c = .ok frame)
        (ciphertexts.take (n+1)) frames ∧ input = frames.flatten ∧
      List.Forall₂ (fun p event => decodePlaintextRecord L p = .ok event)
        (plaintexts.take (n+1)) (events++[last]) ∧
      events = bodies.map .chunk ∧ last.isTerminal = true := by
  obtain ⟨hidle,hstate⟩ := finish_ok hfin
  induction ciphertexts generalizing i plaintexts input events with
  | nil =>
    exfalso
    have hne : input ≠ [] := by
      rintro rfl
      cases hf
      cases hstate
    obtain ⟨c,frame,rest,p,opener,event,-,-,hopen,-,-,-⟩ :=
      first_record P L rfl hidle rfl hne hf
    obtain ⟨ps,cs,-,hcs,-⟩ := next_record hi ho hopen
    cases hcs
  | cons c₀ ciphertexts ih =>
    have hne : input ≠ [] := by
      rintro rfl
      cases hf
      cases hstate
    obtain ⟨c,frame,rest,p,opener,event,hframe,rfl,hopen,hdec,hadm,hcases⟩ :=
      first_record P L rfl hidle rfl hne hf
    obtain ⟨ps,cs,rfl,hcs,hi',rfl,ho'⟩ := next_record hi ho hopen
    cases hcs
    rcases hcases with ⟨hterm,rfl,rfl,rfl⟩ | ⟨hterm,more,rfl,hrest⟩
    · cases hstate
      exact ⟨0,[frame],[],by simp,by simpa using hframe,by simp,by simpa using hdec,rfl,hterm⟩
    obtain ⟨bytes,rfl⟩ : ∃ bytes, event = .chunk bytes := by
      cases event with
      | chunk bytes => exact ⟨bytes,rfl⟩
      | start status headers => cases hadm
      | finish | error => cases hterm
    obtain ⟨n,frames,bodies,hn,hframes,rfl,hdecs,rfl,hlast⟩ := ih (i+1) hi' ps ho' rest more hrest
    refine ⟨n+1,frame::frames,bytes::bodies,by simpa using hn,?_,by simp,?_,rfl,hlast⟩
    · rw [take_succ_cons]
      exact List.Forall₂.cons hframe hframes
    · rw [take_succ_cons]
      exact List.Forall₂.cons hdec hdecs

end Run

theorem sealRun_length (writer : ResponseSealer) (ciphertexts : List Bytes)
    (h : sealRun P writer plaintexts = .ok ciphertexts) :
    ciphertexts.length = plaintexts.length := by
  induction plaintexts generalizing writer ciphertexts with
  | nil =>
    cases h
    rfl
  | cons p ps ih =>
    obtain ⟨c,cs,next,rfl,-,-,hrest⟩ := sealRun_cons h
    simp [ih _ _ hrest]

theorem ideal_opensOnly (world : Set SessionSecrets) (secrets : SessionSecrets)
    (requestId : RequestId) (writer : ResponseSealer) (plaintexts ciphertexts : List Bytes)
    (others : Set Sealed) (hw : secrets.responseSealer P requestId = .ok writer)
    (hrun : sealRun P writer plaintexts = .ok ciphertexts)
    (hI : Ideal P world secrets requestId writer plaintexts ciphertexts others) :
    OpensOnly (P := P) writer.key writer.sessionId writer.requestId 0 plaintexts ciphertexts := by
  unfold SessionSecrets.responseSealer at hw
  split at hw
  swap
  · cases hw
  rename_i key hkey
  cases hw
  intro k c p hlt hd
  rw [Nat.zero_add] at hlt hd
  rcases hI.authentic _ _ _ _ _ hd with hmem | hmem
  · obtain ⟨i,hi,hn⟩ := mem_sealedTuples 0 hmem
    obtain ⟨p',hp',hbound,-⟩ := sealRun_encrypt _ _ i hrun hi
    simp only [UInt64.toNat_zero, Nat.zero_add] at hn hbound
    have hk : UInt64.ofNat k = UInt64.ofNat i := responseNonce_injective _ _ hn
    have hki : k = i := by
      have := congrArg UInt64.toNat hk
      rwa [UInt64.toNat_ofNat_of_lt' hlt,
        UInt64.toNat_ofNat_of_lt' (lt_trans (Nat.lt_succ_self i) hbound)] at this
    subst hki
    rw [hI.opens k p' c hp' hi] at hd
    cases hd
    exact ⟨hi,hp'⟩
  · obtain ⟨s,hs,direction,r,hne,hsub⟩ := hI.foreign _ hmem
    exact absurd (hI.separated s hs direction r key hkey hsub) hne

theorem accepted_complete (key : TrafficKey) (sessionId : SessionId) (requestId : RequestId)
    (plaintexts ciphertexts : List Bytes)
    (ho : OpensOnly (P := P) key sessionId requestId 0 plaintexts ciphertexts)
    (chunks : List Bytes) (events : List ResponseEvent)
    (h : receive P L (ResponseDecoder.new ⟨sessionId,requestId,key,0⟩) (chunks.map .ok) =
      some (events,none)) :
    ∃ n, CompleteRun L plaintexts ciphertexts n chunks.flatten events := by
  rw [receive_complete_iff P L _ chunks _ (wf_new _) (new_not_finished _)] at h
  unfold settle at h
  split at h
  · cases h
  rename_i d out hf
  split at h
  · cases h
  rename_i last hfin
  cases h
  obtain ⟨hidle,hstate⟩ := finish_ok hfin
  have hne : chunks.flatten ≠ [] := by
    intro hnil
    rw [hnil] at hf
    cases hf
    cases hstate
  obtain ⟨c,frame,rest,p,opener,event,hframe,hcut,hopen,hdec,hadm,hcases⟩ :=
    first_record P L rfl hidle rfl hne hf
  obtain ⟨ps,cs,rfl,rfl,hi',rfl,ho'⟩ := next_record (by decide) ho hopen
  obtain ⟨status,headers,rfl⟩ : ∃ status headers, event = .start status headers := by
    cases event with
    | start status headers => exact ⟨status,headers,rfl⟩
    | chunk | finish | error => cases hadm
  rcases hcases with ⟨hterm,-⟩ | ⟨-,more,rfl,hrest⟩
  · cases hterm
  obtain ⟨n,frames,bodies,hn,hframes,hflat,hdecs,rfl,hlast⟩ :=
    accepted_suffix 1 hi' ps ho' rest more hrest hfin
  refine ⟨n+1,⟨by simpa using hn,⟨frame::frames,?_,by rw [hcut, hflat]; rfl⟩,?_,
    ⟨status,headers,bodies,last,rfl,hlast⟩⟩⟩
  · rw [take_succ_cons]
    exact List.Forall₂.cons hframe hframes
  · rw [take_succ_cons]
    exact List.Forall₂.cons hdec hdecs

variable {events : List ResponseEvent}

theorem completeRun_terminal (hlen : ciphertexts.length = plaintexts.length) {n : ℕ} {bytes : Bytes}
    (h : CompleteRun L plaintexts ciphertexts n bytes events) {k : ℕ}
    (hk : k ≤ n) : ∃ p event, plaintexts[k]? = some p ∧ decodePlaintextRecord L p = .ok event ∧
      (event.isTerminal = true ↔ k = n) := by
  obtain ⟨status,headers,bodies,last,rfl,hlast⟩ := h.shaped
  have hn := h.sealed
  have hevents := h.decoded.length_eq
  simp only [length_take, cons_append, length_cons, length_append,
    length_map, length_nil] at hevents
  have hkp : k < (plaintexts.take (n+1)).length := by
    rw [length_take]
    omega
  have hke : k < (ResponseEvent.start status headers::bodies.map .chunk++[last]).length := by
    simp only [cons_append, length_cons, length_append, length_map, length_nil]
    omega
  have hget := h.decoded.get hkp hke
  simp only [get_eq_getElem, getElem_take] at hget
  refine ⟨_,_,List.getElem?_eq_getElem (by omega),hget,?_⟩
  by_cases hkn : k = n
  · have hidx : k = (ResponseEvent.start status headers::bodies.map .chunk).length := by
      simp only [length_cons, length_map]
      omega
    simp only [hkn, iff_true]
    rw [getElem_append_right (by omega)]
    simpa using hlast
  · have hidx : k < (ResponseEvent.start status headers::bodies.map .chunk).length := by
      simp only [length_cons, length_map]
      omega
    simp only [hkn, iff_false]
    rw [getElem_append_left hidx]
    have hmem := getElem_mem hidx
    rcases mem_cons.mp hmem with he | he
    · rw [he]
      simp [ResponseEvent.isTerminal]
    · obtain ⟨body,-,he⟩ := mem_map.mp he
      rw [← he]
      simp [ResponseEvent.isTerminal]

/-- A run has one complete stream: the terminal record fixes where it ends. -/
theorem completeRun_unique (hlen : ciphertexts.length = plaintexts.length) {n m : ℕ}
    {bytes bytes' : Bytes} {events' : List ResponseEvent}
    (h : CompleteRun L plaintexts ciphertexts n bytes events)
    (h' : CompleteRun L plaintexts ciphertexts m bytes' events') : bytes = bytes' := by
  have hnm : n = m := by
    have key : ∀ {a b : ℕ} {x y : Bytes} {s t : List ResponseEvent},
        CompleteRun L plaintexts ciphertexts a x s →
        CompleteRun L plaintexts ciphertexts b y t → a ≤ b → a = b := by
      intro a b x y s t ha hb hle
      obtain ⟨p,event,hp,hd,ht⟩ := completeRun_terminal hlen ha le_rfl
      obtain ⟨p',event',hp',hd',ht'⟩ := completeRun_terminal hlen hb hle
      rw [hp] at hp'
      cases hp'
      rw [hd] at hd'
      cases hd'
      exact ht'.mp (ht.mpr rfl)
    rcases Nat.le_total n m with hle | hle
    · exact key h h' hle
    · exact (key h' h hle).symm
  subst hnm
  obtain ⟨frames,hf,rfl⟩ := h.framed
  obtain ⟨frames',hf',rfl⟩ := h'.framed
  have hunique : Relator.RightUnique (fun c frame => frameCiphertext c = .ok frame) := by
    intro c a b ha hb
    rw [ha] at hb
    cases hb
    rfl
  rw [hunique.forall₂ hf hf']

/-- Truncation, reordering, replay and injection never complete: what the client
completes on is the frames of the sealer's own records, in order, from the start
record to the first terminal, and neither a strict part nor an extension of such
a stream is accepted. -/
theorem complete_response_authentic (world : Set SessionSecrets) (secrets : SessionSecrets)
    (requestId : RequestId) (writer : ResponseSealer) (opener : ResponseOpener)
    (plaintexts ciphertexts : List Bytes) (others : Set Sealed)
    (hw : secrets.responseSealer P requestId = .ok writer)
    (ho : secrets.responseOpener P requestId = .ok opener)
    (hrun : sealRun P writer plaintexts = .ok ciphertexts)
    (hI : Ideal P world secrets requestId writer plaintexts ciphertexts others) :
    (∀ (chunks : List Bytes) (events : List ResponseEvent),
      receive P L (ResponseDecoder.new opener) (chunks.map .ok) = some (events,none) →
      ∃ n, CompleteRun L plaintexts ciphertexts n chunks.flatten events) ∧
    (∀ (n : ℕ) (stream : Bytes) (events : List ResponseEvent),
      CompleteRun L plaintexts ciphertexts n stream events → ∀ chunks : List Bytes,
      (∃ missing, missing ≠ [] ∧ chunks.flatten++missing = stream) ∨
        (∃ extra, extra ≠ [] ∧ chunks.flatten = stream++extra) →
      ∃ out e, receive P L (ResponseDecoder.new opener) (chunks.map .ok) = some (out,some e)) := by
  have hopens := ideal_opensOnly world secrets requestId writer plaintexts ciphertexts others hw
    hrun hI
  have hopener : opener = ⟨writer.sessionId, writer.requestId, writer.key, 0⟩ := by
    unfold SessionSecrets.responseSealer at hw
    unfold SessionSecrets.responseOpener at ho
    split at hw <;> rename_i hk <;> cases hw
    rw [hk] at ho
    cases ho
    rfl
  subst hopener
  have haccept := fun chunks events => accepted_complete (L := L) writer.key writer.sessionId
    writer.requestId plaintexts ciphertexts hopens chunks events
  refine ⟨haccept,?_⟩
  intro n stream events hstream chunks hcut
  obtain ⟨⟨out,result⟩,hout⟩ := Option.isSome_iff_exists.mp
    (receive_total P L (ResponseDecoder.new ⟨writer.sessionId, writer.requestId, writer.key, 0⟩)
      chunks (wf_new _) (new_not_finished _))
  cases result with
  | some e => exact ⟨out,e,hout⟩
  | none =>
    exfalso
    obtain ⟨m,hm⟩ := haccept chunks out hout
    have heq := completeRun_unique (sealRun_length writer _ hrun) hm hstream
    rcases hcut with ⟨missing,hne,hcut⟩ | ⟨extra,hne,hcut⟩
    · rw [heq] at hcut
      exact hne (by simpa using hcut)
    · rw [heq] at hcut
      exact hne (by simpa using hcut.symm)

theorem subkeyInfo_injective {d₁ d₂ : Direction} {s₁ s₂ : SessionId} {r₁ r₂ : RequestId}
    (h : subkeyInfo d₁.label s₁ r₁ = subkeyInfo d₂.label s₂ r₂) : (d₁, s₁, r₁) = (d₂, s₂, r₂) := by
  have hlen := congrArg List.length h
  simp only [subkeyInfo, length_append, Vector.length_toList, length_singleton] at hlen
  have hd : d₁ = d₂ := by
    cases d₁ <;> cases d₂ <;> first | rfl | (exfalso; revert hlen; decide)
  subst hd
  obtain ⟨hleft,hr⟩ := append_inj' h (by simp)
  obtain ⟨-,hs⟩ := append_inj' hleft (by simp)
  rw [Prod.mk.injEq, Prod.mk.injEq]
  exact ⟨rfl,by
    cases s₁; cases s₂; simpa [Vector.toList_inj] using hs,by
    cases r₁; cases r₂; simpa [Vector.toList_inj] using hr⟩

def sampleKey : TrafficKey := ⟨Vector.replicate 32 9⟩

def sampleWriter : ResponseSealer := ⟨sampleSecrets.sessionId, sampleRequest, sampleKey, 0⟩

def tagged (plaintext : Bytes) : Bytes := plaintext++List.replicate 16 0

def startPlaintext : Bytes := startTag::emptyHead

/-- A cipher that has sealed exactly two records: a start and an end. -/
def twoRecordCipher : Primitives where
  hkdfExpand := fun _ info =>
    if info = subkeyInfo responseSubkeyInfo sampleSecrets.sessionId sampleRequest then
      some sampleKey
    else some ⟨Vector.replicate 32 0⟩
  encrypt := fun key nonce aad plaintext =>
    if key = sampleKey ∧
        (nonce = responseNonce 0 ∧ aad = responseAad sampleSecrets.sessionId sampleRequest 0 ∧
          plaintext = startPlaintext ∨
        nonce = responseNonce 1 ∧ aad = responseAad sampleSecrets.sessionId sampleRequest 1 ∧
          plaintext = [endTag]) then some (tagged plaintext)
    else none
  decrypt := fun key nonce aad ciphertext =>
    if key = sampleKey ∧
        (nonce = responseNonce 0 ∧ aad = responseAad sampleSecrets.sessionId sampleRequest 0 ∧
          ciphertext = tagged startPlaintext ∨
        nonce = responseNonce 1 ∧ aad = responseAad sampleSecrets.sessionId sampleRequest 1 ∧
          ciphertext = tagged [endTag]) then some (ciphertext.take (ciphertext.length-16))
    else none

theorem twoRecordCipher_ideal :
    Ideal twoRecordCipher {sampleSecrets} sampleSecrets sampleRequest sampleWriter
      [startPlaintext, [endTag]] [tagged startPlaintext, tagged [endTag]] ∅ where
  opens := by
    rintro (_ | _ | i) plaintext ciphertext hp hc <;> cases hp <;> cases hc <;> decide +kernel
  authentic := by
    intro key nonce aad ciphertext plaintext h
    simp only [twoRecordCipher] at h
    split_ifs at h with hc
    obtain ⟨rfl,⟨rfl,rfl,rfl⟩ | ⟨rfl,rfl,rfl⟩⟩ := hc
    · exact Or.inl (mem_cons_self ..)
    · exact Or.inl (mem_cons_of_mem _ (mem_cons_self ..))
  foreign := by simp
  separated := by
    intro s hs direction r key hk hk'
    obtain rfl := Set.mem_singleton_iff.mp hs
    simp only [recordSubkey, deriveRecordSubkey, twoRecordCipher, Direction.label, if_true,
      Option.some.injEq] at hk
    subst hk
    simp only [recordSubkey, deriveRecordSubkey, twoRecordCipher] at hk'
    split_ifs at hk' with hinfo
    · exact subkeyInfo_injective hinfo
    · exact absurd hk' (by decide)

theorem complete_response_authentic_two_records :
    receive twoRecordCipher plainLibraries
        (ResponseDecoder.new ⟨sampleSecrets.sessionId, sampleRequest, sampleKey, 0⟩)
        [.ok ([0,0,0,44]++tagged startPlaintext++[0,0,0,17]++tagged [endTag])] =
      some ([.start 200 [], .finish],none) ∧
    (∃ n, CompleteRun plainLibraries [startPlaintext, [endTag]]
      [tagged startPlaintext, tagged [endTag]] n
      ([0,0,0,44]++tagged startPlaintext++[0,0,0,17]++tagged [endTag]) [.start 200 [], .finish]) ∧
    ∃ out e, receive twoRecordCipher plainLibraries
        (ResponseDecoder.new ⟨sampleSecrets.sessionId, sampleRequest, sampleKey, 0⟩)
        [.ok ([0,0,0,44]++tagged startPlaintext)] = some (out,some e) := by
  have hmain := complete_response_authentic (L := plainLibraries) {sampleSecrets} sampleSecrets
    sampleRequest sampleWriter ⟨sampleSecrets.sessionId, sampleRequest, sampleKey, 0⟩
    [startPlaintext, [endTag]] [tagged startPlaintext, tagged [endTag]] ∅
    (by simp [SessionSecrets.responseSealer, deriveRecordSubkey, twoRecordCipher, sampleWriter])
    (by simp [SessionSecrets.responseOpener, deriveRecordSubkey, twoRecordCipher])
    (by decide +kernel) twoRecordCipher_ideal
  have hok : receive twoRecordCipher plainLibraries
      (ResponseDecoder.new ⟨sampleSecrets.sessionId, sampleRequest, sampleKey, 0⟩)
      [.ok ([0,0,0,44]++tagged startPlaintext++[0,0,0,17]++tagged [endTag])] =
    some ([.start 200 [], .finish],none) := by decide +kernel
  have hrun := hmain.1 [[0,0,0,44]++tagged startPlaintext++[0,0,0,17]++tagged [endTag]] _ hok
  obtain ⟨n,hn⟩ := hrun
  refine ⟨hok,⟨n,by simpa using hn⟩,?_⟩
  exact hmain.2 n _ _ hn [[0,0,0,44]++tagged startPlaintext]
    (Or.inl ⟨[0,0,0,17]++tagged [endTag],by simp,by simp⟩)

end Maple.Transport.Authenticity
