import GruutMerger.JoinProtocol
import GruutMerger.Lib.Machine

/-!
# Signers that join at the same time

While the pool has room and the messages of others are handled, what the manager keeps
for a signer id and what it sends to that id depends on the messages of this id only,
however they are interleaved. So a signer that follows the protocol gets in.
-/
namespace GruutMerger

open ByteText Fallible

variable (env : Env)

namespace SignerPoolManager

/-- Two managers hold the same for an id, whatever its spelling. -/
structure Agree (id : Bytes) (s s' : SignerPoolManager) : Prop where
  pending : ∀ text, idOfText env text = id → s.joinTempTable.lookup text = s'.joinTempTable.lookup text
  signer : s.signerPool.find id = s'.signerPool.find id
  cert : s.myCert = s'.myCert

/-- The pool has room when the id joins, and what comes under another id is handled. -/
def Undisturbed (id : Bytes) (s : SignerPoolManager) (m : JoinMessage) : Prop :=
  if m.recvId env = id then m.type = .join → s.isJoinable = true else (handleMessage env s m).isOk = true

variable {env} {s s' t : SignerPoolManager} {m : JoinMessage} {id : Bytes} {out : List OutputMsgEntry}

theorem idOfText_encode (id : Bytes) : idOfText env (env.base64.encode id) = id :=
  @Safe.getBytesFromB64_encode env.base64 (.object [("", .string (env.base64.encode id))]) "" id rfl

theorem handleMessage_receivers (h : handleMessage env s m = .ok (t, out)) : ∀ o ∈ out, o.receivers = [m.recvId env] := by
  rw [handleMessage] at h
  split at h
  · split at h <;> cases h <;> simp [errorMessage, challengeMessage]
  · split at h
    · cases h
      simp [errorMessage]
    · obtain ⟨late, _, h⟩ := bind_eq_ok.mp h
      split at h
      · cases h
        simp [errorMessage]
      obtain ⟨verified, _, h⟩ := bind_eq_ok.mp h
      split at h
      · cases h
        simp [errorMessage]
      obtain ⟨shared, _, h⟩ := bind_eq_ok.mp h
      split at h <;> cases h <;> simp [errorMessage, responseMessage]
  · obtain ⟨late, _, h⟩ := bind_eq_ok.mp h
    split at h <;> cases h <;> simp [errorMessage, acceptMessage]
  · cases h
    simp
  · cases h
    simp

/-- An entry changes with a message under its own text only. -/
theorem Handles.lookup_eq {text : Bytes} (h : Handles env s m t) (hne : text ≠ m.recvIdB64) :
    t.joinTempTable.lookup text = s.joinTempTable.lookup text := by
  cases h with
  | joined => exact AList.lookup_insert_ne hne
  | responded => exact AList.lookup_insert_ne hne
  | certified => exact AList.lookup_insert_ne hne
  | succeeded => exact AList.lookup_erase_ne hne
  | left _ htable =>
    rcases htable with rfl | rfl
    · rfl
    · exact AList.lookup_erase_ne hne
  | unchanged => rfl

/-- A signer changes with a message of its own id only. -/
theorem Handles.find_eq (h : Handles env s m t) (hne : m.recvId env ≠ id) : t.signerPool.find id = s.signerPool.find id := by
  cases h with
  | joined => rfl
  | responded => exact (SignerPool.find_pushSigner id).trans (if_neg hne)
  | certified => rfl
  | succeeded => exact (SignerPool.find_updateStatus id).trans (if_neg hne)
  | left => exact (SignerPool.find_removeSigner id).trans (if_neg hne)
  | unchanged => rfl

theorem Handles.myCert_eq (h : Handles env s m t) : t.myCert = s.myCert := by
  cases h <;> rfl

theorem Agree.other (h : Agree env id s s') (hm : Handles env s m t) (hne : m.recvId env ≠ id) : Agree env id t s' where
  pending text htext := by
    rw [← h.pending text htext]
    refine hm.lookup_eq ?_
    rintro rfl
    exact hne htext
  signer := (hm.find_eq hne).trans h.signer
  cert := hm.myCert_eq.trans h.cert

theorem Agree.symm (h : Agree env id s s') : Agree env id s' s :=
  ⟨fun text htext => (h.pending text htext).symm, h.signer.symm, h.cert.symm⟩

theorem Agree.put (h : Agree env id s s') (text : Bytes) (d : JoinTemporaryData) : Agree env id
    { s with joinTempTable := s.joinTempTable.insert text d } { s' with joinTempTable := s'.joinTempTable.insert text d } where
  pending text' htext := by
    by_cases heq : text' = text
    · subst heq
      simp only [AList.lookup_insert]
    · exact (AList.lookup_insert_ne heq).trans ((h.pending text' htext).trans (AList.lookup_insert_ne heq).symm)
  signer := h.signer
  cert := h.cert

theorem Agree.drop (h : Agree env id s s') (text : Bytes) : Agree env id
    { s with joinTempTable := s.joinTempTable.erase text } { s' with joinTempTable := s'.joinTempTable.erase text } where
  pending text' htext := by
    by_cases heq : text' = text
    · subst heq
      simp only [AList.lookup_erase]
    · exact (AList.lookup_erase_ne heq).trans ((h.pending text' htext).trans (AList.lookup_erase_ne heq).symm)
  signer := h.signer
  cert := h.cert

/-- The same change of the pools. -/
theorem Agree.pool (h : Agree env id s s') {p p' : SignerPool} (hp : p.find id = p'.find id) :
    Agree env id { s with signerPool := p } { s' with signerPool := p' } := ⟨h.pending, hp, h.cert⟩

theorem Agree.isTimeout (h : Agree env id s s') (text : Bytes) (htext : idOfText env text = id) (now : Nat) :
    s'.isTimeout now text = s.isTimeout now text := by
  rw [SignerPoolManager.isTimeout, SignerPoolManager.isTimeout, h.pending text htext]

theorem Agree.verifySignature (h : Agree env id s s') (body : Json) :
    s'.verifySignature env id body = s.verifySignature env id body := by
  rw [SignerPoolManager.verifySignature, SignerPoolManager.verifySignature, h.pending _ (idOfText_encode id)]

theorem Agree.responseMessage (h : Agree env id s s') (now : Nat) (nonce : Bytes) :
    responseMessage env s' now m nonce = responseMessage env s now m nonce := by
  rw [SignerPoolManager.responseMessage, SignerPoolManager.responseMessage, h.cert]

theorem Agree.response (h : Agree env id s s') (hid : m.recvId env = id) (ht : m.type = .response1)
    (hm : handleMessage env s m = .ok (t, out)) : ∃ t', handleMessage env s' m = .ok (t', out) ∧ Agree env id t t' := by
  have hlookup := h.pending m.recvIdB64 hid
  have hlate := h.isTimeout m.recvIdB64 hid (m.clock 0)
  have hsig := h.verifySignature m.body
  rw [handleMessage] at hm ⊢
  simp only [ht, hid, hlookup, hlate, hsig, h.responseMessage] at hm ⊢
  cases hd : s'.joinTempTable.lookup m.recvIdB64 with
  | none =>
    simp only [hd] at hm ⊢
    cases hm
    exact ⟨s', rfl, h⟩
  | some d =>
    simp only [hd] at hm ⊢
    obtain ⟨late, hl, hm⟩ := bind_eq_ok.mp hm
    simp only [hl, bind, Except.bind]
    cases late with
    | true =>
      cases hm
      exact ⟨s', rfl, h⟩
    | false =>
      obtain ⟨verified, hv, hm⟩ := bind_eq_ok.mp hm
      simp only [hv]
      cases verified with
      | false =>
        cases hm
        exact ⟨s', rfl, h⟩
      | true =>
        obtain ⟨shared, hs, hm⟩ := bind_eq_ok.mp hm
        simp only [hs]
        by_cases hnil : shared = []
        · simp only [hnil, if_true] at hm ⊢
          cases hm
          exact ⟨_, rfl, h.put _ _⟩
        · simp only [hnil, if_false] at hm ⊢
          cases hm
          exact ⟨_, rfl, (h.put _ _).pool (by simp only [SignerPool.find_pushSigner, if_true])⟩

theorem Agree.own (h : Agree env id s s') (hid : m.recvId env = id)
    (hroom : m.type = .join → s.isJoinable = true ∧ s'.isJoinable = true) (hm : handleMessage env s m = .ok (t, out)) :
    ∃ t', handleMessage env s' m = .ok (t', out) ∧ Agree env id t t' := by
  by_cases hresponse : m.type = .response1
  · exact h.response hid hresponse hm
  have hlookup := h.pending m.recvIdB64 hid
  have hlate := h.isTimeout m.recvIdB64 hid (m.clock 0)
  by_cases hjoin : m.type = .join
  · obtain ⟨hroom, hroom'⟩ := hroom hjoin
    rw [handleMessage_join ⟨hjoin, hroom⟩] at hm
    cases hm
    exact ⟨_, handleMessage_join ⟨hjoin, hroom'⟩, h.put _ _⟩
  by_cases hsuccess : m.type = .success
  · rw [handleMessage] at hm ⊢
    simp only [hsuccess, hid, hlate] at hm ⊢
    obtain ⟨late, hl, hm⟩ := bind_eq_ok.mp hm
    simp only [hl, bind, Except.bind]
    cases late with
    | true =>
      cases hm
      exact ⟨s', rfl, h⟩
    | false =>
      cases hm
      exact ⟨_, rfl, (h.drop _).pool (by simp only [SignerPool.find_updateStatus, h.signer])⟩
  by_cases hleave : m.type = .leave
  · rw [handleMessage] at hm ⊢
    simp only [hleave, hid, hlookup] at hm ⊢
    have hfind : (s.signerPool.removeSigner id).find id = (s'.signerPool.removeSigner id).find id := by
      simp only [SignerPool.find_removeSigner, if_true]
    cases hm
    refine ⟨_, rfl, ?_⟩
    cases s'.joinTempTable.lookup m.recvIdB64 with
    | none => exact h.pool hfind
    | some d =>
      cases hlock : d.joinLock with
      | true =>
        simp only [hlock]
        exact h.pool hfind
      | false =>
        simp only [hlock]
        exact (h.drop _).pool hfind
  · have hsame : ∀ s : SignerPoolManager, handleMessage env s m = .ok (s, []) := by
      intro s
      rw [handleMessage]
      split
      · exact absurd ‹_› hjoin
      · exact absurd ‹_› hresponse
      · exact absurd ‹_› hsuccess
      · exact absurd ‹_› hleave
      · rfl
    rw [hsame] at hm
    cases hm
    exact ⟨s', hsame s', h⟩

/-- A pool with one signer at most has room. -/
theorem isJoinable_of_ids (h : s.signerPool.ids ⊆ [id]) : s.isJoinable = true := by
  have hsize : s.signerPool.size ≤ 1 := by
    rw [SignerPool.size_eq]
    exact (Finset.card_le_card fun x hx => List.mem_toFinset.mpr (h (List.mem_toFinset.mp hx))).trans (by simp)
  exact decide_eq_true (Nat.lt_of_le_of_lt hsize (by decide))

theorem Handles.ids_subset (h : Handles env s m t) (hid : m.recvId env = id) (hs : s.signerPool.ids ⊆ [id]) :
    t.signerPool.ids ⊆ [id] := by
  cases h with
  | joined => exact hs
  | responded =>
    refine fun x hx => ?_
    rcases List.mem_cons.mp (SignerPool.ids_pushSigner hx) with rfl | hx
    · simp [hid]
    · exact hs hx
  | certified => exact hs
  | succeeded => exact SignerPool.ids_updateStatus.symm ▸ hs
  | left => exact fun x hx => hs (SignerPool.ids_removeSigner hx)
  | unchanged => exact hs

theorem isolates (id : Bytes) : Machine.Isolates (handleMessage env) (fun m => decide (m.recvId env = id))
    (fun o => decide (o.receivers = [id])) (Undisturbed env id) fun s s' => Agree env id s s' ∧ s'.signerPool.ids ⊆ [id] where
  own_step := by
    rintro s s' m t out ⟨hagree, hids⟩ hown hc hm
    have hid := of_decide_eq_true hown
    rw [Undisturbed, if_pos hid] at hc
    obtain ⟨t', hm', ht⟩ := hagree.own hid (fun hjoin => ⟨hc hjoin, isJoinable_of_ids hids⟩) hm
    refine ⟨⟨t', hm', ht, (handles hm').ids_subset hid hids⟩, fun o ho => ?_⟩
    rw [handleMessage_receivers hm o ho, hid]
    exact decide_eq_true rfl
  own_returns := by
    rintro s s' m t' out ⟨hagree, hids⟩ hown hc hm
    have hid := of_decide_eq_true hown
    rw [Undisturbed, if_pos hid] at hc
    obtain ⟨t, ht, _⟩ := hagree.symm.own hid (fun hjoin => ⟨isJoinable_of_ids hids, hc hjoin⟩) hm
    exact ⟨t, ht⟩
  other_step := by
    rintro s s' m t out ⟨hagree, hids⟩ hown hm
    have hne := of_decide_eq_false hown
    refine ⟨⟨hagree.other (handles hm) hne, hids⟩, fun o ho => ?_⟩
    rw [handleMessage_receivers hm o ho]
    exact decide_eq_false fun heq => hne (List.singleton_inj.mp heq)
  other_returns := by
    intro s m hown hc
    rw [Undisturbed, if_neg (of_decide_eq_false hown)] at hc
    cases hm : handleMessage env s m with
    | error e =>
      rw [hm] at hc
      cases hc
    | ok r => exact ⟨r.1, r.2, rfl⟩

/-- An interleaving with others in which the pool has room for its joins is handled if a signer's messages are handled
alone. Then the signer is sent what it would be sent alone, and the manager ends with the same for it. -/
theorem signers_isolated {ms : List JoinMessage} (hagree : Agree env id s s') (hids : s'.signerPool.ids ⊆ [id])
    (hothers : Machine.EachInput (handleMessage env) (Undisturbed env id) s ms) :
    (∀ t out, Machine.run (handleMessage env) s ms = .ok (t, out) →
      ∃ t', Machine.run (handleMessage env) s' (ms.filter fun m => m.recvId env = id) =
        .ok (t', out.filter fun o => o.receivers = [id]) ∧ Agree env id t t') ∧
    ∀ t' out', Machine.run (handleMessage env) s' (ms.filter fun m => m.recvId env = id) = .ok (t', out') →
      ∃ t out, Machine.run (handleMessage env) s ms = .ok (t, out) := by
  refine ⟨fun t out hrun => ?_, fun t' out' hrun => (isolates id).returns ⟨hagree, hids⟩ hothers hrun⟩
  obtain ⟨t', hrun', ht, _⟩ := (isolates id).run ⟨hagree, hids⟩ hothers hrun
  exact ⟨t', hrun', ht⟩

variable (env) in
/-- The three messages of a signer that answers in time, over the nonce that it got, with a point that gives a key. -/
structure Honest (id key : Bytes) (join response success : JoinMessage) : Prop where
  type_join : join.type = .join
  type_response : response.type = .response1
  type_success : success.type = .success
  text_join : join.recvIdB64 = env.base64.encode id
  text_response : response.recvIdB64 = env.base64.encode id
  text_success : success.recvIdB64 = env.base64.encode id
  time_response : sub64 (response.clock 0) (join.clock 0) ≤ joinTimeoutSec
  time_success : sub64 (success.clock 0) (join.clock 0) ≤ joinTimeoutSec
  signed : responseVerifies env (join.entry env).mergerNonce response.body = .ok true
  shared : response.draw.getSharedSecretKey (Safe.getStringOf response.body "dhx") (Safe.getStringOf response.body "dhy") =
    .ok key
  key_ne : key ≠ []

variable {key : Bytes} {join response success : JoinMessage}

theorem recvId_of_text (h : m.recvIdB64 = env.base64.encode id) : m.recvId env = id := Safe.getBytesFromB64_encode h

/-- The signer as its response leaves it. -/
def responseEntry (id key : Bytes) (response : JoinMessage) : SignerEntry :=
  ⟨id, Safe.getStringOf response.body "cert", key, response.clock 2, .temporary⟩

theorem Honest.answered (h : Honest env id key join response success) (hs : s.isJoinable = true) : ∃ t,
    Machine.run (handleMessage env) s [join, response] =
      .ok (t, [challengeMessage env (join.clock 0) id (join.entry env).mergerNonce,
        responseMessage env s (response.clock 1) response (join.entry env).mergerNonce]) ∧
    t.signerPool.find id = some (responseEntry id key response) ∧
    ∃ d, t.joinTempTable.lookup (env.base64.encode id) = some d ∧ d.startTime = join.clock 0 := by
  let joined : SignerPoolManager :=
    { s with joinTempTable := s.joinTempTable.insert (env.base64.encode id) (join.entry env) }
  have hfirst : handleMessage env s join =
      .ok (joined, [challengeMessage env (join.clock 0) id (join.entry env).mergerNonce]) := by
    rw [handleMessage_join ⟨h.type_join, hs⟩, h.text_join, recvId_of_text h.text_join]
  have hlookup : joined.joinTempTable.lookup (env.base64.encode id) = some (join.entry env) := AList.lookup_insert _
  have hsig : joined.verifySignature env (response.recvId env) response.body = .ok true := by
    rw [recvId_of_text h.text_response, verifySignature, hlookup]
    exact h.signed
  have hsecond := handleMessage_response h.type_response (h.text_response ▸ hlookup) h.time_response hsig h.shared h.key_ne
  rw [h.text_response, recvId_of_text h.text_response] at hsecond
  refine ⟨_, Machine.run_cons.mpr ⟨_, _, _, hfirst, Machine.run_singleton hsecond, rfl⟩, ?_, _, AList.lookup_insert _, rfl⟩
  exact (SignerPool.find_pushSigner id).trans (if_pos rfl)

theorem handleMessage_success {d : JoinTemporaryData} (ht : m.type = .success)
    (hd : s.joinTempTable.lookup m.recvIdB64 = some d) (htime : sub64 (m.clock 0) d.startTime ≤ joinTimeoutSec) :
    handleMessage env s m = .ok ({ s with
      signerPool := s.signerPool.updateStatus (m.clock 1) (m.recvId env) .good
      joinTempTable := s.joinTempTable.erase m.recvIdB64 }, [acceptMessage env (m.clock 2) (m.recvId env)]) := by
  have hlate : s.isTimeout (m.clock 0) m.recvIdB64 = .ok false := by
    rw [isTimeout_of_lookup hd, decide_eq_false (Nat.not_lt.mpr htime)]
  rw [handleMessage]
  simp only [ht, hlate]
  rfl

theorem Honest.accepted (h : Honest env id key join response success) (hs : s.isJoinable = true) : ∃ t,
    Machine.run (handleMessage env) s [join, response, success] =
      .ok (t, [challengeMessage env (join.clock 0) id (join.entry env).mergerNonce,
        responseMessage env s (response.clock 1) response (join.entry env).mergerNonce,
        acceptMessage env (success.clock 2) id]) ∧
    t.signerPool.find id = some { responseEntry id key response with status := .good, lastUpdate := success.clock 1 } ∧
    t.joinTempTable.lookup (env.base64.encode id) = none := by
  obtain ⟨u, hrun, hfind, d, hd, hstart⟩ := h.answered hs
  have hthird := @handleMessage_success env u success d h.type_success (h.text_success ▸ hd) (hstart ▸ h.time_success)
  rw [h.text_success, recvId_of_text h.text_success] at hthird
  have hall : Machine.run (handleMessage env) s ([join, response] ++ [success]) = .ok (_, _) :=
    Machine.run_append.mpr ⟨u, _, _, hrun, Machine.run_singleton hthird, rfl⟩
  refine ⟨_, hall, ?_, AList.lookup_erase _ _⟩
  rw [SignerPool.find_updateStatus, if_pos rfl, hfind]
  rfl

/-- The manager as it would be with this signer only. -/
def only (s : SignerPoolManager) (id : Bytes) : SignerPoolManager :=
  { s with signerPool := s.signerPool.only id }

theorem isolated_only (s : SignerPoolManager) (id : Bytes) :
    Agree env id s (s.only id) ∧ (s.only id).signerPool.ids ⊆ [id] :=
  ⟨⟨fun _ _ => rfl, (SignerPool.find_only _ _).symm, rfl⟩, SignerPool.ids_only _ _⟩

variable {ms : List JoinMessage}

theorem eq_of_prefix_three {a b c : JoinMessage} (h : ms <+: [a, b, c]) (hin : b ∈ ms) (hne : b ≠ a) :
    ms = [a, b] ∨ ms = [a, b, c] := by
  rcases List.prefix_cons_iff.mp h with rfl | ⟨ms, rfl, h₁⟩
  · cases hin
  rcases List.prefix_cons_iff.mp h₁ with rfl | ⟨ms, rfl, h₂⟩
  · exact absurd (List.mem_singleton.mp hin) hne
  rcases List.prefix_cons_iff.mp h₂ with rfl | ⟨ms, rfl, h₃⟩
  · exact Or.inl rfl
  · rw [List.prefix_nil.mp h₃]
    exact Or.inr rfl

/-- Once it has been answered, the key of the signer is there for the HMAC of its `MSG_SUCCESS`. -/
theorem Honest.key_kept (h : Honest env id key join response success)
    (hothers : Machine.EachInput (handleMessage env) (Undisturbed env id) s ms)
    (hown : (ms.filter fun m => m.recvId env = id) <+: [join, response, success]) (hin : response ∈ ms)
    (hrun : Machine.run (handleMessage env) s ms = .ok (t, out)) : t.signerPool.getHmacKey id = key := by
  obtain ⟨t', hrun', hagree, _⟩ := (isolates id).run (isolated_only s id) hothers hrun
  have hjoinable := isJoinable_of_ids (@isolated_only env s id).2
  have hmem : response ∈ ms.filter fun m => m.recvId env = id :=
    List.mem_filter.mpr ⟨hin, decide_eq_true (recvId_of_text h.text_response)⟩
  have hnot : response ≠ join := by
    rintro rfl
    exact absurd (h.type_join.symm.trans h.type_response) (by decide)
  have hcases := eq_of_prefix_three hown hmem hnot
  rw [SignerPool.getHmacKey, hagree.signer]
  rcases hcases with hfilter | hfilter
  · obtain ⟨u, hu, hfind, _⟩ := h.answered hjoinable
    rw [hfilter, hu] at hrun'
    obtain ⟨rfl, _⟩ := Prod.mk.inj (Except.ok.inj hrun')
    rw [hfind]
    rfl
  · obtain ⟨u, hu, hfind, _⟩ := h.accepted hjoinable
    rw [hfilter, hu] at hrun'
    obtain ⟨rfl, _⟩ := Prod.mk.inj (Except.ok.inj hrun')
    rw [hfind]
    rfl

/-- A signer that follows the protocol is answered at every step and is in the pool in the end, with its key, in any
interleaving with the messages of others in which the pool has room for its join. From its response on, its key is there. -/
theorem honest_join_completes (h : Honest env id key join response success)
    (hothers : Machine.EachInput (handleMessage env) (Undisturbed env id) s ms)
    (hown : (ms.filter fun m => m.recvId env = id) = [join, response, success]) :
    ∃ t out, Machine.run (handleMessage env) s ms = .ok (t, out) ∧
      (out.filter fun o => o.receivers = [id]) = [challengeMessage env (join.clock 0) id (join.entry env).mergerNonce,
        responseMessage env s (response.clock 1) response (join.entry env).mergerNonce,
        acceptMessage env (success.clock 2) id] ∧
      t.signerPool.find id =
        some ⟨id, Safe.getStringOf response.body "cert", key, success.clock 1, .good⟩ ∧
      env.base64.encode id ∉ t.joinTempTable ∧
      ∀ pre post, ms = pre ++ post → response ∈ pre →
        ∃ u before, Machine.run (handleMessage env) s pre = .ok (u, before) ∧ u.signerPool.getHmacKey id = key := by
  obtain ⟨t', hu, hfind, hgone⟩ := h.accepted (isJoinable_of_ids (@isolated_only env s id).2)
  rw [← hown] at hu
  obtain ⟨t, out, hrun⟩ := (isolates id).returns (isolated_only s id) hothers hu
  obtain ⟨u, hrun', hagree, _⟩ := (isolates id).run (isolated_only s id) hothers hrun
  obtain ⟨rfl, hout⟩ := Prod.mk.inj (Except.ok.inj (hrun'.symm.trans hu))
  refine ⟨t, out, hrun, hout, hagree.signer.trans hfind, ?_, fun pre post hsplit hin => ?_⟩
  · rw [← AList.lookup_eq_none, hagree.pending _ (idOfText_encode id)]
    exact hgone
  · rw [hsplit] at hrun hothers
    obtain ⟨v, before, _, hpre, _⟩ := Machine.run_append.mp hrun
    refine ⟨v, before, hpre, h.key_kept hothers.left ⟨post.filter fun m => m.recvId env = id, ?_⟩ hin hpre⟩
    rw [← List.filter_append, ← hsplit, hown]

end SignerPoolManager

namespace Sample

open SignerPoolManager

/-- Signer 1 joins while signer 2 joins and leaves. -/
def joiningAmongOthers : List JoinMessage :=
  [joinMessage .join (ascii "AQEBAQEBAQE=") 100 1, joinMessage .join (ascii "AgICAgICAgI=") 101 1,
    joinMessage .response1 (ascii "AgICAgICAgI=") 104 1, joinMessage .response1 (ascii "AQEBAQEBAQE=") 105 1,
    joinMessage .leave (ascii "AgICAgICAgI=") 105 1, joinMessage .success (ascii "AQEBAQEBAQE=") 106 1]

instance (id : Bytes) (s : SignerPoolManager) (m : JoinMessage) : Decidable (Undisturbed joinEnv id s m) :=
  inferInstanceAs (Decidable (ite _ _ _))

theorem undisturbed_amongOthers :
    Machine.EachInput (handleMessage joinEnv) (Undisturbed joinEnv (List.replicate 8 1)) (SignerPoolManager.initial [])
      joiningAmongOthers := by
  decide +kernel

theorem filter_amongOthers :
    (joiningAmongOthers.filter fun m => m.recvId joinEnv = List.replicate 8 1) = joining := rfl

theorem honest_joining : Honest joinEnv (List.replicate 8 1) [1] (joinMessage .join (ascii "AQEBAQEBAQE=") 100 1)
    (joinMessage .response1 (ascii "AQEBAQEBAQE=") 105 1) (joinMessage .success (ascii "AQEBAQEBAQE=") 106 1) where
  type_join := rfl
  type_response := rfl
  type_success := rfl
  text_join := by decide +kernel
  text_response := by decide +kernel
  text_success := by decide +kernel
  time_response := by decide
  time_success := by decide
  signed := by
    have htrue : okAnd id (responseVerifies joinEnv (Base64.encodePadded (List.replicate 32 1))
        (joinBody (ascii "AQEBAQEBAQE=") 105)) = true := by decide +kernel
    obtain ⟨b, hb, ht⟩ := okAnd_eq_true.mp htrue
    cases ht
    exact hb
  shared := rfl
  key_ne := by decide

end Sample

namespace SignerPoolManager

theorem signers_isolated_two : ∃ t out t', Machine.run (handleMessage Sample.joinEnv) (initial []) Sample.joiningAmongOthers =
      .ok (t, out) ∧ out.length = 5 ∧
    Machine.run (handleMessage Sample.joinEnv) (initial []) Sample.joining =
      .ok (t', out.filter fun o => o.receivers = [List.replicate 8 1]) ∧
    Agree Sample.joinEnv (List.replicate 8 1) t t' := by
  have hrun : okAnd (fun r : SignerPoolManager × List OutputMsgEntry => decide (r.2.length = 5))
      (Machine.run (handleMessage Sample.joinEnv) (initial []) Sample.joiningAmongOthers) = true := by decide +kernel
  obtain ⟨⟨t, out⟩, hrun, hlen⟩ := okAnd_eq_true.mp hrun
  obtain ⟨halone, _⟩ := signers_isolated ⟨fun _ _ => rfl, rfl, rfl⟩ (List.nil_subset _) Sample.undisturbed_amongOthers
  obtain ⟨t', hrun', ht⟩ := halone t out hrun
  exact ⟨t, out, t', hrun, of_decide_eq_true hlen, hrun', ht⟩

theorem honest_join_completes_two : ∃ t out x, Machine.run (handleMessage Sample.joinEnv) (initial [])
      Sample.joiningAmongOthers = .ok (t, out) ∧ (out.filter fun o => o.receivers = [List.replicate 8 1]).length = 3 ∧
    t.signerPool.find (List.replicate 8 1) = some x ∧ x.status = .good := by
  obtain ⟨t, out, hrun, hout, hfind, _⟩ :=
    honest_join_completes Sample.honest_joining Sample.undisturbed_amongOthers Sample.filter_amongOthers
  exact ⟨t, out, _, hrun, by rw [hout]; rfl, hfind, rfl⟩

end SignerPoolManager
end GruutMerger
