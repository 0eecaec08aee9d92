import GruutMerger.SignerPoolManager
import GruutMerger.Sample
import Mathlib.Data.List.Induction

/-!
# Runs of the join protocol

Who is in the signer pool after any sequence of messages, and how they got there.
-/
namespace GruutMerger

open ByteText Fallible

variable (env : Env)

namespace SignerPoolManager

def run (s : SignerPoolManager) (ms : List JoinMessage) : Except Failure SignerPoolManager :=
  ms.foldlM (fun s m => (handleMessage env s m).map Prod.fst) s

variable {env}

theorem run_nil {s s' : SignerPoolManager} : run env s [] = .ok s' ↔ s' = s := foldlM_nil_eq_ok

theorem run_concat {s s' : SignerPoolManager} {ms : List JoinMessage} {m : JoinMessage} :
    run env s (ms ++ [m]) = .ok s' ↔ ∃ t, run env s ms = .ok t ∧ ∃ out, handleMessage env t m = .ok (s', out) := by
  simp only [run, foldlM_concat_eq_ok, map_fst_eq_ok]

variable (env) (cert : Bytes)

/-- The most recent nonce for an id was issued at this time. -/
def Issued (ms : List JoinMessage) (id nonce : Bytes) (time : Nat) : Prop :=
  ∃ pre m post s, ms = pre ++ m :: post ∧ run env (initial cert) pre = .ok s ∧ s.Issues m ∧ m.recvId env = id ∧
    nonce = (m.entry env).mergerNonce ∧ time = m.clock 0 ∧
    ∀ a m' b s', post = a ++ m' :: b → run env (initial cert) (pre ++ m :: a) = .ok s' → s'.Issues m' →
      m'.recvId env ≠ id

/-- The signer got into the pool by a response that was in time and is signed over the
most recent nonce for its id, and is `GOOD` only if it confirmed after that. -/
def Admitted (ms : List JoinMessage) (x : SignerEntry) : Prop :=
  ∃ pre m post nonce time, ms = pre ++ m :: post ∧ m.type = .response1 ∧ m.recvId env = x.userId ∧
    Issued env cert pre x.userId nonce time ∧ time ≤ m.clock 0 ∧ m.clock 0 - time ≤ joinTimeoutSec ∧
    responseVerifies env nonce m.body = .ok true ∧
    (x.status = .good → ∃ f ∈ post, f.type = .success ∧ f.recvId env = x.userId)

variable {env cert}

theorem issued_concat {ms : List JoinMessage} {m : JoinMessage} {s : SignerPoolManager}
    (hrun : run env (initial cert) ms = .ok s) (hi : s.Issues m) :
    Issued env cert (ms ++ [m]) (m.recvId env) (m.entry env).mergerNonce (m.clock 0) :=
  ⟨ms, m, [], s, rfl, hrun, hi, rfl, rfl, rfl, by simp⟩

/-- A message that issues no nonce for the id leaves the most recent one. -/
theorem Issued.concat {ms : List JoinMessage} {m : JoinMessage} {s : SignerPoolManager} {id nonce : Bytes} {time : Nat}
    (h : Issued env cert ms id nonce time) (hrun : run env (initial cert) ms = .ok s)
    (hi : s.Issues m → m.recvId env ≠ id) : Issued env cert (ms ++ [m]) id nonce time := by
  obtain ⟨pre, j, post, t, rfl, hpre, hj, hid, hnonce, htime, hlast⟩ := h
  refine ⟨pre, j, post ++ [m], t, by simp, hpre, hj, hid, hnonce, htime, fun a m' b s' hpost hrun' hi' => ?_⟩
  rcases List.eq_nil_or_concat b with rfl | ⟨b, z, rfl⟩
  · obtain ⟨rfl, hm⟩ := List.append_inj' hpost rfl
    obtain rfl : m = m' := by simpa using hm
    rw [hrun] at hrun'
    cases hrun'
    exact hi hi'
  · rw [List.concat_eq_append, ← List.cons_append, ← List.append_assoc] at hpost
    exact hlast a m' b s' (List.append_inj' hpost rfl).1 hrun' hi'

theorem Issued.clock_le {ms : List JoinMessage} {m : JoinMessage} {id nonce : Bytes} {time : Nat}
    (h : Issued env cert ms id nonce time)
    (hclock : (ms ++ [m]).Pairwise fun a b => a.clock 0 ≤ b.clock 0) : time ≤ m.clock 0 := by
  obtain ⟨pre, j, post, _, rfl, _, _, _, _, rfl, _⟩ := h
  exact (List.pairwise_append.mp hclock).2.2 j (by simp) m (by simp)

/-- Another message only adds to what comes after the response. -/
theorem Admitted.concat {ms : List JoinMessage} {m : JoinMessage} {x : SignerEntry} (h : Admitted env cert ms x) :
    Admitted env cert (ms ++ [m]) x := by
  obtain ⟨pre, r, post, nonce, time, rfl, hr, hid, hissued, hle, htime, hsig, hgood⟩ := h
  refine ⟨pre, r, post ++ [m], nonce, time, by simp, hr, hid, hissued, hle, htime, hsig, fun hx => ?_⟩
  obtain ⟨f, hf, hsuccess⟩ := hgood hx
  exact ⟨f, List.mem_append_left _ hf, hsuccess⟩

theorem Admitted.confirm {ms : List JoinMessage} {m : JoinMessage} {x : SignerEntry} {now : Nat}
    (h : Admitted env cert ms x) (ht : m.type = .success) (hid : m.recvId env = x.userId) :
    Admitted env cert (ms ++ [m]) { x with status := .good, lastUpdate := now } := by
  obtain ⟨pre, r, post, nonce, time, rfl, hr, hrid, hissued, hle, htime, hsig, _⟩ := h
  exact ⟨pre, r, post ++ [m], nonce, time, by simp, hr, hrid, hissued, hle, htime, hsig,
    fun _ => ⟨m, by simp, ht, hid⟩⟩

/-- The id is spelled as its encoding. -/
def Spelled (env : Env) (m : JoinMessage) : Prop := m.recvIdB64 = env.base64.encode (m.recvId env)

variable (env cert) in
/-- The entry under the encoding of an id has the most recent nonce for it, and every
signer of the pool came in as it should. -/
structure Sound (ms : List JoinMessage) (s : SignerPoolManager) : Prop where
  pending : ∀ id d, s.joinTempTable.lookup (env.base64.encode id) = some d →
    Issued env cert ms id d.mergerNonce d.startTime
  admitted : ∀ x ∈ s.signerPool.signers, Admitted env cert ms x

variable {ms : List JoinMessage} {m : JoinMessage} {s s' : SignerPoolManager}

theorem Sound.keep (h : Sound env cert ms s) (hrun : run env (initial cert) ms = .ok s) (hi : ¬ s.Issues m)
    {table : AList fun _ : Bytes => JoinTemporaryData}
    (htable : ∀ text d, table.lookup text = some d → ∃ d₀, s.joinTempTable.lookup text = some d₀ ∧
      d.mergerNonce = d₀.mergerNonce ∧ d.startTime = d₀.startTime) (id : Bytes) (d : JoinTemporaryData)
    (hd : table.lookup (env.base64.encode id) = some d) :
    Issued env cert (ms ++ [m]) id d.mergerNonce d.startTime := by
  obtain ⟨d₀, hd₀, hnonce, hstart⟩ := htable _ d hd
  rw [hnonce, hstart]
  exact (h.pending id d₀ hd₀).concat hrun fun hissues => absurd hissues hi

/-- An entry that is written again keeps its nonce and its time. -/
theorem lookup_rewritten {text text' : Bytes} {d d' d₁ : JoinTemporaryData}
    (hd : s.joinTempTable.lookup text = some d) (hnonce : d'.mergerNonce = d.mergerNonce)
    (hstart : d'.startTime = d.startTime) (h : (s.joinTempTable.insert text d').lookup text' = some d₁) :
    ∃ d₀, s.joinTempTable.lookup text' = some d₀ ∧ d₁.mergerNonce = d₀.mergerNonce ∧ d₁.startTime = d₀.startTime := by
  by_cases htext : text' = text
  · subst htext
    rw [AList.lookup_insert] at h
    cases h
    exact ⟨d, hd, hnonce, hstart⟩
  · rw [AList.lookup_insert_ne htext] at h
    exact ⟨d₁, h, rfl, rfl⟩

theorem lookup_of_erase {text text' : Bytes} {d : JoinTemporaryData}
    (h : (s.joinTempTable.erase text).lookup text' = some d) : s.joinTempTable.lookup text' = some d := by
  by_cases htext : text' = text
  · subst htext
    rw [AList.lookup_erase] at h
    cases h
  · rwa [AList.lookup_erase_ne htext] at h

theorem Sound.step (h : Sound env cert ms s) (hrun : run env (initial cert) ms = .ok s) (hm : Handles env s m s')
    (hspell : m.type = .join ∨ m.type = .response1 → Spelled env m)
    (hclock : (ms ++ [m]).Pairwise fun a b => a.clock 0 ≤ b.clock 0) : Sound env cert (ms ++ [m]) s' := by
  cases hm with
  | joined hi =>
    refine ⟨fun id d hd => ?_, fun x hx => (h.admitted x hx).concat⟩
    rw [hspell (Or.inl hi.1)] at hd
    by_cases hid : id = m.recvId env
    · subst hid
      rw [AList.lookup_insert] at hd
      cases hd
      exact issued_concat hrun hi
    · rw [AList.lookup_insert_ne (fun heq => hid (env.base64.encode_injective heq))] at hd
      exact (h.pending id d hd).concat hrun fun _ heq => hid heq.symm
  | @responded d d' pkCert key ht hd htime hsig hnonce hstart =>
    refine ⟨h.keep hrun (fun hi => nomatch ht.symm.trans hi.1) fun text d₁ hd₁ => lookup_rewritten hd hnonce hstart hd₁,
      fun x hx => ?_⟩
    rcases SignerPool.mem_pushSigner hx with hx | rfl
    · exact (h.admitted x hx).concat
    · have htext : m.recvIdB64 = env.base64.encode (m.recvId env) := hspell (Or.inr ht)
      rw [htext] at hd
      have hissued := h.pending _ d hd
      have hle := hissued.clock_le hclock
      rw [sub64_of_le hle (m.clock_lt 0)] at htime
      rw [verifySignature, hd] at hsig
      exact ⟨ms, m, [], _, _, rfl, ht, rfl, hissued, hle, htime, hsig, fun hgood => nomatch hgood⟩
  | certified ht hd hnonce hstart =>
    exact ⟨h.keep hrun (fun hi => nomatch ht.symm.trans hi.1) fun text d₁ hd₁ => lookup_rewritten hd hnonce hstart hd₁,
      fun x hx => (h.admitted x hx).concat⟩
  | succeeded ht =>
    refine ⟨h.keep hrun (fun hi => nomatch ht.symm.trans hi.1) fun text d hd => ⟨d, lookup_of_erase hd, rfl, rfl⟩,
      fun x hx => ?_⟩
    rcases SignerPool.mem_updateStatus hx with hx | ⟨y, hy, hid, rfl⟩
    · exact (h.admitted x hx).concat
    · exact (h.admitted y hy).confirm ht hid.symm
  | left ht htable =>
    refine ⟨h.keep hrun (fun hi => nomatch ht.symm.trans hi.1) fun text d hd => ⟨d, ?_, rfl, rfl⟩,
      fun x hx => (h.admitted x (SignerPool.mem_removeSigner hx)).concat⟩
    rcases htable with rfl | rfl
    · exact hd
    · exact lookup_of_erase hd
  | unchanged hi => exact ⟨h.keep hrun hi fun _ d hd => ⟨d, hd, rfl, rfl⟩, fun x hx => (h.admitted x hx).concat⟩

theorem sound_run (hrun : run env (initial cert) ms = .ok s)
    (hspell : ∀ m ∈ ms, m.type = .join ∨ m.type = .response1 → Spelled env m)
    (hclock : ms.Pairwise fun a b => a.clock 0 ≤ b.clock 0) : Sound env cert ms s := by
  induction ms using List.reverseRecOn generalizing s with
  | nil =>
    obtain rfl := run_nil.mp hrun
    exact ⟨fun _ _ hd => (nomatch hd), fun _ hx => (nomatch hx)⟩
  | append_singleton ms m ih =>
    obtain ⟨t, ht, out, hm⟩ := run_concat.mp hrun
    have hbefore := ih ht (fun m' hm' => hspell m' (List.mem_append_left _ hm')) (List.pairwise_append.mp hclock).1
    exact hbefore.step ht (handles hm) (hspell m (by simp)) hclock

/-- If joins and responses spell ids as their encodings, every signer of the pool was
admitted by a response in time that is signed over the most recent nonce for its id, and is
`GOOD` only after it confirmed. -/
theorem join_sound (hrun : run env (initial cert) ms = .ok s)
    (hspell : ∀ m ∈ ms, m.type = .join ∨ m.type = .response1 → Spelled env m)
    (hclock : ms.Pairwise fun a b => a.clock 0 ≤ b.clock 0) :
    ∀ x ∈ s.signerPool.signers, Admitted env cert ms x := (sound_run hrun hspell hclock).admitted

end SignerPoolManager

namespace Sample

/-- A signature is good when it is the first byte of the message. -/
def joinEnv : Env := { base with doVerify := fun _ msg sig => decide (msg.take 1 = sig) }

/-- Signed for nonces that start with 1. -/
def joinBody (text : Bytes) (now : Nat) : Json :=
  .object [("sID", .string text), ("time", .string (decimal now)), ("cID", .string (ascii "AAAAAAAAAAA=")),
    ("sN", .string (List.replicate 43 65 ++ [61])), ("dhx", .string (List.replicate 64 49)),
    ("dhy", .string (List.replicate 64 49)), ("sig", .string (ascii "AQ==")), ("val", .boolean true)]

def joinMessage (type : MessageType) (text : Bytes) (now : Nat) (nonce : UInt8) : JoinMessage where
  type := type
  body := joinBody text now
  clock _ := now % 2 ^ 64
  clock_lt _ := Nat.mod_lt _ (by decide)
  draw := ⟨List.replicate 32 nonce, [], [], fun _ _ => .ok [1], fun _ => []⟩

def validated (m : JoinMessage) : Bool := okAnd id (MessageValidator.validate (m.clock 0) m.type m.body)

theorem validate_of_validated {m : JoinMessage} (h : validated m = true) :
    MessageValidator.validate (m.clock 0) m.type m.body = .ok true := by
  obtain ⟨b, hb, htrue⟩ := okAnd_eq_true.mp h
  cases htrue
  exact hb

/-- A signer that joins, responds and confirms. -/
def joining : List JoinMessage :=
  [joinMessage .join (ascii "AQEBAQEBAQE=") 100 1, joinMessage .response1 (ascii "AQEBAQEBAQE=") 105 1,
    joinMessage .success (ascii "AQEBAQEBAQE=") 106 1]

def firstJoin : JoinMessage := joinMessage .join (ascii "AQEBAQEBAQE=") 100 1

/-- Twenty seconds later the same id, spelled in another way. -/
def secondJoin : JoinMessage := joinMessage .join (ascii "AQEBAQEBAQF=") 120 2

/-- A response in the second spelling, signed over the first nonce. -/
def lateResponse : JoinMessage := joinMessage .response1 (ascii "AQEBAQEBAQF=") 121 3

def respelled : List JoinMessage := [firstJoin, secondJoin, lateResponse]

instance (m : JoinMessage) : Decidable (SignerPoolManager.Spelled joinEnv m) :=
  inferInstanceAs (Decidable (_ = _))

end Sample

namespace SignerPoolManager

theorem join_sound_good : ∃ s x, run Sample.joinEnv (initial []) Sample.joining = .ok s ∧ x ∈ s.signerPool.signers ∧
    x.status = .good ∧ Admitted Sample.joinEnv [] Sample.joining x := by
  have hrun : okAnd (fun s : SignerPoolManager => s.signerPool.signers.any fun x => decide (x.status = .good))
      (run Sample.joinEnv (initial []) Sample.joining) = true := by decide +kernel
  obtain ⟨s, hs, htest⟩ := okAnd_eq_true.mp hrun
  obtain ⟨x, hx, hgood⟩ := List.any_eq_true.mp htest
  exact ⟨s, x, hs, hx, of_decide_eq_true hgood, join_sound hs (by decide +kernel) (by decide +kernel) x hx⟩

/-- The signer gets into the pool with the nonce of the join before the last one for its id,
which is out of date. -/
theorem join_respelled : ∃ s x, run Sample.joinEnv (initial []) Sample.respelled = .ok s ∧
    (∀ m ∈ Sample.respelled, MessageValidator.validate (m.clock 0) m.type m.body = .ok true) ∧
    Sample.respelled.Pairwise (fun a b => a.clock 0 ≤ b.clock 0) ∧ x ∈ s.signerPool.signers ∧
    ¬ Admitted Sample.joinEnv [] Sample.respelled x := by
  have hrun : okAnd (fun s : SignerPoolManager => !s.signerPool.signers.isEmpty)
      (run Sample.joinEnv (initial []) Sample.respelled) = true := by decide +kernel
  obtain ⟨s, hs, htest⟩ := okAnd_eq_true.mp hrun
  obtain ⟨x, hx⟩ := List.exists_mem_of_ne_nil _ (by simpa using htest)
  have hvalid : Sample.respelled.all Sample.validated = true := by decide +kernel
  refine ⟨s, x, hs, fun m hm => Sample.validate_of_validated (List.all_eq_true.mp hvalid m hm), by decide +kernel, hx, ?_⟩
  rintro ⟨pre, m, post, nonce, time, heq, hr, hid, hissued, _, _, hsig, _⟩
  obtain ⟨rfl, rfl⟩ : pre = [Sample.firstJoin, Sample.secondJoin] ∧ m = Sample.lateResponse := by
    rcases pre with _ | ⟨a, _ | ⟨b, _ | ⟨c, pre⟩⟩⟩
    · obtain ⟨rfl, _⟩ := List.cons.inj heq
      cases hr
    · obtain ⟨rfl, _⟩ := List.cons.inj (List.cons.inj heq).2
      cases hr
    · simp only [Sample.respelled, List.cons_append, List.nil_append, List.cons.injEq] at heq
      exact ⟨by rw [heq.1, heq.2.1], heq.2.2.1.symm⟩
    · simp [Sample.respelled] at heq
  obtain ⟨pre, j, post, t, heq, _, _, hjid, rfl, _, hlast⟩ := hissued
  rcases pre with _ | ⟨a, _ | ⟨b, pre⟩⟩
  · -- the first join is not the last one for the id
    obtain ⟨rfl, rfl⟩ := List.cons.inj heq
    have hroom : okAnd isJoinable (run Sample.joinEnv (initial []) [Sample.firstJoin]) = true := by decide +kernel
    obtain ⟨t, ht, hjoinable⟩ := okAnd_eq_true.mp hroom
    refine hlast [] Sample.secondJoin [] t rfl ht ⟨rfl, hjoinable⟩ (Eq.trans ?_ hjid)
    decide +kernel
  · -- the signature is not over the nonce of the second one
    obtain ⟨rfl, _⟩ := List.cons.inj (List.cons.inj heq).2
    have hwrong : okAnd (fun b => !b) (responseVerifies Sample.joinEnv
        (Sample.secondJoin.entry Sample.joinEnv).mergerNonce Sample.lateResponse.body) = true := by decide +kernel
    obtain ⟨b, hb, hfalse⟩ := okAnd_eq_true.mp hwrong
    rw [hsig] at hb
    cases hb
    cases hfalse
  · simp at heq

variable {env : Env} {cert : Bytes} {ms : List JoinMessage} {m : JoinMessage} {s s' : SignerPoolManager}

variable (env) in
def idOfText (text : Bytes) : Bytes := if text = [] then [] else env.base64.decode text

variable (env) in
/-- The ids of the pool and of the joins under way. -/
def members (s : SignerPoolManager) : Finset Bytes :=
  (s.signerPool.ids ++ s.joinTempTable.keys.map (idOfText env)).toFinset

theorem mem_members {id : Bytes} :
    id ∈ s.members env ↔ id ∈ s.signerPool.ids ∨ ∃ text ∈ s.joinTempTable, idOfText env text = id := by
  simp only [members, List.mem_toFinset, List.mem_append, List.mem_map, AList.mem_keys]

/-- A join adds its id, and no other message adds any. -/
theorem Handles.members_subset (h : Handles env s m s') :
    (s.Issues m ∧ s'.members env ⊆ insert (m.recvId env) (s.members env)) ∨ s'.members env ⊆ s.members env := by
  have htable : ∀ {d : JoinTemporaryData} {text : Bytes}, s.joinTempTable.lookup m.recvIdB64 = some d →
      text = m.recvIdB64 ∨ text ∈ s.joinTempTable → text ∈ s.joinTempTable := by
    rintro d text hd (rfl | htext)
    · exact AList.lookup_isSome.mp (by rw [hd]; rfl)
    · exact htext
  have herase : ∀ {text : Bytes}, text ∈ s.joinTempTable.erase m.recvIdB64 → text ∈ s.joinTempTable :=
    fun htext => (AList.mem_erase.mp htext).2
  cases h with
  | joined hi =>
    refine Or.inl ⟨hi, fun id hid => ?_⟩
    rw [Finset.mem_insert, mem_members]
    rcases mem_members.mp hid with hid | ⟨text, htext, rfl⟩
    · exact Or.inr (Or.inl hid)
    · rcases (AList.mem_insert _).mp htext with rfl | htext
      · exact Or.inl rfl
      · exact Or.inr (Or.inr ⟨text, htext, rfl⟩)
  | @responded d d' pkCert key ht hd _ _ _ _ =>
    refine Or.inr fun id hid => mem_members.mpr ?_
    rcases mem_members.mp hid with hid | ⟨text, htext, rfl⟩
    · rcases List.mem_cons.mp (SignerPool.ids_pushSigner hid) with rfl | hid
      · exact Or.inr ⟨_, htable hd (Or.inl rfl), rfl⟩
      · exact Or.inl hid
    · exact Or.inr ⟨text, htable hd ((AList.mem_insert _).mp htext), rfl⟩
  | certified ht hd _ _ =>
    refine Or.inr fun id hid => mem_members.mpr ?_
    rcases mem_members.mp hid with hid | ⟨text, htext, rfl⟩
    · exact Or.inl hid
    · exact Or.inr ⟨text, htable hd ((AList.mem_insert _).mp htext), rfl⟩
  | succeeded _ =>
    refine Or.inr fun id hid => mem_members.mpr ?_
    rcases mem_members.mp hid with hid | ⟨text, htext, rfl⟩
    · rw [SignerPool.ids_updateStatus] at hid
      exact Or.inl hid
    · exact Or.inr ⟨text, herase htext, rfl⟩
  | left _ hleft =>
    refine Or.inr fun id hid => mem_members.mpr ?_
    rcases mem_members.mp hid with hid | ⟨text, htext, rfl⟩
    · exact Or.inl (SignerPool.ids_removeSigner hid)
    · rcases hleft with rfl | rfl
      · exact Or.inr ⟨text, htext, rfl⟩
      · exact Or.inr ⟨text, herase htext, rfl⟩
  | unchanged _ => exact Or.inr fun _ hid => hid

variable (env cert) in
/-- Whenever a join is answered with a nonce there is room for all ids of the pool and of
the joins under way, with its own. -/
def Roomy (ms : List JoinMessage) : Prop :=
  ∀ pre m post s, ms = pre ++ m :: post → run env (initial cert) pre = .ok s → s.Issues m →
    (insert (m.recvId env) (s.members env)).card ≤ maxSignerNum

theorem card_members_le (hrun : run env (initial cert) ms = .ok s) (hroom : Roomy env cert ms) :
    (s.members env).card ≤ maxSignerNum := by
  induction ms using List.reverseRecOn generalizing s with
  | nil =>
    obtain rfl := run_nil.mp hrun
    exact Nat.zero_le _
  | append_singleton ms m ih =>
    obtain ⟨t, ht, out, hm⟩ := run_concat.mp hrun
    have hbefore := ih ht fun pre m' post s' heq => hroom pre m' (post ++ [m]) s' (by rw [heq]; simp)
    rcases (handles hm).members_subset with ⟨hi, hsub⟩ | hsub
    · exact (Finset.card_le_card hsub).trans (hroom ms m [] t rfl ht hi)
    · exact (Finset.card_le_card hsub).trans hbefore

/-- The pool has room for its signers if joins are answered only while there is room for
all that are under way. -/
theorem signer_capacity (hrun : run env (initial cert) ms = .ok s) (hroom : Roomy env cert ms) :
    s.signerPool.size ≤ maxSignerNum := by
  rw [SignerPool.size_eq]
  refine (Finset.card_le_card fun id hid => ?_).trans (card_members_le hrun hroom)
  exact mem_members.mpr (Or.inl (List.mem_toFinset.mp hid))

theorem signer_capacity_one : ∃ s, run Sample.joinEnv (initial []) Sample.joining = .ok s ∧
    s.signerPool.size ≤ maxSignerNum := by
  have hrun : okAnd (fun _ => true) (run Sample.joinEnv (initial []) Sample.joining) = true := by decide +kernel
  obtain ⟨s, hs, _⟩ := okAnd_eq_true.mp hrun
  refine ⟨s, hs, signer_capacity hs fun pre m post t heq ht hi => ?_⟩
  rcases pre with _ | ⟨a, _ | ⟨b, _ | ⟨c, pre⟩⟩⟩
  · obtain rfl := run_nil.mp ht
    exact (Finset.card_insert_le _ _).trans (by decide)
  · obtain ⟨rfl, _⟩ := List.cons.inj (List.cons.inj heq).2
    cases hi.1
  · obtain ⟨rfl, _⟩ := List.cons.inj (List.cons.inj (List.cons.inj heq).2).2
    cases hi.1
  · simp [Sample.joining] at heq

theorem run_cons {ms : List JoinMessage} {m : JoinMessage} :
    run env s (m :: ms) = .ok s' ↔ ∃ t out, handleMessage env s m = .ok (t, out) ∧ run env t ms = .ok s' := by
  simp only [run, foldlM_cons_eq_ok, map_fst_eq_ok, exists_and_right]

theorem run_append {ms ms' : List JoinMessage} {t : SignerPoolManager} (h : run env s ms = .ok t)
    (h' : run env t ms' = .ok s') : run env s (ms ++ ms') = .ok s' := foldlM_append_eq_ok.mpr ⟨t, h, h'⟩

end SignerPoolManager

namespace Sample

open SignerPoolManager

def joinAt100 (text : Bytes) : JoinMessage := joinMessage .join text 100 1
def responseAt100 (text : Bytes) : JoinMessage := joinMessage .response1 text 100 1

/-- A join at time 100 is under way. -/
def Open (table : AList fun _ : Bytes => JoinTemporaryData) (text : Bytes) : Prop :=
  ∃ d, table.lookup text = some d ∧ d.mergerNonce = Base64.encodePadded (List.replicate 32 1) ∧ d.startTime = 100

theorem Open.insert {table : AList fun _ : Bytes => JoinTemporaryData} {text text' : Bytes} {d : JoinTemporaryData}
    (h : Open table text) (hn : d.mergerNonce = Base64.encodePadded (List.replicate 32 1)) (hs : d.startTime = 100) :
    Open (table.insert text' d) text := by
  by_cases htext : text = text'
  · subst htext
    exact ⟨d, AList.lookup_insert table, hn, hs⟩
  · obtain ⟨d₀, hd₀, h₀⟩ := h
    exact ⟨d₀, (AList.lookup_insert_ne htext).trans hd₀, h₀⟩

/-- Joins are answered as long as the pool itself has room. -/
theorem run_joins (texts : List Bytes) {s : SignerPoolManager} (hs : s.isJoinable = true) :
    ∃ table, SignerPoolManager.run joinEnv s (texts.map joinAt100) = .ok { s with joinTempTable := table } ∧
      ∀ t, t ∈ texts ∨ Open s.joinTempTable t → Open table t := by
  induction texts generalizing s with
  | nil => exact ⟨s.joinTempTable, rfl, by simp⟩
  | cons text texts ih =>
    have hopen : ∀ t, t = text ∨ Open s.joinTempTable t →
        Open (s.joinTempTable.insert text ((joinAt100 text).entry joinEnv)) t := by
      rintro t (rfl | ht)
      · exact ⟨_, AList.lookup_insert _, rfl, rfl⟩
      · exact ht.insert rfl rfl
    have hissues : s.Issues (joinAt100 text) := ⟨rfl, hs⟩
    let joined : SignerPoolManager :=
      { s with joinTempTable := s.joinTempTable.insert text ((joinAt100 text).entry joinEnv) }
    obtain ⟨table, hrest, hall⟩ := ih (s := joined) hs
    refine ⟨table, run_cons.mpr ⟨_, _, handleMessage_join hissues, hrest⟩, fun t ht => hall t ?_⟩
    rcases ht with ht | ht
    · rcases List.mem_cons.mp ht with rfl | ht
      · exact Or.inr (hopen t (Or.inl rfl))
      · exact Or.inl ht
    · exact Or.inr (hopen t (Or.inr ht))

theorem responseVerifies_body (text : Bytes) :
    responseVerifies joinEnv (Base64.encodePadded (List.replicate 32 1)) (joinBody text 100) = .ok true := by
  have htext : responseVerifies joinEnv (Base64.encodePadded (List.replicate 32 1)) (joinBody text 100) =
      responseVerifies joinEnv (Base64.encodePadded (List.replicate 32 1)) (joinBody [] 100) := rfl
  have htrue : okAnd id (responseVerifies joinEnv (Base64.encodePadded (List.replicate 32 1)) (joinBody [] 100)) = true := by
    decide +kernel
  obtain ⟨b, hb, ht⟩ := okAnd_eq_true.mp htrue
  cases ht
  rw [htext, hb]

/-- An open join whose id is spelled as its encoding gets into the pool. -/
theorem handle_response {s : SignerPoolManager} {text : Bytes} (ho : Open s.joinTempTable text)
    (hspell : Spelled joinEnv (responseAt100 text)) : ∃ d out,
    d.mergerNonce = Base64.encodePadded (List.replicate 32 1) ∧ d.startTime = 100 ∧
    handleMessage joinEnv s (responseAt100 text) = .ok ({ s with
      joinTempTable := s.joinTempTable.insert text d
      signerPool := s.signerPool.pushSigner 100 ((responseAt100 text).recvId joinEnv) [] [1] .temporary }, out) := by
  obtain ⟨d, hd, hnonce, hstart⟩ := ho
  have htime : sub64 ((responseAt100 text).clock 0) d.startTime ≤ joinTimeoutSec := by
    rw [hstart]
    exact (by decide : sub64 (100 % 2 ^ 64) 100 ≤ joinTimeoutSec)
  have hd₀ : s.joinTempTable.lookup (responseAt100 text).recvIdB64 = some d := hd
  have hd' : s.joinTempTable.lookup (joinEnv.base64.encode ((responseAt100 text).recvId joinEnv)) = some d :=
    hspell ▸ hd
  have hsig : s.verifySignature joinEnv ((responseAt100 text).recvId joinEnv) (joinBody text 100) = .ok true := by
    rw [verifySignature, hd']
    simp only [hnonce]
    exact responseVerifies_body text
  exact ⟨{ d with signerCert := [], sharedSecretKey := [1], joinLock := false }, _, hnonce, hstart,
    handleMessage_response rfl hd₀ htime hsig rfl (by decide)⟩

/-- Every response to an open join of a new signer makes the pool one larger. -/
theorem run_responses (texts : List Bytes) {s : SignerPoolManager} (ho : ∀ t ∈ texts, Open s.joinTempTable t)
    (hspell : ∀ t ∈ texts, Spelled joinEnv (responseAt100 t))
    (hnew : ∀ t ∈ texts, (responseAt100 t).recvId joinEnv ∉ s.signerPool.ids)
    (hnodup : (texts.map fun t => (responseAt100 t).recvId joinEnv).Nodup) :
    ∃ s', SignerPoolManager.run joinEnv s (texts.map responseAt100) = .ok s' ∧
      s'.signerPool.ids.length = s.signerPool.ids.length + texts.length := by
  induction texts generalizing s with
  | nil => exact ⟨s, rfl, rfl⟩
  | cons text texts ih =>
    obtain ⟨d, out, hnonce, hstart, hm⟩ := handle_response (ho text (by simp)) (hspell text (by simp))
    rw [List.map_cons, List.nodup_cons] at hnodup
    have hids : (s.signerPool.pushSigner 100 ((responseAt100 text).recvId joinEnv) [] [1] .temporary).ids =
        s.signerPool.ids ++ [(responseAt100 text).recvId joinEnv] := SignerPool.ids_pushSigner_new (hnew text (by simp))
    let answered : SignerPoolManager := { s with
      joinTempTable := s.joinTempTable.insert text d
      signerPool := s.signerPool.pushSigner 100 ((responseAt100 text).recvId joinEnv) [] [1] .temporary }
    have hlater : ∀ t ∈ texts, (responseAt100 t).recvId joinEnv ∉ answered.signerPool.ids := by
      intro t ht
      rw [hids, List.mem_append, List.mem_singleton]
      rintro (hmem | heq)
      · exact hnew t (by simp [ht]) hmem
      · exact hnodup.1 (List.mem_map.mpr ⟨t, ht, heq⟩)
    obtain ⟨s', hrest, hlen⟩ := ih (s := answered) (fun t ht => (ho t (by simp [ht])).insert hnonce hstart)
      (fun t ht => hspell t (by simp [ht])) hlater hnodup.2
    refine ⟨s', run_cons.mpr ⟨_, out, hm, hrest⟩, ?_⟩
    rw [hlen, hids, List.length_append, List.length_singleton, List.length_cons]
    omega

def crowdId (n : Nat) : Bytes := [0, 0, 0, 0, 0, 0, 0, UInt8.ofNat n]

/-- Texts of 201 ids. -/
def crowd : List Bytes := (List.range 201).map fun n => Base64.encodePadded (crowdId n)

theorem recvId_crowd (n : Nat) : (responseAt100 (Base64.encodePadded (crowdId n))).recvId joinEnv = crowdId n :=
  Safe.getBytesFromB64_encode rfl

theorem nodup_crowd : (crowd.map fun t => (responseAt100 t).recvId joinEnv).Nodup := by
  rw [crowd, List.map_map]
  refine List.Nodup.map_on (fun a ha b hb heq => ?_) List.nodup_range
  have hids : crowdId a = crowdId b := by
    rw [← recvId_crowd a, ← recvId_crowd b]
    exact heq
  simp only [crowdId, List.cons.injEq, true_and, and_true] at hids
  rw [List.mem_range] at ha hb
  have hmod := congrArg UInt8.toNat hids
  simp only [UInt8.toNat_ofNat'] at hmod
  omega

open MessageValidator in
/-- The id is checked in one row only, so another good one may stand in its place. -/
theorem validated_text {type : MessageType} {text other : Bytes} {now : Nat} {nonce : UInt8}
    (hsID : ∀ row ∈ rows type, row.1 = "sID" → row.2 = (.base64, lengthId))
    (htext : isBase64 text = true ∧ text.length = lengthId) (h : validated (joinMessage type other now nonce) = true) :
    validated (joinMessage type text now nonce) = true := by
  refine okAnd_eq_true.mpr ⟨true, ?_, rfl⟩
  have hother := validate_of_validated h
  rw [validate_eq_allM, allM_eq_true] at hother ⊢
  intro row hrow
  by_cases hkey : row.1 = "sID"
  · obtain ⟨key, kind, len⟩ := row
    cases hkey
    cases hsID _ hrow rfl
    have hne : text ≠ [] := by
      rintro rfl
      cases htext.2
    have hread : Safe.getStringOf (joinMessage type text now nonce).body "sID" = text := rfl
    refine checkRow_eq_true.mpr ⟨?_, ?_⟩
    · simp [isValidType_base64, hread, hne, htext.1]
    · simp [hasValidLength, hread, htext.2]
  · rw [← hother row hrow]
    refine checkRow_congr ?_
    simp only [List.lookup_cons, beq_eq_false_iff_ne.mpr hkey]

theorem validated_crowd : ∀ m ∈ crowd.map joinAt100 ++ crowd.map responseAt100, validated m = true := by
  have hgood : ∀ t ∈ crowd, MessageValidator.isBase64 t = true ∧ t.length = MessageValidator.lengthId := by
    intro t ht
    obtain ⟨n, _, rfl⟩ := List.mem_map.mp ht
    exact ⟨MessageValidator.isBase64_encodePadded _, rfl⟩
  intro m hm
  rcases List.mem_append.mp hm with hm | hm
  · obtain ⟨t, ht, rfl⟩ := List.mem_map.mp hm
    exact validated_text (by decide +kernel) (hgood t ht)
      (show validated (joinMessage .join (ascii "AQEBAQEBAQE=") 100 1) = true by decide +kernel)
  · obtain ⟨t, ht, rfl⟩ := List.mem_map.mp hm
    exact validated_text (by decide +kernel) (hgood t ht)
      (show validated (joinMessage .response1 (ascii "AQEBAQEBAQE=") 100 1) = true by decide +kernel)

end Sample

/-- 201 signers join one after the other and then respond. -/
theorem SignerPoolManager.signer_capacity_exceeded : ∃ ms s, run Sample.joinEnv (initial []) ms = .ok s ∧
    (∀ m ∈ ms, MessageValidator.validate (m.clock 0) m.type m.body = .ok true) ∧
    ms.Pairwise (fun a b => a.clock 0 ≤ b.clock 0) ∧ maxSignerNum < s.signerPool.size := by
  obtain ⟨table, hjoins, hopen⟩ := Sample.run_joins Sample.crowd (s := initial []) (by decide)
  have hspell : ∀ t ∈ Sample.crowd, Spelled Sample.joinEnv (Sample.responseAt100 t) := by
    intro t ht
    obtain ⟨n, _, rfl⟩ := List.mem_map.mp ht
    rw [Spelled, Sample.recvId_crowd]
    rfl
  obtain ⟨s, hresponses, hlen⟩ := Sample.run_responses Sample.crowd
    (s := { initial [] with joinTempTable := table }) (fun t ht => hopen t (Or.inl ht)) hspell
    (fun _ _ => List.not_mem_nil) Sample.nodup_crowd
  refine ⟨_, s, run_append hjoins hresponses,
    fun m hm => Sample.validate_of_validated (Sample.validated_crowd m hm),
    List.pairwise_of_forall_mem_list fun a ha b hb => ?_, ?_⟩
  · have hclock : ∀ m ∈ Sample.crowd.map Sample.joinAt100 ++ Sample.crowd.map Sample.responseAt100, m.clock 0 = 100 := by
      intro m hm
      rcases List.mem_append.mp hm with hm | hm
      all_goals
        obtain ⟨t, _, rfl⟩ := List.mem_map.mp hm
        rfl
    rw [hclock a ha, hclock b hb]
  · rw [SignerPool.size, ← List.length_map SignerEntry.userId]
    exact hlen ▸ (by decide : maxSignerNum < 0 + 201)

end GruutMerger
