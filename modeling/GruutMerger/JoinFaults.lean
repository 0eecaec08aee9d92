import GruutMerger.JoinProtocol

/-!
# Joins that are not under way

Two places look up a join without asking whether there is one: a `MSG_SUCCESS` looks
under the text of its id, and the check of a signature under the encoding of the id,
whatever its text. A run does not fault as long as a `MSG_SUCCESS` comes for a join
that is under way and a `MSG_RESPONSE_1` spells its id as the merger does.
-/
namespace GruutMerger

open ByteText Fallible

namespace SignerPoolManager

variable {env : Env} {cert : Bytes} {ms : List JoinMessage} {m : JoinMessage} {s s' : SignerPoolManager} {text : Bytes}

/-- An entry goes with a message under its own text only. -/
theorem Handles.mem_of_mem (h : Handles env s m s') (hs : text ∈ s.joinTempTable)
    (hkeep : m.recvIdB64 = text → m.type ≠ .success ∧ m.type ≠ .leave) : text ∈ s'.joinTempTable := by
  cases h with
  | joined hi => exact AList.mem_insert _ |>.mpr (.inr hs)
  | responded => exact AList.mem_insert _ |>.mpr (.inr hs)
  | certified => exact AList.mem_insert _ |>.mpr (.inr hs)
  | succeeded ht => exact AList.mem_erase.mpr ⟨fun heq => (hkeep heq.symm).1 ht, hs⟩
  | left ht htable =>
    rcases htable with rfl | rfl
    · exact hs
    · exact AList.mem_erase.mpr ⟨fun heq => (hkeep heq.symm).2 ht, hs⟩
  | unchanged => exact hs

/-- An entry comes with a join under its text only. -/
theorem Handles.mem_origin (h : Handles env s m s') (hs : text ∈ s'.joinTempTable) :
    text ∈ s.joinTempTable ∨ m.type = .join ∧ m.recvIdB64 = text := by
  cases h with
  | joined hi =>
    rcases (AList.mem_insert _).mp hs with rfl | hs
    · exact .inr ⟨hi.1, rfl⟩
    · exact .inl hs
  | responded _ hd =>
    rcases (AList.mem_insert _).mp hs with rfl | hs
    · exact .inl (AList.lookup_isSome.mp (by rw [hd]; rfl))
    · exact .inl hs
  | certified _ hd =>
    rcases (AList.mem_insert _).mp hs with rfl | hs
    · exact .inl (AList.lookup_isSome.mp (by rw [hd]; rfl))
    · exact .inl hs
  | succeeded => exact .inl (AList.mem_erase.mp hs).2
  | left _ htable =>
    rcases htable with rfl | rfl
    · exact .inl hs
    · exact .inl (AList.mem_erase.mp hs).2
  | unchanged => exact .inl hs

theorem isTimeout_undefined_iff {now : Nat} : s.isTimeout now text = .error .undefined ↔ text ∉ s.joinTempTable := by
  rw [isTimeout, ← AList.lookup_eq_none]
  cases s.joinTempTable.lookup text with
  | none => simp
  | some d => simp

theorem responseVerifies_ne_undefined {nonce : Bytes} {body : Json} :
    responseVerifies env nonce body ≠ .error .undefined := by
  unfold responseVerifies signedResponse appendDec
  cases stoi (Safe.getStringOf body "time") with
  | none => simp [bind, Except.bind]
  | some v => simp [bind, Except.bind, pure, Except.pure]

theorem verifySignature_undefined_iff {id : Bytes} {body : Json} :
    s.verifySignature env id body = .error .undefined ↔ env.base64.encode id ∉ s.joinTempTable := by
  rw [verifySignature, ← AList.lookup_eq_none]
  cases s.joinTempTable.lookup (env.base64.encode id) with
  | none => simp
  | some d => simpa using responseVerifies_ne_undefined

/-- A message that faults is a `MSG_SUCCESS` without an entry, or a `MSG_RESPONSE_1` with one
under its text and none under the encoding of its id. -/
theorem fault_cases (hkey : ∀ x y, m.draw.getSharedSecretKey x y ≠ .error .undefined)
    (h : handleMessage env s m = .error .undefined) :
    (m.type = .success ∧ m.recvIdB64 ∉ s.joinTempTable) ∨
      (m.type = .response1 ∧ m.recvIdB64 ∈ s.joinTempTable ∧
        env.base64.encode (m.recvId env) ∉ s.joinTempTable) := by
  rw [handleMessage] at h
  split at h
  · split at h <;> cases h
  · rename_i ht
    split at h
    · cases h
    · rename_i d hd
      have hmem : m.recvIdB64 ∈ s.joinTempTable := AList.lookup_isSome.mp (by rw [hd]; rfl)
      refine .inr ⟨ht, hmem, ?_⟩
      rcases bind_eq_error.mp h with htime | ⟨late, _, h⟩
      · exact absurd hmem (isTimeout_undefined_iff.mp htime)
      split at h
      · cases h
      rcases bind_eq_error.mp h with hsig | ⟨verified, _, h⟩
      · exact verifySignature_undefined_iff.mp hsig
      split at h
      · cases h
      rcases bind_eq_error.mp h with hshared | ⟨shared, _, h⟩
      · exact absurd hshared (hkey _ _)
      split at h <;> cases h
  · rename_i ht
    rcases bind_eq_error.mp h with htime | ⟨late, _, h⟩
    · exact .inl ⟨ht, isTimeout_undefined_iff.mp htime⟩
    · split at h <;> cases h
  · cases h
  · cases h

theorem run_concat_error {e : Failure} :
    run env s (ms ++ [m]) = .error e ↔
      run env s ms = .error e ∨ ∃ t, run env s ms = .ok t ∧ handleMessage env t m = .error e := by
  rw [run, List.foldlM_append, bind_eq_error]
  refine or_congr_right (exists_congr fun t => and_congr_right fun _ => ?_)
  rw [List.foldlM_cons, bind_eq_error, map_eq_error]
  constructor
  · rintro (herr | ⟨_, _, hnil⟩)
    · exact herr
    · cases hnil
  · exact .inl

variable (env cert) in
/-- A join under the text was answered with a nonce, and nothing has come under the text
since that could have ended it. -/
def UnderWay (ms : List JoinMessage) (text : Bytes) : Prop :=
  ∃ pre j post s, ms = pre ++ j :: post ∧ run env (initial cert) pre = .ok s ∧ s.Issues j ∧ j.recvIdB64 = text ∧
    ∀ m ∈ post, m.recvIdB64 = text → m.type ≠ .success ∧ m.type ≠ .leave

variable (env cert) in
/-- A `MSG_SUCCESS` comes for a join that is under way. A `MSG_RESPONSE_1` spells its id as
the merger does, or a join with that spelling is under way as well, or none has come in
its own. -/
def Expected (before : List JoinMessage) (m : JoinMessage) : Prop :=
  (m.type = .success → UnderWay env cert before m.recvIdB64) ∧
    (m.type = .response1 → Spelled env m ∨ UnderWay env cert before (env.base64.encode (m.recvId env)) ∨
      ∀ j ∈ before, j.type = .join → j.recvIdB64 ≠ m.recvIdB64)

/-- A join that is under way has its entry. -/
theorem UnderWay.mem (h : UnderWay env cert ms text) (hrun : run env (initial cert) ms = .ok s) :
    text ∈ s.joinTempTable := by
  induction ms using List.reverseRecOn generalizing s with
  | nil =>
    obtain ⟨pre, j, post, _, heq, _⟩ := h
    simp at heq
  | append_singleton ms m ih =>
    obtain ⟨t, ht, out, hm⟩ := run_concat.mp hrun
    obtain ⟨pre, j, post, s₀, heq, hpre, hi, htext, hpost⟩ := h
    rcases List.eq_nil_or_concat post with rfl | ⟨post, z, rfl⟩
    · -- the last message is the join
      obtain ⟨rfl, hj⟩ := List.append_inj' heq rfl
      obtain rfl : m = j := by simpa using hj
      rw [ht] at hpre
      cases hpre
      rw [handleMessage_join hi] at hm
      cases hm
      exact (AList.mem_insert _).mpr (.inl htext.symm)
    · rw [List.concat_eq_append, ← List.cons_append, ← List.append_assoc] at heq
      obtain ⟨rfl, hz⟩ := List.append_inj' heq rfl
      obtain rfl : m = z := by simpa using hz
      have hbefore : UnderWay env cert (pre ++ j :: post) text :=
        ⟨pre, j, post, s₀, rfl, hpre, hi, htext, fun m' hm' => hpost m' (by simp [hm'])⟩
      exact (handles hm).mem_of_mem (ih hbefore ht) (hpost m (by simp))

/-- An entry was made by a join under its text. -/
theorem exists_join_of_mem (hrun : run env (initial cert) ms = .ok s) (hs : text ∈ s.joinTempTable) :
    ∃ j ∈ ms, j.type = .join ∧ j.recvIdB64 = text := by
  induction ms using List.reverseRecOn generalizing s with
  | nil =>
    obtain rfl := run_nil.mp hrun
    exact absurd hs (AList.notMem_empty _)
  | append_singleton ms m ih =>
    obtain ⟨t, ht, out, hm⟩ := run_concat.mp hrun
    rcases (handles hm).mem_origin hs with hmem | hjoin
    · obtain ⟨j, hj, hjoin⟩ := ih ht hmem
      exact ⟨j, List.mem_append_left _ hj, hjoin⟩
    · exact ⟨m, by simp, hjoin⟩

/-- A message that is expected does not fault. -/
theorem Expected.not_fault (h : Expected env cert ms m) (hrun : run env (initial cert) ms = .ok s)
    (hkey : ∀ x y, m.draw.getSharedSecretKey x y ≠ .error .undefined) :
    handleMessage env s m ≠ .error .undefined := by
  intro hfault
  rcases fault_cases hkey hfault with ⟨ht, hnot⟩ | ⟨ht, hmem, hnot⟩
  · exact hnot ((h.1 ht).mem hrun)
  · rcases h.2 ht with hspell | hway | hnone
    · exact hnot (hspell ▸ hmem)
    · exact hnot (hway.mem hrun)
    · obtain ⟨j, hj, hjoin, htext⟩ := exists_join_of_mem hrun hmem
      exact hnone j hj hjoin htext

/-- A run of expected messages reads no entry that is missing. -/
theorem join_never_faults (hkey : ∀ m ∈ ms, ∀ x y, m.draw.getSharedSecretKey x y ≠ .error .undefined)
    (h : ∀ before m after, ms = before ++ m :: after → Expected env cert before m) :
    run env (initial cert) ms ≠ .error .undefined := by
  induction ms using List.reverseRecOn with
  | nil => exact fun herr => nomatch herr
  | append_singleton ms m ih =>
    intro herr
    rcases run_concat_error.mp herr with herr | ⟨t, ht, herr⟩
    · refine ih (fun m' hm' => hkey m' (List.mem_append_left _ hm')) (fun before m' after heq => ?_) herr
      exact h before m' (after ++ [m]) (by rw [heq]; simp)
    · exact (h ms m [] rfl).not_fault ht (hkey m (by simp)) herr

end SignerPoolManager

namespace Sample

/-- A signer that confirms twice. -/
def confirmedTwice : List JoinMessage := joining ++ [joinMessage .success (ascii "AQEBAQEBAQE=") 106 1]

/-- A signer that joins and responds with a spelling of its id that is not the encoding. -/
def respelledJoin : List JoinMessage :=
  [joinMessage .join (ascii "AQEBAQEBAQF=") 100 1, joinMessage .response1 (ascii "AQEBAQEBAQF=") 105 1]

end Sample

namespace SignerPoolManager

theorem underWay_joining : UnderWay Sample.joinEnv [] (Sample.joining.take 2) (ascii "AQEBAQEBAQE=") :=
  ⟨[], _, _, initial [], rfl, rfl, ⟨rfl, by decide +kernel⟩, rfl, by
    intro m hm _
    obtain rfl := List.mem_singleton.mp hm
    exact ⟨by decide, by decide⟩⟩

theorem join_never_faults_joining : run Sample.joinEnv (initial []) Sample.joining ≠ .error .undefined := by
  refine join_never_faults (fun m hm x y => ?_) fun before m after heq => ?_
  · simp only [Sample.joining, List.mem_cons, List.not_mem_nil, or_false] at hm
    rcases hm with rfl | rfl | rfl <;> exact fun h => by cases h
  · rcases before with _ | ⟨a, _ | ⟨b, _ | ⟨c, before⟩⟩⟩
    · obtain ⟨rfl, _⟩ := List.cons.inj heq
      exact ⟨fun ht => absurd ht (by decide), fun ht => absurd ht (by decide)⟩
    · obtain ⟨rfl, hrest⟩ := List.cons.inj heq
      obtain ⟨rfl, _⟩ := List.cons.inj hrest
      exact ⟨fun ht => absurd ht (by decide), fun _ => .inl (by decide +kernel)⟩
    · obtain ⟨rfl, hrest⟩ := List.cons.inj heq
      obtain ⟨rfl, hlast⟩ := List.cons.inj hrest
      obtain ⟨rfl, _⟩ := List.cons.inj hlast
      exact ⟨fun _ => underWay_joining, fun ht => absurd ht (by decide)⟩
    · simp [Sample.joining] at heq

/-- A second `MSG_SUCCESS` reads the entry that the first one erased, and a response in
another spelling reads one that was never made. -/
theorem join_faults :
    (∀ m ∈ Sample.confirmedTwice ++ Sample.respelledJoin,
        MessageValidator.validate (m.clock 0) m.type m.body = .ok true) ∧
      run Sample.joinEnv (initial []) Sample.confirmedTwice = .error .undefined ∧
      run Sample.joinEnv (initial []) Sample.respelledJoin = .error .undefined := by
  have hvalid : (Sample.confirmedTwice ++ Sample.respelledJoin).all Sample.validated = true := by decide +kernel
  exact ⟨fun m hm => Sample.validate_of_validated (List.all_eq_true.mp hvalid m hm),
    failsWith_eq_true.mp (by decide +kernel), failsWith_eq_true.mp (by decide +kernel)⟩

end SignerPoolManager
end GruutMerger
