import GruutMerger.Lib.BigEndian
import GruutMerger.RoundTransactions
import GruutMerger.SignerPool

/-!
# Signers that sign what they are asked to

The request for a signature is filled from the facts of the round, except for its
time, which is read from the clock anew when the request is sent. The pool checks
signatures against the time of the round. A signer that signs the request as it came
is accepted exactly when the clock has not moved on in between.
-/
namespace GruutMerger

open ByteText Fallible

/-- Empty for an unknown signer. -/
def SignerPool.getPkCert (p : SignerPool) (userId : Bytes) : Bytes := ((p.find userId).map SignerEntry.pkCert).getD []

/-- The certificate for a signer: that of the signer pool, or else that of the ledger. -/
def SignaturePool.pkCertOf (pool : SignerPool) (getCertificate : Bytes → Bytes) (signerId : Bytes) : Bytes :=
  if pool.getPkCert signerId = [] then getCertificate signerId else pool.getPkCert signerId

variable (env : Env) (maker : Maker) (hchain : env.myChainId.length = 8)

/-- `sendRequestMessage`; nothing is sent without a signer. -/
def sendRequestMessage (info : BasicBlockInfo) (now : Nat) (signers : List Signer) : Option OutputMsgEntry :=
  if signers = [] then none
  else some
    { type := .reqSsig
      body := .object [("time", .string (decimal now)), ("mID", .string (env.base64.encode info.mergerId)),
        ("cID", .string (env.base64.encode info.chainId)), ("txrt", .string (env.base64.encode info.transactionRoot)),
        ("hgt", .number info.height)]
      receivers := signers.map (·.userId) }

def getNumberOf (j : Json) (key : String) : Nat :=
  match j.find key with
  | some (.number n) => n.toNat
  | _ => 0

/-- What a signer signs that takes the fields of a request as they came. -/
def requestedMessage (signerId : Bytes) (request : Json) : Bytes :=
  signerId ++ integerBytes 8 ((readDigits (Safe.getStringOf request "time")).getD 0) ++
    Safe.getBytesFromB64 env.base64 request "mID" ++ Safe.getBytesFromB64 env.base64 request "cID" ++
    integerBytes 8 (getNumberOf request "hgt") ++ Safe.getBytesFromB64 env.base64 request "txrt"

/-- The answer to a request. -/
def ssigMessage (signerId sig : Bytes) (now : Nat) : Json :=
  .object [("sID", .string (env.base64.encode signerId)), ("time", .string (decimal now)),
    ("sig", .string (env.base64.encode sig))]

variable {env}

theorem integerBytes_eight_inj {m n : Nat} (hm : m < 2 ^ 64) (hn : n < 2 ^ 64) :
    integerBytes 8 m = integerBytes 8 n ↔ m = n :=
  ⟨BigEndian.write_injOn (by omega) (by omega), fun h => by rw [h]⟩

/-- The request has the facts of the round in it and a time of its own. -/
theorem requestedMessage_eq {info : BasicBlockInfo} {now : Nat} {signers : List Signer} {msg : OutputMsgEntry}
    (h : sendRequestMessage env info now signers = some msg) (signerId : Bytes) :
    requestedMessage env signerId msg.body =
      signerId ++ integerBytes 8 now ++ info.mergerId ++ info.chainId ++ integerBytes 8 info.height ++
        info.transactionRoot := by
  unfold sendRequestMessage at h
  split at h
  · cases h
  · cases h
    rw [requestedMessage, Safe.getBytesFromB64_encode rfl, Safe.getBytesFromB64_encode rfl,
      Safe.getBytesFromB64_encode rfl]
    have htime : readDigits (Safe.getStringOf (.object [("time", .string (decimal now)),
        ("mID", .string (env.base64.encode info.mergerId)), ("cID", .string (env.base64.encode info.chainId)),
        ("txrt", .string (env.base64.encode info.transactionRoot)), ("hgt", .number info.height)]) "time") = some now :=
      readDigits_decimal now
    rw [htime]
    rfl

theorem pkCertOf_of_pool {pool : SignerPool} {getCertificate : Bytes → Bytes} {id cert : Bytes}
    (hcert : pool.getPkCert id = cert) (hne : cert ≠ []) : SignaturePool.pkCertOf pool getCertificate id = cert := by
  rw [SignaturePool.pkCertOf, hcert, if_neg hne]

namespace Rounds

/-- The task starts another round. -/
def StartsRound : Task → Prop
  | .request input => input.starts = true
  | _ => False

/-- The facts of a round that the signature pool checks against. -/
def facts (s : Rounds) : Nat × Nat × Bytes := (s.sigPool.height, s.sigPool.blockTime, s.sigPool.txRoot)

variable {maker hchain} {s t : Rounds}

/-- Only a request that starts a round sets the pool up. -/
theorem facts_step {task : Task} (htask : ¬ StartsRound task) (h : s.step env maker hchain task = .ok t) :
    t.facts = s.facts := by
  cases task with
  | request input =>
    have hnot : ¬ input.starts = true := htask
    cases h
    rw [requestSignatures, if_neg hnot]
  | ssig pkCertOf body =>
    cases h
    simp only [handleSsig]
    split <;> rfl
  | timeout =>
    cases h
    unfold Rounds.timeout
    split <;> rfl
  | check =>
    cases h
    unfold Rounds.check
    split <;> rfl
  | job =>
    rw [step] at h
    split at h
    · cases h
      rfl
    · obtain ⟨⟨made, u⟩, hjob, rfl⟩ := map_eq_ok.mp h
      rcases job_eq_ok env maker hjob with ⟨_, b, _, _, rfl⟩ | ⟨_, _, rfl⟩ <;> rfl
  | tx runnable records body =>
    obtain ⟨r, _, rfl⟩ := map_eq_ok.mp h
    rfl

theorem facts_run {tasks : List Task} (htasks : ∀ task ∈ tasks, ¬ StartsRound task)
    (h : s.run env maker hchain tasks = .ok t) : t.facts = s.facts :=
  foldlM_invariant (P := fun u => u.facts = s.facts)
    (fun _ task _ hmem hu hstep => (facts_step (htasks task hmem) hstep).trans hu) rfl h

/-- The message that the pool checks is the one that was asked for, up to the time. -/
theorem message_eq_requested_iff {i : RoundInput} {sendTime : Nat} {msg : OutputMsgEntry} (hstart : i.starts = true)
    (htime : i.time < 2 ^ 64) (hsend : sendTime < 2 ^ 64)
    (hmsg : sendRequestMessage env (s.requestSignatures env maker hchain i).basicInfo sendTime i.signers = some msg)
    (hfacts : t.facts = (s.requestSignatures env maker hchain i).facts) (signerId : Bytes) :
    t.sigPool.message env signerId = requestedMessage env signerId msg.body ↔ i.time = sendTime := by
  obtain ⟨info, hinfo, heq⟩ := requestSignatures_starts env maker hchain (s := s) hstart
  rw [heq] at hfacts hmsg
  obtain ⟨hheight, hblock, hroot⟩ : t.sigPool.height = info.height ∧ t.sigPool.blockTime = info.time ∧
      t.sigPool.txRoot = info.transactionRoot := by simpa [facts, SignaturePool.setupSigPool] using hfacts
  rw [requestedMessage_eq hmsg, SignaturePool.message, hheight, hblock, hroot, hinfo.mergerId, hinfo.chainId,
    hinfo.time]
  simp only [List.append_cancel_right_eq, List.append_cancel_left_eq]
  exact integerBytes_eight_inj htime hsend

variable {i : RoundInput} {sendTime : Nat} {signer : Signer} {pool : SignerPool} {getCertificate : Bytes → Bytes}
  {sign : Bytes → Bytes} {tasks : List Task}

/-- Every request is sent to the signers that were selected. -/
theorem exists_request (hmem : signer ∈ i.signers) (info : BasicBlockInfo) :
    ∃ msg, sendRequestMessage env info sendTime i.signers = some msg ∧ signer.userId ∈ msg.receivers := by
  have hne : i.signers ≠ [] := List.ne_nil_of_mem hmem
  exact ⟨_, if_neg hne, List.mem_map_of_mem hmem⟩

theorem verifySignature_ssig (hcert : pool.getPkCert signer.userId = signer.pkCert) (hne : signer.pkCert ≠ [])
    (hsign : ∀ m m', env.doVerify signer.pkCert m' (sign m) = true ↔ m' = m) (m : Bytes) (now : Nat) :
    t.sigPool.verifySignature env (SignaturePool.pkCertOf pool getCertificate signer.userId)
        (ssigMessage env signer.userId (sign m) now) = true ↔
      t.sigPool.message env signer.userId = m := by
  rw [SignaturePool.verifySignature, pkCertOf_of_pool hcert hne, Safe.getBytesFromB64_encode rfl,
    Safe.getBytesFromB64_encode rfl, Bool.and_eq_true, hsign]
  simp [hne]

/-- A selected signer whose certificate the signer pool has gets the request, and its
signature over what it was asked is accepted, as long as no other round starts, exactly
when the request was sent in the second of the round. The clock does not go back. -/
theorem honest_signer_accepted_iff (hstart : i.starts = true) (hclock : i.time ≤ sendTime) (hsend : sendTime < 2 ^ 64)
    (hmem : signer ∈ i.signers) (hcert : pool.getPkCert signer.userId = signer.pkCert) (hne : signer.pkCert ≠ [])
    (hsign : ∀ m m', env.doVerify signer.pkCert m' (sign m) = true ↔ m' = m)
    (htasks : ∀ task ∈ tasks, ¬ StartsRound task)
    (hrun : (s.requestSignatures env maker hchain i).run env maker hchain tasks = .ok t) (now : Nat) :
    ∃ msg, sendRequestMessage env (s.requestSignatures env maker hchain i).basicInfo sendTime i.signers = some msg ∧
      signer.userId ∈ msg.receivers ∧
      (t.sigPool.verifySignature env (SignaturePool.pkCertOf pool getCertificate signer.userId)
          (ssigMessage env signer.userId (sign (requestedMessage env signer.userId msg.body)) now) = true ↔
        i.time = sendTime) := by
  obtain ⟨msg, hmsg, hreceiver⟩ : ∃ msg, sendRequestMessage env (s.requestSignatures env maker hchain i).basicInfo
      sendTime i.signers = some msg ∧ signer.userId ∈ msg.receivers := exists_request hmem _
  refine ⟨msg, hmsg, hreceiver, ?_⟩
  rw [verifySignature_ssig hcert hne hsign]
  exact message_eq_requested_iff hstart (by omega) hsend hmsg (facts_run htasks hrun) signer.userId

end Rounds

namespace Sample

/-- A signature is the message itself. -/
def plainEnv : Env := { base with doVerify := fun _ msg sig => decide (msg = sig) }

/-- The one signer that `oneSigner` selects. -/
def theSigner : Signer := ⟨[1], [1]⟩

theorem theSigner_mem : theSigner ∈ oneSigner.signers := by simp [theSigner, oneSigner]

theorem plainEnv_doVerify (m m' : Bytes) : plainEnv.doVerify theSigner.pkCert m' (id m) = true ↔ m' = m := by
  simp [plainEnv]

def onePool : SignerPool := ⟨[⟨[1], [1], [], 0, .good⟩], by decide⟩

end Sample

open Sample in
/-- Within one second the signer is accepted. -/
theorem Rounds.honest_signer_accepted_same_second :
    let s := (Rounds.initial plainEnv rfl).requestSignatures plainEnv Sample.maker rfl oneSigner
    ∃ msg, sendRequestMessage plainEnv s.basicInfo 50 oneSigner.signers = some msg ∧
      theSigner.userId ∈ msg.receivers ∧
      s.sigPool.verifySignature plainEnv (SignaturePool.pkCertOf onePool (fun _ => []) theSigner.userId)
        (ssigMessage plainEnv theSigner.userId (id (requestedMessage plainEnv theSigner.userId msg.body)) 51) = true := by
  intro s
  have htasks : ∀ task ∈ ([] : List Task), ¬ StartsRound task := by simp
  obtain ⟨msg, hmsg, hreceiver, haccepted⟩ := Rounds.honest_signer_accepted_iff (s := Rounds.initial plainEnv rfl)
    (i := oneSigner) rfl (le_refl 50) (by decide) theSigner_mem (show onePool.getPkCert [1] = [1] from rfl) (by decide)
    plainEnv_doVerify htasks rfl 51
  exact ⟨msg, hmsg, hreceiver, haccepted.mpr rfl⟩

open Sample in
/-- A second later it is not. -/
theorem Rounds.honest_signer_rejected_next_second :
    let s := (Rounds.initial plainEnv rfl).requestSignatures plainEnv Sample.maker rfl oneSigner
    ∃ msg, sendRequestMessage plainEnv s.basicInfo 51 oneSigner.signers = some msg ∧
      theSigner.userId ∈ msg.receivers ∧
      ¬ s.sigPool.verifySignature plainEnv (SignaturePool.pkCertOf onePool (fun _ => []) theSigner.userId)
        (ssigMessage plainEnv theSigner.userId (id (requestedMessage plainEnv theSigner.userId msg.body)) 51) = true := by
  intro s
  obtain ⟨msg, hmsg, hreceiver⟩ : ∃ msg, sendRequestMessage plainEnv s.basicInfo 51 oneSigner.signers = some msg ∧
      theSigner.userId ∈ msg.receivers := Rounds.exists_request theSigner_mem _
  refine ⟨msg, hmsg, hreceiver, fun haccepted => ?_⟩
  rw [Rounds.verifySignature_ssig (show onePool.getPkCert theSigner.userId = theSigner.pkCert from rfl) (by decide)
    plainEnv_doVerify] at haccepted
  have htime := (Rounds.message_eq_requested_iff rfl (by decide) (by decide) hmsg rfl _).mp haccepted
  exact absurd htime (by decide)

end GruutMerger
