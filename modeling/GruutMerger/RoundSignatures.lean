import GruutMerger.RoundTransactions

/-!
# Signatures and the rounds they belong to

Signatures are tied to a round by the height only, and the pool keeps those of
an earlier round. When no round is requested over signatures that are left, and
no signer is accepted twice, every made block holds signatures over its own
facts.
-/
namespace GruutMerger

open ByteText

variable (env : Env) (maker : Maker) (hchain : env.myChainId.length = 8)

namespace Rounds

/-- A signature that was accepted verifies over the facts of the block it is in. -/
def VerifiesIn (accepted : List Accepted) (b : Block) (x : Signature) : Prop :=
  ∃ a ∈ accepted, a.ssig = x ∧ a.pkCert ≠ [] ∧
    env.doVerify a.pkCert (x.signerId ++ b.getSupportSigMessageCommon) x.signerSignature = true

/-- Every signature of a block verifies, and no signer occurs twice. -/
structure Apart (accepted : List Accepted) (b : Block) : Prop where
  verifies : ∀ x ∈ b.ssigs, VerifiesIn env accepted b x
  nodup : (b.ssigs.map (·.signerId)).Nodup

/-- The message is accepted. -/
def accepts (s : Rounds) (pkCertOf : Bytes → Bytes) (body : Json) : Bool :=
  s.sigPool.enabled && s.sigPool.verifySignature env (pkCertOf (Safe.getBytesFromB64 env.base64 body "sID")) body

/-- A round starts without signatures of an earlier one, and a signer is accepted once. -/
def Tidy (s : Rounds) : Task → Prop
  | .request input => input.starts = true → s.sigPool.entries = []
  | .ssig pkCertOf body => s.accepts env pkCertOf body = true →
      Safe.getBytesFromB64 env.base64 body "sID" ∉ s.sigPool.entries.map (·.ssig.signerId)
  | _ => True

/-- Every step of a run is tidy. -/
def TidyRun (s : Rounds) (tasks : List Task) : Prop := Fallible.EachStep (step env maker hchain) (Tidy env) s tasks

instance (s : Rounds) : (task : Task) → Decidable (Tidy env s task)
  | .request _ => inferInstanceAs (Decidable (_ → _))
  | .ssig _ _ => inferInstanceAs (Decidable (_ → _))
  | .tx _ _ _ | .timeout | .check | .job => isTrue trivial

instance (s : Rounds) (tasks : List Task) : Decidable (TidyRun env maker hchain s tasks) :=
  inferInstanceAs (Decidable (Fallible.EachStep _ _ _ _))

/-- The facts of a round, in the order in which a signer signs them. -/
def common (info : BasicBlockInfo) : Bytes :=
  integerBytes 8 info.time ++ info.mergerId ++ info.chainId ++ integerBytes 8 info.height ++ info.transactionRoot

/-- The signature pool collects for the current round, and all it holds is for that round. -/
structure InRound (s : Rounds) : Prop where
  height : s.sigPool.height = s.basicInfo.height
  time : s.sigPool.blockTime = s.basicInfo.time
  root : s.sigPool.txRoot = s.basicInfo.transactionRoot
  merger : s.basicInfo.mergerId = env.myId
  chain : s.basicInfo.chainId = env.myChainId
  verified : ∀ e ∈ s.sigPool.entries, ∃ a ∈ s.accepted, a.ssig = e.ssig ∧ a.pkCert ≠ [] ∧
    env.doVerify a.pkCert (e.ssig.signerId ++ common s.basicInfo) e.ssig.signerSignature = true
  nodup : (s.sigPool.entries.map (·.ssig.signerId)).Nodup
  made : ∀ b ∈ s.made, Apart env s.accepted b

variable {env maker hchain}

theorem inRound_initial : InRound env (initial env hchain) := by
  constructor <;> first | rfl | simp [initial]

theorem Apart.mono {accepted more : List Accepted} {b : Block} (h : Apart env accepted b) (hsub : accepted ⊆ more) :
    Apart env more b where
  verifies x hx := by
    obtain ⟨a, ha, hrest⟩ := h.verifies x hx
    exact ⟨a, hsub ha, hrest⟩
  nodup := h.nodup

theorem InRound.requestSignatures {s : Rounds} {i : RoundInput} (h : InRound env s)
    (ht : i.starts = true → s.sigPool.entries = []) : InRound env (s.requestSignatures env maker hchain i) := by
  by_cases hstart : i.starts = true
  · obtain ⟨info, hinfo, heq⟩ := requestSignatures_starts env maker hchain (s := s) hstart
    have hnil := ht hstart
    rw [heq]
    exact
      { height := rfl
        time := rfl
        root := rfl
        merger := hinfo.mergerId
        chain := hinfo.chainId
        verified := by simp [SignaturePool.setupSigPool, hnil]
        nodup := by simp [SignaturePool.setupSigPool, hnil]
        made := h.made }
  · rw [Rounds.requestSignatures, if_neg hstart]
    exact h

/-- The two builders of the message agree. -/
theorem InRound.message_eq {s : Rounds} (h : InRound env s) (signerId : Bytes) :
    s.sigPool.message env signerId = signerId ++ common s.basicInfo := by
  simp only [SignaturePool.message, common, h.height, h.time, h.root, h.merger, h.chain, List.append_assoc]

theorem InRound.handleSsig {s : Rounds} {pkCertOf : Bytes → Bytes} {body : Json} (h : InRound env s)
    (ht : s.accepts env pkCertOf body = true →
      Safe.getBytesFromB64 env.base64 body "sID" ∉ s.sigPool.entries.map (·.ssig.signerId)) :
    InRound env (s.handleSsig env pkCertOf body) := by
  by_cases hacc : s.accepts env pkCertOf body = true
  · have heq : s.handleSsig env pkCertOf body = { s with
        sigPool := { s.sigPool with entries := s.sigPool.entries ++
          [⟨⟨Safe.getBytesFromB64 env.base64 body "sID", Safe.getBytesFromB64 env.base64 body "sig"⟩,
            s.sigPool.height⟩] }
        accepted := s.accepted ++
          [⟨⟨Safe.getBytesFromB64 env.base64 body "sID", Safe.getBytesFromB64 env.base64 body "sig"⟩,
            pkCertOf (Safe.getBytesFromB64 env.base64 body "sID")⟩] } := if_pos hacc
    have hnew := ht hacc
    simp only [accepts, SignaturePool.verifySignature, Bool.and_eq_true, Bool.not_eq_true',
      List.isEmpty_eq_false_iff, h.message_eq] at hacc
    rw [heq]
    exact
      { height := h.height
        time := h.time
        root := h.root
        merger := h.merger
        chain := h.chain
        verified := by
          intro e he
          rcases List.mem_append.mp he with he | he
          · obtain ⟨a, ha, hrest⟩ := h.verified e he
            exact ⟨a, List.mem_append_left _ ha, hrest⟩
          · obtain rfl := List.mem_singleton.mp he
            exact ⟨_, List.mem_append_right _ (List.mem_singleton.mpr rfl), rfl, hacc.2.1, hacc.2.2⟩
        nodup := by
          rw [List.map_append, List.map_singleton]
          exact List.nodup_append_comm.mp (List.nodup_cons.mpr ⟨hnew, h.nodup⟩)
        made := fun b hb => (h.made b hb).mono (List.subset_append_left _ _) }
  · have heq : s.handleSsig env pkCertOf body = s := if_neg hacc
    rw [heq]
    exact h

theorem InRound.doCreateBlock {s : Rounds} (h : InRound env s) : InRound env s.doCreateBlock :=
  ⟨h.height, h.time, h.root, h.merger, h.chain, h.verified, h.nodup, h.made⟩

/-- A block that is made now holds signatures over the current facts. -/
theorem InRound.apart_makeBlock {s : Rounds} {b : Block} (h : InRound env s)
    (hb : makeBlock env maker s.basicInfo s.signatures s.merkleTree = .ok b) : Apart env s.accepted b := by
  have hmade := makeBlock_eq_ok env hb
  have hsub := SignaturePool.fetchFrom_sublist s.basicInfo.height
    (min s.sigPool.size maxSignatureCollectSize) s.sigPool.entries
  have hcommon : b.getSupportSigMessageCommon = common s.basicInfo := by
    simp only [Block.getSupportSigMessageCommon, common, hmade.time, hmade.mergerId, hmade.chainId,
      hmade.height, hmade.txRoot]
  have hsigs : b.ssigs = s.signatures := hmade.ssigs
  constructor
  · intro x hx
    rw [hsigs] at hx
    obtain ⟨e, he, rfl⟩ := List.mem_map.mp (hsub.subset hx)
    rw [VerifiesIn, hcommon]
    exact h.verified e he
  · rw [hsigs]
    have hids := hsub.map (·.signerId)
    rw [List.map_map] at hids
    exact h.nodup.sublist hids

theorem InRound.job {s t : Rounds} {made : Option Block} (h : InRound env s)
    (hj : s.job env maker = .ok (made, t)) : InRound env t := by
  rcases job_eq_ok env maker hj with ⟨_, b, hb, _, rfl⟩ | ⟨_, _, rfl⟩
  · refine ⟨h.height, h.time, h.root, h.merger, h.chain, by simp [SignaturePool.clear],
      by simp [SignaturePool.clear], fun c hc => ?_⟩
    rcases List.mem_append.mp hc with hc | hc
    · exact h.made c hc
    · obtain rfl := List.mem_singleton.mp hc
      exact h.apart_makeBlock hb
  · exact ⟨h.height, h.time, h.root, h.merger, h.chain, by simp [SignaturePool.clear],
      by simp [SignaturePool.clear], h.made⟩

theorem InRound.step {s t : Rounds} {task : Task} (h : InRound env s) (ht : Tidy env s task)
    (hstep : s.step env maker hchain task = .ok t) : InRound env t := by
  cases task with
  | request input =>
    cases hstep
    exact h.requestSignatures ht
  | ssig pkCertOf body =>
    cases hstep
    exact h.handleSsig ht
  | timeout =>
    cases hstep
    unfold Rounds.timeout
    split
    · exact h.doCreateBlock
    · exact h
  | check =>
    cases hstep
    unfold Rounds.check
    split
    · exact h.doCreateBlock
    · exact h
  | job =>
    simp only [Rounds.step] at hstep
    split at hstep
    · cases hstep
      exact h
    · obtain ⟨r, hr, rfl⟩ := Fallible.map_eq_ok.mp hstep
      exact h.job hr
  | tx runnable records body =>
    obtain ⟨r, _, rfl⟩ := Fallible.map_eq_ok.mp hstep
    exact ⟨h.height, h.time, h.root, h.merger, h.chain, h.verified, h.nodup, h.made⟩

/-- In every tidy run, every signature of every made block verifies over that block's own
facts, and no signer occurs twice. -/
theorem rounds_apart {tasks : List Task} {s : Rounds} (ht : TidyRun env maker hchain (initial env hchain) tasks)
    (hrun : (initial env hchain).run env maker hchain tasks = .ok s) : ∀ b ∈ s.made, Apart env s.accepted b :=
  have hround : InRound env s := ht.invariant (fun hc hi hs => hi.step hc hs) inRound_initial hrun
  hround.made

end Rounds

namespace Sample

/-- A signature verifies when it repeats the eight bytes of the time. -/
def timed : Env := { base with doVerify := fun _ msg sig => decide (sig = (msg.drop 1).take 8) }

theorem timed_chain : timed.myChainId.length = 8 := rfl

def timedBody (signer : UInt8) (time : Nat) : Json :=
  .object [("sID", .string (base.base64.encode [signer])),
    ("sig", .string (base.base64.encode (integerBytes 8 time)))]

def txTask (t : Transaction) : Task := .tx true Storage.empty.disk (t.getJson base)

def ssigTask (signer : UInt8) (time : Nat) : Task := .ssig (fun _ => [1]) (timedBody signer time)

/-- A transaction, a request, one signature, and the block. -/
def signedTasks : List Task := [txTask digestTx, .request oneSigner, ssigTask 1 50, .check, .job]

/-- The signature comes twice. -/
def doubledTasks : List Task :=
  [txTask digestTx, .request oneSigner, ssigTask 1 50, ssigTask 1 50, .check, .job]

/-- The next round is requested before the block of the last one is made. -/
def overtakenTasks : List Task :=
  [txTask digestTx, .request oneSigner, ssigTask 1 50, .check, txTask (tx .digests [[4]]),
   .request { oneSigner with time := 60 }, .job]

end Sample

open Sample in
theorem Rounds.rounds_apart_signed : ∃ s,
    (Rounds.initial timed timed_chain).run timed Sample.maker timed_chain signedTasks = .ok s ∧
    s.made.map (fun b => b.ssigs.map (·.signerId)) = [[[1]]] ∧ ∀ b ∈ s.made, Rounds.Apart timed s.accepted b := by
  have hrun : Fallible.okAnd (fun s : Rounds => decide (s.made.map (fun b => b.ssigs.map (·.signerId)) = [[[1]]]))
      ((Rounds.initial timed timed_chain).run timed Sample.maker timed_chain signedTasks) = true := by decide +kernel
  obtain ⟨s, hs, htest⟩ := Fallible.okAnd_eq_true.mp hrun
  exact ⟨s, hs, by simpa using htest, Rounds.rounds_apart (by decide +kernel) hs⟩

open Sample in
/-- A signer who answers twice is in the block twice; and a request that comes before the
job gives its time to a block with the signatures of the round before. -/
theorem Rounds.rounds_mixed :
    (∃ s, (Rounds.initial timed timed_chain).run timed Sample.maker timed_chain doubledTasks = .ok s ∧
      ∃ b ∈ s.made, ¬ (b.ssigs.map (·.signerId)).Nodup) ∧
    (∃ s, (Rounds.initial timed timed_chain).run timed Sample.maker timed_chain overtakenTasks = .ok s ∧
      ∃ b ∈ s.made, ∃ x ∈ b.ssigs, ¬ Rounds.VerifiesIn timed s.accepted b x) := by
  have hdoubled : Fallible.okAnd (fun s : Rounds => s.made.any fun b => !decide (b.ssigs.map (·.signerId)).Nodup)
      ((Rounds.initial timed timed_chain).run timed Sample.maker timed_chain doubledTasks) = true := by decide +kernel
  have hovertaken : Fallible.okAnd (fun s : Rounds => s.made.any fun b => b.ssigs.any fun x =>
      !timed.doVerify [] (x.signerId ++ b.getSupportSigMessageCommon) x.signerSignature)
      ((Rounds.initial timed timed_chain).run timed Sample.maker timed_chain overtakenTasks) = true := by decide +kernel
  constructor
  · obtain ⟨s, hs, htest⟩ := Fallible.okAnd_eq_true.mp hdoubled
    obtain ⟨b, hb, htest⟩ := List.any_eq_true.mp htest
    exact ⟨s, hs, b, hb, by simpa using htest⟩
  · obtain ⟨s, hs, htest⟩ := Fallible.okAnd_eq_true.mp hovertaken
    obtain ⟨b, hb, htest⟩ := List.any_eq_true.mp htest
    obtain ⟨x, hx, htest⟩ := List.any_eq_true.mp htest
    refine ⟨s, hs, b, hb, x, hx, ?_⟩
    rintro ⟨a, _, _, _, hverify⟩
    -- the certificate plays no part in this environment
    have hsame : timed.doVerify [] (x.signerId ++ b.getSupportSigMessageCommon) x.signerSignature = true := hverify
    rw [hsame] at htest
    cases htest

end GruutMerger
