import GruutMerger.RoundSignatures

/-!
# The merger's own blocks

A block that was made is delivered to the merger's own block processor like any
other. Transactions are not checked when they come in, so the early check of the
block is the first to look at them. When every transaction that enters the pool
is valid, the merger accepts all of its blocks.
-/
namespace GruutMerger

open ByteText

variable (env : Env) (maker : Maker) (hchain : env.myChainId.length = 8)

/-- The message of `generateBlock`. -/
def blockMessage (b : Block) : Except Failure Json := do
  let body ← b.getBlockBodyJson env
  let txs ← body.field "tx"
  return .object [("blockraw", .string (env.base64.encode b.blockRaw)),
    ("mID", .string (env.base64.encode env.myId)), ("tx", txs)]

/-- The block that the merger's own block processor reads. -/
def deliver (b : Block) : Except Failure (Option Block) := do
  let body ← blockMessage env b
  Block.initializeBody env body

theorem deliver_eq {b : Block} (h : b.transactions.length ≤ maxMerkleLeaves) :
    deliver env b = Block.initializeRaw env b.blockRaw (b.getBlockTXsAsJson env) := by
  have hle : b.transactions.length ≤ merkleTreeSize := by
    simp only [merkleTreeSize, maxMerkleLeaves] at h ⊢
    omega
  have hbody := (Block.getBlockBodyJson_eq_ok env).mpr ⟨hle, rfl⟩
  have hraw : Safe.getBytesFromB64 env.base64 (.object
      [("blockraw", .string (env.base64.encode b.blockRaw)), ("mID", .string (env.base64.encode env.myId)),
        ("tx", b.getBlockTXsAsJson env)]) "blockraw" = b.blockRaw := Safe.getBytesFromB64_encode rfl
  have htxs : (Json.object (b.bodyFields env)).field "tx" = .ok (b.getBlockTXsAsJson env) := rfl
  have hfield : (Json.object [("blockraw", .string (env.base64.encode b.blockRaw)),
      ("mID", .string (env.base64.encode env.myId)), ("tx", b.getBlockTXsAsJson env)]).field "tx" =
        .ok (b.getBlockTXsAsJson env) := rfl
  simp only [deliver, blockMessage, hbody, htxs, Block.initializeBody, hraw, hfield, bind, Except.bind, pure,
    Except.pure]

/-- A transaction that the early check accepts and that can be written and read. -/
structure Sendable (tx : Transaction) : Prop where
  valid : tx.isValid env (env.getCert tx.requestorId) = true
  time_lt : tx.sentTime < 2 ^ 63

/-- The facts of a round whose block is accepted. -/
structure SoundInfo (info : BasicBlockInfo) : Prop where
  merger : info.mergerId = env.myId
  time_lt : info.time < 2 ^ 63
  height_lt : info.height < 2 ^ 63
  sendable : ∀ tx ∈ info.transactions, Sendable env tx
  le : info.transactions.length ≤ maxMerkleLeaves
  root : (Block.calcMerkleTreeNode env info.transactions).getLast? = some info.transactionRoot

/-- The key of the merger signs, and its certificate is known. -/
structure OwnKey : Prop where
  cert : env.getCert env.myId ≠ []
  signs : ∀ msg, maker.doSign msg ≠ []
  verifies : ∀ msg, env.doVerify (env.getCert env.myId) msg (maker.doSign msg) = true

variable {env maker}

/-- A block made from such facts is read again and passes the early check. -/
theorem SoundInfo.accepted {info : BasicBlockInfo} {ssigs : List Signature} {nodes : List Bytes} {b : Block}
    (h : SoundInfo env info) (hk : OwnKey env maker) (hb : Made env maker info ssigs nodes b) (hs : ssigs ≠ [])
    (hc : Block.Carried env maker (b.getBlockHeaderJson env)) :
    ∃ c, deliver env b = .ok (some c) ∧ c.isValidEarly env = true := by
  have hsig : b.signature ≠ [] := hb.signature ▸ hk.signs _
  have hroot := h.root
  rw [← hb.transactions, ← hb.txRoot] at hroot
  generalize htree : Block.calcMerkleTreeNode env b.transactions = tree at hroot
  have hread := hb.read env ⟨h.time_lt, h.height_lt, fun tx htx => (h.sendable tx htx).time_lt⟩ hs hsig hc htree
  rw [deliver_eq env (hb.transactions ▸ h.le)]
  refine ⟨_, hread, hb.isValidEarly env hsig hc (h.merger ▸ hk.cert) (h.merger ▸ hk.verifies) rfl rfl rfl hroot ?_⟩
  intro tx htx
  exact (h.sendable tx (hb.transactions ▸ htx)).valid

/-- The certificate transaction is the merger's own and passes its own check. -/
theorem sendable_genCertificateTransaction (hk : OwnKey env maker) {time : Nat} {signers : List Signer}
    (ht : time < 2 ^ 63) (hs : signers ≠ []) : Sendable env (genCertificateTransaction env maker time signers) where
  valid := by
    have hcontent : (genCertificateTransaction env maker time signers).contentList ≠ [] := by
      obtain ⟨s, rest, rfl⟩ := List.exists_cons_of_ne_nil hs
      simp [genCertificateTransaction]
    have hid : (genCertificateTransaction env maker time signers).id =
        (genCertificateTransaction env maker time signers).buildTxId env := rfl
    have hsigned := hk.verifies (genCertificateTransaction env maker time signers).getBeforeDigestByte
    have hsig : (genCertificateTransaction env maker time signers).signature =
        maker.doSign (genCertificateTransaction env maker time signers).getBeforeDigestByte := rfl
    have hreq : (genCertificateTransaction env maker time signers).requestorId = env.myId := rfl
    have hne := hk.signs (genCertificateTransaction env maker time signers).getBeforeDigestByte
    simp only [Transaction.isValid, Bool.and_eq_true, Bool.not_eq_true', List.isEmpty_eq_false_iff,
      decide_eq_true_eq]
    rw [hreq, hsig]
    exact ⟨⟨⟨⟨hcontent, hne⟩, hk.cert⟩, hid⟩, hsigned⟩
  time_lt := ht

/-- The time of a validated message is made of digits, so it is read as one that can be
written again. -/
theorem sentTime_lt_of_validate {now : Nat} {body : Json} {tx : { tx : Transaction // tx.id.length = 32 }}
    (hv : MessageValidator.validate now .tx body = .ok true) (h : readTx env body = .ok tx) :
    tx.1.sentTime < 2 ^ 63 := by
  obtain ⟨ok, hset⟩ := readTx_eq_ok env h
  rcases Transaction.sentTime_of_setJson env hset with heq | htime
  · rw [heq]
    decide
  · have hrule : (.tx, "time", .timestamp, MessageValidator.notLimited) ∈ MessageValidator.validFilter := by
      simp [MessageValidator.validFilter]
    have hkind := (MessageValidator.validate_true hv hrule).1
    simp only [MessageValidator.isValidType, MessageValidator.isValidTypeBy, MessageValidator.isDecimal, Except.ok.injEq, Bool.and_eq_true,
      List.all_eq_true] at hkind
    exact Safe.parseDecimal_lt hkind.2 htime

namespace Rounds

variable (env maker)

/-- The message gets its transaction into the pool. -/
def Enters (s : Rounds) (runnable : Bool) (records : Records) (body : Json) : Prop :=
  ∃ q, handleTx env runnable records s.txPool body = .ok (.pushed true, q)

/-- Messages are validated, and what enters the pool is a valid transaction; rounds start
without signatures of an earlier one, at a time and height that can be read. -/
def OwnTask (s : Rounds) : Task → Prop
  | .request i => i.starts = true →
      s.sigPool.entries = [] ∧ i.time < 2 ^ 63 ∧ i.certTime < 2 ^ 63 ∧ i.height < 2 ^ 63
  | .tx runnable records body => (∃ now, MessageValidator.validate now .tx body = .ok true) ∧
      (s.Enters env runnable records body → ∀ tx, readTx env body = .ok tx →
        tx.1.isValid env (env.getCert tx.1.requestorId) = true)
  | _ => True

def OwnRun (s : Rounds) (tasks : List Task) : Prop :=
  Fallible.EachStep (step env maker hchain) (OwnTask env) s tasks

structure Accepting (s : Rounds) : Prop where
  pool : ∀ tx ∈ s.txPool.entries, Sendable env tx
  tree : s.merkleTree.length = merkleTreeSize
  height : s.sigPool.height = s.basicInfo.height
  heights : ∀ e ∈ s.sigPool.entries, e.height = s.basicInfo.height
  info : SoundInfo env s.basicInfo ∨ (s.sigPool.enabled = false ∧ s.sigPool.entries = [])
  made : ∀ b ∈ s.made, ∃ info ssigs nodes, SoundInfo env info ∧ ssigs ≠ [] ∧ Made env maker info ssigs nodes b

variable {env maker hchain}

theorem accepting_initial : Accepting env maker (initial env hchain) where
  pool := by simp [initial, TransactionPool.empty]
  tree := List.length_replicate
  height := rfl
  heights := by simp [initial]
  info := Or.inr ⟨rfl, rfl⟩
  made := by simp [initial]

/-- The facts that a request finds in a pool of valid transactions. -/
theorem Starts.sound {s : Rounds} {i : RoundInput} {info : BasicBlockInfo} (h : Starts env maker s i info)
    (hk : OwnKey env maker) (hs : Accepting env maker s) (ht : i.time < 2 ^ 63) (hct : i.certTime < 2 ^ 63)
    (hh : i.height < 2 ^ 63) : SoundInfo env info where
  merger := h.mergerId
  time_lt := h.time ▸ ht
  height_lt := h.height ▸ hh
  sendable := by
    intro tx htx
    rw [h.transactions] at htx
    have hmem := i.fetched_subset env maker s.txPool htx
    unfold RoundInput.withCertificates at hmem
    split at hmem
    · exact hs.pool tx hmem
    · rename_i hnew
      rcases TransactionPool.mem_entries_push _ _ hmem with ⟨rfl, _⟩ | hmem
      · exact sendable_genCertificateTransaction hk hct hnew
      · exact hs.pool tx hmem
  le := by
    rw [h.transactions]
    refine (TransactionPool.length_fetchFrom_le _ _ _).trans ?_
    simp only [maxCollectTransactionSize, maxMerkleLeaves]
    omega
  root := by
    rw [h.root, h.transactions]
    have heq : i.tree env maker s.txPool s.merkleTree =
        Block.calcMerkleTreeNode env (i.fetched env maker s.txPool) :=
      MerkleTree.generate_eq_prepared env hs.tree _
    have hlen := Block.length_calcMerkleTreeNode env (i.fetched env maker s.txPool)
    rw [heq]
    generalize Block.calcMerkleTreeNode env (i.fetched env maker s.txPool) = nodes at hlen
    cases nodes with
    | nil => exact absurd hlen (by decide)
    | cons n ns => rfl

theorem Accepting.requestSignatures {s : Rounds} {i : RoundInput} (h : Accepting env maker s) (hk : OwnKey env maker)
    (ht : OwnTask env s (.request i)) : Accepting env maker (s.requestSignatures env maker hchain i) := by
  by_cases hstart : i.starts = true
  · obtain ⟨info, hinfo, heq⟩ := requestSignatures_starts env maker hchain (s := s) hstart
    obtain ⟨hnil, htime, hcert, hheight⟩ := ht hstart
    rw [heq]
    exact
      { pool := by simp [TransactionPool.clear, TransactionPool.empty]
        tree := by
          rw [RoundInput.tree, MerkleTree.length_generate]
          exact h.tree
        height := rfl
        heights := by simp [SignaturePool.setupSigPool, hnil]
        info := Or.inl (hinfo.sound hk h htime hcert hheight)
        made := h.made }
  · rw [Rounds.requestSignatures, if_neg hstart]
    exact h

theorem Accepting.handleSsig {s : Rounds} {pkCertOf : Bytes → Bytes} {body : Json} (h : Accepting env maker s) :
    Accepting env maker (s.handleSsig env pkCertOf body) := by
  simp only [Rounds.handleSsig]
  split
  · rename_i hacc
    refine { h with heights := fun e he => ?_, info := ?_ }
    · rcases List.mem_append.mp he with he | he
      · exact h.heights e he
      · obtain rfl := List.mem_singleton.mp he
        exact h.height
    · rcases h.info with hinfo | ⟨hoff, _⟩
      · exact Or.inl hinfo
      · simp [hoff] at hacc
  · exact h

theorem Accepting.doCreateBlock {s : Rounds} (h : Accepting env maker s) : Accepting env maker s.doCreateBlock :=
  { h with info := h.info.imp_right fun hidle => ⟨rfl, hidle.2⟩ }

/-- A block is only made with signatures for the current height. -/
theorem Accepting.signatures_ne {s : Rounds} (h : Accepting env maker s) (henough : Enough s.sigPool) :
    s.signatures ≠ [] := by
  have hpos : 1 ≤ s.sigPool.entries.length := henough.1
  obtain ⟨e, he⟩ := List.exists_mem_of_length_pos hpos
  refine SignaturePool.fetchFrom_ne_nil ?_ ⟨e, he, h.heights e he⟩
  exact Nat.le_min.mpr ⟨hpos, by decide⟩

theorem Accepting.job {s t : Rounds} {made : Option Block} (h : Accepting env maker s)
    (hj : s.job env maker = .ok (made, t)) : Accepting env maker t := by
  have hcleared : SoundInfo env s.basicInfo ∨ (s.sigPool.enabled = false ∧ s.sigPool.clear.entries = []) :=
    h.info.imp_right fun hidle => ⟨hidle.1, rfl⟩
  rcases job_eq_ok env maker hj with ⟨henough, b, hb, _, rfl⟩ | ⟨_, _, rfl⟩
  · refine { h with heights := by simp [SignaturePool.clear], info := hcleared, made := fun c hc => ?_ }
    rcases List.mem_append.mp hc with hc | hc
    · exact h.made c hc
    · obtain rfl := List.mem_singleton.mp hc
      have hne := h.signatures_ne henough
      rcases h.info with hinfo | ⟨_, hnil⟩
      · exact ⟨_, _, _, hinfo, hne, makeBlock_eq_ok env hb⟩
      · exact absurd henough.1 (by simp [SignaturePool.size, hnil, minSignatureCollectSize])
  · exact { h with heights := by simp [SignaturePool.clear], info := hcleared }

theorem Accepting.handleTx {s : Rounds} {runnable : Bool} {records : Records} {body : Json}
    {r : TxVerdict × TransactionPool} (h : Accepting env maker s) (ht : OwnTask env s (.tx runnable records body))
    (hr : GruutMerger.handleTx env runnable records s.txPool body = .ok r) :
    Accepting env maker { s with txPool := r.2 } := by
  obtain ⟨verdict, q⟩ := r
  refine { h with pool := fun u hu => ?_ }
  rcases handleTx_cases env hr with ⟨_, rfl⟩ | ⟨tx, htx, _, _, _, _, rfl, rfl⟩
  · exact h.pool u hu
  · rcases TransactionPool.mem_entries_push _ _ hu with ⟨rfl, hnew⟩ | hu
    · obtain ⟨⟨now, hvalidated⟩, hvalid⟩ := ht
      rw [hnew] at hr
      exact ⟨hvalid ⟨_, hr⟩ tx htx, sentTime_lt_of_validate hvalidated htx⟩
    · exact h.pool u hu

theorem Accepting.step {s t : Rounds} {task : Task} (h : Accepting env maker s) (hk : OwnKey env maker)
    (ht : OwnTask env s task) (hstep : s.step env maker hchain task = .ok t) : Accepting env maker t := by
  cases task with
  | request input =>
    cases hstep
    exact h.requestSignatures hk ht
  | ssig pkCertOf body =>
    cases hstep
    exact h.handleSsig
  | timeout =>
    cases hstep
    unfold Rounds.timeout
    split
    · exact h.doCreateBlock
    · exact h
  | check =>
    cases hstep
    unfold Rounds.check
    split
    · exact h.doCreateBlock
    · exact h
  | job =>
    simp only [Rounds.step] at hstep
    split at hstep
    · cases hstep
      exact h
    · obtain ⟨r, hr, rfl⟩ := Fallible.map_eq_ok.mp hstep
      exact h.job hr
  | tx runnable records body =>
    obtain ⟨r, hr, rfl⟩ := Fallible.map_eq_ok.mp hstep
    exact h.handleTx ht hr

end Rounds

namespace Sample

/-- A transaction of a client, with any signature. -/
def clientTx (sig : Bytes) : Transaction :=
  let t : Transaction :=
    { sentTime := 5, requestorId := List.replicate 8 7, type := .digests, signature := sig, contentList := [[3]] }
  { t with id := t.buildTxId base }

theorem length_clientTx (sig : Bytes) : (clientTx sig).id.length = 32 := length_bytesToArray base 32 _

def clientInfo (sig : Bytes) : BasicBlockInfo := info base [clientTx sig] (by simp [length_clientTx])

/-- The environment that reads the block of the client's transaction. -/
def clientEnv (sig : Bytes) : Env := reader base (clientInfo sig)

theorem client_chain (sig : Bytes) : (clientEnv sig).myChainId.length = 8 := rfl

def clientTask (sig : Bytes) : Task := .tx true Storage.empty.disk ((clientTx sig).getJson base)

/-- The message comes in, and a round is made with it. -/
def clientTasks (sig : Bytes) : List Task :=
  [clientTask sig, .request oneSigner, .ssig (fun _ => [1]) (ssigBody 1), .check, .job]

theorem read_client (sig : Bytes) :
    readTx (clientEnv sig) ((clientTx sig).getJson base) = .ok ⟨clientTx sig, length_clientTx sig⟩ := by
  have hset : Transaction.setJson (clientEnv sig) {} ((clientTx sig).getJson base) = .ok (true, clientTx sig) :=
    Transaction.setJson_getJson (clientEnv sig) (clientTx sig) {} (length_clientTx sig) (by simp [clientTx])
  exact readTx_eq_of_setJson (clientEnv sig) (length_clientTx sig) hset

/-- Nothing is asked of the signature. -/
theorem handle_client (sig : Bytes) :
    handleTx (clientEnv sig) true Storage.empty.disk .empty ((clientTx sig).getJson base) =
      .ok (.pushed true, (TransactionPool.empty.push (clientTx sig) (length_clientTx sig)).2) := by
  unfold handleTx
  rw [read_client]
  rfl

/-- The state in which the round is requested. -/
def clientWaiting (sig : Bytes) : Rounds :=
  { Rounds.initial (clientEnv sig) (client_chain sig) with
    txPool := (TransactionPool.empty.push (clientTx sig) (length_clientTx sig)).2 }

theorem fetched_client (sig : Bytes) :
    oneSigner.fetched (clientEnv sig) Sample.maker (clientWaiting sig).txPool = [clientTx sig] := by
  have hone : toInt32 1 = 1 := rfl
  simp [RoundInput.fetched, RoundInput.withCertificates, RoundInput.newSigners, oneSigner, isNewSigner,
    clientWaiting, TransactionPool.push, TransactionPool.empty, TransactionPool.fetchLastN,
    TransactionPool.visible, TransactionPool.fetchFrom, TransactionPool.size, maxCollectTransactionSize, hone]

theorem starts_client {sig : Bytes} {i : BasicBlockInfo}
    (h : Rounds.Starts (clientEnv sig) Sample.maker (clientWaiting sig) oneSigner i) : i = clientInfo sig := by
  have hroot : i.transactionRoot = (clientInfo sig).transactionRoot := by
    have htree : oneSigner.tree (clientEnv sig) Sample.maker (clientWaiting sig).txPool (clientWaiting sig).merkleTree =
        Block.calcMerkleTreeNode (clientEnv sig) [clientTx sig] := by
      rw [RoundInput.tree, fetched_client, Block.calcMerkleTreeNode]
      exact congrArg (fun t => MerkleTree.generate (clientEnv sig) t _) rfl
    rw [h.root, htree, clientEnv, calcMerkleTreeNode_reader]
    simp only [clientInfo, info]
  have hprev : (clientEnv sig).base64.encode (genesisBlockPrevId base) = (clientInfo sig).prevIdB64 := by
    show base.base64.encode (genesisBlockPrevId base) = (clientInfo []).prevIdB64
    decide +kernel
  exact BasicBlockInfo.ext h.time h.mergerId h.chainId h.height hroot (h.prevIdB64.trans hprev)
    (h.prevHashB64.trans hprev) (h.transactions.trans (fetched_client sig))

/-- One signature is asked for and comes in. -/
theorem one_signature {j i : BasicBlockInfo} {p : TransactionPool} {time : Nat} {root : Bytes} {tree : List Bytes}
    {b : Block} (hchain : (reader base j).myChainId.length = 8) (hh : i.height = 1)
    (hb : makeBlock (reader base j) Sample.maker i [good 1] tree = .ok b) :
    ∃ s : Rounds, s.made = [b] ∧
      Rounds.run (reader base j) Sample.maker hchain ⟨p, ⟨[], true, 1, time, root⟩, tree, i, true, 1, 0, [], []⟩
        [.ssig (fun _ => [1]) (ssigBody 1), .check, .job] = .ok s := by
  let ready : Rounds := ⟨p, ⟨[⟨good 1, 1⟩], false, 1, time, root⟩, tree, i, false, 1, 1, [⟨good 1, [1]⟩], []⟩
  have hsigs : ready.signatures = [good 1] := by
    simp [Rounds.signatures, ready, SignaturePool.fetchN, SignaturePool.fetchFrom, SignaturePool.size, hh]
  have hjob : ready.job (reader base j) Sample.maker =
      .ok (some b, { ready with jobs := 0, sigPool := ready.sigPool.clear, made := [b] }) := by
    have henough : Rounds.Enough ready.sigPool := ⟨Nat.le_refl 1, Nat.succ_le_succ (Nat.zero_le 19)⟩
    simp only [Rounds.job, if_pos henough, hsigs]
    rw [show ready.basicInfo = i from rfl, show ready.merkleTree = tree from rfl, hb]
    rfl
  refine ⟨{ ready with jobs := 0, sigPool := ready.sigPool.clear, made := [b] }, rfl, ?_⟩
  refine Fallible.foldlM_cons_eq_ok.mpr ⟨_, rfl, Fallible.foldlM_cons_eq_ok.mpr ⟨ready, rfl,
    Fallible.foldlM_cons_eq_ok.mpr ⟨_, ?_, rfl⟩⟩⟩
  exact congrArg (Except.map Prod.snd) hjob

/-- The round makes a block of the transaction. -/
theorem client_run (sig : Bytes) : ∃ s b nodes,
    (Rounds.initial (clientEnv sig) (client_chain sig)).run (clientEnv sig) Sample.maker (client_chain sig)
      (clientTasks sig) = .ok s ∧
    s.made = [b] ∧ Made (clientEnv sig) Sample.maker (clientInfo sig) [good 1] nodes b := by
  obtain ⟨i, hstarts, hrequest⟩ := Rounds.requestSignatures_starts (clientEnv sig) Sample.maker (client_chain sig)
    (s := clientWaiting sig) (i := oneSigner) rfl
  obtain rfl := starts_client hstarts
  generalize oneSigner.tree (clientEnv sig) Sample.maker (clientWaiting sig).txPool (clientWaiting sig).merkleTree =
    tree at hrequest
  obtain ⟨b, hb⟩ := exists_makeBlock (clientEnv sig) Sample.maker (clientInfo sig) [good 1] tree
    (Block.extractUserCertsIf_eq_nil (by simp [clientInfo, info, clientTx]))
  obtain ⟨s, hs, hrun⟩ := one_signature (j := clientInfo sig) (p := (clientWaiting sig).txPool.clear)
    (client_chain sig) rfl hb
  refine ⟨s, b, tree, ?_, hs, makeBlock_eq_ok _ hb⟩
  have hpush : (Rounds.initial (clientEnv sig) (client_chain sig)).step (clientEnv sig) Sample.maker
      (client_chain sig) (clientTask sig) = .ok (clientWaiting sig) := by
    rw [clientTask, Rounds.step]
    refine (congrArg (Except.map _) (handle_client sig)).trans ?_
    rfl
  exact Fallible.foldlM_cons_eq_ok.mpr ⟨_, hpush, Fallible.foldlM_cons_eq_ok.mpr ⟨_, congrArg Except.ok hrequest, hrun⟩⟩

theorem validate_client (sig : Bytes) :
    MessageValidator.validate 0 .tx ((clientTx sig).getJson base) = .ok true := by
  have htest : Fallible.okAnd id (MessageValidator.validate 0 .tx ((clientTx []).getJson base)) = true := by
    decide +kernel
  obtain ⟨v, hv, rfl⟩ := Fallible.okAnd_eq_true.mp htest
  -- the signature is not looked at
  exact hv

theorem ownKey_client (sig : Bytes) : OwnKey (clientEnv sig) Sample.maker where
  cert := by simp [clientEnv, reader, base]
  signs := by simp [Sample.maker]
  verifies _ := rfl

end Sample

end GruutMerger
