import GruutMerger.BpScheduler
import GruutMerger.MakeBlock
import GruutMerger.TxMessage

/-!
# Signature rounds

A round fetches the transactions of the pool, asks signers for their signatures
over the root and makes a block when enough have come in or time is over. The
facts of a round live in members that the next round overwrites, and the block
is made by a job that is only posted; the tasks below may run in any order.
Nothing of the program reads `accepted`, which remembers the certificate under
which a signature was accepted.
-/
namespace GruutMerger

open ByteText

variable (env : Env) (maker : Maker)

def maxSignatureCollectSize : Nat := 20

structure Signer where
  userId : Bytes
  pkCert : Bytes
  deriving DecidableEq

/-- A signature with the height it was accepted for. -/
structure SigEntry where
  ssig : Signature
  height : Nat
  deriving DecidableEq

structure SignaturePool where
  entries : List SigEntry
  enabled : Bool
  height : Nat
  blockTime : Nat
  txRoot : Bytes

namespace SignaturePool

def size (p : SignaturePool) : Nat := p.entries.length

/-- Entries of an earlier round stay. -/
def setupSigPool (p : SignaturePool) (height time : Nat) (txRoot : Bytes) : SignaturePool :=
  { p with height := height, blockTime := time, txRoot := txRoot, enabled := true }

def clear (p : SignaturePool) : SignaturePool := { p with entries := [] }

def disablePool (p : SignaturePool) : SignaturePool := { p with enabled := false }

/-- The loop of `fetchN`; the test for `n` comes after each entry. -/
def fetchFrom (height n : Nat) : List SigEntry → List Signature
  | [] => []
  | e :: rest =>
    if e.height = height then
      if n ≤ 1 then [e.ssig] else e.ssig :: fetchFrom height (n - 1) rest
    else if n = 0 then [] else fetchFrom height n rest

def fetchN (p : SignaturePool) (n height : Nat) : List Signature := fetchFrom height n p.entries

/-- The message that a signer signs. -/
def message (p : SignaturePool) (signerId : Bytes) : Bytes :=
  signerId ++ integerBytes 8 p.blockTime ++ env.myId ++ env.myChainId ++ integerBytes 8 p.height ++ p.txRoot

/-- `pkCert` is the certificate that the signer pool, or else the ledger, has for the
signer. -/
def verifySignature (p : SignaturePool) (pkCert : Bytes) (body : Json) : Bool :=
  !pkCert.isEmpty && env.doVerify pkCert (p.message env (Safe.getBytesFromB64 env.base64 body "sID"))
    (Safe.getBytesFromB64 env.base64 body "sig")

theorem fetchFrom_sublist (height n : Nat) (es : List SigEntry) :
    (fetchFrom height n es).Sublist (es.map (·.ssig)) := by
  induction es generalizing n with
  | nil => exact List.Sublist.refl _
  | cons e rest ih =>
    rw [fetchFrom, List.map_cons]
    split
    · split
      · exact List.Sublist.cons_cons e.ssig (List.nil_sublist _)
      · exact (ih (n - 1)).cons_cons e.ssig
    · split
      · exact List.nil_sublist _
      · exact (ih n).cons e.ssig

/-- With an entry of the height, something is fetched. -/
theorem fetchFrom_ne_nil {height n : Nat} {es : List SigEntry} (hn : 1 ≤ n) (h : ∃ e ∈ es, e.height = height) :
    fetchFrom height n es ≠ [] := by
  induction es with
  | nil => simp at h
  | cons e rest ih =>
    rw [fetchFrom]
    split
    · split <;> simp
    · rename_i hne
      rw [if_neg (by omega)]
      obtain ⟨x, hx, hxh⟩ := h
      rcases List.mem_cons.mp hx with rfl | hx
      · exact absurd hxh hne
      · exact ih ⟨x, hx, hxh⟩

end SignaturePool

/-- What a request finds outside: whether unresolved blocks hold it up, the signers
selected at random, the certificates of the ledger, the clock (read twice) and the
link of the longest chain. -/
structure RoundInput where
  hasUnresolved : Bool
  signers : List Signer
  getCertificate : Bytes → Bytes
  certTime : Nat
  time : Nat
  link : NthLink

/-- A signature that was accepted, with the certificate it verified under. -/
structure Accepted where
  ssig : Signature
  pkCert : Bytes

structure Rounds where
  txPool : TransactionPool
  sigPool : SignaturePool
  merkleTree : List Bytes
  basicInfo : BasicBlockInfo
  isCollectRunning : Bool
  maxSigners : Nat
  /-- block generation jobs that are posted and have not run -/
  jobs : Nat
  accepted : List Accepted
  /-- the blocks handed to the block processor and sent to others -/
  made : List Block

inductive Task where
  | request (input : RoundInput)
  | ssig (pkCertOf : Bytes → Bytes) (body : Json)
  | timeout
  | check
  | job
  | tx (runnable : Bool) (records : Records) (body : Json)

def isNewSigner (getCertificate : Bytes → Bytes) (s : Signer) : Bool :=
  (getCertificate s.userId).isEmpty || decide (getCertificate s.userId ≠ s.pkCert)

/-- `genCertificateTransaction` for at least one signer. -/
def genCertificateTransaction (time : Nat) (signers : List Signer) : Transaction :=
  let t : Transaction :=
    { sentTime := time, requestorId := env.myId, type := .certificates
      contentList := signers.flatMap fun s => [env.base64.encode s.userId, s.pkCert] }
  let t := { t with id := t.buildTxId env }
  { t with signature := maker.doSign t.getBeforeDigestByte }

/-- `step 1`: a round starts unless it is held up or finds no signer. -/
def RoundInput.starts (i : RoundInput) : Bool := !i.hasUnresolved && !i.signers.isEmpty

namespace RoundInput

def newSigners (i : RoundInput) : List Signer := i.signers.filter (isNewSigner i.getCertificate)

/-- The pool with the certificate transaction for signers the ledger does not know. -/
def withCertificates (i : RoundInput) (p : TransactionPool) : TransactionPool :=
  if i.newSigners = [] then p
  else (p.push (genCertificateTransaction env maker i.certTime i.newSigners) (length_bytesToArray env _ _)).2

/-- The transactions of the round. -/
def fetched (i : RoundInput) (p : TransactionPool) : List Transaction :=
  ((i.withCertificates env maker p).fetchLastN
    (min (i.withCertificates env maker p).size maxCollectTransactionSize)).1

theorem fetched_subset (i : RoundInput) (p : TransactionPool) :
    i.fetched env maker p ⊆ (i.withCertificates env maker p).entries := TransactionPool.fetchLastN_subset _ _

/-- `m_merkle_tree.generate` over them, in the tree of the last round. -/
def tree (i : RoundInput) (p : TransactionPool) (last : List Bytes) : List Bytes :=
  MerkleTree.generate env last ((i.fetched env maker p).map (·.getDigest env))

def height (i : RoundInput) : Nat := if i.link.height = 0 then 1 else (i.link.height + 1) % 2 ^ 64

end RoundInput

namespace Rounds

variable (hchain : env.myChainId.length = 8)

/-- `requestSignatures` -/
def requestSignatures (s : Rounds) (i : RoundInput) : Rounds :=
  if i.starts then
    let tree := i.tree env maker s.txPool s.merkleTree
    let info : BasicBlockInfo :=
      { time := i.time
        mergerId := env.myId
        chainId := env.myChainId
        height := i.height
        transactionRoot := tree.getLastD []
        prevIdB64 := env.base64.encode i.link.id
        prevHashB64 := env.base64.encode i.link.hash
        transactions := i.fetched env maker s.txPool
        length_chainId := hchain
        length_ids := fun tx htx =>
          (i.withCertificates env maker s.txPool).length_ids tx (i.fetched_subset env maker s.txPool htx) }
    { s with
      txPool := s.txPool.clear
      sigPool := s.sigPool.setupSigPool info.height info.time info.transactionRoot
      merkleTree := tree
      basicInfo := info
      isCollectRunning := true
      maxSigners := i.signers.length }
  else s

/-- `SignaturePool::handleMessage` -/
def handleSsig (s : Rounds) (pkCertOf : Bytes → Bytes) (body : Json) : Rounds :=
  let signerId := Safe.getBytesFromB64 env.base64 body "sID"
  let ssig : Signature := ⟨signerId, Safe.getBytesFromB64 env.base64 body "sig"⟩
  if s.sigPool.enabled && s.sigPool.verifySignature env (pkCertOf signerId) body then
    { s with
      sigPool := { s.sigPool with entries := s.sigPool.entries ++ [⟨ssig, s.sigPool.height⟩] }
      accepted := s.accepted ++ [⟨ssig, pkCertOf signerId⟩] }
  else s

/-- The job itself is only posted. -/
def doCreateBlock (s : Rounds) : Rounds :=
  { s with isCollectRunning := false, sigPool := s.sigPool.disablePool, jobs := s.jobs + 1 }

def timeout (s : Rounds) : Rounds := if s.isCollectRunning then s.doCreateBlock else s

def check (s : Rounds) : Rounds :=
  if s.isCollectRunning && decide (s.maxSigners ≤ s.sigPool.size) then s.doCreateBlock else s

/-- The number of signatures is one that a block is made with. -/
def Enough (p : SignaturePool) : Prop := minSignatureCollectSize ≤ p.size ∧ p.size ≤ maxSignatureCollectSize

instance (p : SignaturePool) : Decidable (Enough p) := inferInstanceAs (Decidable (_ ∧ _))

def signatures (s : Rounds) : List Signature :=
  s.sigPool.fetchN (min s.sigPool.size maxSignatureCollectSize) s.basicInfo.height

/-- The posted function, with the block it makes. -/
def job (s : Rounds) : Except Failure (Option Block × Rounds) := do
  let rest := { s with jobs := s.jobs - 1, sigPool := s.sigPool.clear }
  if Enough s.sigPool then
    let b ← makeBlock env maker s.basicInfo s.signatures s.merkleTree
    return (some b, { rest with made := s.made ++ [b] })
  return (none, rest)

def step (s : Rounds) : Task → Except Failure Rounds
  | .request input => .ok (s.requestSignatures env maker hchain input)
  | .ssig pkCertOf body => .ok (s.handleSsig env pkCertOf body)
  | .timeout => .ok s.timeout
  | .check => .ok s.check
  | .job => if s.jobs = 0 then .ok s else (s.job env maker).map Prod.snd
  | .tx runnable records body =>
    (handleTx env runnable records s.txPool body).map fun r => { s with txPool := r.2 }

def run (s : Rounds) (tasks : List Task) : Except Failure Rounds := tasks.foldlM (step env maker hchain) s

/-- Nothing has happened yet. -/
def initial : Rounds where
  txPool := .empty
  sigPool := ⟨[], false, 0, 0, []⟩
  merkleTree := MerkleTree.prepared
  basicInfo := ⟨0, env.myId, env.myChainId, 0, [], [], [], [], hchain, TransactionPool.empty.length_ids⟩
  isCollectRunning := false
  maxSigners := 0
  jobs := 0
  accepted := []
  made := []

/-- The facts of a round that starts. -/
structure Starts (s : Rounds) (i : RoundInput) (info : BasicBlockInfo) : Prop where
  time : info.time = i.time
  mergerId : info.mergerId = env.myId
  chainId : info.chainId = env.myChainId
  height : info.height = i.height
  prevIdB64 : info.prevIdB64 = env.base64.encode i.link.id
  prevHashB64 : info.prevHashB64 = env.base64.encode i.link.hash
  transactions : info.transactions = i.fetched env maker s.txPool
  root : info.transactionRoot = (i.tree env maker s.txPool s.merkleTree).getLastD []

theorem requestSignatures_starts {s : Rounds} {i : RoundInput} (h : i.starts = true) :
    ∃ info, Starts env maker s i info ∧ s.requestSignatures env maker hchain i = { s with
      txPool := s.txPool.clear
      sigPool := s.sigPool.setupSigPool info.height info.time info.transactionRoot
      merkleTree := i.tree env maker s.txPool s.merkleTree
      basicInfo := info
      isCollectRunning := true
      maxSigners := i.signers.length } := by
  rw [requestSignatures, if_pos h]
  -- the tree stays a name, so that nothing computes it
  generalize htree : i.tree env maker s.txPool s.merkleTree = tree
  exact ⟨_, ⟨rfl, rfl, rfl, rfl, rfl, rfl, rfl, by rw [htree]⟩, rfl⟩

/-- The job makes a block of the current facts, or gives up. -/
theorem job_eq_ok {s t : Rounds} {made : Option Block} (h : s.job env maker = .ok (made, t)) :
    (Enough s.sigPool ∧ ∃ b, makeBlock env maker s.basicInfo s.signatures s.merkleTree = .ok b ∧ made = some b ∧
      t = { s with jobs := s.jobs - 1, sigPool := s.sigPool.clear, made := s.made ++ [b] }) ∨
    (¬ Enough s.sigPool ∧ made = none ∧ t = { s with jobs := s.jobs - 1, sigPool := s.sigPool.clear }) := by
  unfold job at h
  simp only at h
  split at h
  · rename_i henough
    obtain ⟨b, hb, h⟩ := Fallible.bind_eq_ok.mp h
    cases h
    exact Or.inl ⟨henough, b, hb, rfl, rfl⟩
  · rename_i henough
    cases h
    exact Or.inr ⟨henough, rfl, rfl⟩

end Rounds
end GruutMerger
