import GruutMerger.MerkleTree
import GruutMerger.Transaction
import GruutMerger.Lib.Fallible

/-!
# Blocks

Reading a block from its raw bytes and a transaction array, the early and late
validity checks, the JSON forms handed to storage, and the form kept in the
backup records.
-/
namespace GruutMerger

open ByteText

variable (env : Env)

structure Signature where
  signerId : Bytes
  signerSignature : Bytes
  deriving DecidableEq

structure Block where
  version : Nat
  time : Nat
  blockId : Bytes
  mergerId : Bytes
  chainId : Bytes
  height : Nat
  txRoot : Bytes
  prevBlockHash : Bytes
  blockHash : Bytes
  prevBlockId : Bytes
  signature : Bytes
  transactions : List Transaction
  merkleTreeNode : List Bytes
  ssigs : List Signature
  userCerts : List (Bytes × Bytes)
  blockRaw : Bytes

namespace Block

/-- `operator==` -/
def same (a b : Block) : Bool := decide (a.height = b.height) && decide (a.blockHash = b.blockHash)

def getNumSSigs (b : Block) : Nat := b.ssigs.length
def getBlockIdB64 (b : Block) : Bytes := env.base64.encode b.blockId
def getTxIds (b : Block) : List Bytes := b.transactions.map (·.id)

theorem getBlockIdB64_ne {b : Block} (h : b.blockId ≠ []) : b.getBlockIdB64 env ≠ [] :=
  mt (env.base64.encode_eq_nil b.blockId).mp h

/-- The header length is assembled in a signed int. -/
def getHeaderEnd (raw : Bytes) : Nat :=
  match raw with
  | _ :: b1 :: b2 :: b3 :: b4 :: _ :: _ =>
    let headerEnd := toUInt64 (toInt32
      (b1.toNat * 2 ^ 24 + b2.toNat * 2 ^ 16 + b3.toNat * 2 ^ 8 + b4.toNat))
    if headerEnd ≥ raw.length then 0 else headerEnd
  | _ => 0

def getBlockMetaHeaderRaw (raw : Bytes) : Bytes := raw.take (getHeaderEnd raw)

def getBlockSignature (raw : Bytes) : Bytes :=
  if getHeaderEnd raw = 0 then [] else raw.drop (getHeaderEnd raw)

/-- A header end below 5 asks for a string of negative length. -/
def getBlockHeader (raw : Bytes) : Except Failure Json :=
  let headerEnd := getHeaderEnd raw
  if headerEnd = 0 then .ok (.object [])
  else if headerEnd < 5 then .error .std
  else
    let headerComp := (raw.take headerEnd).drop 5
    match raw.head?.map UInt8.toNat with
    | some 0x04 => .ok (parseJson env (env.decompressData headerComp))
    | some 0x05 => .ok ((env.fromMsgpack headerComp).getD .null)
    | some 0x06 => .ok ((env.fromCbor headerComp).getD .null)
    | some 0xFF => .ok (parseJson env headerComp)
    | _ => .ok .null

/-- The outcome of `setJson` is not looked at, so an unreadable transaction
stays the default one. -/
def readTransaction (j : Json) : Except Failure Transaction :=
  (Transaction.setJson env {} j).map (·.2)

def setTransactions (txs : List Json) : Except Failure (List Transaction) :=
  txs.mapM (readTransaction env)

def setSupportSignaturesFromJson (ssigs : List Json) : List Signature :=
  ssigs.map fun j =>
    ⟨Safe.getBytesFromB64 env.base64 j "sID", Safe.getBytesFromB64 env.base64 j "sig"⟩

def calcMerkleTreeNode (txs : List Transaction) : List Bytes :=
  MerkleTree.generate env MerkleTree.prepared (txs.map (·.getDigest env))

def extractUserCertsIf (txs : List Transaction) : Except Failure (List (Bytes × Bytes)) :=
  (txs.mapM Transaction.getCertsIf).map List.flatten

theorem extractUserCertsIf_eq_nil {txs : List Transaction} (h : ∀ tx ∈ txs, tx.type ≠ .certificates) :
    extractUserCertsIf txs = .ok [] := by
  have hmap : txs.mapM Transaction.getCertsIf = .ok (txs.map fun _ => []) :=
    Fallible.mapM_eq_ok.mpr (List.forall₂_map_right_iff.mpr
      (List.forall₂_same.mpr fun tx htx => by rw [Transaction.getCertsIf, if_neg (h tx htx)]))
  rw [extractUserCertsIf, hmap]
  simp [Except.map]

/-- The members that `initialize` sets, once everything that may fail is read. -/
def assemble (raw : Bytes) (header : Json) (version time height : Nat) (ssigs : Json)
    (txs : List Transaction) (certs : List (Bytes × Bytes)) : Block where
  version := version % 2 ^ 32
  time := time
  blockId := Safe.getBytesFromB64 env.base64 header "bID"
  mergerId := Safe.getBytesFromB64 env.base64 header "mID"
  chainId := bytesToArray env 8 (env.base64.decode (Safe.getStringOf header "cID"))
  height := height
  txRoot := Safe.getBytesFromB64 env.base64 header "txrt"
  prevBlockHash := Safe.getBytesFromB64 env.base64 header "prevH"
  blockHash := env.sha256 raw
  prevBlockId := Safe.getBytesFromB64 env.base64 header "prevbID"
  signature := getBlockSignature raw
  transactions := txs
  merkleTreeNode := calcMerkleTreeNode env txs
  ssigs := setSupportSignaturesFromJson env ssigs.elements
  userCerts := certs
  blockRaw := raw

/-- `initialize(bytes &, json &)`; `none` is its answer false. -/
def initializeRaw (raw : Bytes) (blockTxs : Json) : Except Failure (Option Block) := do
  if raw = [] then
    return none
  let header ← getBlockHeader env raw
  if header.isEmpty then
    return none
  let version ← Safe.getInt header "ver"
  let time ← Safe.getTimeOf header "time"
  let height ← Safe.getInt header "hgt"
  let ssigs ← header.field "SSig"
  if !ssigs.isArray then
    return none
  if !blockTxs.isArray then
    return none
  let txs ← setTransactions env blockTxs.elements
  let certs ← extractUserCertsIf txs
  return some (assemble env raw header version time height ssigs txs certs)

/-- `initialize(json &)`, on a message body. -/
def initializeBody (body : Json) : Except Failure (Option Block) := do
  let raw := Safe.getBytesFromB64 env.base64 body "blockraw"
  let txs ← body.field "tx"
  initializeRaw env raw txs

def getSupportSigMessageCommon (b : Block) : Bytes :=
  integerBytes 8 b.time ++ b.mergerId ++ b.chainId ++ integerBytes 8 b.height ++ b.txRoot

/-- The check of one support signature, with certificates from the block itself
first. -/
def isValidSSig (getUserCert : Bytes → Nat → Except Failure Bytes) (b : Block) (s : Signature) :
    Except Failure Bool := do
  let userId := env.base64.encode s.signerId
  let pem ← match b.userCerts.lookup userId with
    | some pem => .ok pem
    | none => getUserCert userId b.time
  return !pem.isEmpty && env.doVerify pem (s.signerId ++ b.getSupportSigMessageCommon) s.signerSignature

def allValidSSigs (getUserCert : Bytes → Nat → Except Failure Bytes) (b : Block) :
    List Signature → Except Failure Bool
  | [] => .ok true
  | s :: rest => do
    if ← isValidSSig env getUserCert b s then allValidSSigs getUserCert b rest else return false

def isValidLate (getUserCert : Bytes → Nat → Except Failure Bytes) (b : Block) : Except Failure Bool :=
  allValidSSigs env getUserCert b b.ssigs

def isValidEarly (b : Block) : Bool :=
  !b.blockRaw.isEmpty && !b.signature.isEmpty &&
    decide (b.merkleTreeNode.getLast? = some b.txRoot) &&
    b.transactions.all (fun tx => tx.isValid env (env.getCert tx.requestorId)) &&
    !(env.getCert b.mergerId).isEmpty &&
    env.doVerify (env.getCert b.mergerId) (getBlockMetaHeaderRaw b.blockRaw) b.signature

/-- A field is only made by `push_back`, so no signatures or no transactions
leave no field. -/
def arrayField (key : String) (xs : List Json) : List (String × Json) :=
  if xs.isEmpty then [] else [(key, .array xs)]

def ssigJson (s : Signature) : Json :=
  .object [("sID", .string (env.base64.encode s.signerId)),
    ("sig", .string (env.base64.encode s.signerSignature))]

def getBlockHeaderJson (b : Block) : Json :=
  .object (arrayField "SSig" (b.ssigs.map (ssigJson env)) ++
    [("bID", .string (env.base64.encode b.blockId)),
     ("cID", .string (env.base64.encode b.chainId)),
     ("hgt", .string (decimal b.height)),
     ("mID", .string (env.base64.encode b.mergerId)),
     ("prevH", .string (env.base64.encode b.prevBlockHash)),
     ("prevbID", .string (env.base64.encode b.prevBlockId)),
     ("time", .string (decimal b.time))] ++
    arrayField "txids" (b.transactions.map fun tx => .string (env.base64.encode tx.id)) ++
    [("txrt", .string (env.base64.encode b.txRoot)),
     ("ver", .string (decimal b.version))])

def getBlockTXsAsJson (b : Block) : Json := .array (b.transactions.map (·.getJson env))

def bodyFields (b : Block) : List (String × Json) :=
  [("mtree", .array ((b.merkleTreeNode.take b.transactions.length).map fun n =>
     .string (env.base64.encode n))),
   ("tx", b.getBlockTXsAsJson env),
   ("txCnt", .string (decimal b.transactions.length))]

/-- One tree node is read for each transaction, from a vector that is always
`merkleTreeSize` long. -/
def getBlockBodyJson (b : Block) : Except Failure Json :=
  if merkleTreeSize < b.transactions.length then .error .undefined
  else .ok (.object (b.bodyFields env))

def serialize (b : Block) : Except Failure Value :=
  if merkleTreeSize < b.transactions.length then .error .undefined
  else .ok (.cbor (.object
    (("blockraw", .string (env.base64.encode b.blockRaw)) :: b.bodyFields env)))

/-- `deserialize` turns a `json::exception` into the answer false and lets
every other one through. -/
def deserialize (v : Value) : Except Failure (Option Block) :=
  match v with
  | .cbor j =>
    match initializeBody env j with
    | .error .json => .ok none
    | r => r
  | _ => .ok none

theorem isValidEarly_iff {b : Block} : b.isValidEarly env = true ↔ b.blockRaw ≠ [] ∧ b.signature ≠ [] ∧
    b.merkleTreeNode.getLast? = some b.txRoot ∧
    (∀ tx ∈ b.transactions, tx.isValid env (env.getCert tx.requestorId) = true) ∧ env.getCert b.mergerId ≠ [] ∧
    env.doVerify (env.getCert b.mergerId) (getBlockMetaHeaderRaw b.blockRaw) b.signature = true := by
  simp only [isValidEarly, Bool.and_eq_true, decide_eq_true_eq, List.all_eq_true, Bool.not_eq_true',
    List.isEmpty_eq_false_iff, and_assoc]

/-- Everything that reading a block goes through when it succeeds. -/
structure Reads (raw : Bytes) (blockTxs : Json) (b : Block) (header : Json) (version time height : Nat)
    (ssigs : Json) (txs : List Transaction) (certs : List (Bytes × Bytes)) : Prop where
  raw_ne : raw ≠ []
  header_eq : getBlockHeader env raw = .ok header
  header_ne : header.isEmpty = false
  version_eq : Safe.getInt header "ver" = .ok version
  time_eq : Safe.getTimeOf header "time" = .ok time
  height_eq : Safe.getInt header "hgt" = .ok height
  ssigs_eq : header.field "SSig" = .ok ssigs
  ssigs_array : ssigs.isArray = true
  txs_array : blockTxs.isArray = true
  txs_eq : setTransactions env blockTxs.elements = .ok txs
  certs_eq : extractUserCertsIf txs = .ok certs
  block_eq : b = assemble env raw header version time height ssigs txs certs

theorem initializeRaw_eq_some {raw : Bytes} {blockTxs : Json} {b : Block} :
    initializeRaw env raw blockTxs = .ok (some b) ↔
      ∃ header version time height ssigs txs certs,
        Reads env raw blockTxs b header version time height ssigs txs certs := by
  constructor
  · intro h
    simp only [initializeRaw, bind, Except.bind, pure, Except.pure] at h
    -- one case for each way out of the function; all but the last end without a block
    split at h
    · simp at h
    rename_i hraw
    split at h
    · simp at h
    rename_i header hheader
    split at h
    · simp at h
    rename_i hne
    split at h
    · simp at h
    rename_i version hversion
    split at h
    · simp at h
    rename_i time htime
    split at h
    · simp at h
    rename_i height hheight
    split at h
    · simp at h
    rename_i ssigs hssigs
    split at h
    · simp at h
    rename_i hsarray
    split at h
    · simp at h
    rename_i htarray
    split at h
    · simp at h
    rename_i txs htxs
    split at h
    · simp at h
    rename_i certs hcerts
    simp only [Except.ok.injEq, Option.some.injEq] at h
    exact ⟨header, version, time, height, ssigs, txs, certs, hraw, hheader, by simpa using hne,
      hversion, htime, hheight, hssigs, by simpa using hsarray, by simpa using htarray, htxs, hcerts,
      h.symm⟩
  · rintro ⟨header, version, time, height, ssigs, txs, certs, h⟩
    simp [initializeRaw, h.raw_ne, h.header_eq, h.header_ne, h.version_eq, h.time_eq, h.height_eq,
      h.ssigs_eq, h.ssigs_array, h.txs_array, h.txs_eq, h.certs_eq, h.block_eq, bind, Except.bind,
      pure, Except.pure]

/-- A block that some raw bytes and transaction array are read as. -/
def Received (b : Block) : Prop := ∃ raw txs, initializeRaw env raw txs = .ok (some b)

theorem length_id_of_readTransaction {j : Json} {tx : Transaction}
    (h : readTransaction env j = .ok tx) : tx.id.length = 32 := by
  unfold readTransaction at h
  cases hj : Transaction.setJson env {} j with
  | error e =>
    rw [hj] at h
    cases h
  | ok r =>
    rw [hj] at h
    cases h
    exact Transaction.length_id_of_setJson env hj

theorem length_id_of_setTransactions {js : List Json} {txs : List Transaction}
    (h : setTransactions env js = .ok txs) : ∀ tx ∈ txs, tx.id.length = 32 := by
  intro tx htx
  obtain ⟨j, _, hj⟩ := Fallible.mapM_ok_right h tx htx
  exact length_id_of_readTransaction env hj

theorem setTransactions_getJson (txs : List Transaction) (hid : ∀ tx ∈ txs, tx.id.length = 32)
    (ht : ∀ tx ∈ txs, tx.sentTime < 2 ^ 63) :
    setTransactions env (txs.map (·.getJson env)) = .ok txs := by
  induction txs with
  | nil => rfl
  | cons tx txs ih =>
    have hrest := ih (fun t h => hid t (by simp [h])) (fun t h => ht t (by simp [h]))
    have hj : readTransaction env (tx.getJson env) = .ok tx := by
      rw [readTransaction, Transaction.setJson_getJson env tx {} (hid tx (by simp)) (ht tx (by simp))]
      rfl
    unfold setTransactions at hrest ⊢
    simp only [List.map_cons, List.mapM_cons, hj, hrest, bind, Except.bind, pure, Except.pure]

theorem length_calcMerkleTreeNode (txs : List Transaction) :
    (calcMerkleTreeNode env txs).length = merkleTreeSize := by
  rw [calcMerkleTreeNode, MerkleTree.length_generate, MerkleTree.prepared, List.length_replicate]

/-- The tree starts with the digests of the transactions. -/
theorem take_calcMerkleTreeNode {txs : List Transaction} (h : txs.length ≤ maxMerkleLeaves) :
    (calcMerkleTreeNode env txs).take txs.length = txs.map (·.getDigest env) := by
  have hlen := length_calcMerkleTreeNode env txs
  have hle : maxMerkleLeaves ≤ merkleTreeSize := by decide
  refine List.ext_getElem (by simp [hlen]; omega) fun i hi hi' => ?_
  rw [List.length_map] at hi'
  have hleaf := MerkleTree.leaf_generate env (txs.map (·.getDigest env)) (MerkleTree.length_prepared ▸ hle)
    (Nat.lt_of_lt_of_le hi' h)
  change (calcMerkleTreeNode env txs).getD i [] = _ at hleaf
  rw [List.getD_eq_getElem _ _ (by omega), List.getD_eq_getElem _ _ (by simpa using hi')] at hleaf
  rw [List.getElem_take, hleaf]

theorem Received.blockHash_eq {b : Block} (h : Received env b) : b.blockHash = env.sha256 b.blockRaw := by
  obtain ⟨raw, txs, h⟩ := h
  obtain ⟨_, _, _, _, _, _, _, h⟩ := (initializeRaw_eq_some env).mp h
  rw [h.block_eq]
  rfl

/-- With other transactions the same raw bytes are read as the same block around them. -/
theorem initializeRaw_other {raw : Bytes} {blockTxs : Json} {b : Block} {js : List Json} {txs : List Transaction}
    {certs : List (Bytes × Bytes)} {tree : List Bytes} (h : initializeRaw env raw blockTxs = .ok (some b))
    (htxs : setTransactions env js = .ok txs) (hcerts : extractUserCertsIf txs = .ok certs)
    (htree : calcMerkleTreeNode env txs = tree) : initializeRaw env raw (.array js) =
      .ok (some { b with transactions := txs, merkleTreeNode := tree, userCerts := certs }) := by
  obtain ⟨header, version, time, height, ssigs, _, _, h⟩ := (initializeRaw_eq_some env).mp h
  refine (initializeRaw_eq_some env).mpr ⟨header, version, time, height, ssigs, txs, certs, ?_⟩
  exact { h with
    txs_array := rfl
    txs_eq := htxs
    certs_eq := hcerts
    block_eq := by simp only [h.block_eq, assemble, htree] }

/-- A block is read again from its raw bytes and the JSON of its transactions,
unless a transaction time is too large to be read back. -/
theorem Received.initializeRaw_again {b : Block} (h : Received env b)
    (ht : ∀ tx ∈ b.transactions, tx.sentTime < 2 ^ 63) :
    initializeRaw env b.blockRaw (b.getBlockTXsAsJson env) = .ok (some b) := by
  obtain ⟨raw, j, h⟩ := h
  obtain ⟨header, version, time, height, ssigs, txs, certs, h⟩ := (initializeRaw_eq_some env).mp h
  have hb := h.block_eq
  have htxs : b.transactions = txs := by rw [hb]; rfl
  have hraw : b.blockRaw = raw := by rw [hb]; rfl
  rw [htxs] at ht
  refine (initializeRaw_eq_some env).mpr ⟨header, version, time, height, ssigs, txs, certs, ?_⟩
  rw [hraw, getBlockTXsAsJson, htxs]
  exact { h with
    txs_array := rfl
    txs_eq := setTransactions_getJson env txs (length_id_of_setTransactions env h.txs_eq) ht }

theorem getBlockBodyJson_eq_ok {b : Block} {body : Json} : b.getBlockBodyJson env = .ok body ↔
    b.transactions.length ≤ merkleTreeSize ∧ body = .object (b.bodyFields env) := by
  unfold getBlockBodyJson
  split
  · rename_i h
    simp [Nat.not_le.mpr h]
  · rename_i h
    simp [Nat.not_lt.mp h, eq_comm]

theorem serialize_eq_ok {b : Block} {v : Value} : b.serialize env = .ok v ↔
    b.transactions.length ≤ merkleTreeSize ∧
      v = .cbor (.object (("blockraw", .string (env.base64.encode b.blockRaw)) :: b.bodyFields env)) := by
  unfold serialize
  split
  · rename_i h
    simp [Nat.not_le.mpr h]
  · rename_i h
    simp [Nat.not_lt.mp h, eq_comm]

theorem Received.deserialize_serialize {b : Block} {v : Value} (h : Received env b)
    (ht : ∀ tx ∈ b.transactions, tx.sentTime < 2 ^ 63) (hs : b.serialize env = .ok v) :
    deserialize env v = .ok (some b) := by
  obtain ⟨_, rfl⟩ := (serialize_eq_ok env).mp hs
  have hraw : Safe.getBytesFromB64 env.base64
      (.object (("blockraw", .string (env.base64.encode b.blockRaw)) :: b.bodyFields env)) "blockraw" =
        b.blockRaw := Safe.getBytesFromB64_encode rfl
  have hfield : (Json.object (("blockraw", .string (env.base64.encode b.blockRaw)) ::
      b.bodyFields env)).field "tx" = .ok (b.getBlockTXsAsJson env) := rfl
  simp only [deserialize, initializeBody, hraw, hfield, bind, Except.bind]
  rw [h.initializeRaw_again env ht]

/-- The text fields of a header. -/
def headerTexts (b : Block) : List (String × Bytes) :=
  [("bID", env.base64.encode b.blockId), ("cID", env.base64.encode b.chainId),
   ("hgt", decimal b.height), ("mID", env.base64.encode b.mergerId),
   ("prevH", env.base64.encode b.prevBlockHash), ("prevbID", env.base64.encode b.prevBlockId),
   ("time", decimal b.time), ("txrt", env.base64.encode b.txRoot), ("ver", decimal b.version)]

/-- They are read back whichever of the array fields are there. -/
theorem headerString {b : Block} {key : String} {s : Bytes} (h : (key, s) ∈ b.headerTexts env) :
    Safe.getStringOf (b.getBlockHeaderJson env) key = s := by
  simp only [headerTexts, List.mem_cons, Prod.mk.injEq, List.not_mem_nil, or_false] at h
  rcases h with ⟨rfl, rfl⟩ | ⟨rfl, rfl⟩ | ⟨rfl, rfl⟩ | ⟨rfl, rfl⟩ | ⟨rfl, rfl⟩ | ⟨rfl, rfl⟩ |
    ⟨rfl, rfl⟩ | ⟨rfl, rfl⟩ | ⟨rfl, rfl⟩
  all_goals
    unfold getBlockHeaderJson arrayField
    cases b.ssigs <;> cases b.transactions <;> rfl

theorem headerSSig {b : Block} (h : b.ssigs ≠ []) :
    (b.getBlockHeaderJson env).field "SSig" = .ok (.array (b.ssigs.map (ssigJson env))) := by
  unfold getBlockHeaderJson arrayField
  cases hs : b.ssigs with
  | nil => exact absurd hs h
  | cons s ss => rfl

theorem headerTxids {b : Block} (h : b.transactions ≠ []) :
    (b.getBlockHeaderJson env).field "txids" =
      .ok (.array (b.transactions.map fun tx => .string (env.base64.encode tx.id))) := by
  unfold getBlockHeaderJson arrayField
  cases ht : b.transactions with
  | nil => exact absurd ht h
  | cons t ts => cases b.ssigs <;> rfl

/-- What ties the members of a block together once it is finished. -/
structure Consistent (b : Block) : Prop where
  raw_ne : b.blockRaw ≠ []
  version_lt : b.version < 2 ^ 32
  time_lt : b.time < 2 ^ 63
  height_lt : b.height < 2 ^ 63
  chain : b.chainId.length = 8
  ssigs_ne : b.ssigs ≠ []
  hash : b.blockHash = env.sha256 b.blockRaw
  sig : b.signature = getBlockSignature b.blockRaw
  tree : b.merkleTreeNode = calcMerkleTreeNode env b.transactions
  certs : extractUserCertsIf b.transactions = .ok b.userCerts
  ids : ∀ tx ∈ b.transactions, tx.id.length = 32
  times : ∀ tx ∈ b.transactions, tx.sentTime < 2 ^ 63

theorem setSupportSignatures_ssigJson (ssigs : List Signature) :
    setSupportSignaturesFromJson env (ssigs.map (ssigJson env)) = ssigs := by
  unfold setSupportSignaturesFromJson
  rw [List.map_map]
  refine (List.map_congr_left fun s _ => ?_).trans (List.map_id ssigs)
  have hid : Safe.getBytesFromB64 env.base64 (ssigJson env s) "sID" = s.signerId :=
    Safe.getBytesFromB64_encode rfl
  have hsig : Safe.getBytesFromB64 env.base64 (ssigJson env s) "sig" = s.signerSignature :=
    Safe.getBytesFromB64_encode rfl
  simp [hid, hsig]

/-- A finished block whose raw bytes decode to its own header is read as itself. -/
theorem Consistent.initializeRaw {b : Block} (h : Consistent env b)
    (hh : getBlockHeader env b.blockRaw = .ok (b.getBlockHeaderJson env)) :
    Block.initializeRaw env b.blockRaw (b.getBlockTXsAsJson env) = .ok (some b) := by
  have hdec : ∀ (key : String) (n : Nat), n < 2 ^ 63 → (key, decimal n) ∈ b.headerTexts env →
      Safe.getInt (b.getBlockHeaderJson env) key = .ok n := by
    intro key n hn hk
    rw [Safe.getInt, headerString env hk, Safe.parseDecimal_decimal n hn]
  have hb64 : ∀ (key : String) (x : Bytes), (key, env.base64.encode x) ∈ b.headerTexts env →
      Safe.getBytesFromB64 env.base64 (b.getBlockHeaderJson env) key = x :=
    fun key x hk => Safe.getBytesFromB64_encode (headerString env hk)
  have hv := h.version_lt
  refine (initializeRaw_eq_some env).mpr ⟨b.getBlockHeaderJson env, b.version, b.time, b.height,
    .array (b.ssigs.map (ssigJson env)), b.transactions, b.userCerts, ?_⟩
  exact
    { raw_ne := h.raw_ne
      header_eq := hh
      header_ne := by simp [getBlockHeaderJson, Json.isEmpty]
      version_eq := hdec "ver" b.version (by omega) (by simp [headerTexts])
      time_eq := hdec "time" b.time h.time_lt (by simp [headerTexts])
      height_eq := hdec "hgt" b.height h.height_lt (by simp [headerTexts])
      ssigs_eq := headerSSig env h.ssigs_ne
      ssigs_array := rfl
      txs_array := rfl
      txs_eq := setTransactions_getJson env b.transactions h.ids h.times
      certs_eq := h.certs
      block_eq := by
        have hcid : Safe.getStringOf (b.getBlockHeaderJson env) "cID" = env.base64.encode b.chainId :=
          headerString env (by simp [headerTexts])
        have hchain : bytesToArray env 8 b.chainId = b.chainId := bytesToArray_of_length env h.chain
        simp only [assemble, Nat.mod_eq_of_lt hv, hcid, env.base64.decode_encode, hchain, Json.elements,
          setSupportSignatures_ssigJson, ← h.hash, ← h.sig, ← h.tree,
          hb64 "bID" b.blockId (by simp [headerTexts]), hb64 "mID" b.mergerId (by simp [headerTexts]),
          hb64 "txrt" b.txRoot (by simp [headerTexts]), hb64 "prevH" b.prevBlockHash (by simp [headerTexts]),
          hb64 "prevbID" b.prevBlockId (by simp [headerTexts])] }

end Block
end GruutMerger
