import GruutMerger.BlockProcessor
import GruutMerger.PoolInvariant

/-!
# A concrete environment

An environment in which runs can be evaluated: hashes are check sums, a
signature is bad exactly when it is the single byte 0, and raw block bytes name
a row of a table of blocks by one byte. Every block of the table that is put
together by `block` is received as it stands.
-/
namespace GruutMerger.Sample

open ByteText

def base : Env where
  base64 := Base64.padded
  sha256 b := List.replicate 31 0 ++ [b.foldl (· + ·) 0]
  doVerify _ _ sig := decide (sig ≠ [0])
  pemToX509 _ := some (1, 100)
  decompressData := id
  parse _ := none
  fromMsgpack _ := none
  fromCbor _ := none
  getCert _ := [1]
  getUserCert _ _ _ := .ok [1]
  myId := [9]
  myChainId := List.replicate 8 0
  uninitialised := 0

/-- One byte of header, naming a row of the table, and one byte of signature. -/
def raw (row : UInt8) : Bytes := [0xFF, 0, 0, 0, 6, row, 1]

def env (table : List Block) : Env :=
  { base with
    parse := fun s => match s with
      | [row] => (table[row.toNat]?).map fun b => b.getBlockHeaderJson base
      | _ => none }

/-- A transaction with the id its contents demand. -/
def tx (type : TransactionType) (content : List Bytes) : Transaction :=
  let t : Transaction := { sentTime := 5, requestorId := [7], type := type, signature := [1], contentList := content }
  { t with id := t.buildTxId base }

/-- The tree over some transactions, written so that its first nodes can be computed alone. -/
def treeOf (env : Env) (txs : List Transaction) : List Bytes :=
  if txs.length ≤ maxMerkleLeaves then
    txs.map (·.getDigest env) ++ (Block.calcMerkleTreeNode env txs).drop txs.length
  else Block.calcMerkleTreeNode env txs

theorem treeOf_eq (env : Env) (txs : List Transaction) : treeOf env txs = Block.calcMerkleTreeNode env txs := by
  unfold treeOf
  split
  · rename_i h
    rw [← Block.take_calcMerkleTreeNode env h, List.take_append_drop]
  · rfl

def block (row : UInt8) (id prevId prevHash : Bytes) (height : Nat) (ssigs : List Signature)
    (txs : List Transaction) : Block where
  version := 1
  time := 50
  blockId := id
  mergerId := [9]
  chainId := List.replicate 8 0
  height := height
  txRoot := (Block.calcMerkleTreeNode base txs).getLastD []
  prevBlockHash := prevHash
  blockHash := base.sha256 (raw row)
  prevBlockId := prevId
  signature := [1]
  transactions := txs
  merkleTreeNode := treeOf base txs
  ssigs := ssigs
  userCerts := match Block.extractUserCertsIf txs with
    | .ok certs => certs
    | .error _ => []
  blockRaw := raw row

def message (b : Block) : Json :=
  .object [("blockraw", .string (base.base64.encode b.blockRaw)),
    ("mID", .string (base.base64.encode b.mergerId)), ("tx", b.getBlockTXsAsJson base)]

/-- Transactions that the early check accepts and that can be written and read. -/
def GoodTxs (txs : List Transaction) : Prop :=
  (∀ t ∈ txs, t.id.length = 32 ∧ t.sentTime < 2 ^ 63 ∧ t.isValid base [1] = true) ∧
    (Block.extractUserCertsIf txs).isOk = true

instance (txs : List Transaction) : Decidable (GoodTxs txs) :=
  inferInstanceAs (Decidable (_ ∧ _))

variable {row : UInt8} {id prevId prevHash : Bytes} {height : Nat} {ssigs : List Signature}
  {txs : List Transaction}

theorem calcMerkleTreeNode_env (table : List Block) (txs : List Transaction) :
    Block.calcMerkleTreeNode (env table) txs = Block.calcMerkleTreeNode base txs := by
  have h : MerkleTree.generate (env table) = MerkleTree.generate base := MerkleTree.generate_congr rfl rfl
  have hd : (fun t : Transaction => t.getDigest (env table)) = fun t => t.getDigest base := rfl
  simp only [Block.calcMerkleTreeNode, h, hd]

theorem block_consistent (hs : ssigs ≠ []) (hh : height < 2 ^ 63) (ht : GoodTxs txs) (table : List Block) :
    Block.Consistent (env table) (block row id prevId prevHash height ssigs txs) := by
  obtain ⟨htx, hok⟩ := ht
  obtain ⟨certs, hcerts⟩ : ∃ certs, Block.extractUserCertsIf txs = .ok certs := by
    cases hc : Block.extractUserCertsIf txs with
    | error e =>
      rw [hc] at hok
      cases hok
    | ok certs => exact ⟨certs, rfl⟩
  exact
    { raw_ne := by simp [block, raw]
      version_lt := by simp [block]
      time_lt := by simp [block]
      height_lt := hh
      chain := rfl
      ssigs_ne := hs
      hash := rfl
      sig := rfl
      tree := by simp only [block, treeOf_eq, calcMerkleTreeNode_env]
      certs := by simp [block, hcerts]
      ids := fun t h => (htx t h).1
      times := fun t h => (htx t h).2.1 }

theorem block_valid (ht : GoodTxs txs) (table : List Block) :
    (block row id prevId prevHash height ssigs txs).isValidEarly (env table) = true := by
  have htree : (Block.calcMerkleTreeNode base txs) ≠ [] := by
    intro h
    have hl := Block.length_calcMerkleTreeNode base txs
    rw [h] at hl
    exact absurd hl (by decide)
  have hroot : (Block.calcMerkleTreeNode base txs).getLast? =
      some ((Block.calcMerkleTreeNode base txs).getLastD []) := by
    generalize Block.calcMerkleTreeNode base txs = nodes at htree
    cases nodes with
    | nil => exact absurd rfl htree
    | cons n ns => rfl
  have htxs : txs.all (fun t => t.isValid (env table) [1]) = true := by
    rw [List.all_eq_true]
    intro t h
    exact (ht.1 t h).2.2
  simp only [Block.isValidEarly, block, treeOf_eq, hroot]
  have hcert : ∀ x, (env table).getCert x = [1] := fun _ => rfl
  simp only [hcert, htxs]
  rfl

theorem getBlockHeader_raw {table : List Block} {b : Block} (hrow : table[row.toNat]? = some b) :
    Block.getBlockHeader (env table) (raw row) = .ok (b.getBlockHeaderJson (env table)) := by
  have hparse : parseJson (env table) [row] = b.getBlockHeaderJson base := by
    simp [parseJson, env, hrow]
  have hend : Block.getHeaderEnd (raw row) = 6 := by
    simp [Block.getHeaderEnd, raw, toInt32, toUInt64]
  have hheader : b.getBlockHeaderJson (env table) = b.getBlockHeaderJson base := rfl
  rw [hheader, ← hparse, Block.getBlockHeader, hend]
  simp [raw]

/-- A consistent block of the table is read from its message as it stands. -/
theorem initializeBody_message {table : List Block} {b : Block} (hraw : b.blockRaw = raw row)
    (hc : b.Consistent (env table)) (hrow : table[row.toNat]? = some b) :
    Block.initializeBody (env table) (message b) = .ok (some b) := by
  have hinit := hc.initializeRaw (env table) (by rw [hraw]; exact getBlockHeader_raw hrow)
  have hget : Safe.getBytesFromB64 (env table).base64 (message b) "blockraw" = b.blockRaw :=
    Safe.getBytesFromB64_encode rfl
  rw [Block.initializeBody, hget]
  exact hinit

/-- The blocks put together by `block` are. -/
theorem initializeBody_block {table : List Block} (hs : ssigs ≠ []) (hh : height < 2 ^ 63) (ht : GoodTxs txs)
    (hrow : table[row.toNat]? = some (block row id prevId prevHash height ssigs txs)) :
    Block.initializeBody (env table) (message (block row id prevId prevHash height ssigs txs)) =
      .ok (some (block row id prevId prevHash height ssigs txs)) :=
  initializeBody_message (by simp only [block]) (block_consistent hs hh ht table) hrow

theorem handleMsgBlock_message {table : List Block} (now : Nat) (m : Merger) {b : Block}
    (hb : Block.initializeBody (env table) (message b) = .ok (some b))
    (hv : b.isValidEarly (env table) = true) :
    m.handleMsgBlock (env table) now (message b) = m.processBlock (env table) now b b.mergerId := by
  have hmid : Safe.getBytesFromB64 (env table).base64 (message b) "mID" = b.mergerId :=
    Safe.getBytesFromB64_encode rfl
  rw [Merger.handleMsgBlock, hb, hmid]
  simp only [bind, Except.bind, hv, Bool.not_true, Bool.false_eq_true, if_false]

/-- And they are processed. -/
theorem handleMsgBlock_block {table : List Block} (now : Nat) (m : Merger) (hs : ssigs ≠ [])
    (hh : height < 2 ^ 63) (ht : GoodTxs txs)
    (hrow : table[row.toNat]? = some (block row id prevId prevHash height ssigs txs)) :
    m.handleMsgBlock (env table) now (message (block row id prevId prevHash height ssigs txs)) =
      m.processBlock (env table) now (block row id prevId prevHash height ssigs txs) [9] := by
  have h := handleMsgBlock_message now m (initializeBody_block hs hh ht hrow) (block_valid ht table)
  simpa only [block] using h

/-- A support signature that verifies, and one that does not. -/
def good (signer : UInt8) : Signature := ⟨[signer], [1]⟩

def bad (signer : UInt8) : Signature := ⟨[signer], [0]⟩

def hashOf (row : UInt8) : Bytes := base.sha256 (raw row)

def digestTx : Transaction := tx .digests [[3]]

/-- A row of the table. -/
structure Row where
  id : Bytes
  prevId : Bytes
  prevHash : Bytes
  height : Nat
  ssigs : List Signature
  txs : List Transaction

def Row.block (r : Row) (row : Nat) : Block :=
  Sample.block (UInt8.ofNat row) r.id r.prevId r.prevHash r.height r.ssigs r.txs

def tableOf (rows : List Row) : List Block := rows.zipIdx.map fun x => x.1.block x.2

/-- The environment that knows the rows. -/
abbrev world (rows : List Row) : Env := env (tableOf rows)

/-- Rows that make blocks the early check accepts. -/
def Good (rows : List Row) : Prop :=
  rows.length ≤ 256 ∧ ∀ r ∈ rows, r.ssigs ≠ [] ∧ r.height < 2 ^ 31 ∧ GoodTxs r.txs

instance (rows : List Row) : Decidable (Good rows) := inferInstanceAs (Decidable (_ ∧ _))

theorem tableOf_row {rows : List Row} (hg : Good rows) {row : Nat} {r : Row} (hr : rows[row]? = some r) :
    (tableOf rows)[(UInt8.ofNat row).toNat]? = some (r.block row) := by
  have hlen := (List.getElem?_eq_some_iff.mp hr).1
  have hmod : (UInt8.ofNat row).toNat = row := by
    rw [UInt8.toNat_ofNat', Nat.mod_eq_of_lt]
    have := hg.1
    omega
  rw [hmod, tableOf, List.getElem?_map, List.getElem?_zipIdx, hr]
  simp

theorem noWrap_row {rows : List Row} (hg : Good rows) {row : Nat} {r : Row} (hr : rows[row]? = some r)
    {p : Pool} {now : Nat} (hn : now < 2 ^ 64) (ht : p.lastTime ≤ now) :
    p.NoWrap now (r.block row).height := by
  have hh := (hg.2 r (List.mem_of_getElem? hr)).2.1
  have hheight : (r.block row).height = r.height := by simp only [Row.block, block]
  simp only [Pool.NoWrap, hheight, bpInterval]
  omega

/-- Deliver the block of a row; a number without a row does nothing. -/
def deliver (rows : List Row) (now : Nat) (m : Merger) (row : Nat) : Except Failure Merger :=
  match rows[row]? with
  | none => .ok m
  | some r => (m.processBlock (world rows) now (r.block row) [9]).map (·.2)

def run (rows : List Row) (now : Nat) (order : List Nat) (m : Merger) : Except Failure Merger :=
  order.foldlM (deliver rows now) m

/-- The merger on empty storage. -/
def initial : Merger := ⟨ChainState.initial base, [], [], [], []⟩

theorem initial_chain (rows : List Row) : initial.chain = ChainState.initial (world rows) := rfl

/-- Four blocks in a row, the first three with support for themselves. -/
def chainRows : List Row :=
  [⟨[1], genesisBlockPrevId base, genesisBlockPrevHash base, 1, [good 1, good 2, good 3], [digestTx]⟩,
   ⟨[2], [1], hashOf 0, 2, [good 1, good 2, good 3], [digestTx]⟩,
   ⟨[3], [2], hashOf 1, 3, [good 1, good 2, good 3], [digestTx]⟩,
   ⟨[4], [3], hashOf 2, 4, [good 1], [digestTx]⟩]

/-- The row of four with a second block at height 2. -/
def forkRows : List Row := chainRows ++ [⟨[5], [1], hashOf 0, 2, [good 1], [digestTx]⟩]

end GruutMerger.Sample
