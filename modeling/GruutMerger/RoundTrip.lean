import GruutMerger.MakeBlock
import GruutMerger.Sample

/-!
# Writing a block and reading it again

A made block, read from its raw bytes and the transactions of its body, is the
same block. Only the tree is computed anew.
-/
namespace GruutMerger

open ByteText

variable (env : Env)

/-- The members that the reader of a block has to find again. -/
structure Block.Agrees (b c : Block) : Prop where
  version : c.version = b.version
  time : c.time = b.time
  mergerId : c.mergerId = b.mergerId
  chainId : c.chainId = b.chainId
  height : c.height = b.height
  txRoot : c.txRoot = b.txRoot
  prevBlockId : c.prevBlockId = b.prevBlockId
  prevBlockHash : c.prevBlockHash = b.prevBlockHash
  blockId : c.blockId = b.blockId
  ssigs : c.ssigs = b.ssigs
  transactions : c.transactions = b.transactions
  blockHash : c.blockHash = b.blockHash
  signature : c.signature = b.signature

theorem Block.agrees_withTree (b : Block) (nodes : List Bytes) : b.Agrees { b with merkleTreeNode := nodes } := by
  constructor <;> rfl

/-- Every made block is read back, from its raw bytes and the `tx` field of its body. -/
theorem Block.read_made (maker : Maker) (info : BasicBlockInfo) (ssigs : List Signature) (nodes : List Bytes)
    {certs : List (Bytes × Bytes)} (hroot : info.Rooted env) (hi : info.Readable) (hs : ssigs ≠ [])
    (hcerts : Block.extractUserCertsIf info.transactions = .ok certs) :
    ∃ b, makeBlock env maker info ssigs nodes = .ok b ∧
      (b.signature ≠ [] → Block.Carried env maker (b.getBlockHeaderJson env) →
        ∃ body txs c, b.getBlockBodyJson env = .ok body ∧ body.field "tx" = .ok txs ∧
          Block.initializeRaw env b.blockRaw txs = .ok (some c) ∧ b.Agrees c) := by
  obtain ⟨b, hb⟩ := exists_makeBlock env maker info ssigs nodes hcerts
  have hmade := makeBlock_eq_ok env hb
  refine ⟨b, hb, fun hsig hc => ?_⟩
  have hle : b.transactions.length ≤ merkleTreeSize := by
    have := hroot.le
    rw [hmade.transactions, merkleTreeSize]
    simp only [maxMerkleLeaves] at this ⊢
    omega
  exact ⟨_, b.getBlockTXsAsJson env, _, (Block.getBlockBodyJson_eq_ok env).mpr ⟨hle, rfl⟩, rfl,
    hmade.read env hi hs hsig hc rfl, b.agrees_withTree _⟩

namespace Sample

/-- Signs with one byte and writes every header as the same byte. -/
def maker : Maker where
  doSign _ := [1]
  compressData := id
  dump _ := [7]

/-- A round at height 1 of the merger with id 9. -/
def info (e : Env) (txs : List Transaction) (h : ∀ tx ∈ txs, tx.id.length = 32) : BasicBlockInfo where
  time := 50
  mergerId := [9]
  chainId := List.replicate 8 0
  height := 1
  transactionRoot := (Block.calcMerkleTreeNode e txs).getLastD []
  prevIdB64 := ascii "AAAAAAAAAAAAAAAAAAAAAAAAAAAAAAAAAAAAAAAAAAA="
  prevHashB64 := ascii "AAAAAAAAAAAAAAAAAAAAAAAAAAAAAAAAAAAAAAAAAAA="
  transactions := txs
  length_chainId := rfl
  length_ids := h

/-- The environment that reads every text as the header of the block made from a round. -/
def reader (e : Env) (i : BasicBlockInfo) : Env :=
  { e with
    parse := fun _ => match makeBlock e maker i [good 1] [] with
      | .ok b => some (b.getBlockHeaderJson e)
      | .error _ => none
    decompressData := id }

theorem calcMerkleTreeNode_reader (e : Env) (i : BasicBlockInfo) (txs : List Transaction) :
    Block.calcMerkleTreeNode (reader e i) txs = Block.calcMerkleTreeNode e txs := by
  have hg : MerkleTree.generate (reader e i) = MerkleTree.generate e := MerkleTree.generate_congr rfl rfl
  have hd : (fun t : Transaction => t.getDigest (reader e i)) = fun t => t.getDigest e := rfl
  simp only [Block.calcMerkleTreeNode, hg, hd]

theorem rooted_info (e : Env) {txs : List Transaction} (h : ∀ tx ∈ txs, tx.id.length = 32) (i : BasicBlockInfo)
    (hpos : 1 ≤ txs.length) (hle : txs.length ≤ maxMerkleLeaves) : (info e txs h).Rooted (reader e i) where
  pos := hpos
  le := hle
  root := by
    have hlen := Block.length_calcMerkleTreeNode e txs
    simp only [info, calcMerkleTreeNode_reader]
    generalize Block.calcMerkleTreeNode e txs = nodes at hlen
    cases nodes with
    | nil => exact absurd hlen (by decide)
    | cons n ns => rfl

theorem carried_made {e : Env} {i : BasicBlockInfo} {nodes : List Bytes} {b : Block}
    (h : Made (reader e i) maker i [good 1] nodes b) :
    Block.Carried (reader e i) maker (b.getBlockHeaderJson (reader e i)) where
  decompress := rfl
  parse := by
    obtain ⟨c, hc⟩ := exists_makeBlock e maker i [good 1] [] h.certs
    have heq := (makeBlock_eq_ok e hc).header_eq h rfl rfl
    simp only [reader, hc]
    exact congrArg some heq
  dump_ne := by simp [maker]
  length_lt := by simp [maker]

/-- The transaction at a time that is too large to be read. -/
def lateTx : Transaction := { digestTx with sentTime := 2 ^ 63 }

/-- The round of one transaction, and the same with the late one. -/
def digestInfo : BasicBlockInfo := info base [digestTx] (by decide +kernel)

def lateInfo : BasicBlockInfo := info base [lateTx] (by decide +kernel)

end Sample

open Sample in
theorem Block.read_made_digest : ∃ b body txs c,
    makeBlock (reader base digestInfo) maker digestInfo [good 1] [] = .ok b ∧
    b.getBlockBodyJson (reader base digestInfo) = .ok body ∧ body.field "tx" = .ok txs ∧
    Block.initializeRaw (reader base digestInfo) b.blockRaw txs = .ok (some c) ∧ b.Agrees c := by
  have hi : digestInfo.Readable := ⟨by decide, by decide, by decide +kernel⟩
  obtain ⟨b, hb, hread⟩ := Block.read_made (reader base digestInfo) maker digestInfo [good 1] []
    (rooted_info base _ _ (by decide) (by decide)) hi (by decide) rfl
  have hmade := makeBlock_eq_ok _ hb
  obtain ⟨body, txs, c, hbody, htxs, hc, hagrees⟩ :=
    hread (by simp [hmade.signature, maker]) (carried_made hmade)
  exact ⟨b, body, txs, c, hb, hbody, htxs, hc, hagrees⟩

open Sample in
/-- Everything the writer and the reader are assumed to keep is kept, but the time of
the transaction cannot be read. -/
theorem Block.late_not_read : lateInfo.Rooted (reader base lateInfo) ∧
    ∃ b body, makeBlock (reader base lateInfo) maker lateInfo [good 1] [] = .ok b ∧
      b.time < 2 ^ 63 ∧ b.height < 2 ^ 63 ∧ b.signature ≠ [] ∧
      Block.Carried (reader base lateInfo) maker (b.getBlockHeaderJson (reader base lateInfo)) ∧
      b.getBlockBodyJson (reader base lateInfo) = .ok body ∧
      ∀ txs c, body.field "tx" = .ok txs →
        Block.initializeRaw (reader base lateInfo) b.blockRaw txs ≠ .ok (some c) := by
  obtain ⟨b, hb⟩ := exists_makeBlock (reader base lateInfo) maker lateInfo [good 1] [] rfl
  have hmade := makeBlock_eq_ok _ hb
  refine ⟨rooted_info base _ _ (by decide) (by decide), b, _, hb, by rw [hmade.time]; decide,
    by rw [hmade.height]; decide, by simp [hmade.signature, maker], carried_made hmade,
    (Block.getBlockBodyJson_eq_ok _).mpr ⟨by rw [hmade.transactions]; decide, rfl⟩, fun txs c htxs => ?_⟩
  obtain rfl : b.getBlockTXsAsJson (reader base lateInfo) = txs := Except.ok.inj htxs
  have hmem : lateTx ∈ b.transactions := by
    rw [hmade.transactions]
    exact List.mem_singleton.mpr rfl
  exact Block.not_read_of_time _ hmem rfl (by decide) c

end GruutMerger
