import GruutMerger.Block
import GruutMerger.Lib.Fallible

/-!
# Making a block

The other way round: a block is put together from the facts of a signature
round, linked to the block before it, written as raw bytes and signed. Reading
these bytes gives the block back.
-/
namespace GruutMerger

open ByteText

variable (env : Env)

/-- What only the maker of a block needs from outside. -/
structure Maker where
  /-- `ECDSA::doSign` with the key of the merger; empty when the key cannot be used -/
  doSign : Bytes → Bytes
  /-- `Compressor::compressData` -/
  compressData : Bytes → Bytes
  /-- `json::dump` -/
  dump : Json → Bytes

@[ext] structure BasicBlockInfo where
  time : Nat
  mergerId : Bytes
  chainId : Bytes
  height : Nat
  transactionRoot : Bytes
  prevIdB64 : Bytes
  prevHashB64 : Bytes
  transactions : List Transaction
  /-- arrays of a fixed size in the source -/
  length_chainId : chainId.length = 8
  length_ids : ∀ tx ∈ transactions, tx.id.length = 32

namespace Block

/-- `initialize(BasicBlockInfo &, ...)`: without nodes the tree is computed. Members
that nothing has set yet are empty. -/
def initializeInfo (info : BasicBlockInfo) (nodes : List Bytes) : Except Failure Block := do
  let certs ← extractUserCertsIf info.transactions
  return { version := 0, time := info.time, blockId := [], mergerId := info.mergerId
           chainId := info.chainId, height := info.height, txRoot := info.transactionRoot
           prevBlockHash := [], blockHash := [], prevBlockId := [], signature := []
           transactions := info.transactions
           merkleTreeNode := if nodes = [] then calcMerkleTreeNode env info.transactions else nodes
           ssigs := [], userCerts := certs, blockRaw := [] }

/-- No signatures leave the block as it is. -/
def setSupportSignatures (b : Block) (ssigs : List Signature) : Block :=
  if ssigs = [] then b else { b with ssigs := ssigs }

def linkPreviousBlock (b : Block) (lastIdB64 lastHashB64 : Bytes) : Block :=
  { b with
    version := defaultVersion
    prevBlockId := env.base64.decode lastIdB64
    prevBlockHash := env.base64.decode lastHashB64
    blockId := env.sha256 (b.chainId ++ integerBytes 8 b.height ++ b.mergerId) }

/-- `DEFAULT_BLOCKRAW_COMP_ALGO` is LZ4. -/
def generateMetaWithCompHeader (maker : Maker) (b : Block) : Bytes :=
  let compressed := maker.compressData (maker.dump (b.getBlockHeaderJson env))
  0x04 :: integerBytes 4 ((compressed.length + 5) % 2 ^ 32) ++ compressed

def finalize (maker : Maker) (b : Block) : Block :=
  let metaHeader := b.generateMetaWithCompHeader env maker
  { b with
    signature := maker.doSign metaHeader
    blockRaw := metaHeader ++ maker.doSign metaHeader
    blockHash := env.sha256 (metaHeader ++ maker.doSign metaHeader) }

end Block

/-- The first step of `BlockGenerator::generateBlock`. -/
def makeBlock (maker : Maker) (info : BasicBlockInfo) (ssigs : List Signature) (nodes : List Bytes) :
    Except Failure Block := do
  let b ← Block.initializeInfo env info nodes
  return ((b.setSupportSignatures ssigs).linkPreviousBlock env info.prevIdB64 info.prevHashB64).finalize env maker

namespace Block

/-- The length goes through four bytes and comes back, below the sign bit of an int. -/
theorem getHeaderEnd_meta (n : Nat) (rest : Bytes) (hn : n < 2 ^ 31) (hr : n < rest.length + 5)
    (hrest : rest ≠ []) : getHeaderEnd (0x04 :: integerBytes 4 n ++ rest) = n := by
  obtain ⟨r, rest, rfl⟩ := List.exists_cons_of_ne_nil hrest
  have hbytes : integerBytes 4 n = [UInt8.ofNat (n / 256 ^ 3), UInt8.ofNat (n / 256 ^ 2),
      UInt8.ofNat (n / 256 ^ 1), UInt8.ofNat (n / 256 ^ 0)] := rfl
  have hsum : n / 256 ^ 3 % 256 * 2 ^ 24 + n / 256 ^ 2 % 256 * 2 ^ 16 + n / 256 ^ 1 % 256 * 2 ^ 8 +
      n / 256 ^ 0 % 256 = n := by omega
  have hint : toUInt64 (toInt32 n) = n := by
    rw [toInt32_of_lt hn, toUInt64]
    omega
  rw [hbytes]
  simp only [List.cons_append, List.nil_append, getHeaderEnd, UInt8.toNat_ofNat', hsum, hint,
    List.length_cons] at hr ⊢
  rw [if_neg (by omega)]

/-- What has to survive the writing and reading of a header. -/
structure Carried (maker : Maker) (header : Json) : Prop where
  decompress : env.decompressData (maker.compressData (maker.dump header)) = maker.dump header
  parse : env.parse (maker.dump header) = some header
  dump_ne : maker.dump header ≠ []
  length_lt : (maker.compressData (maker.dump header)).length + 5 < 2 ^ 31

theorem length_meta (maker : Maker) (b : Block) : (b.generateMetaWithCompHeader env maker).length =
    (maker.compressData (maker.dump (b.getBlockHeaderJson env))).length + 5 := by
  simp only [generateMetaWithCompHeader, integerBytes, List.cons_append, List.length_cons, List.length_append,
    List.length_map, List.length_range]
  omega

theorem getHeaderEnd_finalize {maker : Maker} {b : Block} {tail : Bytes}
    (hc : Carried env maker (b.getBlockHeaderJson env)) (ht : tail ≠ []) :
    getHeaderEnd (b.generateMetaWithCompHeader env maker ++ tail) = (b.generateMetaWithCompHeader env maker).length := by
  rw [length_meta, generateMetaWithCompHeader, List.append_assoc]
  have hlt := hc.length_lt
  have hpos : 0 < tail.length := List.length_pos_iff.mpr ht
  rw [Nat.mod_eq_of_lt (by omega)]
  exact getHeaderEnd_meta _ _ hlt (by rw [List.length_append]; omega) (by simp [ht])

/-- The header that is read from the raw bytes is the one that was written. -/
theorem getBlockHeader_finalize {maker : Maker} {b : Block} {tail : Bytes}
    (hc : Carried env maker (b.getBlockHeaderJson env)) (ht : tail ≠ []) :
    getBlockHeader env (b.generateMetaWithCompHeader env maker ++ tail) = .ok (b.getBlockHeaderJson env) := by
  have hend := getHeaderEnd_finalize env hc ht
  have hlen := length_meta env maker b
  have hcomp : ((b.generateMetaWithCompHeader env maker ++ tail).take
      (b.generateMetaWithCompHeader env maker).length).drop 5 =
        maker.compressData (maker.dump (b.getBlockHeaderJson env)) := by
    rw [List.take_left]
    rfl
  have hhead : (b.generateMetaWithCompHeader env maker ++ tail).head?.map UInt8.toNat = some 0x04 := rfl
  rw [getBlockHeader, hend]
  simp only [hcomp, hhead]
  rw [if_neg (by omega), if_neg (by omega), hc.decompress, parseJson, if_neg hc.dump_ne, hc.parse]
  rfl

theorem getBlockSignature_finalize {maker : Maker} {b : Block} {tail : Bytes}
    (hc : Carried env maker (b.getBlockHeaderJson env)) (ht : tail ≠ []) :
    getBlockSignature (b.generateMetaWithCompHeader env maker ++ tail) = tail := by
  have hlen := length_meta env maker b
  rw [getBlockSignature, getHeaderEnd_finalize env hc ht, if_neg (by omega), List.drop_left]

theorem getBlockMetaHeaderRaw_finalize {maker : Maker} {b : Block} {tail : Bytes}
    (hc : Carried env maker (b.getBlockHeaderJson env)) (ht : tail ≠ []) :
    getBlockMetaHeaderRaw (b.generateMetaWithCompHeader env maker ++ tail) = b.generateMetaWithCompHeader env maker := by
  rw [getBlockMetaHeaderRaw, getHeaderEnd_finalize env hc ht, List.take_left]

end Block

/-- Everything that is known of a block once it is made. -/
structure Made (maker : Maker) (info : BasicBlockInfo) (ssigs : List Signature) (nodes : List Bytes)
    (b : Block) : Prop where
  version : b.version = defaultVersion
  time : b.time = info.time
  mergerId : b.mergerId = info.mergerId
  chainId : b.chainId = info.chainId
  height : b.height = info.height
  txRoot : b.txRoot = info.transactionRoot
  prevBlockId : b.prevBlockId = env.base64.decode info.prevIdB64
  prevBlockHash : b.prevBlockHash = env.base64.decode info.prevHashB64
  blockId : b.blockId = env.sha256 (info.chainId ++ integerBytes 8 info.height ++ info.mergerId)
  transactions : b.transactions = info.transactions
  merkleTreeNode : b.merkleTreeNode = if nodes = [] then Block.calcMerkleTreeNode env info.transactions else nodes
  ssigs : b.ssigs = ssigs
  certs : Block.extractUserCertsIf info.transactions = .ok b.userCerts
  signature : b.signature = maker.doSign (b.generateMetaWithCompHeader env maker)
  blockRaw : b.blockRaw = b.generateMetaWithCompHeader env maker ++ b.signature
  blockHash : b.blockHash = env.sha256 b.blockRaw

theorem makeBlock_eq_ok {maker : Maker} {info : BasicBlockInfo} {ssigs : List Signature} {nodes : List Bytes}
    {b : Block} (h : makeBlock env maker info ssigs nodes = .ok b) : Made env maker info ssigs nodes b := by
  obtain ⟨b₀, h₀, h⟩ := Fallible.bind_eq_ok.mp h
  obtain ⟨certs, hcerts, h₀⟩ := Fallible.bind_eq_ok.mp h₀
  obtain rfl := Fallible.pure_eq_ok.mp h₀
  obtain rfl := Fallible.pure_eq_ok.mp h
  by_cases hs : ssigs = []
  · subst hs
    constructor <;> first | rfl | exact hcerts
  · simp only [Block.setSupportSignatures, if_neg hs]
    constructor <;> first | rfl | exact hcerts

/-- The block is made unless a certificate transaction holds a user without a
certificate. -/
theorem exists_makeBlock (maker : Maker) (info : BasicBlockInfo) (ssigs : List Signature) (nodes : List Bytes)
    {certs : List (Bytes × Bytes)} (h : Block.extractUserCertsIf info.transactions = .ok certs) :
    ∃ b, makeBlock env maker info ssigs nodes = .ok b := by
  simp only [makeBlock, Block.initializeInfo, h, bind, Except.bind, pure, Except.pure]
  exact ⟨_, rfl⟩

/-- The header only depends on the round and on hashing and base64. -/
theorem Made.header_eq {env env' : Env} {maker maker' : Maker} {info : BasicBlockInfo} {ssigs : List Signature}
    {nodes nodes' : List Bytes} {b c : Block} (h : Made env maker info ssigs nodes b)
    (h' : Made env' maker' info ssigs nodes' c) (hb : env.base64 = env'.base64) (hs : env.sha256 = env'.sha256) :
    b.getBlockHeaderJson env = c.getBlockHeaderJson env' := by
  have hssig : Block.ssigJson env = Block.ssigJson env' := by
    funext s
    simp only [Block.ssigJson, hb]
  simp only [Block.getBlockHeaderJson, hssig, h.version, h.time, h.mergerId, h.chainId, h.height,
    h.txRoot, h.prevBlockId, h.prevBlockHash, h.blockId, h.transactions, h.ssigs, h'.version, h'.time,
    h'.mergerId, h'.chainId, h'.height, h'.txRoot, h'.prevBlockId, h'.prevBlockHash, h'.blockId,
    h'.transactions, h'.ssigs, hb, hs]

/-- What a round has to bring for its block to be readable. -/
structure BasicBlockInfo.Readable (info : BasicBlockInfo) : Prop where
  time_lt : info.time < 2 ^ 63
  height_lt : info.height < 2 ^ 63
  times_lt : ∀ tx ∈ info.transactions, tx.sentTime < 2 ^ 63

theorem Made.read {maker : Maker} {info : BasicBlockInfo} {ssigs : List Signature} {nodes tree : List Bytes}
    {b : Block} (h : Made env maker info ssigs nodes b) (hi : info.Readable) (hs : ssigs ≠ [])
    (hsig : b.signature ≠ []) (hc : Block.Carried env maker (b.getBlockHeaderJson env))
    (htree : Block.calcMerkleTreeNode env b.transactions = tree) :
    Block.initializeRaw env b.blockRaw (b.getBlockTXsAsJson env) = .ok (some { b with merkleTreeNode := tree }) := by
  have hcons : Block.Consistent env { b with merkleTreeNode := tree } :=
    { raw_ne := by simp [h.blockRaw, hsig]
      version_lt := by simp [h.version, defaultVersion]
      time_lt := h.time ▸ hi.time_lt
      height_lt := h.height ▸ hi.height_lt
      chain := h.chainId ▸ info.length_chainId
      ssigs_ne := h.ssigs ▸ hs
      hash := h.blockHash
      sig := by
        show b.signature = Block.getBlockSignature b.blockRaw
        rw [h.blockRaw, Block.getBlockSignature_finalize env hc hsig]
      tree := htree.symm
      certs := h.transactions ▸ h.certs
      ids := h.transactions ▸ info.length_ids
      times := h.transactions ▸ hi.times_lt }
  have hheader : Block.getBlockHeader env b.blockRaw = .ok (b.getBlockHeaderJson env) := by
    rw [h.blockRaw]
    exact Block.getBlockHeader_finalize env hc hsig
  exact hcons.initializeRaw env hheader

/-- The number of transactions, and the root over them. -/
structure BasicBlockInfo.Rooted (info : BasicBlockInfo) : Prop where
  pos : 1 ≤ info.transactions.length
  le : info.transactions.length ≤ maxMerkleLeaves
  root : (Block.calcMerkleTreeNode env info.transactions).getLast? = some info.transactionRoot

/-- The early check of a block with the raw bytes and header of a made one comes down to
its root and its transactions. -/
theorem Made.isValidEarly {maker : Maker} {info : BasicBlockInfo} {ssigs : List Signature} {nodes : List Bytes}
    {b c : Block} (h : Made env maker info ssigs nodes b) (hsig : b.signature ≠ [])
    (hc : Block.Carried env maker (b.getBlockHeaderJson env)) (hcert : env.getCert info.mergerId ≠ [])
    (hsign : ∀ msg, env.doVerify (env.getCert info.mergerId) msg (maker.doSign msg) = true)
    (hraw : c.blockRaw = b.blockRaw) (hcs : c.signature = b.signature) (hm : c.mergerId = b.mergerId)
    (hroot : c.merkleTreeNode.getLast? = some c.txRoot)
    (htxs : ∀ tx ∈ c.transactions, tx.isValid env (env.getCert tx.requestorId) = true) :
    c.isValidEarly env = true := by
  refine (Block.isValidEarly_iff env).mpr ⟨by simp [hraw, h.blockRaw, hsig], hcs ▸ hsig, hroot, htxs, ?_, ?_⟩
  · rw [hm, h.mergerId]
    exact hcert
  · rw [hraw, h.blockRaw, Block.getBlockMetaHeaderRaw_finalize env hc hsig, hm, h.mergerId, hcs, h.signature]
    exact hsign _

/-- A transaction time from 2^63 on is written but not read. -/
theorem Block.not_read_of_time {b : Block} {tx : Transaction} (htx : tx ∈ b.transactions)
    (hid : tx.id.length = 32) (ht : 2 ^ 63 ≤ tx.sentTime) (c : Block) :
    Block.initializeRaw env b.blockRaw (b.getBlockTXsAsJson env) ≠ .ok (some c) := by
  intro h
  obtain ⟨_, _, _, _, _, txs, _, h⟩ := (Block.initializeRaw_eq_some env).mp h
  have hread : Block.readTransaction env (tx.getJson env) = .error .std := by
    have htxid : Safe.getBytesFromB64 env.base64 (tx.getJson env) "txid" = tx.id :=
      Safe.getBytesFromB64_encode rfl
    have htime : Safe.getTimeOf (tx.getJson env) "time" = .error .std :=
      Safe.parseDecimal_decimal_of_le tx.sentTime ht
    simp [Block.readTransaction, Transaction.setJson, htxid, hid, htime, bind, Except.bind, Except.map]
  have hmem : tx.getJson env ∈ (b.getBlockTXsAsJson env).elements := List.mem_map_of_mem htx
  obtain ⟨t, _, ht⟩ := Fallible.mapM_ok_left h.txs_eq _ hmem
  rw [hread] at ht
  cases ht

end GruutMerger
