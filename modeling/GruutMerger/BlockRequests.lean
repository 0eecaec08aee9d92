import GruutMerger.BlockSynchronizer

/-!
# Requests for blocks and headers

The block processor looks for a requested block in the pool and then in the
storage, and reads it from its record before it sends it. What reading answers
is not looked at.
-/
namespace GruutMerger

open ByteText Fallible

variable (env : Env)

/-- `getBlock` by height alone. As in the other one, the branch for height 0 is dead. -/
def Pool.getBlockAt (p : Pool) (height : Nat) : Option Block :=
  if p.blockPool.isEmpty || decide (height ≤ p.lastHeight) ||
      decide (p.lastHeight + p.blockPool.length < height) || decide (binIdx p.lastHeight height < 0) then none
  else ((p.bin (binIdx p.lastHeight height).toNat).find? fun e => decide (e.block.height = height)).map (·.block)

namespace Block

/-- `initialize(storage_block_type &)` -/
def initializeSaved (saved : StorageBlock) : Except Failure (Option Block) :=
  initializeRaw env saved.blockRaw (.array saved.txs)

/-- The members of a block after `initialize` answered false, for a reader of its
header: without a header they were never set, and without an array of signatures
they are all set but the signatures and the transactions. -/
def halfInitialized (raw : Bytes) : Except Failure Block := do
  if raw = [] then
    throw .undefined
  let header ← getBlockHeader env raw
  if header.isEmpty then
    throw .undefined
  let version ← Safe.getInt header "ver"
  let time ← Safe.getTimeOf header "time"
  let height ← Safe.getInt header "hgt"
  return assemble env [] header version time height (.array []) [] []

end Block

namespace Merger

/-- `Storage::empty` -/
def storageEmpty (m : Merger) : Bool := (m.chain.layered.storage.disk.getText .blockLatest (ascii "bID")).isEmpty

def sendErrorMessage (now : Nat) (type : ErrorMsgType) (receiver : Bytes) : OutputMsgEntry where
  type := .errorMsg
  body := .object [("sender", .string (env.base64.encode env.myId)), ("time", .string (decimal now)),
    ("type", .string (decimal type.code)), ("info", .string (ascii "no block!"))]
  receivers := [receiver]

/-- MSG_BLOCK with the raw bytes and the transactions of a block. -/
def blockMessage (raw : Bytes) (txs : Json) (receiver : Bytes) : OutputMsgEntry where
  type := .block
  body := .object [("mID", .string (env.base64.encode env.myId)), ("blockraw", .string (env.base64.encode raw)),
    ("tx", txs)]
  receivers := [receiver]

/-- The message for a block; its transactions are taken from the body JSON. -/
def sendBlock (block : Block) (receiver : Bytes) : Except Failure OutputMsgEntry := do
  let body ← block.getBlockBodyJson env
  return blockMessage env block.blockRaw (← body.field "tx") receiver

/-- A record of the storage fits a request. -/
def fits (saved : StorageBlock) (prevHash hash : Bytes) : Bool :=
  decide (0 < saved.height) && (prevHash.isEmpty || decide (saved.prevHash = prevHash)) &&
    (hash.isEmpty || decide (saved.hash = hash))

def handleMsgReqBlock (now : Nat) (m : Merger) (body : Json) : Except Failure OutputMsgEntry := do
  let height ← Safe.getInt body "hgt"
  let prevHash := Safe.getBytesFromB64 env.base64 body "prevHash"
  let hash := Safe.getBytesFromB64 env.base64 body "hash"
  let sender := Safe.getBytesFromB64 env.base64 body "mID"
  if m.chain.pool.blockPool.isEmpty && m.storageEmpty then
    return sendErrorMessage env now .bsyncNoBlock sender
  match m.chain.pool.getBlock height prevHash hash with
  | some block => sendBlock env block sender
  | none =>
    let saved ← m.chain.layered.storage.disk.readBlock env height
    if fits saved prevHash hash then
      match ← Block.initializeSaved env saved with
      | some block => sendBlock env block sender
      | none => return blockMessage env [] (.array []) sender
    else return sendErrorMessage env now .noSuchBlock sender

/-- `handleMsgRequestHeader`. A found header goes to nobody in particular. -/
def handleMsgRequestHeader (now : Nat) (m : Merger) (body : Json) : Except Failure OutputMsgEntry := do
  let sender := Safe.getBytesFromB64 env.base64 body "rID"
  if m.chain.pool.blockPool.isEmpty && m.storageEmpty then
    return sendErrorMessage env now .noSuchBlock sender
  let height ← Safe.getInt body "hgt"
  match m.chain.pool.getBlockAt height with
  | some block => return ⟨.header, .object [("blockraw", block.getBlockHeaderJson env)], []⟩
  | none =>
    let saved ← m.chain.layered.storage.disk.readBlock env height
    if 0 < saved.height then
      let block ← match ← Block.initializeSaved env saved with
        | some block => .ok block
        | none => Block.halfInitialized env saved.blockRaw
      return ⟨.header, .object [("blockraw", block.getBlockHeaderJson env)], []⟩
    else return sendErrorMessage env now .noSuchBlock sender

variable {env}

/-- How a request for a block can be answered. -/
theorem reqBlock_eq_ok {now : Nat} {m : Merger} {body : Json} {height : Nat} {reply : OutputMsgEntry}
    (hheight : Safe.getInt body "hgt" = .ok height) (h : m.handleMsgReqBlock env now body = .ok reply) :
    reply.type = .errorMsg ∨
    (∃ block, m.chain.pool.getBlock height (Safe.getBytesFromB64 env.base64 body "prevHash")
        (Safe.getBytesFromB64 env.base64 body "hash") = some block ∧
      sendBlock env block (Safe.getBytesFromB64 env.base64 body "mID") = .ok reply) ∨
    ∃ saved, m.chain.pool.getBlock height (Safe.getBytesFromB64 env.base64 body "prevHash")
        (Safe.getBytesFromB64 env.base64 body "hash") = none ∧
      m.chain.layered.storage.disk.readBlock env height = .ok saved ∧
      fits saved (Safe.getBytesFromB64 env.base64 body "prevHash") (Safe.getBytesFromB64 env.base64 body "hash") = true ∧
      ((∃ block, Block.initializeSaved env saved = .ok (some block) ∧
          sendBlock env block (Safe.getBytesFromB64 env.base64 body "mID") = .ok reply) ∨
        Block.initializeSaved env saved = .ok none ∧
          reply = blockMessage env [] (.array []) (Safe.getBytesFromB64 env.base64 body "mID")) := by
  unfold handleMsgReqBlock at h
  rw [hheight] at h
  obtain ⟨_, ⟨⟩, h⟩ := bind_eq_ok.mp h
  dsimp only at h
  split at h
  · cases h
    exact Or.inl rfl
  · split at h
    · rename_i block hfound
      exact Or.inr (Or.inl ⟨block, hfound, h⟩)
    · rename_i hnone
      obtain ⟨saved, hread, h⟩ := bind_eq_ok.mp h
      split at h
      · rename_i hfits
        refine Or.inr (Or.inr ⟨saved, hnone, hread, hfits, ?_⟩)
        obtain ⟨result, hinit, h⟩ := bind_eq_ok.mp h
        cases result with
        | some block => exact Or.inl ⟨block, hinit, h⟩
        | none =>
          cases h
          exact Or.inr ⟨hinit, rfl⟩
      · cases h
        exact Or.inl rfl

/-- A request that finds a block in the pool. -/
theorem reqBlock_of_pool {now : Nat} {m : Merger} {body : Json} {height : Nat} {block : Block}
    (hheight : Safe.getInt body "hgt" = .ok height)
    (hfound : m.chain.pool.getBlock height (Safe.getBytesFromB64 env.base64 body "prevHash")
      (Safe.getBytesFromB64 env.base64 body "hash") = some block) :
    m.handleMsgReqBlock env now body = sendBlock env block (Safe.getBytesFromB64 env.base64 body "mID") := by
  have hpool : m.chain.pool.blockPool.isEmpty = false := by
    cases hempty : m.chain.pool.blockPool.isEmpty with
    | false => rfl
    | true => simp [Pool.getBlock, hempty] at hfound
  simp [handleMsgReqBlock, hheight, hpool, hfound, bind, Except.bind]

/-- A request that finds nothing in the pool and a block in the storage. -/
theorem reqBlock_of_storage {now : Nat} {m : Merger} {body : Json} {height : Nat} {saved : StorageBlock} {block : Block}
    (hheight : Safe.getInt body "hgt" = .ok height) (hempty : m.storageEmpty = false)
    (hnone : m.chain.pool.getBlock height (Safe.getBytesFromB64 env.base64 body "prevHash")
      (Safe.getBytesFromB64 env.base64 body "hash") = none)
    (hread : m.chain.layered.storage.disk.readBlock env height = .ok saved)
    (hfits : fits saved (Safe.getBytesFromB64 env.base64 body "prevHash")
      (Safe.getBytesFromB64 env.base64 body "hash") = true)
    (hinit : Block.initializeSaved env saved = .ok (some block)) :
    m.handleMsgReqBlock env now body = sendBlock env block (Safe.getBytesFromB64 env.base64 body "mID") := by
  simp [handleMsgReqBlock, hheight, hempty, hnone, hread, hfits, hinit, bind, Except.bind]

end Merger

end GruutMerger
