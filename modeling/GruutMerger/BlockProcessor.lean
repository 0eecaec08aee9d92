import GruutMerger.ChainState

/-!
# Block processor

A received block is read, checked, pushed into the pool, and what the pool
resolves is checked again and saved. Failures of the late check and of saving
are only logged by the source.
-/
namespace GruutMerger

open ByteText

variable (env : Env)

structure BlockRequest where
  hashB64 : Bytes
  prevHashB64 : Bytes
  height : Nat
  recvId : Bytes
  requestTime : Nat
  numRetry : Nat

/-- The pool with its storage, the open requests, the last sender, the ids of
pending transactions, and the `MSG_CHAIN_INFO` bodies sent so far. -/
structure Merger where
  chain : ChainState
  requestList : List BlockRequest
  lastBlockSender : Bytes
  pendingTxIds : List Bytes
  chainInfo : List Json

namespace ChainState

/-- `m_get_user_cert_func`, reading through the installed layer. -/
def getUserCert (ls : LayeredStorage) : Bytes → Nat → Except Failure Bytes :=
  env.getUserCert fun key => ls.readLedgerByKey key []

def logEvent (ls : LayeredStorage) (e : Event) : LayeredStorage :=
  { ls with storage := { ls.storage with log := ls.storage.log ++ [e] } }

/-- `saveBlock` for a block that passed the late check, and the promotion of its
ledger records; the answer of `saveBlock` is not looked at. -/
def saveChecked (ls : LayeredStorage) (block : Block) : Except Failure LayeredStorage := do
  let body ← block.getBlockBodyJson env
  match ls.storage.saveBlock env block.blockRaw (block.getBlockHeaderJson env) body with
  | (.error failure, _) => .error failure
  | (.ok _, storage) => return ({ ls with storage := storage }).moveToDiskLedger (block.getBlockIdB64 env)

/-- One resolved block. -/
def saveResolved (ls : LayeredStorage) (e : UnresolvedBlock) : Except Failure LayeredStorage := do
  let valid ← e.block.isValidLate env (getUserCert env ls)
  if valid then
    saveChecked env (logEvent ls (.checked e.block true)) e.block
  else
    return logEvent ls (.checked e.block false)

def procResolvedBlocksIf (c : ChainState) : Except Failure ChainState := do
  let r := c.getResolvedBlocks env
  let layered ← r.1.foldlM (saveResolved env) (r.2.1.foldl LayeredStorage.dropLedger r.2.2.layered)
  return { r.2.2 with layered := layered }

end ChainState

namespace Merger

def chainInfoBody (link : NthLink) : Json :=
  .object
    [("bID", .string (env.base64.encode link.id)),
     ("cID", .string (env.base64.encode env.myChainId)),
     ("hash", .string (env.base64.encode link.hash)),
     ("hgt", .string (decimal link.height)),
     ("mID", .string (env.base64.encode env.myId)),
     ("mSig", .string []),
     ("msgID", .string (decimal 0x72)),
     ("prevHash", .string (env.base64.encode link.prevHash)),
     ("prevbID", .string (env.base64.encode link.prevId)),
     ("time", .string (decimal link.time))]

/-- Ask for the block after the longest chain, unless that is already asked for. -/
def tryResolveUnresolvedBlocksIf (m : Merger) : Except Failure Merger := do
  let ((height, prevHash), pool) ← m.chain.pool.getUnresolvedLowestLink
  let m := { m with chain := { m.chain with pool := pool } }
  let prevHashB64 := env.base64.encode prevHash
  if height = 0 ∨ m.requestList.any (fun r =>
      decide (r.height = height) && decide (r.prevHashB64 = prevHashB64)) then
    return m
  return { m with requestList := m.requestList ++
    [⟨[], prevHashB64, height, [], 0, 0⟩] }

/-- Whether a received block answers a request. -/
def answers (block : Block) (r : BlockRequest) : Bool :=
  decide (r.height = block.height) &&
    (r.hashB64.isEmpty || decide (r.hashB64 = env.base64.encode block.blockHash)) &&
    (r.prevHashB64.isEmpty || decide (r.prevHashB64 = env.base64.encode block.prevBlockHash))

/-- A linked block: send the link of the longest chain, then resolve. -/
def announceIf (m : Merger) (linked : Bool) : Except Failure Merger := do
  if !linked then
    return m
  let (link, pool) ← m.chain.pool.getMostPossibleLink
  let chain ← ({ m.chain with pool := pool }).procResolvedBlocksIf env
  return { m with chain := chain, chainInfo := m.chainInfo ++ [chainInfoBody env link] }

/-- The part of `handleMsgBlock` after the early check; `sender` is the body's
`mID`. -/
def processBlock (now : Nat) (m : Merger) (block : Block) (sender : Bytes) :
    Except Failure (PushResult × Merger) := do
  let (result, chain) ← m.chain.push env now block false
  let m := { m with chain := chain }
  if result.height = 0 then
    return (result, m)
  if result.duplicated then
    return (result, ← m.tryResolveUnresolvedBlocksIf env)
  let m := { m with
    requestList := m.requestList.filter fun r => !answers env block r
    lastBlockSender := sender }
  let m ← m.announceIf env result.linked
  let m := { m with pendingTxIds := m.pendingTxIds.filter fun id => decide (id ∉ block.getTxIds) }
  return (result, ← m.tryResolveUnresolvedBlocksIf env)

def handleMsgBlock (now : Nat) (m : Merger) (body : Json) : Except Failure (PushResult × Merger) := do
  match ← Block.initializeBody env body with
  | none => return (Pool.rejected, m)
  | some block =>
    if !block.isValidEarly env then
      return (Pool.rejected, m)
    m.processBlock env now block (Safe.getBytesFromB64 env.base64 body "mID")

end Merger
end GruutMerger
