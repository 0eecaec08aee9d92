import GruutMerger.Pool

/-!
# The pool with its storage

The operations of the pool together with what they do outside it: the backup
records, the ledger calls of newly linked blocks, and the layer used for reads.
-/
namespace GruutMerger

open ByteText KeyValue

variable (env : Env)

structure ChainState where
  pool : Pool
  layered : LayeredStorage

def unresolvedBlockIdsKey : Bytes := ascii "UNRESOLVED_BLOCK_IDS_KEY"

/-- The ids of the backup list; anything but an array counts as no list. -/
def Records.readBackupIds (d : Records) : List Json :=
  match d.readBackup unresolvedBlockIdsKey with
  | .cbor (.array ids) => ids
  | _ => []

namespace Storage

def backupEntry (b : Block) : Except Failure Entry :=
  (b.serialize env).map fun v => ⟨.blockBackup, b.getBlockIdB64 env, v⟩

def backupIdsEntry (ids : List Bytes) : Entry :=
  ⟨.blockBackup, unresolvedBlockIdsKey, .cbor (.array (ids.map .string))⟩

def backupPool (s : Storage) (bins : List Bin) : Except Failure Storage := do
  let entries ← bins.flatten.mapM fun e => backupEntry env e.block
  let ids := bins.flatten.map fun e => e.block.getBlockIdB64 env
  return (s.addBatch (entries ++ [backupIdsEntry ids])).flushBackup

/-- The end of `getResolvedBlocks`: resolved ids leave the list, dropped ids stay
in it, and both kinds of records are asked to be deleted. -/
def trimBackup (s : Storage) (resolved drops : List Bytes) : Storage :=
  let ids := (s.disk.readBackupIds.map Safe.getString).filter fun id => decide (id ≠ [])
  if s.disk.readBackupIds.isEmpty then s
  else
    let kept := ids.filter fun id => decide (id ∉ resolved)
    let gone := ids.filter fun id => decide (id ∈ resolved)
    ((drops ++ gone).foldl delBackup (s.addBatch [backupIdsEntry kept])).flushBackup

def logResolved (s : Storage) (blocks : List Block) : Storage :=
  { s with log := s.log ++ blocks.map .resolved }

end Storage

namespace ChainState

def mapStorage (c : ChainState) (f : Storage → Storage) : ChainState :=
  { c with layered := { c.layered with storage := f c.layered.storage } }

/-- One ledger call of `forwardBlockToLedgerAt`. -/
def forwardBlock (ls : LayeredStorage) (f : Pool.Forward) : Except Failure LayeredStorage :=
  procLedgerBlock env ls (f.block.getBlockTXsAsJson env) (f.block.getBlockIdB64 env) f.layer

/-- A restored block is not backed up again. -/
def backupUnless (isRestore : Bool) (s : Storage) (bins : List Bin) : Except Failure Storage :=
  if isRestore then .ok s else s.backupPool env bins

/-- What an accepted push does outside the pool. -/
def applyAccepted (isRestore : Bool) (ls : LayeredStorage) (a : Pool.Accepted) :
    Except Failure LayeredStorage := do
  let storage ← backupUnless env isRestore ls.storage a.stored
  let forwarded ← a.forwards.foldlM (forwardBlock env) { ls with storage := storage }
  return { forwarded with blockLayer := a.layer }

/-- `push` with its effects. -/
def push (now : Nat) (c : ChainState) (block : Block) (isRestore : Bool) :
    Except Failure (PushResult × ChainState) := do
  let (result, pool, accepted) ← c.pool.push env now block
  match accepted with
  | none => return (result, { c with pool := pool })
  | some a => return (result, ⟨pool, ← applyAccepted env isRestore c.layered a⟩)

def getResolvedBlocks (c : ChainState) : List UnresolvedBlock × List Bytes × ChainState :=
  let r := c.pool.resolve env
  let c := ({ c with pool := r.2.2 }).mapStorage fun s =>
    s.logResolved (r.1.map fun e : UnresolvedBlock => e.block)
  (r.1, r.2.1, c.mapStorage fun s =>
    s.trimBackup (r.1.map fun e : UnresolvedBlock => e.block.getBlockIdB64 env) r.2.1)

/-- One turn of the loop of `restorePool`. -/
def restoreOne (now : Nat) (c : ChainState) (id : Json) : Except Failure ChainState := do
  let id := Safe.getString id
  if id = [] then
    return c
  let record := c.layered.storage.disk.readBackup id
  if record.isEmpty then
    return c
  match ← Block.deserialize env record with
  | none => return c
  | some block => return (← c.push env now block true).2

/-- `restorePool`; the clock is read anew for each block. -/
def restorePool (clock : Nat → Nat) (c : ChainState) : Except Failure ChainState :=
  c.layered.storage.disk.readBackupIds.zipIdx.foldlM (fun c x => restoreOne env (clock x.2) c x.1) c

/-- The start of a merger on what is on disk. -/
def start (clock : Nat → Nat) (disk : Records) : Except Failure ChainState := do
  let link ← disk.getNthBlockLinkInfo env 0
  restorePool env clock
    { pool := Pool.fresh.setPool link.id link.prevId link.hash link.prevHash link.height link.time
      layered := ⟨⟨disk, fun _ => [], []⟩, [], []⟩ }

/-- The start on empty storage. -/
def initial : ChainState where
  pool := Pool.fresh.setPool (genesisBlockPrevId env) [] (genesisBlockPrevHash env) [] 0 0
  layered := ⟨Storage.empty, [], []⟩

theorem start_empty (clock : Nat → Nat) :
    start env clock Storage.empty.disk = .ok (initial env) := rfl

end ChainState
end GruutMerger
