import GruutMerger.Lib.Forest
import GruutMerger.Ledger

/-!
# Unresolved block pool

Blocks above the last resolved one, in bins by height. Each entry names the
index of its parent in the bin below, so the bins are a levelled forest whose
roots hang on the last block. This file has the pool on its own; the backup
records and the ledger behind it come in with the storage.
-/
namespace GruutMerger

open ByteText Forest

variable (env : Env)

structure UnresolvedBlock where
  prevVectorIdx : Int
  linked : Bool
  confirmLevel : Nat
  blockLayer : List Bytes
  block : Block

abbrev Bin := List UnresolvedBlock

/-- Height and index in the bin. -/
abbrev BlockPosOnMap := Nat × Nat

/-- A cache is `none` while its `m_has_cache` flag is false. -/
structure Pool where
  blockPool : List Bin
  lastBlockId : Bytes
  prevBlockId : Bytes
  lastHash : Bytes
  prevHash : Bytes
  lastHeight : Nat
  lastTime : Nat
  heightRangeMax : Nat
  cacheLink : Option NthLink
  cacheBlockLayer : Option (List Bytes)
  cachePos : Option BlockPosOnMap

structure PushResult where
  linked : Bool
  duplicated : Bool
  height : Nat
  blockLayer : List Bytes
  deriving DecidableEq

namespace Pool

def fresh : Pool :=
  { blockPool := [], lastBlockId := [], prevBlockId := [], lastHash := [], prevHash := []
    lastHeight := 0, lastTime := 0, heightRangeMax := 0
    cacheLink := none, cacheBlockLayer := none, cachePos := none }

def invalidateCaches (p : Pool) : Pool :=
  { p with cacheLink := none, cacheBlockLayer := none, cachePos := none }

/-- The previous hash is stored over the previous id, and `m_prev_hash` is left
as it was. -/
def setPool (p : Pool) (lastBlockId _prevBlockId lastHash prevHash : Bytes) (lastHeight lastTime : Nat) :
    Pool :=
  { p with
    lastBlockId := lastBlockId
    prevBlockId := prevHash
    lastHash := lastHash
    lastHeight := lastHeight
    lastTime := lastTime
    heightRangeMax := lastHeight }

def bin (p : Pool) (i : Nat) : Bin := p.blockPool.getD i []

/-- `getLongestBlockPos` without its cache. The lambda and the loop over the
first bin are one depth-first walk. -/
def searchLongestPos (bins : List Bin) : BlockPosOnMap :=
  dfs UnresolvedBlock.prevVectorIdx (relax fun e => e.block.height) bins 0 (0, 0)

def getLongestBlockPos (p : Pool) : BlockPosOnMap × Pool :=
  match p.cachePos with
  | some pos => (pos, p)
  | none => (searchLongestPos p.blockPool, { p with cachePos := some (searchLongestPos p.blockPool) })

/-- The bin of a height above the last one, as the int the source computes. -/
def binIdx (last height : Nat) : Int := toInt32 (sub64 height last) - 1

def lastLink (p : Pool) : NthLink :=
  { id := p.lastBlockId, prevId := p.prevBlockId, hash := p.lastHash, prevHash := p.prevHash
    height := p.lastHeight, time := p.lastTime }

/-- The link of a pool block; previous id and previous hash change places. -/
def entryLink (e : UnresolvedBlock) : NthLink :=
  { id := e.block.blockId, prevId := e.block.prevBlockHash, hash := e.block.blockHash
    prevHash := e.block.prevBlockId, height := e.block.height, time := e.block.time }

/-- The link at a position, and the last block's for a position not above it. -/
def linkAt (bins : List Bin) (last : NthLink) (pos : BlockPosOnMap) : Except Failure NthLink :=
  if last.height < pos.1 ∧ 0 ≤ binIdx last.height pos.1 then
    match node bins (binIdx last.height pos.1).toNat pos.2 with
    | some e => .ok (entryLink e)
    | none => .error .undefined
  else .ok last

def getMostPossibleLink (p : Pool) : Except Failure (NthLink × Pool) :=
  match p.cacheLink with
  | some link => .ok (link, p)
  | none =>
    if p.blockPool.isEmpty then .ok (p.lastLink, { p with cacheLink := some p.lastLink })
    else do
      let (pos, p) := p.getLongestBlockPos
      let link ← linkAt p.blockPool p.lastLink pos
      return (link, { p with cacheLink := some link })

/-- The ids from a position down to the first bin. -/
def layerAt (bins : List Bin) (last : Nat) (pos : BlockPosOnMap) : Except Failure (List Bytes) :=
  -- a difference of `int`s
  if binIdx last pos.1 < -2 ^ 31 then .error .undefined
  else if binIdx last pos.1 < 0 then .ok []
  else match ascend UnresolvedBlock.prevVectorIdx bins (binIdx last pos.1).toNat pos.2 with
    | some path => .ok (path.map fun e => e.block.getBlockIdB64 env)
    | none => .error .undefined

def getMostPossibleBlockLayer (p : Pool) : Except Failure (List Bytes × Pool) :=
  match p.cacheBlockLayer with
  | some layer => .ok (layer, p)
  | none => do
    let (pos, p) := p.getLongestBlockPos
    let layer ← layerAt env p.blockPool p.lastHeight pos
    return (layer, { p with cacheBlockLayer := some layer })

/-- Height and previous hash of the block to ask for, height 0 if there is none. -/
def getUnresolvedLowestLink (p : Pool) : Except Failure ((Nat × Bytes) × Pool) :=
  let (pos, p) := p.getLongestBlockPos
  if p.lastHeight ≤ pos.1 ∧ pos.1 < p.blockPool.length + p.lastHeight then
    if pos.1 = p.lastHeight then .ok ((p.lastHeight + 1, p.lastHash), p)
    else if 0 ≤ binIdx p.lastHeight pos.1 then
      match node p.blockPool (binIdx p.lastHeight pos.1).toNat pos.2 with
      | some e => .ok ((e.block.height + 1, e.block.blockHash), p)
      | none => .error .undefined
    else .ok ((0, []), p)
  else .ok ((0, []), p)

/-- `getBlock` with filters, either of which may be empty. A height of 0 never
gets past the first check, so the branch for it is dead. -/
def getBlock (p : Pool) (height : Nat) (prevHash hash : Bytes) : Option Block :=
  if p.blockPool.isEmpty || decide (height ≤ p.lastHeight) ||
      decide (p.lastHeight + p.blockPool.length < height) || decide (binIdx p.lastHeight height < 0) then none
  else ((p.bin (binIdx p.lastHeight height).toNat).find? fun e =>
    (prevHash.isEmpty || decide (e.block.prevBlockHash = prevHash)) &&
      (hash.isEmpty || decide (e.block.blockHash = hash))).map (·.block)

/-- Where a block id first occurs, lowest bin first. -/
def findBlock (idB64 : Bytes) : List Bin → Option (Nat × Nat)
  | [] => none
  | bin :: rest =>
    match bin.findIdx? fun e => decide (e.block.getBlockIdB64 env = idB64) with
    | some j => some (0, j)
    | none => (findBlock idB64 rest).map fun pos => (pos.1 + 1, pos.2)

/-- The ids met going up, without the id one started from; `none` when the way
up ends before the last block. -/
def layerUp (bins : List Bin) (own : Bytes) : Nat → Int → Except Failure (Option (List Bytes))
  | i, q =>
    match node bins i q.toNat with
    | none => .error .undefined
    | some e =>
      let id := e.block.getBlockIdB64 env
      let here := if id = own then [] else [id]
      if e.prevVectorIdx < 0 then .ok none
      else match i with
        | 0 => .ok (some here)
        | i + 1 => (layerUp bins own i e.prevVectorIdx).map fun r => r.map (here ++ ·)

def getBlockLayer (bins : List Bin) (idB64 : Bytes) : Except Failure (List Bytes) :=
  if idB64 = [] then .ok []
  else match findBlock env idB64 bins with
    | none => .ok []
    | some pos => (layerUp env bins idB64 pos.1 pos.2).map fun r => r.getD []

/-- Too few block intervals have passed since the last block, in 64-bit arithmetic. -/
def tooEarly (now : Nat) (p : Pool) (height : Nat) : Bool :=
  decide (sub64 now p.lastTime < mul64 (sub64 (sub64 height p.lastHeight) 1) bpInterval)

/-- `resize` of the deque, which never gets smaller here. -/
def grow (p : Pool) (n : Nat) : Pool :=
  { p with blockPool := p.blockPool ++ List.replicate (n - p.blockPool.length) [] }

/-- Make room up to the bin of a height, unless the height is too low or too
early. An int conversion below zero asks for a deque of impossible size. -/
def prepareBins (now : Nat) (p : Pool) (height : Nat) : Except Failure (Bool × Pool) :=
  if p.lastHeight ≥ height then .ok (false, p)
  else if p.tooEarly now height then .ok (false, p)
  else if binIdx p.lastHeight height + 1 < 0 then .error .std
  else .ok (true, p.grow (binIdx p.lastHeight height + 1).toNat)

def namesPrev (block parent : Block) : Bool :=
  decide (parent.blockId = block.prevBlockId) && decide (parent.blockHash = block.prevBlockHash)

/-- The first entry that a block names as its previous one. -/
def linkIndex (bin : Bin) (block : Block) : Int :=
  match bin.findIdx? fun e => namesPrev block e.block with
  | some k => k
  | none => -1

def namesLast (p : Pool) (block : Block) : Bool :=
  decide (block.prevBlockId = p.lastBlockId) && decide (block.prevBlockHash = p.lastHash)

/-- The parent index of a new block of bin `i`; `none` when it is in the first
bin and not on top of the last block. -/
def prevQueueIdx (p : Pool) (i : Nat) (block : Block) : Option Int :=
  match i with
  | 0 => if p.namesLast block then some 0 else none
  | i + 1 => some (linkIndex (p.bin i) block)

/-- A ledger call that a push makes: where the block stands, and the layer it is
handed. -/
structure Forward where
  level : Nat
  idx : Nat
  layer : List Bytes
  block : Block

/-- `recBlockToLedger`. The layer grows by each child in turn, so a child also
gets the ids of the siblings before it. -/
def forwardRec : List Bin → Nat → List Bytes → List Forward
  | [], _, _ => []
  | bin :: rest, prev, layer =>
    (bin.zipIdx.foldl (fun (acc : List Bytes × List Forward) x =>
      if x.1.prevVectorIdx = (prev : Int) then
        let below := x.1.block.getBlockIdB64 env :: acc.1
        (below, acc.2 ++ ⟨0, x.2, acc.1, x.1.block⟩ ::
          (forwardRec rest x.2 below).map fun f => { f with level := f.level + 1 })
      else acc) (layer, [])).2

/-- `forwardBlocksToLedgerFrom`: the block itself with its own layer, then
everything below it, starting from the same layer. -/
def forwardsFrom (bins : List Bin) (i j : Nat) (e : UnresolvedBlock) : List Forward :=
  ⟨i, j, e.blockLayer, e.block⟩ ::
    (forwardRec env (bins.drop (i + 1)) j e.blockLayer).map fun f =>
      { f with level := f.level + (i + 1) }

def modifyEntry (bins : List Bin) (i j : Nat) (f : UnresolvedBlock → UnresolvedBlock) : List Bin :=
  bins.modify i fun bin => bin.modify j f

/-- The layers that forwarding writes into the entries. -/
def setLayers (bins : List Bin) (fs : List Forward) : List Bin :=
  fs.foldl (fun bins f => modifyEntry bins f.level f.idx fun e => { e with blockLayer := f.layer }) bins

/-- Entries of the next bin that were waiting for this block. -/
def patchNext (bins : List Bin) (i queueIdx : Nat) (block : Block) : List Bin :=
  bins.modify (i + 1) fun bin => bin.map fun e =>
    if namesPrev e.block block && decide (e.prevVectorIdx < 0) then { e with prevVectorIdx := queueIdx }
    else e

/-- What an accepted push does outside the pool: the bins that are backed up, the
ledger calls, and the layer installed at the end. -/
structure Accepted where
  stored : List Bin
  forwards : List Forward
  layer : List Bytes

/-- The layer of a block just put into bin `i`; on top of the last block there is
nothing to list. -/
def layerOf (bins : List Bin) (i : Nat) (block : Block) : Except Failure (List Bytes) :=
  if i = 0 then .ok [] else getBlockLayer env bins (block.getBlockIdB64 env)

def rejected : PushResult := ⟨false, false, 0, []⟩

/-- The part of `push` after all checks. -/
def accept (p : Pool) (i : Nat) (prev : Int) (block : Block) :
    Except Failure (PushResult × Pool × Accepted) := do
  let queueIdx := (p.bin i).length
  let bins := p.blockPool.modify i (· ++ [⟨prev, false, 0, [], block⟩])
  let layer ← layerOf env bins i block
  let linked := decide (i = 0) || !layer.isEmpty
  let entry : UnresolvedBlock := ⟨prev, linked, 0, layer, block⟩
  let stored := modifyEntry bins i queueIdx fun _ => entry
  let patched := patchNext stored i queueIdx block
  let forwards := if linked then forwardsFrom env patched i queueIdx entry else []
  let p := { p with
    blockPool := setLayers patched forwards
    heightRangeMax := if p.heightRangeMax < block.height then block.height else p.heightRangeMax }
  let (most, p) ← p.invalidateCaches.getMostPossibleBlockLayer env
  return (⟨linked, false, block.height, layer⟩, p, ⟨stored, forwards, most⟩)

def push (now : Nat) (p : Pool) (block : Block) :
    Except Failure (PushResult × Pool × Option Accepted) := do
  let idx := binIdx p.lastHeight block.height
  let (prepared, p) ← p.prepareBins now block.height
  if !prepared then
    return (rejected, p, none)
  if idx < 0 then
    throw .undefined
  if (p.bin idx.toNat).any fun e => e.block.same block then
    return (⟨false, true, block.height, []⟩, p, none)
  match p.prevQueueIdx idx.toNat block with
  | none => return (rejected, p, none)
  | some prev =>
    let (result, p, accepted) ← p.accept env idx.toNat prev block
    return (result, p, some accepted)

def resetConfirm (bin : Bin) : Bin := bin.map fun e => { e with confirmLevel := e.block.getNumSSigs }

/-- Add the level of a child to its parent. -/
def credit (bin : Bin) (child : UnresolvedBlock) : Bin :=
  if 0 ≤ child.prevVectorIdx then
    bin.modify child.prevVectorIdx.toNat fun e =>
      { e with confirmLevel := e.confirmLevel + child.confirmLevel }
  else bin

/-- The highest bin is finished first, so a level counts everything above it. -/
def updateConfirmLevel : List Bin → List Bin
  | [] => []
  | bin :: rest =>
    let rest := updateConfirmLevel rest
    (rest.headD []).foldl credit (resetConfirm bin) :: rest

/-- The first entry on top of the last block with the greatest confirm level. -/
def bestConfirmed (bin : Bin) : Nat × Nat :=
  bin.zipIdx.foldl (fun b x =>
    if x.1.prevVectorIdx = 0 then relax (·.confirmLevel) b x.2 x.1 else b) (0, 0)

/-- The entry that can be resolved: enough support, and some block on top of it. -/
def resolvable (bins : List Bin) : Option UnresolvedBlock :=
  match bins with
  | bin :: next :: _ =>
    let best := bestConfirmed bin
    if best.1 < blockConfirmLevel then none
    else if next.any fun e => decide (e.prevVectorIdx = best.2) then bin[best.2]?
    else none
  | _ => none

/-- Ids of the blocks of the first bin that lose. -/
def dropped (bin : Bin) (winner : UnresolvedBlock) : List Bytes :=
  if bin.length > 1 then
    (bin.filter fun e => decide (e.block.blockId ≠ winner.block.blockId)).map fun e =>
      e.block.getBlockIdB64 env
  else []

/-- Blocks of the new first bin hang on the new last block or nowhere. -/
def rebase (p : Pool) (bin : Bin) : Bin :=
  bin.map fun e => { e with prevVectorIdx := if p.namesLast e.block then 0 else -1 }

def advance (p : Pool) (winner : UnresolvedBlock) : Pool :=
  let p := { p with
    prevBlockId := p.lastBlockId
    prevHash := p.lastHash
    lastBlockId := winner.block.blockId
    lastHash := winner.block.blockHash
    lastHeight := winner.block.height }
  { p with blockPool := match p.blockPool.tail with
      | [] => []
      | bin :: rest => p.rebase bin :: rest }

/-- `resolveBlocksStepByStep`: the pool after it, and the resolved entry with the
ids dropped for it. -/
def resolveStep (p : Pool) : Pool × Option (UnresolvedBlock × List Bytes) :=
  let p := { p with blockPool := updateConfirmLevel p.blockPool }
  match resolvable p.blockPool with
  | none => (p, none)
  | some winner => (p.advance winner, some (winner, dropped env (p.bin 0) winner))

/-- The loop of `getResolvedBlocks`. Each turn but the last takes a bin away, so
one turn more than there are bins is enough. -/
def resolveLoop : Nat → Pool → List UnresolvedBlock × List Bytes × Pool
  | 0, p => ([], [], p)
  | fuel + 1, p =>
    match p.resolveStep env with
    | (p, none) => ([], [], p)
    | (p, some (winner, drops)) =>
      let (resolved, rest, p) := resolveLoop fuel p
      (winner :: resolved, drops ++ rest, p)

def resolve (p : Pool) : List UnresolvedBlock × List Bytes × Pool :=
  resolveLoop env (p.blockPool.length + 1) p

end Pool
end GruutMerger
