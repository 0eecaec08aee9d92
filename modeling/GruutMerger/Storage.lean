import GruutMerger.Block
import GruutMerger.Lib.KeyValue

/-!
# Storage

Seven databases, each with the batch that collects its next write. A block is
put into five of the batches and then committed one database after the other.
The log keeps the durable writes in the order in which they reach the disk,
together with marks for the blocks a run resolves and for the outcomes of their
late checks; nothing of the program reads it.
-/
namespace GruutMerger

open ByteText KeyValue

variable (env : Env)

inductive DBType where
  | blockHeader | blockHeight | blockRaw | blockLatest | transaction | ledger | blockBackup
  deriving DecidableEq

abbrev Records := Disk DBType Bytes Value
abbrev DBWrite := Write DBType Bytes Value

/-- What a run leaves behind, oldest first. -/
inductive Event where
  | write (w : DBWrite)
  | resolved (b : Block)
  | checked (b : Block) (valid : Bool)

structure Storage where
  disk : Records
  batch : DBType → Batch Bytes Value
  log : List Event

namespace Storage

def empty : Storage := ⟨fun _ _ => none, fun _ => [], []⟩

def getPrefix : DBType → Bytes
  | .blockHeader => ascii "B"
  | .blockHeight => ascii "H"
  | .blockRaw => ascii "R"
  | .blockLatest => ascii "L"
  | .transaction => ascii "T"
  | .ledger => ascii "G"
  | .blockBackup => ascii "S"

/-- An entry on its way into the batch of its database. -/
structure Entry where
  what : DBType
  key : Bytes
  value : Value

def Entry.put (e : Entry) : Op Bytes Value := .put (getPrefix e.what ++ e.key) e.value

/-- `addBatch` for a list of entries. -/
def addBatch (s : Storage) (es : List Entry) : Storage :=
  { s with batch := fun what => s.batch what ++ (es.filter (·.what = what)).map Entry.put }

/-- `Write` of one batch. -/
def writeBatch (s : Storage) (what : DBType) : Storage :=
  { s with
    disk := s.disk.write ⟨what, s.batch what⟩
    log := s.log ++ [.write ⟨what, s.batch what⟩] }

def clearBatch (s : Storage) (what : DBType) : Storage :=
  { s with batch := Function.update s.batch what [] }

/-- The databases of a block, in the order in which `commitBatchAll` writes them. -/
def commitOrder : List DBType := [.blockHeader, .blockHeight, .blockRaw, .blockLatest, .transaction]

def clearBatchAll (s : Storage) : Storage := commitOrder.foldl clearBatch s

def rollbackBatchAll (s : Storage) : Storage := s.clearBatchAll

def commitBatchAll (s : Storage) : Storage := (commitOrder.foldl writeBatch s).clearBatchAll

end Storage

/-- `getValueByKey`: a missing record reads as the empty string. -/
def Records.getValueByKey (d : Records) (what : DBType) (key : Bytes) : Value :=
  (d what (Storage.getPrefix what ++ key)).getD (.text [])

def Records.getText (d : Records) (what : DBType) (key : Bytes) : Bytes :=
  (d.getValueByKey what key).toText

structure NthLink where
  id : Bytes
  prevId : Bytes
  hash : Bytes
  prevHash : Bytes
  height : Nat
  time : Nat
  deriving DecidableEq

/-- The link that names a block. -/
def Block.link (b : Block) : NthLink :=
  ⟨b.blockId, b.prevBlockId, b.blockHash, b.prevBlockHash, b.height, b.time⟩

/-- `getNthBlockIdB64`: height 0 asks for the latest block. -/
def Records.getNthBlockIdB64 (d : Records) (height : Nat) : Bytes :=
  if height = 0 then d.getText .blockLatest (ascii "bID") else d.getText .blockHeight (decimal height)

def Records.getNthBlockLinkInfo (d : Records) (height : Nat) : Except Failure NthLink := do
  let id := d.getNthBlockIdB64 height
  if id = [] then
    return { id := genesisBlockPrevId env, prevId := [], hash := genesisBlockPrevHash env,
             prevHash := [], height := 0, time := 0 }
  let storedHeight ← Safe.getSize (d.getText .blockHeader (id ++ ascii "_hgt"))
  let time ← Safe.getTime (d.getText .blockHeader (id ++ ascii "_time"))
  return { id := env.base64.decode id
           prevId := env.base64.decode (d.getText .blockHeader (id ++ ascii "_prevbID"))
           hash := d.getText .blockRaw (id ++ ascii "_hash")
           prevHash := env.base64.decode (d.getText .blockHeader (id ++ ascii "_prevH"))
           height := storedHeight
           time := time }

structure StorageBlock where
  id : Bytes
  hash : Bytes
  prevId : Bytes
  prevHash : Bytes
  time : Nat
  height : Nat
  blockRaw : Bytes
  txs : List Json

/-- `Safe::parseJsonAsArray` on the record of the transaction ids. -/
def Value.parseAsArray : Value → List Json
  | .dump j => j.elements
  | _ => []

/-- The transactions of a block, up to the first that cannot be decoded. -/
def Records.readTxs (d : Records) : List Json → List Json
  | [] => []
  | txid :: rest =>
    match d.getValueByKey .transaction (Safe.getString txid ++ ascii "_c") with
    | .cbor tx => tx :: d.readTxs rest
    | _ => []

def Records.readBlock (d : Records) (height : Nat) : Except Failure StorageBlock := do
  let id := d.getNthBlockIdB64 height
  if id = [] then
    return { id := [], hash := [], prevId := [], prevHash := [], time := 0, height := 0,
             blockRaw := [], txs := [] }
  if height = 0 then
    let _ ← Safe.parseDecimal (d.getText .blockLatest (ascii "hgt"))
  let link ← d.getNthBlockLinkInfo env height
  return { id := link.id, hash := link.hash, prevId := link.prevId, prevHash := link.prevHash,
           time := link.time, height := height
           blockRaw := d.getText .blockRaw id
           txs := d.readTxs (d.getValueByKey .blockHeader (id ++ ascii "_txids")).parseAsArray }

namespace Storage

/-- A function that fills batches gives the entries it added before it ended,
and how it ended. -/
abbrev Puts := List Entry × Except Failure Bool

/-- `a && b` for such functions. -/
def Puts.and (a b : Puts) : Puts :=
  match a.2 with
  | .ok true => (a.1 ++ b.1, b.2)
  | _ => a

def dbBlockHeaderSuffix : List (String × String) :=
  [("bID", "_bID"), ("ver", "_ver"), ("cID", "_cID"), ("time", "_time"), ("hgt", "_hgt"),
   ("SSig", "_ssig"), ("mID", "_mID"), ("prevbID", "_prevbID"), ("prevH", "_prevH"),
   ("txrt", "_txrt"), ("txids", "_txids")]

/-- One turn of the loop of `putBlockHeader`. -/
def putHeaderItem (header : Json) (id : Bytes) (item : String × String) : Puts :=
  let key := id ++ ascii item.2
  if item.1 = "SSig" then
    match header.field item.1 with
    | .error e => ([], .error e)
    | .ok (.array xs) =>
      ([⟨.blockHeader, key ++ ascii "_c", .cbor (.array xs)⟩,
        ⟨.blockHeader, key ++ ascii "_n", .text (decimal xs.length)⟩], .ok true)
    | .ok _ => ([], .ok false)
  else if item.1 = "txids" then
    match header.field item.1 with
    | .error e => ([], .error e)
    | .ok (.array xs) =>
      if (Json.array xs).dumps then ([⟨.blockHeader, key, .dump (.array xs)⟩], .ok true) else ([], .error .json)
    | .ok _ => ([], .ok false)
  else ([⟨.blockHeader, key, .text (Safe.getStringOf header item.1)⟩], .ok true)

def putBlockHeader (header : Json) (id : Bytes) : Puts :=
  dbBlockHeaderSuffix.foldl (fun r item => r.and (putHeaderItem header id item)) ([], .ok true)

def putBlockHeight (header : Json) (id : Bytes) : Puts :=
  ([⟨.blockHeight, Safe.getStringOf header "hgt", .text id⟩], .ok true)

/-- A block that is not higher than the latest one leaves the pointer alone. -/
def putLatestBlockHeader (d : Records) (header : Json) : Puts :=
  match d.getNthBlockLinkInfo env 0, Safe.getInt header "hgt" with
  | .error e, _ => ([], .error e)
  | .ok _, .error e => ([], .error e)
  | .ok latest, .ok height =>
    if latest.height ≥ height then ([], .ok true)
    else ([⟨.blockLatest, ascii "bID", .text (Safe.getStringOf header "bID")⟩,
           ⟨.blockLatest, ascii "hgt", .text (Safe.getStringOf header "hgt")⟩], .ok true)

/-- The three records of the transaction at position `i`. -/
def txEntries (id : Bytes) (x : Json × Nat) : List Entry :=
  let txid := Safe.getStringOf x.1 "txid"
  [⟨.transaction, txid ++ ascii "_c", .cbor x.1⟩,
   ⟨.transaction, txid ++ ascii "_mPos", .text (decimal x.2)⟩,
   ⟨.transaction, txid ++ ascii "_bID", .text id⟩]

def putTransaction (body : Json) (id : Bytes) : Puts :=
  match body.field "tx" with
  | .error e => ([], .error e)
  | .ok (.array txs) =>
    let mtree := (body.find "mtree").getD .null
    if mtree.dumps then
      (txs.zipIdx.flatMap (txEntries id) ++
        [⟨.transaction, id ++ ascii "_mtree", .dump mtree⟩,
         ⟨.transaction, id ++ ascii "_txCnt", .text (Safe.getStringOf body "txCnt")⟩], .ok true)
    else (txs.zipIdx.flatMap (txEntries id), .error .json)
  | .ok _ => ([], .ok false)

def putBlockRaw (raw id : Bytes) : Puts :=
  ([⟨.blockRaw, id, .text raw⟩, ⟨.blockRaw, id ++ ascii "_hash", .text (env.sha256 raw)⟩], .ok true)

def putBlock (d : Records) (raw : Bytes) (header body : Json) : Puts :=
  let id := Safe.getStringOf header "bID"
  (((putBlockHeader header id).and (putBlockHeight header id)).and (putLatestBlockHeader env d header)).and
    (putTransaction body id) |>.and (putBlockRaw env raw id)

/-- An exception leaves the batches as they are. -/
def saveBlock (s : Storage) (raw : Bytes) (header body : Json) : Except Failure Bool × Storage :=
  let puts := putBlock env s.disk raw header body
  let s := s.addBatch puts.1
  match puts.2 with
  | .ok true => (.ok true, s.commitBatchAll)
  | .ok false => (.ok false, s.rollbackBatchAll)
  | .error e => (.error e, s)

def saveLedger (s : Storage) (key : Bytes) (value : Value) : Storage := s.addBatch [⟨.ledger, key, value⟩]

def readLedgerByKey (s : Storage) (key : Bytes) : Value := s.disk.getValueByKey .ledger key

def flushLedger (s : Storage) : Storage := (s.writeBatch .ledger).clearBatch .ledger

def saveBackup (s : Storage) (key : Bytes) (value : Value) : Storage :=
  s.addBatch [⟨.blockBackup, key, value⟩]

def clearBackup (s : Storage) : Storage := s.clearBatch .blockBackup

def flushBackup (s : Storage) : Storage := (s.writeBatch .blockBackup).clearBatch .blockBackup

/-- `delBackup` deletes the key as it is, without the prefix that every other
access puts in front. -/
def delBackup (s : Storage) (key : Bytes) : Storage :=
  if key = [] then s
  else { s with batch := Function.update s.batch .blockBackup (s.batch .blockBackup ++ [.delete key]) }

end Storage

def Records.readBackup (d : Records) (key : Bytes) : Value := d.getValueByKey .blockBackup key

end GruutMerger
