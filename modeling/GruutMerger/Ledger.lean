import GruutMerger.Storage

/-!
# Layered storage and the certificate ledger

Records of blocks that are not resolved yet live in memory, each with the id of
its block; a read goes through the blocks of a layer, nearest first, and then to
disk. The certificate ledger counts the certificates of each user and keeps
each one under its number.
-/
namespace GruutMerger

open ByteText KeyValue

variable (env : Env)

structure LedgerRecord where
  key : Bytes
  value : Value
  blockIdB64 : Bytes

/-- `LayeredStorage`, with the storage it points to. -/
structure LayeredStorage where
  storage : Storage
  memLedger : List LedgerRecord
  blockLayer : List Bytes

/-- `MemLedger::getVal` -/
def getVal (mem : List LedgerRecord) (key id : Bytes) : Option Value :=
  (mem.find? fun r => decide (r.key = key) && decide (r.blockIdB64 = id)).map (·.value)

namespace LayeredStorage

/-- Without a block id the record goes to the batch of the disk ledger. -/
def saveLedger (s : LayeredStorage) (key : Bytes) (value : Value) (id : Bytes) : LayeredStorage :=
  if id = [] then { s with storage := s.storage.saveLedger key value }
  else { s with memLedger := s.memLedger ++ [⟨key, value, id⟩] }

def setBlockLayer (s : LayeredStorage) (layer : List Bytes) : LayeredStorage := { s with blockLayer := layer }

/-- An empty layer means the layer that was set last. -/
def readLedgerByKey (s : LayeredStorage) (key : Bytes) (layer : List Bytes) : Value :=
  let searched := if layer = [] then s.blockLayer else layer
  match searched.findSome? (getVal s.memLedger key) with
  | some v => if v.isEmpty then s.storage.readLedgerByKey key else v
  | none => s.storage.readLedgerByKey key

def dropLedger (s : LayeredStorage) (id : Bytes) : LayeredStorage :=
  { s with memLedger := s.memLedger.filter fun r => decide (r.blockIdB64 ≠ id) }

def moveToDiskLedger (s : LayeredStorage) (id : Bytes) : LayeredStorage :=
  let kv := s.memLedger.filter fun r => decide (r.blockIdB64 = id)
  let storage := kv.foldl (fun st r => st.saveLedger r.key r.value) s.storage
  { s with storage := storage.flushLedger }.dropLedger id

end LayeredStorage

/-- `Ledger::readLedgerByKeyOnLayer` of a ledger with the given `m_prefix`. -/
def readLedgerByKeyOnLayer (mPrefix : Bytes) (s : LayeredStorage) (key : Bytes) (layer : List Bytes) : Value :=
  s.readLedgerByKey (mPrefix ++ key) layer

namespace CertificateLedger

def wrapKey (key : Bytes) : Bytes := ascii "C" ++ key

/-- `to_string` of an int. -/
def intText (v : Int) : Bytes := if v < 0 then 45 :: decimal v.natAbs else decimal v.toNat

/-- `parseCert`: begin, end and text of a certificate that can be parsed. -/
def parseCert (pem : Bytes) : Option Value :=
  (env.pemToX509 pem).map fun period =>
    .dump (.array [.string (decimal period.1), .string (decimal period.2), .string pem])

/-- The users and certificates at even and odd positions; a missing last one
reads as empty. -/
def contentPairs : List Json → List (Bytes × Bytes)
  | [] => []
  | [user] => [(Safe.getString user, [])]
  | user :: pem :: rest => (Safe.getString user, Safe.getString pem) :: contentPairs rest

/-- What the transactions of a block register, in order. -/
def registered (txs : List Json) : List (Bytes × Bytes) :=
  txs.flatMap fun tx =>
    if Safe.getStringOf tx "type" = txtypeCertificates then
      contentPairs ((tx.find "content").getD .null).elements
    else []

/-- The new count of a user, and the number the certificate is filed under. -/
def nextIndex (certIdx : Value) : Except Failure (Bytes × Bytes) :=
  if certIdx.isEmpty then .ok (ascii "1", ascii "0")
  else match stoi certIdx.toText with
    | none => .error .std
    | some v => if v = 2 ^ 31 - 1 then .error .undefined else .ok (intText (v + 1), certIdx.toText)

def registerCert (id : Bytes) (layer : List Bytes) (s : LayeredStorage) (entry : Bytes × Bytes) :
    Except Failure LayeredStorage := do
  let (count, number) ← nextIndex (s.readLedgerByKey (wrapKey entry.1) layer)
  let s := s.saveLedger (wrapKey entry.1) (.text count) id
  match parseCert env entry.2 with
  | none => return s
  | some cert => return s.saveLedger (wrapKey (entry.1 ++ ascii "_" ++ number)) cert id

def blockToLedger (s : LayeredStorage) (txs : Json) (id : Bytes) (layer : List Bytes) :
    Except Failure LayeredStorage :=
  (registered txs.elements).foldlM (registerCert env id layer) s

/-- The certificates of a user that are tried in turn for a time; the first
record that is not there ends the search. -/
def latestValid (parse : Value → Json) (read : Bytes → Value) (user : Bytes) (time : Nat) :
    Nat → Nat → Nat → Bytes → Except Failure Bytes
  | 0, _, _, best => .ok best
  | fuel + 1, i, latestBegin, best => do
    let cert := parse (read (wrapKey (user ++ ascii "_" ++ decimal i)))
    if cert.isEmpty then
      return best
    let validBegin ← Safe.getTime (Safe.getStringAt cert 0)
    let validEnd ← Safe.getTime (Safe.getStringAt cert 1)
    if validBegin < time ∧ time < validEnd ∧ latestBegin < validBegin then
      latestValid parse read user time fuel (i + 1) validBegin (Safe.getStringAt cert 2)
    else
      latestValid parse read user time fuel (i + 1) latestBegin best

/-- `getCertificate`, the lookup the block processor installs; `parse` is
`Safe::parseJson` on a record. -/
def getCertificate (parse : Value → Json) (read : Bytes → Value) (user : Bytes) (time : Nat) :
    Except Failure Bytes := do
  let certSize := read (wrapKey user)
  if certSize.isEmpty then
    return []
  match stoi certSize.toText with
  | none => .error .std
  | some numCerts =>
    if time = 0 then
      -- the int below the least one
      if numCerts = -2 ^ 31 then
        throw .undefined
      let latest := parse (read (wrapKey (user ++ ascii "_" ++ intText (numCerts - 1))))
      return Safe.getStringAt latest 2
    else latestValid parse read user time numCerts.toNat 0 0 []

end CertificateLedger

/-- `procLedgerBlock`: of the three registered ledgers only the certificate
ledger does anything with a block. -/
def procLedgerBlock (s : LayeredStorage) (txs : Json) (id : Bytes) (layer : List Bytes) :
    Except Failure LayeredStorage :=
  CertificateLedger.blockToLedger env s txs id layer

end GruutMerger
