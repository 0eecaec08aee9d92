import GruutMerger.Env

/-!
# Transactions

Reading a transaction from JSON, writing it back, its id, digest and signature
check, and the certificates a `CERTIFICATES` transaction carries.
-/
namespace GruutMerger

open ByteText

variable (env : Env)

inductive TransactionType where
  | digests | certificates | immortalsms | unknown
  deriving DecidableEq

def txtypeCertificates : Bytes := ascii "CERTIFICATES"
def txtypeDigests : Bytes := ascii "DIGESTS"
def txtypeImmortalsms : Bytes := ascii "IMMORTALSMS"

def txTypeToStr : TransactionType → Bytes
  | .digests => txtypeDigests
  | .certificates => txtypeCertificates
  | .immortalsms => txtypeImmortalsms
  | .unknown => ascii "UNKNOWN"

def strToTxType (s : Bytes) : TransactionType :=
  if s = txtypeDigests then .digests
  else if s = txtypeCertificates then .certificates
  else if s = txtypeImmortalsms then .immortalsms
  else .unknown

theorem strToTxType_txTypeToStr (t : TransactionType) : strToTxType (txTypeToStr t) = t := by
  cases t <;> decide +kernel

/-- The default values are those of the default constructor. -/
structure Transaction where
  id : Bytes := List.replicate 32 0
  sentTime : Nat := 0
  requestorId : Bytes := []
  type : TransactionType := .unknown
  signature : Bytes := []
  contentList : List Bytes := []
  deriving DecidableEq

namespace Transaction

/-- `setJson` reports whether the id had 32 bytes; without one nothing is set. -/
def setJson (tx : Transaction) (j : Json) : Except Failure (Bool × Transaction) := do
  let newTxid := Safe.getBytesFromB64 env.base64 j "txid"
  if newTxid.length ≠ 32 then
    return (false, tx)
  let time ← Safe.getTimeOf j "time"
  let content ← j.field "content"
  return (true,
    { id := bytesToArray env 32 newTxid
      sentTime := time
      requestorId := Safe.getBytesFromB64 env.base64 j "rID"
      type := strToTxType (Safe.getStringOf j "type")
      signature := Safe.getBytesFromB64 env.base64 j "rSig"
      contentList := if content.isArray then content.elements.map Safe.getString else tx.contentList })

/-- The fields stand in key order, as the library keeps them. -/
def getJson (tx : Transaction) : Json :=
  .object
    [("content", .array (tx.contentList.map .string)),
     ("rID", .string (env.base64.encode tx.requestorId)),
     ("rSig", .string (env.base64.encode tx.signature)),
     ("time", .string (decimal tx.sentTime)),
     ("txid", .string (env.base64.encode tx.id)),
     ("type", .string (txTypeToStr tx.type))]

/-- The pairs at even positions; a last entry without a partner is read past the
end of the vector. -/
def certPairs : List Bytes → Except Failure (List (Bytes × Bytes))
  | [] => .ok []
  | [_] => .error .undefined
  | user :: pem :: rest => (certPairs rest).map ((user, pem) :: ·)

/-- `map::insert` keeps the first certificate of a user, so the pairs stay in
order and are looked up from the front. -/
def getCertsIf (tx : Transaction) : Except Failure (List (Bytes × Bytes)) :=
  if tx.type = .certificates then certPairs tx.contentList else .ok []

def signedBytes (tx : Transaction) : Bytes :=
  integerBytes 8 tx.sentTime ++ tx.requestorId ++ txTypeToStr tx.type ++ tx.contentList.flatten

def getBeforeDigestByte (tx : Transaction) : Bytes := tx.id ++ tx.signedBytes

def buildTxId (tx : Transaction) : Bytes := bytesToArray env 32 (env.sha256 tx.signedBytes)

def isValid (tx : Transaction) (pkPem : Bytes) : Bool :=
  !tx.contentList.isEmpty && !tx.signature.isEmpty && !pkPem.isEmpty &&
    decide (tx.id = tx.buildTxId env) && env.doVerify pkPem tx.getBeforeDigestByte tx.signature

def getDigest (tx : Transaction) : Bytes := env.sha256 (tx.getBeforeDigestByte ++ tx.signature)

/-- Writing a transaction and reading it back. Times from 2^63 on are written
but no longer read. -/
theorem setJson_getJson (tx tx' : Transaction) (hid : tx.id.length = 32) (ht : tx.sentTime < 2 ^ 63) :
    setJson env tx' (tx.getJson env) = .ok (true, tx) := by
  have htxid : Safe.getBytesFromB64 env.base64 (tx.getJson env) "txid" = tx.id :=
    Safe.getBytesFromB64_encode rfl
  have hrid : Safe.getBytesFromB64 env.base64 (tx.getJson env) "rID" = tx.requestorId :=
    Safe.getBytesFromB64_encode rfl
  have hsig : Safe.getBytesFromB64 env.base64 (tx.getJson env) "rSig" = tx.signature :=
    Safe.getBytesFromB64_encode rfl
  have htime : Safe.getTimeOf (tx.getJson env) "time" = .ok tx.sentTime :=
    Safe.parseDecimal_decimal tx.sentTime ht
  have htype : Safe.getStringOf (tx.getJson env) "type" = txTypeToStr tx.type := rfl
  have hcontent : (tx.getJson env).field "content" = .ok (.array (tx.contentList.map .string)) := rfl
  have hstrings : (tx.contentList.map Json.string).map Safe.getString = tx.contentList := by
    rw [List.map_map]
    exact List.map_id _
  simp [setJson, htxid, hid, htime, hcontent, hrid, hsig, htype, strToTxType_txTypeToStr,
    hstrings, bytesToArray_of_length env hid, Json.isArray, Json.elements, bind, Except.bind, pure, Except.pure]

/-- A transaction that was read has an id of 32 bytes. -/
theorem length_id_of_setJson {j : Json} {ok : Bool} {tx : Transaction}
    (h : setJson env {} j = .ok (ok, tx)) : tx.id.length = 32 := by
  simp only [setJson, bind, Except.bind, pure, Except.pure] at h
  split at h
  · cases h
    rfl
  · split at h
    · cases h
    · split at h
      · cases h
      · cases h
        exact length_bytesToArray env 32 _

/-- A text of 32 bytes is read as the id. -/
theorem id_of_setJson {j : Json} {ok : Bool} {tx : Transaction} {id : Bytes}
    (htext : Safe.getStringOf j "txid" = env.base64.encode id) (hlen : id.length = 32)
    (h : setJson env {} j = .ok (ok, tx)) : tx.id = id := by
  simp only [setJson, Safe.getBytesFromB64_encode htext, hlen, ne_eq, not_true, if_false, bind, Except.bind, pure,
    Except.pure] at h
  split at h
  · cases h
  · split at h
    · cases h
    · cases h
      exact bytesToArray_of_length env hlen

/-- The time of a transaction that was read is that of its JSON, or nothing was set. -/
theorem sentTime_of_setJson {j : Json} {ok : Bool} {tx : Transaction} (h : setJson env {} j = .ok (ok, tx)) :
    tx = {} ∨ Safe.getTimeOf j "time" = .ok tx.sentTime := by
  simp only [setJson, bind, Except.bind, pure, Except.pure] at h
  split at h
  · cases h
    exact Or.inl rfl
  · split at h
    · cases h
    · rename_i htime
      split at h
      · cases h
      · cases h
        exact Or.inr htime

end Transaction
end GruutMerger
