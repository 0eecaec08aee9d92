import GruutMerger.Json

/-!
# Configuration and external code

Constants of `config` and everything the merger takes from outside: hashing and
signatures, base64, compression and JSON decoding, X.509 parsing, and the two
certificate lookups that the block processor is given as functions. Stored
values are symbolic: a text, or the CBOR or text form of a JSON value.
-/
namespace GruutMerger

open ByteText

def bpInterval : Nat := 10
def blockConfirmLevel : Nat := 3
def maxMerkleLeaves : Nat := 4096
def merkleTreeSize : Nat := maxMerkleLeaves * 2 - 1
def defaultVersion : Nat := 1

/-- The content of a database record. `to_cbor` and `dump` are kept symbolic, so
that decoding them again gives back the same JSON value. -/
inductive Value where
  | text (s : Bytes)
  | cbor (j : Json)
  | dump (j : Json)

namespace Value

/-- `empty()` of the stored string: an encoded JSON value is never empty. -/
def isEmpty : Value → Bool
  | text s => s.isEmpty
  | _ => false

/-- A record read where a number is expected: encoded JSON never starts with one. -/
def toText : Value → Bytes
  | text s => s
  | _ => ascii "?"

end Value

structure Env where
  base64 : Base64
  /-- `Sha256::hash` -/
  sha256 : Bytes → Bytes
  /-- `ECDSA::doVerify`: certificate, message, signature -/
  doVerify : Bytes → Bytes → Bytes → Bool
  /-- `pemToX509`, with the validity period of the certificate -/
  pemToX509 : Bytes → Option (Nat × Nat)
  /-- `Compressor::decompressData` -/
  decompressData : Bytes → Bytes
  /-- `json::parse`, `json::from_msgpack` and `json::from_cbor` on received bytes -/
  parse : Bytes → Option Json
  fromMsgpack : Bytes → Option Json
  fromCbor : Bytes → Option Json
  /-- `CertificatePool::getCert` -/
  getCert : Bytes → Bytes
  /-- `m_get_user_cert_func`: reads the certificate ledger for a user id at a time -/
  getUserCert : (Bytes → Value) → Bytes → Nat → Except Failure Bytes
  myId : Bytes
  myChainId : Bytes
  /-- what the bytes of an array hold that nothing was copied to -/
  uninitialised : UInt8

/-- The same world, as another merger sees it. -/
def Env.asMerger (env : Env) (id : Bytes) : Env := { env with myId := id }

variable (env : Env)

def genesisBlockPrevHash : Bytes :=
  env.base64.decode (ascii "AAAAAAAAAAAAAAAAAAAAAAAAAAAAAAAAAAAAAAAAAAA=")

def genesisBlockPrevId : Bytes :=
  env.base64.decode (ascii "AAAAAAAAAAAAAAAAAAAAAAAAAAAAAAAAAAAAAAAAAAA=")

/-- `BytesBuilder::append` of an integer: `len` bytes, most significant first. -/
def integerBytes (len n : Nat) : Bytes :=
  (List.range len).map fun i => UInt8.ofNat (n / 256 ^ (len - 1 - i))

/-- `bytesToArray<S>`. -/
def bytesToArray (size : Nat) (b : Bytes) : Bytes :=
  b.take size ++ List.replicate (size - b.length) env.uninitialised

theorem length_bytesToArray (size : Nat) (b : Bytes) : (bytesToArray env size b).length = size := by
  simp only [bytesToArray, List.length_append, List.length_take, List.length_replicate]
  omega

theorem bytesToArray_of_length {size : Nat} {b : Bytes} (h : b.length = size) : bytesToArray env size b = b := by
  rw [bytesToArray, List.take_of_length_le h.le, h, Nat.sub_self]
  exact List.append_nil _

/-- `Safe::parseJson`: anything unparsable is null. -/
def parseJson (s : Bytes) : Json := if s = [] then .null else (env.parse s).getD .null

/-- `static_cast<int>` of an unsigned 64-bit value. -/
def toInt32 (n : Nat) : Int := if n % 2 ^ 32 < 2 ^ 31 then n % 2 ^ 32 else n % 2 ^ 32 - 2 ^ 32

/-- `static_cast<int64_t>` of an unsigned 64-bit value. -/
def toInt64 (n : Nat) : Int := if n % 2 ^ 64 < 2 ^ 63 then n % 2 ^ 64 else n % 2 ^ 64 - 2 ^ 64

/-- Subtraction and multiplication of unsigned 64-bit values. -/
def sub64 (a b : Nat) : Nat := (2 ^ 64 + a - b) % 2 ^ 64

def mul64 (a b : Nat) : Nat := a * b % 2 ^ 64

theorem sub64_of_le {a b : Nat} (h : b ≤ a) (ha : a < 2 ^ 64) : sub64 a b = a - b := by
  unfold sub64
  omega

theorem toInt32_of_lt {n : Nat} (h : n < 2 ^ 31) : toInt32 n = n := by
  unfold toInt32
  omega

end GruutMerger
