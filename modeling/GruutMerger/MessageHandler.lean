import GruutMerger.MessageSchema
import GruutMerger.SignerPool
import GruutMerger.Sample

/-!
# Unpacking messages

A packed message is a header of 32 bytes, a body and possibly an HMAC. Which
bytes are checked, and under whose key, is for the header to say; the handlers of
queued messages go by the signer id in the body.
-/
namespace GruutMerger

open ByteText Fallible

def headerLength : Nat := 32
def senderIdLength : Nat := 8
def msgLengthSize : Nat := 4
def chainIdTypeSize : Nat := 8
def reservedLength : Nat := 6

/-- The first byte of every message. -/
def identifierG : UInt8 := 71

inductive MACAlgorithmType where
  | rsa | ecdsa | edDsa | schnorr | rsaPkcs115 | hmac | none
  deriving DecidableEq

def MACAlgorithmType.code : MACAlgorithmType → UInt8
  | rsa => 0x00
  | ecdsa => 0x01
  | edDsa => 0x02
  | schnorr => 0x03
  | rsaPkcs115 => 0x10
  | hmac => 0xF1
  | none => 0xFF

inductive CompressionAlgorithmType where
  | lz4 | messagePack | cbor | none
  deriving DecidableEq

def CompressionAlgorithmType.code : CompressionAlgorithmType → UInt8
  | lz4 => 0x04
  | messagePack => 0x05
  | cbor => 0x06
  | none => 0xFF

/-- The types are kept as the bytes that arrived, which need not be of any enumerator. -/
structure MessageHeader where
  identifier : UInt8
  version : UInt8
  messageType : UInt8
  macAlgoType : UInt8
  compressionAlgoType : UInt8
  dummy : UInt8
  totalLength : Bytes
  localChainId : Bytes
  senderId : Bytes
  reservedSpace : Bytes

/-- An entry of the input queue. -/
structure InputMsgEntry where
  type : UInt8
  body : Json

inductive StatusCode where
  | ok | invalidArgument | unauthenticated
  deriving DecidableEq

/-- What the call leaves: the status, the sender once it is known, and what was queued. -/
structure Unpacked where
  rpcStatus : StatusCode × String
  recvId : Option Bytes
  queued : Option InputMsgEntry

namespace HeaderController

def parseHeader (rawData : Bytes) : MessageHeader where
  identifier := rawData.getD 0 0
  version := rawData.getD 1 0
  messageType := rawData.getD 2 0
  macAlgoType := rawData.getD 3 0
  compressionAlgoType := rawData.getD 4 0
  dummy := rawData.getD 5 0
  totalLength := (rawData.drop 6).take msgLengthSize
  localChainId := (rawData.drop 10).take chainIdTypeSize
  senderId := (rawData.drop (10 + chainIdTypeSize)).take senderIdLength
  reservedSpace := (rawData.drop (10 + chainIdTypeSize + senderIdLength)).take reservedLength

/-- Lengths from 2³¹ on are negative. -/
def convertU8ToU32BE (lenBytes : Bytes) : Int := toInt32 (lenBytes.foldl (fun n b => 256 * n + b.toNat) 0)

end HeaderController

variable (env : Env) (hmacSha256 : Bytes → Bytes → Bytes)

/-- `Hmac::verifyHMAC`: the key that is used is the hash of the shared key. -/
def verifyHMAC (msg hmac key : Bytes) : Bool := decide (hmacSha256 (env.sha256 key) msg = hmac)

namespace MessageHandler

open HeaderController

def validateMsgFormat (header : MessageHeader) : Bool :=
  decide (header.identifier = identifierG) &&
    (decide (header.macAlgoType ≠ MACAlgorithmType.hmac.code) ||
      decide (header.messageType = MessageType.success.code ∨ header.messageType = MessageType.ssig.code))

def getMsgBodySize (header : MessageHeader) : Except Failure Int :=
  let bodySize := convertU8ToU32BE header.totalLength - headerLength
  -- a difference of `int`s
  if bodySize < -2 ^ 31 then .error .undefined else .ok bodySize

/-- A negative size is converted to one beyond any end. -/
def getMsgBody (packedMsg : Bytes) (bodySize : Int) : Bytes :=
  if bodySize < 0 then packedMsg.drop headerLength else (packedMsg.drop headerLength).take bodySize.toNat

def getJson (compressionType : UInt8) (body : Bytes) : Json :=
  if body = [] then .null
  else if compressionType = CompressionAlgorithmType.lz4.code then parseJson env (env.decompressData body)
  else if compressionType = CompressionAlgorithmType.none.code then parseJson env body
  else .null

/-- The bytes after header and body are the HMAC of all before them. The key is that of the
sender named in the header, and empty if that signer is unknown. -/
def checkHmac (signerPool : SignerPool) (packedMsg : Bytes) (bodySize : Int) : Except Failure Bool :=
  let header := parseHeader packedMsg
  let macStart : Int := headerLength + bodySize
  -- the iterator would leave the message
  if macStart < 0 ∨ (packedMsg.length : Int) < macStart then .error .undefined
  else .ok (verifyHMAC env hmacSha256 (packedMsg.take macStart.toNat) (packedMsg.drop macStart.toNat)
    (signerPool.getHmacKey header.senderId))

/-- What follows the check of the HMAC. -/
def queueBody (packedMsg : Bytes) (bodySize : Int) : Unpacked :=
  let header := parseHeader packedMsg
  let jsonData := getJson env header.compressionAlgoType (getMsgBody packedMsg bodySize)
  if validateSchema jsonData header.messageType then
    ⟨(.ok, ""), some header.senderId, some ⟨header.messageType, jsonData⟩⟩
  else ⟨(.invalidArgument, "Json schema check fail"), some header.senderId, none⟩

def unpackMsg (signerPool : SignerPool) (packedMsg : Bytes) : Except Failure Unpacked := do
  if packedMsg.length < headerLength then
    return ⟨(.invalidArgument, "Wrong Message (MessageHandler::unpackMsg)"), none, none⟩
  let header := parseHeader packedMsg
  if !validateMsgFormat header then
    return ⟨(.invalidArgument, "Wrong Message"), none, none⟩
  let bodySize ← getMsgBodySize header
  if header.macAlgoType = MACAlgorithmType.hmac.code then
    if !(← checkHmac env hmacSha256 signerPool packedMsg bodySize) then
      return ⟨(.unauthenticated, "Wrong HMAC"), some header.senderId, none⟩
  return queueBody env packedMsg bodySize

/-- A header that is refused as it stands. -/
def RefusedHeader (header : MessageHeader) : Prop :=
  header.identifier ≠ identifierG ∨ (header.macAlgoType = MACAlgorithmType.hmac.code ∧
    header.messageType ≠ MessageType.success.code ∧ header.messageType ≠ MessageType.ssig.code)

/-- The byte string ends in the HMAC, under a key, of all that stands before it. -/
def CarriesHmac (key packedMsg : Bytes) : Prop :=
  ∃ msg hmac, packedMsg = msg ++ hmac ∧ verifyHMAC env hmacSha256 msg hmac key = true

/-- The message carries an HMAC under the key of the signer that its body names. -/
def Authenticated (p : SignerPool) (packedMsg : Bytes) (body : Json) : Prop :=
  ∃ x ∈ p.signers, x.userId = Safe.getBytesFromB64 env.base64 body "sID" ∧ CarriesHmac env hmacSha256 x.hmacKey packedMsg

def bodyJson (packedMsg : Bytes) (bodySize : Int) : Json :=
  getJson env (parseHeader packedMsg).compressionAlgoType (getMsgBody packedMsg bodySize)

/-- The HMAC of header and body under a key. -/
def hmacUnder (key packedMsg : Bytes) (bodySize : Int) : Bytes :=
  hmacSha256 (env.sha256 key) (packedMsg.take (headerLength + bodySize).toNat)

/-- A message of a signer that is queued unless an HMAC is asked for and wrong. -/
structure SignerMessage (packedMsg : Bytes) (bodySize : Int) : Prop where
  header : headerLength ≤ packedMsg.length
  format : validateMsgFormat (parseHeader packedMsg) = true
  size : getMsgBodySize (parseHeader packedMsg) = .ok bodySize
  signer : (parseHeader packedMsg).messageType = MessageType.success.code ∨
    (parseHeader packedMsg).messageType = MessageType.ssig.code
  schema : validateSchema (bodyJson env packedMsg bodySize) (parseHeader packedMsg).messageType = true

variable {env hmacSha256} {p : SignerPool} {packedMsg : Bytes} {bodySize : Int} {e : InputMsgEntry}

theorem validateMsgFormat_eq_false {header : MessageHeader} :
    validateMsgFormat header = false ↔ RefusedHeader header := by
  simp [validateMsgFormat, RefusedHeader, imp_iff_not_or]

theorem validateMsgFormat_eq_true {header : MessageHeader} :
    validateMsgFormat header = true ↔ ¬ RefusedHeader header := by
  rw [← validateMsgFormat_eq_false, Bool.not_eq_false]

theorem unpackMsg_refused (hlen : headerLength ≤ packedMsg.length) (hr : RefusedHeader (parseHeader packedMsg)) :
    unpackMsg env hmacSha256 p packedMsg = .ok ⟨(.invalidArgument, "Wrong Message"), none, none⟩ := by
  simp only [unpackMsg, if_neg (not_lt.mpr hlen), validateMsgFormat_eq_false.mpr hr]
  rfl

theorem unpackMsg_oversized (hlen : headerLength ≤ packedMsg.length) (hr : ¬ RefusedHeader (parseHeader packedMsg))
    {failure : Failure} (hsize : getMsgBodySize (parseHeader packedMsg) = .error failure) :
    unpackMsg env hmacSha256 p packedMsg = .error failure := by
  simp only [unpackMsg, if_neg (not_lt.mpr hlen), validateMsgFormat_eq_true.mpr hr, hsize]
  rfl

theorem unpackMsg_hmac (hlen : headerLength ≤ packedMsg.length) (hr : ¬ RefusedHeader (parseHeader packedMsg))
    (hsize : getMsgBodySize (parseHeader packedMsg) = .ok bodySize)
    (hmac : (parseHeader packedMsg).macAlgoType = MACAlgorithmType.hmac.code) :
    unpackMsg env hmacSha256 p packedMsg = checkHmac env hmacSha256 p packedMsg bodySize >>= fun ok =>
      .ok (if ok then queueBody env packedMsg bodySize
        else ⟨(.unauthenticated, "Wrong HMAC"), some (parseHeader packedMsg).senderId, none⟩) := by
  simp only [unpackMsg, if_neg (not_lt.mpr hlen), validateMsgFormat_eq_true.mpr hr, hsize, if_pos hmac]
  change (checkHmac env hmacSha256 p packedMsg bodySize >>= _) = _
  refine bind_congr fun ok => ?_
  cases ok <;> rfl

theorem unpackMsg_plain (hlen : headerLength ≤ packedMsg.length) (hr : ¬ RefusedHeader (parseHeader packedMsg))
    (hsize : getMsgBodySize (parseHeader packedMsg) = .ok bodySize)
    (hmac : (parseHeader packedMsg).macAlgoType ≠ MACAlgorithmType.hmac.code) :
    unpackMsg env hmacSha256 p packedMsg = .ok (queueBody env packedMsg bodySize) := by
  simp only [unpackMsg, if_neg (not_lt.mpr hlen), validateMsgFormat_eq_true.mpr hr, hsize, if_neg hmac]
  rfl

theorem checkHmac_eq_true : checkHmac env hmacSha256 p packedMsg bodySize = .ok true ↔
    0 ≤ headerLength + bodySize ∧ headerLength + bodySize ≤ packedMsg.length ∧
      packedMsg.drop (headerLength + bodySize).toNat =
        hmacUnder env hmacSha256 (p.getHmacKey (parseHeader packedMsg).senderId) packedMsg bodySize := by
  unfold checkHmac
  simp only
  split
  · rename_i h
    exact iff_of_false (fun h => by cases h) fun hin => by omega
  · rename_i h
    rw [not_or, not_lt, not_lt] at h
    simp only [Except.ok.injEq, verifyHMAC, decide_eq_true_eq, h, true_and, hmacUnder]
    exact eq_comm

theorem queueBody_queued : (queueBody env packedMsg bodySize).queued = some e ↔
    validateSchema (bodyJson env packedMsg bodySize) (parseHeader packedMsg).messageType = true ∧
      e = ⟨(parseHeader packedMsg).messageType, bodyJson env packedMsg bodySize⟩ := by
  unfold queueBody
  simp only [← bodyJson.eq_def]
  split
  · rename_i h
    simp [h, eq_comm]
  · rename_i h
    simp [h]

/-- A message is queued when its format is accepted, its HMAC is right if the header asks for
one, and its body fits the schema of its type. -/
theorem unpackMsg_queued : (∃ r, unpackMsg env hmacSha256 p packedMsg = .ok r ∧ r.queued = some e) ↔
    headerLength ≤ packedMsg.length ∧ validateMsgFormat (parseHeader packedMsg) = true ∧ ∃ bodySize,
      getMsgBodySize (parseHeader packedMsg) = .ok bodySize ∧
        ((parseHeader packedMsg).macAlgoType = MACAlgorithmType.hmac.code →
          checkHmac env hmacSha256 p packedMsg bodySize = .ok true) ∧
        validateSchema (bodyJson env packedMsg bodySize) (parseHeader packedMsg).messageType = true ∧
        e = ⟨(parseHeader packedMsg).messageType, bodyJson env packedMsg bodySize⟩ := by
  constructor
  · rintro ⟨r, hr, hq⟩
    by_cases hlen : headerLength ≤ packedMsg.length
    · by_cases hformat : validateMsgFormat (parseHeader packedMsg) = true
      · have hheader := validateMsgFormat_eq_true.mp hformat
        refine ⟨hlen, hformat, ?_⟩
        cases hsize : getMsgBodySize (parseHeader packedMsg) with
        | error failure =>
          rw [unpackMsg_oversized hlen hheader hsize] at hr
          cases hr
        | ok bodySize =>
          by_cases hmac : (parseHeader packedMsg).macAlgoType = MACAlgorithmType.hmac.code
          · rw [unpackMsg_hmac hlen hheader hsize hmac] at hr
            obtain ⟨verified, hcheck, hr⟩ := bind_eq_ok.mp hr
            cases verified with
            | false =>
              cases hr
              cases hq
            | true =>
              obtain rfl := Except.ok.inj hr
              exact ⟨bodySize, rfl, fun _ => hcheck, queueBody_queued.mp hq⟩
          · rw [unpackMsg_plain hlen hheader hsize hmac] at hr
            obtain rfl := Except.ok.inj hr
            exact ⟨bodySize, rfl, fun h => absurd h hmac, queueBody_queued.mp hq⟩
      · rw [unpackMsg_refused hlen (validateMsgFormat_eq_false.mp (Bool.not_eq_true _ ▸ hformat))] at hr
        cases hr
        cases hq
    · rw [unpackMsg, if_pos (not_le.mp hlen)] at hr
      cases hr
      cases hq
  · rintro ⟨hlen, hformat, bodySize, hsize, hcheck, hbody⟩
    have hheader := validateMsgFormat_eq_true.mp hformat
    refine ⟨_, ?_, queueBody_queued.mpr hbody⟩
    by_cases hmac : (parseHeader packedMsg).macAlgoType = MACAlgorithmType.hmac.code
    · rw [unpackMsg_hmac hlen hheader hsize hmac, hcheck hmac]
      rfl
    · exact unpackMsg_plain hlen hheader hsize hmac

section Fixed

variable {n : Nat} (hn : ∀ key msg, (hmacSha256 key msg).length = n)

include hn

/-- With HMACs of one length it is clear where the HMAC of a message would start. -/
theorem carriesHmac_iff {key : Bytes} : CarriesHmac env hmacSha256 key packedMsg ↔
    packedMsg.drop (packedMsg.length - n) = hmacSha256 (env.sha256 key) (packedMsg.take (packedMsg.length - n)) := by
  constructor
  · rintro ⟨msg, hmac, rfl, hv⟩
    obtain rfl := of_decide_eq_true hv
    simp [hn]
  · intro h
    exact ⟨_, _, (List.take_append_drop _ _).symm, decide_eq_true h.symm⟩

/-- A message that carries the HMAC of its header and body under one key carries it under all
keys that give the same. -/
theorem carriesHmac_of_drop {key key' : Bytes} (hlen : headerLength + bodySize ≤ packedMsg.length)
    (h : packedMsg.drop (headerLength + bodySize).toNat = hmacUnder env hmacSha256 key packedMsg bodySize) :
    CarriesHmac env hmacSha256 key' packedMsg ↔
      hmacUnder env hmacSha256 key' packedMsg bodySize = hmacUnder env hmacSha256 key packedMsg bodySize := by
  have hstart : packedMsg.length - n = (headerLength + bodySize).toNat := by
    have hdrop := congrArg List.length h
    rw [List.length_drop, hmacUnder, hn] at hdrop
    omega
  rw [carriesHmac_iff hn, hstart, h]
  exact eq_comm

/-- Exactly which byte strings are authenticated whenever they are queued as a message of a
signer. With an HMAC right under the key of the sender, the signer that the body names has to be
in the pool, with a key that gives the same HMAC; without one, the message has to end in an HMAC
under that signer's key all the same. -/
theorem signer_authenticated : (∀ r e, unpackMsg env hmacSha256 p packedMsg = .ok r → r.queued = some e →
      e.type = MessageType.success.code ∨ e.type = MessageType.ssig.code →
        Authenticated env hmacSha256 p packedMsg e.body) ↔
    ∀ bodySize, SignerMessage env packedMsg bodySize →
      ((parseHeader packedMsg).macAlgoType = MACAlgorithmType.hmac.code →
        0 ≤ headerLength + bodySize → headerLength + bodySize ≤ packedMsg.length →
        packedMsg.drop (headerLength + bodySize).toNat =
          hmacUnder env hmacSha256 (p.getHmacKey (parseHeader packedMsg).senderId) packedMsg bodySize →
        ∃ x ∈ p.signers, x.userId = Safe.getBytesFromB64 env.base64 (bodyJson env packedMsg bodySize) "sID" ∧
          hmacUnder env hmacSha256 x.hmacKey packedMsg bodySize =
            hmacUnder env hmacSha256 (p.getHmacKey (parseHeader packedMsg).senderId) packedMsg bodySize) ∧
      ((parseHeader packedMsg).macAlgoType ≠ MACAlgorithmType.hmac.code →
        ∃ x ∈ p.signers, x.userId = Safe.getBytesFromB64 env.base64 (bodyJson env packedMsg bodySize) "sID" ∧
          packedMsg.drop (packedMsg.length - n) =
            hmacSha256 (env.sha256 x.hmacKey) (packedMsg.take (packedMsg.length - n))) := by
  constructor
  · intro h bodySize hm
    have hauth : ((parseHeader packedMsg).macAlgoType = MACAlgorithmType.hmac.code →
        checkHmac env hmacSha256 p packedMsg bodySize = .ok true) →
          Authenticated env hmacSha256 p packedMsg (bodyJson env packedMsg bodySize) := by
      intro hcheck
      obtain ⟨r, hr, hq⟩ := unpackMsg_queued.mpr ⟨hm.header, hm.format, bodySize, hm.size, hcheck, hm.schema, rfl⟩
      exact h r _ hr hq hm.signer
    constructor
    · intro _ hnonneg hlen hdrop
      obtain ⟨x, hx, hid, hcarries⟩ := hauth fun _ => checkHmac_eq_true.mpr ⟨hnonneg, hlen, hdrop⟩
      exact ⟨x, hx, hid, (carriesHmac_of_drop hn hlen hdrop).mp hcarries⟩
    · intro hmac
      obtain ⟨x, hx, hid, hcarries⟩ := hauth fun h => absurd h hmac
      exact ⟨x, hx, hid, (carriesHmac_iff hn).mp hcarries⟩
  · intro h r e hr hq htype
    obtain ⟨hlen, hformat, bodySize, hsize, hcheck, hschema, rfl⟩ := unpackMsg_queued.mp ⟨r, hr, hq⟩
    obtain ⟨hhmac, hplain⟩ := h bodySize ⟨hlen, hformat, hsize, htype, hschema⟩
    by_cases hmac : (parseHeader packedMsg).macAlgoType = MACAlgorithmType.hmac.code
    · obtain ⟨hnonneg, hinside, hdrop⟩ := checkHmac_eq_true.mp (hcheck hmac)
      obtain ⟨x, hx, hid, hsame⟩ := hhmac hmac hnonneg hinside hdrop
      exact ⟨x, hx, hid, (carriesHmac_of_drop hn hinside hdrop).mpr hsame⟩
    · obtain ⟨x, hx, hid, hends⟩ := hplain hmac
      exact ⟨x, hx, hid, (carriesHmac_iff hn).mpr hends⟩

end Fixed

end MessageHandler

namespace Sample

/-- Two bodies, each one byte long: signatures of two signers. -/
def supportBody (text : Bytes) : Json := .object [("sID", .string text), ("time", .string [49]), ("sig", .string [49])]

def handlerEnv : Env :=
  { base with
    parse := fun s => match s with
      | [65] => some (supportBody (ascii "AQEBAQEBAQE="))
      | [67] => some (supportBody (ascii "AwMDAwMDAwM="))
      | _ => none }

/-- The HMAC is the last byte of the key. -/
def lastByteHmac (key _msg : Bytes) : Bytes := [key.getLastD 0]

def signerEntry (n : UInt8) : SignerEntry := ⟨List.replicate 8 n, [], [n], 0, .good⟩

/-- Signers 1 and 2. -/
def twoSigners : SignerPool := ⟨[signerEntry 1, signerEntry 2], by decide⟩

/-- A `MSG_SSIG` with a one-byte body and what comes after it. -/
def packedSsig (mac : MACAlgorithmType) (sender body : UInt8) (rest : Bytes) : Bytes :=
  [71, 49, 0xB3, mac.code, 0xFF, 0, 0, 0, 0, 33] ++ List.replicate 8 0 ++ List.replicate 8 sender ++ List.replicate 6 0 ++
    [body] ++ rest

/-- A signature of a signer is queued. -/
def queuesSsig (id : Bytes) (u : Unpacked) : Bool :=
  u.queued.any fun e => decide (e.type = MessageType.ssig.code ∧ Safe.getBytesFromB64 Base64.padded e.body "sID" = id)

theorem exists_queued {packedMsg id : Bytes}
    (h : okAnd (queuesSsig id) (MessageHandler.unpackMsg handlerEnv lastByteHmac twoSigners packedMsg) = true) :
    ∃ r e, MessageHandler.unpackMsg handlerEnv lastByteHmac twoSigners packedMsg = .ok r ∧ r.queued = some e ∧
      e.type = MessageType.ssig.code ∧ Safe.getBytesFromB64 handlerEnv.base64 e.body "sID" = id := by
  obtain ⟨r, hr, hq⟩ := okAnd_eq_true.mp h
  obtain ⟨e, he, hid⟩ := (Option.any_eq_true _ _).mp hq
  exact ⟨r, e, hr, he, of_decide_eq_true hid⟩

/-- The last byte tells under which keys a message carries an HMAC. -/
theorem getLast_of_carriesHmac {key packedMsg : Bytes} (h : MessageHandler.CarriesHmac handlerEnv lastByteHmac key packedMsg) :
    packedMsg.getLast? = some ((handlerEnv.sha256 key).getLastD 0) := by
  obtain ⟨msg, hmac, rfl, hv⟩ := h
  obtain rfl := of_decide_eq_true hv
  simp [lastByteHmac]

end Sample

namespace MessageHandler

theorem signer_authenticated_one : ∃ r e,
    unpackMsg Sample.handlerEnv Sample.lastByteHmac Sample.twoSigners (Sample.packedSsig .hmac 1 65 [1]) = .ok r ∧
      r.queued = some e ∧ Authenticated Sample.handlerEnv Sample.lastByteHmac Sample.twoSigners
        (Sample.packedSsig .hmac 1 65 [1]) e.body := by
  have hqueues : okAnd (Sample.queuesSsig (List.replicate 8 1)) (unpackMsg Sample.handlerEnv Sample.lastByteHmac
      Sample.twoSigners (Sample.packedSsig .hmac 1 65 [1])) = true := by decide +kernel
  obtain ⟨r, e, hr, he, htype, _⟩ := Sample.exists_queued hqueues
  refine ⟨r, e, hr, he, (signer_authenticated (n := 1) (fun _ _ => rfl)).mpr ?_ r e hr he (Or.inr htype)⟩
  intro bodySize hm
  obtain rfl : 1 = bodySize := Except.ok.inj hm.size
  refine ⟨fun _ _ _ _ => ⟨Sample.signerEntry 1, List.mem_cons_self, ?_, ?_⟩, fun h => absurd rfl h⟩ <;> decide +kernel

/-- A signature is queued that is not authenticated. -/
def QueuesForged (packedMsg : Bytes) : Prop := ∃ r e,
  unpackMsg Sample.handlerEnv Sample.lastByteHmac Sample.twoSigners packedMsg = .ok r ∧ r.queued = some e ∧
    e.type = MessageType.ssig.code ∧
    ¬ Authenticated Sample.handlerEnv Sample.lastByteHmac Sample.twoSigners packedMsg e.body

theorem queuesForged_of {packedMsg : Bytes} (id : Bytes)
    (hq : okAnd (Sample.queuesSsig id)
      (unpackMsg Sample.handlerEnv Sample.lastByteHmac Sample.twoSigners packedMsg) = true)
    (hlast : ∀ x ∈ Sample.twoSigners.signers, x.userId = id →
      packedMsg.getLast? ≠ some ((Sample.handlerEnv.sha256 x.hmacKey).getLastD 0)) : QueuesForged packedMsg := by
  obtain ⟨r, e, hr, he, ht, hid⟩ := Sample.exists_queued hq
  refine ⟨r, e, hr, he, ht, ?_⟩
  rintro ⟨x, hx, hxid, hcarries⟩
  exact hlast x hx (hxid.trans hid) (Sample.getLast_of_carriesHmac hcarries)

/-- A signature of signer 1 without an HMAC, one with the HMAC of signer 2, and one of a signer
that is not in the pool with an HMAC under the empty key. -/
theorem forged_queued : QueuesForged (Sample.packedSsig .none 1 65 []) ∧
    QueuesForged (Sample.packedSsig .hmac 2 65 [2]) ∧ QueuesForged (Sample.packedSsig .hmac 3 67 [0]) := by
  refine ⟨queuesForged_of (List.replicate 8 1) ?_ ?_, queuesForged_of (List.replicate 8 1) ?_ ?_,
    queuesForged_of (List.replicate 8 3) ?_ ?_⟩ <;> decide +kernel

end MessageHandler
end GruutMerger
