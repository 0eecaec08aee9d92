import GruutMerger.Lib.BigEndian
import GruutMerger.MessageHandler

/-!
# The frame of a message

What is written in front of a body is what is read back, and an HMAC may follow the
body. The length in a received header is not compared with the number of bytes that
came: what follows from that depends on the kind of MAC.
-/
namespace GruutMerger

open ByteText Fallible

/-- `VERSION`, `NOT_USED` and `RESERVED` -/
def messageVersion : UInt8 := 49
def notUsed : UInt8 := 0
def reserved : Bytes := List.replicate reservedLength 0

namespace HeaderController

/-- `memcpy` to a place in the header. -/
def copyTo (header : Bytes) (start : Nat) (src : Bytes) : Bytes :=
  header.take start ++ src ++ header.drop (start + src.length)

/-- The length is or-ed into the header from its last byte on. -/
def putLength (header : Bytes) (totalLength : Nat) : Bytes :=
  let (header, totalLength) := [9, 8, 7].foldl (fun s i => (s.1.modify i (· ||| UInt8.ofNat s.2), s.2 >>> 8))
    (header, totalLength)
  header.modify 6 (· ||| UInt8.ofNat totalLength)

/-- `attachHeader` writes the kind of MAC that goes with the type. -/
def macOf (msgType : MessageType) : MACAlgorithmType :=
  if msgType = .accept ∨ msgType = .reqSsig then .hmac else .none

variable (env : Env)

def attachHeader (compressedJson : Bytes) (msgType : MessageType) (compressionAlgoType : CompressionAlgorithmType) : Bytes :=
  let totalLength := (headerLength + compressedJson.length) % 2 ^ 32
  let header := List.replicate headerLength 0
  let header := header.set 0 identifierG
  let header := header.set 1 messageVersion
  let header := header.set 2 msgType.code
  let header := header.set 3 (macOf msgType).code
  let header := header.set 4 compressionAlgoType.code
  let header := header.set 5 notUsed
  let header := putLength header totalLength
  let header := copyTo header 10 (env.myChainId.take chainIdTypeSize)
  let header := if senderIdLength ≤ env.myId.length then
    copyTo header (10 + chainIdTypeSize) (env.myId.take senderIdLength) else header
  let header := copyTo header (10 + chainIdTypeSize + senderIdLength) reserved
  header ++ compressedJson

theorem write_four (n : Nat) : BigEndian.write 4 n =
    [UInt8.ofNat (n >>> 8 >>> 8 >>> 8), UInt8.ofNat (n >>> 8 >>> 8), UInt8.ofNat (n >>> 8), UInt8.ofNat n] := by
  simp [BigEndian.write, List.range_succ, Nat.shiftRight_eq_div_pow, Nat.div_div_eq_div_mul]

/-- A field is written over zeros. -/
theorem copyTo_zeros {pre src : Bytes} {start room left : Nat} (hstart : pre.length = start)
    (hroom : src.length + left = room) :
    copyTo (pre ++ List.replicate room 0) start src = pre ++ src ++ List.replicate left 0 := by
  subst hstart hroom
  simp [copyTo, List.drop_append]

/-- The bytes of a field, by its place and its size. -/
theorem field_append {pre field post : Bytes} {start size : Nat} (hstart : pre.length = start)
    (hsize : field.length = size) : ((pre ++ field ++ post).drop start).take size = field := by
  rw [List.append_assoc, List.drop_left' hstart, List.take_left' hsize]

/-- The fields, one after the other. -/
theorem attachHeader_eq {body : Bytes} {msgType : MessageType} {compression : CompressionAlgorithmType}
    (hchain : env.myChainId.length = chainIdTypeSize) (hid : env.myId.length = senderIdLength) :
    attachHeader env body msgType compression =
      [identifierG, messageVersion, msgType.code, (macOf msgType).code, compression.code, notUsed] ++
        BigEndian.write msgLengthSize ((headerLength + body.length) % 2 ^ 32) ++ env.myChainId ++ env.myId ++ reserved ++
        body := by
  let front := [identifierG, messageVersion, msgType.code, (macOf msgType).code, compression.code, notUsed]
  let length := BigEndian.write msgLengthSize ((headerLength + body.length) % 2 ^ 32)
  have hlength : putLength (front ++ List.replicate 26 0) ((headerLength + body.length) % 2 ^ 32) =
      front ++ length ++ List.replicate 22 0 := by
    simp only [front, length, msgLengthSize, write_four]
    simp [putLength, List.modify, List.replicate]
  have hfront : (front ++ length).length = 10 := by simp [front, length, msgLengthSize]
  have hchainTo : copyTo (front ++ length ++ List.replicate 22 0) 10 env.myChainId =
      front ++ length ++ env.myChainId ++ List.replicate 14 0 := copyTo_zeros hfront (by rw [hchain]; rfl)
  have hfront' : (front ++ length ++ env.myChainId).length = 10 + chainIdTypeSize := by
    rw [List.length_append, hfront, hchain]
  have hidTo : copyTo (front ++ length ++ env.myChainId ++ List.replicate 14 0) (10 + chainIdTypeSize) env.myId =
      front ++ length ++ env.myChainId ++ env.myId ++ List.replicate 6 0 := copyTo_zeros hfront' (by rw [hid]; rfl)
  have hreserved : copyTo (front ++ length ++ env.myChainId ++ env.myId ++ List.replicate 6 0)
      (10 + chainIdTypeSize + senderIdLength) reserved =
      front ++ length ++ env.myChainId ++ env.myId ++ reserved ++ List.replicate 0 0 :=
    copyTo_zeros (by rw [List.length_append, hfront', hid]) rfl
  rw [List.replicate_zero, List.append_nil] at hreserved
  rw [← hreserved, ← hidTo, ← hchainTo, ← hlength]
  simp only [attachHeader, hid, le_refl, if_true]
  rw [List.take_of_length_le hchain.le, List.take_of_length_le hid.le]
  rfl

/-- A header is read field by field. -/
theorem parseHeader_fields (a b c d e f : UInt8) {length chain sender reserve : Bytes} (rest : Bytes)
    (hlength : length.length = msgLengthSize) (hchain : chain.length = chainIdTypeSize)
    (hsender : sender.length = senderIdLength) (hreserve : reserve.length = reservedLength) :
    parseHeader ([a, b, c, d, e, f] ++ length ++ chain ++ sender ++ reserve ++ rest) =
      ⟨a, b, c, d, e, f, length, chain, sender, reserve⟩ := by
  have hfront : ([a, b, c, d, e, f] ++ length).length = 10 := by rw [List.length_append, hlength]; rfl
  have hchains : ([a, b, c, d, e, f] ++ length ++ chain).length = 10 + chainIdTypeSize := by
    rw [List.length_append, hfront, hchain]
  have hsenders : ([a, b, c, d, e, f] ++ length ++ chain ++ sender).length = 10 + chainIdTypeSize + senderIdLength := by
    rw [List.length_append, hchains, hsender]
  simp only [parseHeader, MessageHeader.mk.injEq]
  refine ⟨rfl, rfl, rfl, rfl, rfl, rfl, ?_, ?_, ?_, field_append hsenders hreserve⟩
  · rw [List.append_assoc, List.append_assoc, List.append_assoc]
    exact field_append rfl hlength
  · rw [List.append_assoc, List.append_assoc, field_append hfront hchain]
  · rw [List.append_assoc, field_append hchains hsender]

theorem macOf_code (msgType : MessageType) : (macOf msgType).code = MACAlgorithmType.hmac.code ↔
    msgType = .accept ∨ msgType = .reqSsig := by
  cases msgType <;> decide

end HeaderController

namespace MessageHandler

open HeaderController

variable (env : Env)

section Framed

variable {env} {body : Bytes} {msgType : MessageType} {compression : CompressionAlgorithmType}
  (hchain : env.myChainId.length = chainIdTypeSize) (hid : env.myId.length = senderIdLength)

include hchain hid

theorem parseHeader_attachHeader (rest : Bytes) : parseHeader (attachHeader env body msgType compression ++ rest) =
    ⟨identifierG, messageVersion, msgType.code, (macOf msgType).code, compression.code, notUsed,
      BigEndian.write msgLengthSize ((headerLength + body.length) % 2 ^ 32), env.myChainId, env.myId, reserved⟩ := by
  rw [attachHeader_eq env hchain hid, List.append_assoc _ body]
  exact parseHeader_fields _ _ _ _ _ _ (body ++ rest) (BigEndian.length_write _ _) hchain hid rfl

theorem drop_attachHeader (rest : Bytes) :
    (attachHeader env body msgType compression ++ rest).drop headerLength = body ++ rest := by
  rw [attachHeader_eq env hchain hid, List.append_assoc _ body]
  refine List.drop_left' ?_
  simp only [List.length_append, BigEndian.length_write, hchain, hid]
  rfl

theorem totalLength_attachHeader (hlen : body.length + 32 < 2 ^ 31) (rest : Bytes) :
    convertU8ToU32BE (parseHeader (attachHeader env body msgType compression ++ rest)).totalLength = 32 + body.length := by
  rw [parseHeader_attachHeader hchain hid]
  have hread : BigEndian.read (BigEndian.write msgLengthSize ((headerLength + body.length) % 2 ^ 32)) = 32 + body.length := by
    rw [BigEndian.read_write, headerLength, msgLengthSize]
    omega
  calc toInt32 (BigEndian.read (BigEndian.write msgLengthSize ((headerLength + body.length) % 2 ^ 32)))
      = ((32 + body.length : Nat) : Int) := by rw [hread, toInt32_of_lt (by omega)]
    _ = 32 + body.length := by push_cast; rfl

theorem getMsgBodySize_attachHeader (hlen : body.length + 32 < 2 ^ 31) (rest : Bytes) :
    getMsgBodySize (parseHeader (attachHeader env body msgType compression ++ rest)) = .ok body.length := by
  simp only [getMsgBodySize, totalLength_attachHeader hchain hid hlen, headerLength]
  rw [if_neg (by omega)]
  congr 1
  omega

theorem getMsgBody_attachHeader (rest : Bytes) :
    getMsgBody (attachHeader env body msgType compression ++ rest) body.length = body := by
  rw [getMsgBody, if_neg (by omega), drop_attachHeader hchain hid, Int.toNat_natCast, List.take_left]

end Framed

/-- A framed body, with an HMAC behind it, is taken apart again. -/
theorem framing_round_trip (body : Bytes) (msgType : MessageType) (compression : CompressionAlgorithmType)
    (hchain : env.myChainId.length = chainIdTypeSize) (hid : env.myId.length = senderIdLength)
    (hlen : body.length + 32 < 2 ^ 31) :
    let packed := attachHeader env body msgType compression
    let header := parseHeader packed
    header.identifier = identifierG ∧ header.version = messageVersion ∧ header.messageType = msgType.code ∧
      header.compressionAlgoType = compression.code ∧ header.localChainId = env.myChainId ∧ header.senderId = env.myId ∧
      (header.macAlgoType = MACAlgorithmType.hmac.code ↔ msgType = .accept ∨ msgType = .reqSsig) ∧
      convertU8ToU32BE header.totalLength = 32 + body.length ∧
      ∀ hmac, parseHeader (packed ++ hmac) = header ∧ getMsgBodySize header = .ok body.length ∧
        getMsgBody (packed ++ hmac) body.length = body ∧ (packed ++ hmac).drop (headerLength + body.length) = hmac := by
  intro packed header
  have hread : ∀ rest, parseHeader (packed ++ rest) = _ := parseHeader_attachHeader hchain hid
  have hself : header = parseHeader (packed ++ []) := by rw [List.append_nil]
  have hheader := hself.trans (hread [])
  refine ⟨by rw [hheader], by rw [hheader], by rw [hheader], by rw [hheader], by rw [hheader], by rw [hheader], ?_, ?_,
    fun hmac => ⟨(hread hmac).trans hheader.symm, ?_, getMsgBody_attachHeader hchain hid hmac, ?_⟩⟩
  · rw [hheader]
    exact macOf_code msgType
  · rw [hself]
    exact totalLength_attachHeader hchain hid hlen []
  · rw [hself]
    exact getMsgBodySize_attachHeader hchain hid hlen []
  · rw [← List.drop_drop, drop_attachHeader hchain hid, List.drop_left]

end MessageHandler

namespace Sample

/-- A merger with an id of eight bytes, some above 127. -/
def framingEnv : Env := { base with myId := [200, 1, 2, 3, 4, 5, 6, 255] }

end Sample

namespace MessageHandler

open HeaderController

theorem framing_round_trip_accept :
    (parseHeader (attachHeader Sample.framingEnv [1, 2, 3] .accept .lz4)).senderId = Sample.framingEnv.myId ∧
      getMsgBody (attachHeader Sample.framingEnv [1, 2, 3] .accept .lz4 ++ [7, 8]) 3 = [1, 2, 3] ∧
      (attachHeader Sample.framingEnv [1, 2, 3] .accept .lz4 ++ [7, 8]).drop 35 = [7, 8] := by
  obtain ⟨_, _, _, _, _, hsender, _, _, happend⟩ :=
    framing_round_trip Sample.framingEnv [1, 2, 3] .accept .lz4 (by decide) (by decide) (by decide)
  obtain ⟨_, _, hbody, hrest⟩ := happend [7, 8]
  exact ⟨hsender, hbody, hrest⟩

/-- The length that the header declares. -/
def totalLengthOf (packedMsg : Bytes) : Nat := BigEndian.read (parseHeader packedMsg).totalLength

/-- No position outside the message is read, and what is queued came with as many bytes as its
header declares. -/
def StaysInside (packedMsg : Bytes) : Prop :=
  ∀ env hmacSha256 signerPool, ∃ r, unpackMsg env hmacSha256 signerPool packedMsg = .ok r ∧
    (r.queued.isSome → totalLengthOf packedMsg ≤ packedMsg.length)

/-- Nothing is read from the body: there is none, or its compression is unknown. -/
def Bodiless (packedMsg : Bytes) : Prop :=
  packedMsg.length = headerLength ∨
    ((parseHeader packedMsg).compressionAlgoType ≠ CompressionAlgorithmType.lz4.code ∧
      (parseHeader packedMsg).compressionAlgoType ≠ CompressionAlgorithmType.none.code)

variable {packedMsg : Bytes}

theorem totalLengthOf_lt (packedMsg : Bytes) : totalLengthOf packedMsg < 2 ^ 32 := by
  have hlt := BigEndian.read_lt (parseHeader packedMsg).totalLength
  have hlen : (parseHeader packedMsg).totalLength.length ≤ 4 := by simp [parseHeader, msgLengthSize]
  calc totalLengthOf packedMsg < 256 ^ (parseHeader packedMsg).totalLength.length := hlt
    _ ≤ 256 ^ 4 := Nat.pow_le_pow_right (by decide) hlen

/-- The size of the body by the declared length; just above 2³¹ there is none. -/
theorem getMsgBodySize_eq (packedMsg : Bytes) : getMsgBodySize (parseHeader packedMsg) =
    if totalLengthOf packedMsg < 2 ^ 31 then .ok (totalLengthOf packedMsg - 32)
    else if totalLengthOf packedMsg < 2 ^ 31 + 32 then .error .undefined
    else .ok (totalLengthOf packedMsg - 2 ^ 32 - 32) := by
  have hlt := totalLengthOf_lt packedMsg
  have hconvert : convertU8ToU32BE (parseHeader packedMsg).totalLength =
      if totalLengthOf packedMsg < 2 ^ 31 then (totalLengthOf packedMsg : Int) else totalLengthOf packedMsg - 2 ^ 32 := by
    rw [show convertU8ToU32BE (parseHeader packedMsg).totalLength = toInt32 (totalLengthOf packedMsg) from rfl, toInt32,
      Nat.mod_eq_of_lt hlt]
    split <;> omega
  simp only [getMsgBodySize, hconvert, headerLength]
  split
  · rw [if_neg (by omega)]
    rfl
  · split
    · rw [if_pos (by omega)]
    · rw [if_neg (by omega)]
      rfl

/-- A body that would end beyond the message is all that follows the header. -/
theorem getMsgBody_of_beyond {bodySize : Int} (hsize : getMsgBodySize (parseHeader packedMsg) = .ok bodySize)
    (hbeyond : packedMsg.length < totalLengthOf packedMsg) :
    getMsgBody packedMsg bodySize = packedMsg.drop headerLength := by
  unfold getMsgBody
  split
  · rfl
  · rename_i hnonneg
    refine List.take_of_length_le ?_
    have hlt := totalLengthOf_lt packedMsg
    rw [getMsgBodySize_eq] at hsize
    rw [List.length_drop, headerLength]
    split at hsize
    · obtain rfl := Except.ok.inj hsize
      omega
    split at hsize
    · cases hsize
    · obtain rfl := Except.ok.inj hsize
      omega

section Unpacking

variable {env : Env} {hmacSha256 : Bytes → Bytes → Bytes} {p : SignerPool} {bodySize : Int}

theorem queued_isSome_iff (packedMsg : Bytes) (bodySize : Int) : (queueBody env packedMsg bodySize).queued.isSome ↔
    validateSchema (getJson env (parseHeader packedMsg).compressionAlgoType (getMsgBody packedMsg bodySize))
      (parseHeader packedMsg).messageType = true := by
  simp [Option.isSome_iff_exists, queueBody_queued, bodyJson]

/-- The HMAC is separated exactly when the declared length is one of the message. -/
theorem checkHmac_isOk_iff (hsize : getMsgBodySize (parseHeader packedMsg) = .ok bodySize) :
    (∃ ok, checkHmac env hmacSha256 p packedMsg bodySize = .ok ok) ↔
      totalLengthOf packedMsg < 2 ^ 31 ∧ totalLengthOf packedMsg ≤ packedMsg.length := by
  have hlt := totalLengthOf_lt packedMsg
  have hstart : (headerLength + bodySize < 0 ∨ (packedMsg.length : Int) < headerLength + bodySize) ↔
      ¬ (totalLengthOf packedMsg < 2 ^ 31 ∧ totalLengthOf packedMsg ≤ packedMsg.length) := by
    rw [getMsgBodySize_eq] at hsize
    rw [headerLength]
    split at hsize
    · obtain rfl := Except.ok.inj hsize
      omega
    split at hsize
    · cases hsize
    · obtain rfl := Except.ok.inj hsize
      omega
  unfold checkHmac
  simp only [hstart]
  split
  · rename_i h
    exact iff_of_false (fun ⟨_, h⟩ => by cases h) h
  · rename_i h
    exact iff_of_true ⟨_, rfl⟩ (not_not.mp h)

/-- With an HMAC, all is well exactly when it can be separated. -/
theorem staysInside_hmac (hlen : headerLength ≤ packedMsg.length) (hr : ¬ RefusedHeader (parseHeader packedMsg))
    (hsize : getMsgBodySize (parseHeader packedMsg) = .ok bodySize)
    (hmac : (parseHeader packedMsg).macAlgoType = MACAlgorithmType.hmac.code) :
    StaysInside packedMsg ↔ totalLengthOf packedMsg < 2 ^ 31 ∧ totalLengthOf packedMsg ≤ packedMsg.length := by
  constructor
  · intro h
    obtain ⟨r, hunpack, _⟩ := h Sample.base (fun _ _ => []) SignerPool.empty
    rw [unpackMsg_hmac hlen hr hsize hmac] at hunpack
    obtain ⟨ok, hok, _⟩ := bind_eq_ok.mp hunpack
    exact (checkHmac_isOk_iff hsize).mp ⟨ok, hok⟩
  · intro hinside env hmacSha256 p
    have hchecked : ∃ ok, checkHmac env hmacSha256 p packedMsg bodySize = .ok ok := (checkHmac_isOk_iff hsize).mpr hinside
    obtain ⟨ok, hok⟩ := hchecked
    rw [unpackMsg_hmac hlen hr hsize hmac]
    exact ⟨_, bind_eq_ok.mpr ⟨ok, hok, rfl⟩, fun _ => hinside.2⟩

theorem getJson_bodiless (h : Bodiless packedMsg) :
    getJson env (parseHeader packedMsg).compressionAlgoType (packedMsg.drop headerLength) = .null := by
  rcases h with hlen | ⟨hlz4, hnone⟩
  · rw [List.drop_of_length_le hlen.le, getJson, if_pos rfl]
  · rw [getJson, if_neg hlz4, if_neg hnone, ite_self]

/-- Of a body that is there, the parser may make any value. -/
theorem getJson_of_parse {j : Json} (h : ¬ Bodiless packedMsg) (hlen : headerLength ≤ packedMsg.length) :
    getJson { Sample.base with parse := fun _ => some j } (parseHeader packedMsg).compressionAlgoType
      (packedMsg.drop headerLength) = j := by
  have hbody : packedMsg.drop headerLength ≠ [] := by
    intro hempty
    exact h (Or.inl (le_antisymm (List.drop_eq_nil_iff.mp hempty) hlen))
  have hparse : parseJson { Sample.base with parse := fun _ => some j } (packedMsg.drop headerLength) = j := by
    rw [parseJson, if_neg hbody]
    rfl
  rw [getJson, if_neg hbody]
  split
  · exact hparse
  · rename_i hlz4
    rw [if_pos (by_contra fun hnone => h (Or.inr ⟨hlz4, hnone⟩))]
    exact hparse

end Unpacking

end MessageHandler

/-- A body that fits the schema, with nothing in its texts and arrays. -/
def PropertySchema.filled : PropertySchema → Json
  | plain .string => .string []
  | plain .boolean => .boolean false
  | plain .array => .array []
  | records _ => .array []

def Schema.filled (s : Schema) : Json :=
  .object (s.properties.map (fun p => (p.1, p.2.filled)) ++ s.required.map fun n => (n, .null))

theorem Schema.accepts_filled : ∀ p ∈ schemaMap, p.2.accepts p.2.filled = true := by
  decide +kernel

theorem Schema.exists_accepted {s : Schema} {msgType : UInt8} (h : getSchema msgType = some s) : ∃ j, s.accepts j = true := by
  obtain ⟨p, hp, rfl⟩ := Option.map_eq_some_iff.mp h
  exact ⟨_, accepts_filled p (List.mem_of_find?_eq_some hp)⟩

namespace MessageHandler

open HeaderController

variable {packedMsg : Bytes} {bodySize : Int}

/-- Without an HMAC, a message that declares too much is queued unless its type has a schema and
it has no body to fit it. -/
theorem staysInside_plain (hlen : headerLength ≤ packedMsg.length) (hr : ¬ RefusedHeader (parseHeader packedMsg))
    (hsize : getMsgBodySize (parseHeader packedMsg) = .ok bodySize)
    (hmac : (parseHeader packedMsg).macAlgoType ≠ MACAlgorithmType.hmac.code) :
    StaysInside packedMsg ↔ totalLengthOf packedMsg ≤ packedMsg.length ∨
      (Schema.getSchema (parseHeader packedMsg).messageType ≠ none ∧ Bodiless packedMsg) := by
  have hqueue : StaysInside packedMsg ↔
      ∀ env, (queueBody env packedMsg bodySize).queued.isSome → totalLengthOf packedMsg ≤ packedMsg.length := by
    constructor
    · intro h env
      obtain ⟨r, hunpack, hqueued⟩ := h env (fun _ _ => []) SignerPool.empty
      rw [unpackMsg_plain hlen hr hsize hmac] at hunpack
      obtain rfl := Except.ok.inj hunpack
      exact hqueued
    · intro h env hmacSha256 p
      exact ⟨_, unpackMsg_plain hlen hr hsize hmac, h env⟩
  rw [hqueue]
  by_cases hinside : totalLengthOf packedMsg ≤ packedMsg.length
  · exact iff_of_true (fun _ _ => hinside) (Or.inl hinside)
  have hbody := getMsgBody_of_beyond hsize (not_le.mp hinside)
  simp only [queued_isSome_iff, hbody, hinside, imp_false, false_or]
  constructor
  · intro h
    by_contra hcontra
    cases hschema : Schema.getSchema (parseHeader packedMsg).messageType with
    | none => exact h Sample.base (by rw [validateSchema, hschema]; rfl)
    | some s =>
      have hbodied : ¬ Bodiless packedMsg := fun hb => hcontra ⟨by simp [hschema], hb⟩
      obtain ⟨j, hj⟩ := Schema.exists_accepted hschema
      refine h { Sample.base with parse := fun _ => some j } ?_
      rw [getJson_of_parse hbodied hlen, validateSchema, hschema]
      exact hj
  · rintro ⟨hschema, hbodiless⟩ env
    obtain ⟨s, hs⟩ := Option.ne_none_iff_exists'.mp hschema
    rw [getJson_bodiless hbodiless, validateSchema, hs]
    exact Bool.false_ne_true

/-- Unpacking stays inside the message exactly when the header is refused, or its length can be
an `int` less 32 and is covered: with an HMAC always, without one unless there is no body that
could pass. -/
theorem unpack_inside_iff (hlen : headerLength ≤ packedMsg.length) : StaysInside packedMsg ↔
    RefusedHeader (parseHeader packedMsg) ∨
      ((totalLengthOf packedMsg < 2 ^ 31 ∨ 2 ^ 31 + 32 ≤ totalLengthOf packedMsg) ∧
        ((parseHeader packedMsg).macAlgoType = MACAlgorithmType.hmac.code →
          totalLengthOf packedMsg < 2 ^ 31 ∧ totalLengthOf packedMsg ≤ packedMsg.length) ∧
        ((parseHeader packedMsg).macAlgoType ≠ MACAlgorithmType.hmac.code →
          totalLengthOf packedMsg ≤ packedMsg.length ∨
            (Schema.getSchema (parseHeader packedMsg).messageType ≠ none ∧ Bodiless packedMsg))) := by
  by_cases hr : RefusedHeader (parseHeader packedMsg)
  · exact iff_of_true (fun _ _ _ => ⟨_, unpackMsg_refused hlen hr, by simp⟩) (Or.inl hr)
  rw [or_iff_right hr]
  have hsize := getMsgBodySize_eq packedMsg
  by_cases hrange : totalLengthOf packedMsg < 2 ^ 31 ∨ 2 ^ 31 + 32 ≤ totalLengthOf packedMsg
  · obtain ⟨bodySize, hok⟩ : ∃ bodySize, getMsgBodySize (parseHeader packedMsg) = .ok bodySize := by
      rw [hsize]
      split
      · exact ⟨_, rfl⟩
      · rw [if_neg (by omega)]
        exact ⟨_, rfl⟩
    rw [and_iff_right hrange]
    by_cases hmac : (parseHeader packedMsg).macAlgoType = MACAlgorithmType.hmac.code
    · rw [staysInside_hmac hlen hr hok hmac, forall_prop_of_true hmac, and_iff_left (fun h => absurd hmac h)]
    · rw [staysInside_plain hlen hr hok hmac, forall_prop_of_true hmac, and_iff_right (fun h => absurd h hmac)]
  · refine iff_of_false (fun h => ?_) (fun h => hrange h.1)
    rw [if_neg (by omega), if_pos (by omega)] at hsize
    obtain ⟨r, hunpack, _⟩ := h Sample.base (fun _ _ => []) SignerPool.empty
    rw [unpackMsg_oversized hlen hr hsize] at hunpack
    cases hunpack

/-- A signature of 33 bytes that says so. -/
theorem unpack_inside_ssig : headerLength ≤ (Sample.packedSsig .none 1 65 []).length ∧
    StaysInside (Sample.packedSsig .none 1 65 []) := by
  have hlen : headerLength ≤ (Sample.packedSsig .none 1 65 []).length := by decide
  refine ⟨hlen, (unpack_inside_iff hlen).mpr (Or.inr ⟨Or.inl ?_, fun h => ?_, fun _ => Or.inl ?_⟩)⟩
  · decide
  · exact absurd h (by decide)
  · decide

end MessageHandler

namespace Sample

/-- A signature of 33 bytes that is said to have 99. -/
def overlongSsig (mac : MACAlgorithmType) : Bytes :=
  [71, 49, 0xB3, mac.code, 0xFF, 0, 0, 0, 0, 99] ++ List.replicate 8 0 ++ List.replicate 8 1 ++ List.replicate 6 0 ++ [65]

end Sample

/-- The HMAC is looked for behind the end; without one, the message is queued. -/
theorem MessageHandler.unpack_beyond_end :
    unpackMsg Sample.handlerEnv Sample.lastByteHmac Sample.twoSigners (Sample.overlongSsig .hmac) = .error .undefined ∧
      (∃ r e, unpackMsg Sample.handlerEnv Sample.lastByteHmac Sample.twoSigners (Sample.overlongSsig .none) = .ok r ∧
        r.queued = some e) ∧
      (Sample.overlongSsig .none).length = 33 ∧ totalLengthOf (Sample.overlongSsig .none) = 99 := by
  refine ⟨?_, ?_, by decide, by decide⟩
  · exact failsWith_eq_true.mp (by decide +kernel)
  · have hqueues : okAnd (Sample.queuesSsig (List.replicate 8 1)) (unpackMsg Sample.handlerEnv Sample.lastByteHmac
        Sample.twoSigners (Sample.overlongSsig .none)) = true := by decide +kernel
    obtain ⟨r, e, hr, he, _⟩ := Sample.exists_queued hqueues
    exact ⟨r, e, hr, he⟩

end GruutMerger
