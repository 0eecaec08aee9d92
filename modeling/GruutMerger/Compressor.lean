import GruutMerger.MakeBlock
import GruutMerger.MessageFraming

/-!
# Compression

LZ4 is external: what it writes is an arbitrary function that keeps the contract of the
library. The room for decompressed data is guessed, three times the size of what came,
and the length that is returned is used without a look at its sign.
-/
namespace GruutMerger

open ByteText Fallible

/-- `LZ4_MAX_INPUT_SIZE` -/
def lz4MaxInputSize : Nat := 0x7E000000

/-- `LZ4_compressBound`: 0 for a size that cannot be compressed. -/
def lz4CompressBound (size : Int) : Nat :=
  if size < 0 ∨ lz4MaxInputSize < size then 0 else (size + size / 255 + 16).toNat

/-- The library, with the capacity of the destination as a second argument. -/
structure Lz4 where
  /-- `LZ4_compress_default`: the bytes that are written, none on failure -/
  compressDefault : Bytes → Nat → Bytes
  /-- `LZ4_decompress_safe`: the length that is returned, and what the destination holds -/
  decompressSafe : Bytes → Nat → Int × Bytes
  length_compress : ∀ s capacity, (compressDefault s capacity).length ≤ capacity
  length_dest : ∀ c capacity, (decompressSafe c capacity).2.length = capacity
  decompress_own : ∀ s capacity, s.length ≤ lz4MaxInputSize → s.length ≤ capacity →
    (decompressSafe (compressDefault s (lz4CompressBound s.length)) capacity).1 = s.length ∧
      (decompressSafe (compressDefault s (lz4CompressBound s.length)) capacity).2.take s.length = s
  decompress_small : ∀ s capacity, s.length ≤ lz4MaxInputSize → capacity < s.length →
    (decompressSafe (compressDefault s (lz4CompressBound s.length)) capacity).1 < 0
  compress_repetitive : ∀ b n, 64 ≤ n → n ≤ lz4MaxInputSize →
    3 * (compressDefault (List.replicate n b) (lz4CompressBound n)).length < n

namespace Compressor

variable (lz4 : Lz4)

/-- A size beyond an `int` is cut down to one. -/
def compressData (src : Bytes) : Bytes :=
  let srcSize := toInt32 src.length
  lz4.compressDefault (src.take srcSize.toNat) (lz4CompressBound srcSize)

def decompressData (src : Bytes) : Except Failure Bytes :=
  let compressedSize := toInt32 src.length
  let destCapacity := compressedSize * 3
  -- a product of `int`s
  if destCapacity < -2 ^ 31 ∨ 2 ^ 31 ≤ destCapacity then .error .undefined
  -- `resize` throws
  else if destCapacity < 0 then .error .std
  else
    let (destLength, dest) := lz4.decompressSafe (src.take compressedSize.toNat) destCapacity.toNat
    -- a negative length is converted to one beyond any end
    .ok (if destLength < 0 then dest else dest.take destLength.toNat)

/-- What is read back: a string that LZ4 takes, and does not make three times smaller. -/
structure Recoverable (s : Bytes) : Prop where
  le_max : s.length ≤ lz4MaxInputSize
  room_lt : 3 * (compressData lz4 s).length < 2 ^ 31
  le_room : s.length ≤ 3 * (compressData lz4 s).length

variable {lz4} {s : Bytes}

theorem lz4CompressBound_lt (n : Int) : lz4CompressBound n < 2 ^ 31 := by
  unfold lz4CompressBound lz4MaxInputSize
  split <;> omega

theorem compressData_of_le (h : s.length ≤ lz4MaxInputSize) :
    compressData lz4 s = lz4.compressDefault s (lz4CompressBound s.length) := by
  have hlt : s.length < 2 ^ 31 := lt_of_le_of_lt h (by decide)
  rw [compressData, toInt32_of_lt hlt, Int.toNat_natCast, List.take_length]

/-- Decompressing within the range of an `int`. -/
theorem decompressData_eq {c : Bytes} (h : c.length < 2 ^ 31) : decompressData lz4 c =
    if 2 ^ 31 ≤ 3 * c.length then .error .undefined
    else .ok (if (lz4.decompressSafe c (3 * c.length)).1 < 0 then (lz4.decompressSafe c (3 * c.length)).2
      else (lz4.decompressSafe c (3 * c.length)).2.take (lz4.decompressSafe c (3 * c.length)).1.toNat) := by
  have hcapacity : ((c.length : Int) * 3).toNat = 3 * c.length := by omega
  simp only [decompressData, toInt32_of_lt h, Int.toNat_natCast, List.take_length, hcapacity]
  by_cases hroom : 2 ^ 31 ≤ 3 * c.length
  · rw [if_pos hroom, if_pos (Or.inr (by omega))]
  · rw [if_neg hroom, if_neg (by omega), if_neg (by omega)]

variable (lz4) in
/-- What becomes of a compressed string: no room can be counted, it comes back, or as many
bytes as there was room for do. -/
theorem decompressData_own (h : s.length ≤ lz4MaxInputSize) :
    (2 ^ 31 ≤ 3 * (compressData lz4 s).length ∧ decompressData lz4 (compressData lz4 s) = .error .undefined) ∨
      (Recoverable lz4 s ∧ decompressData lz4 (compressData lz4 s) = .ok s) ∨
      (3 * (compressData lz4 s).length < s.length ∧
        ∃ dest, dest.length = 3 * (compressData lz4 s).length ∧ decompressData lz4 (compressData lz4 s) = .ok dest) := by
  have hc : (compressData lz4 s).length < 2 ^ 31 := by
    rw [compressData_of_le h]
    exact lt_of_le_of_lt (lz4.length_compress _ _) (lz4CompressBound_lt _)
  rw [decompressData_eq hc]
  by_cases hroom : 2 ^ 31 ≤ 3 * (compressData lz4 s).length
  · exact Or.inl ⟨hroom, if_pos hroom⟩
  rw [if_neg hroom]
  right
  by_cases hle : s.length ≤ 3 * (compressData lz4 s).length
  · obtain ⟨hlength, hdest⟩ := lz4.decompress_own s (3 * (compressData lz4 s).length) h hle
    rw [← compressData_of_le h] at hlength hdest
    rw [hlength, if_neg (by omega), Int.toNat_natCast, hdest]
    exact Or.inl ⟨⟨h, not_le.mp hroom, hle⟩, rfl⟩
  · have hneg := lz4.decompress_small s (3 * (compressData lz4 s).length) h (not_le.mp hle)
    rw [← compressData_of_le h] at hneg
    rw [if_pos hneg]
    exact Or.inr ⟨not_le.mp hle, _, lz4.length_dest _ _, rfl⟩

/-- A string that is too long comes back shorter, if at all. -/
theorem decompressData_too_long (h : lz4MaxInputSize < s.length) : decompressData lz4 (compressData lz4 s) ≠ .ok s := by
  intro hok
  by_cases hsize : toInt32 s.length < 0 ∨ lz4MaxInputSize < toInt32 s.length
  · -- nothing is written, and nothing comes back
    have hnil : compressData lz4 s = [] := by
      have hlen := lz4.length_compress (s.take (toInt32 s.length).toNat) (lz4CompressBound (toInt32 s.length))
      rw [show lz4CompressBound (toInt32 s.length) = 0 from if_pos hsize] at hlen
      rw [compressData, lz4CompressBound, if_pos hsize]
      exact List.length_eq_zero_iff.mp (Nat.le_zero.mp hlen)
    have hdest := lz4.length_dest [] 0
    rw [hnil, decompressData_eq (by decide), if_neg (by decide)] at hok
    have hempty := congrArg List.length (Except.ok.inj hok)
    split at hempty
    · rw [show 3 * List.length ([] : Bytes) = 0 from rfl, hdest] at hempty
      omega
    · rw [show 3 * List.length ([] : Bytes) = 0 from rfl, List.length_take, hdest] at hempty
      omega
  · -- only a first part is compressed
    let part := s.take (toInt32 s.length).toNat
    have hpart : part.length = (toInt32 s.length).toNat := by
      rw [List.length_take]
      unfold toInt32 at hsize ⊢
      omega
    have hle : part.length ≤ lz4MaxInputSize := by omega
    have hsame : compressData lz4 s = compressData lz4 part := by
      rw [compressData_of_le hle, hpart, Int.toNat_of_nonneg (by omega)]
      rfl
    rw [hsame] at hok
    rcases decompressData_own lz4 hle with ⟨_, herror⟩ | ⟨_, hback⟩ | ⟨hroom, dest, hdest, hback⟩
    · rw [herror] at hok
      cases hok
    · have hlen := congrArg List.length (Except.ok.inj (hback.symm.trans hok))
      omega
    · have hlen := congrArg List.length (Except.ok.inj (hback.symm.trans hok))
      omega

theorem round_trip_iff : decompressData lz4 (compressData lz4 s) = .ok s ↔ Recoverable lz4 s := by
  by_cases h : s.length ≤ lz4MaxInputSize
  · rcases decompressData_own lz4 h with ⟨hroom, herror⟩ | ⟨hrec, hback⟩ | ⟨hroom, dest, hdest, hback⟩
    · refine iff_of_false (fun hok => ?_) (fun hr => absurd hr.room_lt (not_lt.mpr hroom))
      rw [herror] at hok
      cases hok
    · exact iff_of_true hback hrec
    · refine iff_of_false (fun hok => ?_) (fun hr => absurd hr.le_room (not_le.mpr hroom))
      have hlen := congrArg List.length (Except.ok.inj (hback.symm.trans hok))
      omega
  · exact iff_of_false (decompressData_too_long (not_le.mp h)) (fun hr => h hr.le_max)

end Compressor

/-- `DEFAULT_COMPRESSION_TYPE` -/
def defaultCompressionType : CompressionAlgorithmType := .lz4

namespace MessageHandler

open HeaderController Compressor

variable (env : Env) (maker : Maker) (hmacSha256 : Bytes → Bytes → Bytes)

/-- Only LZ4 compresses. -/
def genPackedMsg (msgType : MessageType) (compression : CompressionAlgorithmType) (body : Json) : Bytes :=
  let bodyDump := match compression with
    | .lz4 => maker.compressData (maker.dump body)
    | _ => maker.dump body
  attachHeader env bodyDump msgType compression

/-- `Hmac::generateHMAC` -/
def generateHMAC (msg key : Bytes) : Bytes := hmacSha256 (env.sha256 key) msg

/-- The messages that `packMsg` hands to `sendMessage`: one for each receiver where an HMAC is
due, else one for all. -/
def packMsg (signerPool : SignerPool) (outputMsg : OutputMsgEntry) : List Bytes :=
  let packedMsg := genPackedMsg env maker outputMsg.type defaultCompressionType outputMsg.body
  if outputMsg.type = .accept ∨ outputMsg.type = .reqSsig then
    outputMsg.receivers.map fun recvId =>
      packedMsg ++ generateHMAC env hmacSha256 packedMsg (signerPool.getHmacKey recvId)
  else [packedMsg]

/-- The body that a receiver takes out of a message. -/
def readBody (packedMsg : Bytes) : Except Failure Json := do
  let bodySize ← getMsgBodySize (parseHeader packedMsg)
  return getJson env (parseHeader packedMsg).compressionAlgoType (getMsgBody packedMsg bodySize)

theorem exists_append_of_mem_packMsg {p : SignerPool} {msg : OutputMsgEntry} {packed : Bytes}
    (h : packed ∈ packMsg env maker hmacSha256 p msg) :
    ∃ hmac, packed = genPackedMsg env maker msg.type defaultCompressionType msg.body ++ hmac := by
  unfold packMsg at h
  simp only at h
  split at h
  · obtain ⟨recvId, _, rfl⟩ := List.mem_map.mp h
    exact ⟨_, rfl⟩
  · exact ⟨[], by rw [List.append_nil]; exact List.mem_singleton.mp h⟩

end MessageHandler

namespace Compressor

open HeaderController MessageHandler

/-- The environment and the maker of blocks use the compressor, and read back what is dumped of
a value. -/
structure Wired (lz4 : Lz4) (env : Env) (maker : Maker) (j : Json) : Prop where
  compress : maker.compressData = compressData lz4
  decompress : ∀ {c d}, decompressData lz4 c = .ok d → env.decompressData c = d
  parse : env.parse (maker.dump j) = some j
  dump_ne : maker.dump j ≠ []

variable {lz4 : Lz4} {env : Env} {maker : Maker} {j : Json}

theorem Wired.parseJson_eq (h : Wired lz4 env maker j) (hr : Recoverable lz4 (maker.dump j)) :
    parseJson env (env.decompressData (maker.compressData (maker.dump j))) = j := by
  rw [h.compress, h.decompress (round_trip_iff.mpr hr), parseJson, if_neg h.dump_ne, h.parse]
  rfl

theorem Wired.carried (h : Wired lz4 env maker j) (hr : Recoverable lz4 (maker.dump j)) : Block.Carried env maker j where
  decompress := by rw [h.compress, h.decompress (round_trip_iff.mpr hr)]
  parse := h.parse
  dump_ne := h.dump_ne
  length_lt := by
    have hroom := hr.room_lt
    rw [h.compress]
    omega

theorem Wired.readBody_eq (h : Wired lz4 env maker j) (hr : Recoverable lz4 (maker.dump j))
    (hchain : env.myChainId.length = chainIdTypeSize) (hid : env.myId.length = senderIdLength) (msgType : MessageType)
    (hmac : Bytes) : readBody env (genPackedMsg env maker msgType defaultCompressionType j ++ hmac) = .ok j := by
  have hlen : (maker.compressData (maker.dump j)).length + 32 < 2 ^ 31 := by
    have hroom := hr.room_lt
    rw [h.compress]
    omega
  have hne : maker.compressData (maker.dump j) ≠ [] := by
    intro hnil
    have hle := hr.le_room
    rw [← h.compress, hnil, List.length_nil, Nat.mul_zero] at hle
    exact h.dump_ne (List.length_eq_zero_iff.mp (Nat.le_zero.mp hle))
  change readBody env (attachHeader env (maker.compressData (maker.dump j)) msgType .lz4 ++ hmac) = .ok j
  rw [readBody, getMsgBodySize_attachHeader hchain hid hlen]
  change Except.ok (getJson env _ (getMsgBody _ _)) = _
  rw [getMsgBody_attachHeader hchain hid, parseHeader_attachHeader hchain hid, getJson, if_neg hne, if_pos rfl,
    h.parseJson_eq hr]

theorem not_recoverable_replicate (b : UInt8) {n : Nat} (hn : 64 ≤ n) (hle : n ≤ lz4MaxInputSize) :
    ¬ Recoverable lz4 (List.replicate n b) := by
  intro h
  have hroom := h.le_room
  have hsmall := lz4.compress_repetitive b n hn hle
  rw [compressData_of_le h.le_max, List.length_replicate] at hroom
  omega

variable (lz4) in
/-- A string is read back exactly when LZ4 takes it and its compressed form is at least a third
of it, so no long run of one byte is. Where the text of a JSON value is, it is read back as the
body of a message and as the header of a block. -/
theorem compression_round_trip : (∀ s, decompressData lz4 (compressData lz4 s) = .ok s ↔ Recoverable lz4 s) ∧
    (∀ b n, 64 ≤ n → n ≤ lz4MaxInputSize → ¬ Recoverable lz4 (List.replicate n b)) ∧
    ∀ env maker,
      (∀ hmacSha256 signerPool (msg : OutputMsgEntry), Wired lz4 env maker msg.body →
        Recoverable lz4 (maker.dump msg.body) → env.myChainId.length = chainIdTypeSize →
        env.myId.length = senderIdLength →
        ∀ packed ∈ packMsg env maker hmacSha256 signerPool msg, readBody env packed = .ok msg.body) ∧
      ∀ (b : Block) signature, Wired lz4 env maker (b.getBlockHeaderJson env) →
        Recoverable lz4 (maker.dump (b.getBlockHeaderJson env)) → signature ≠ [] →
        Block.getBlockHeader env (b.generateMetaWithCompHeader env maker ++ signature) = .ok (b.getBlockHeaderJson env) := by
  refine ⟨fun s => round_trip_iff, fun b n => not_recoverable_replicate b, fun env maker => ⟨?_, ?_⟩⟩
  · intro hmacSha256 signerPool msg hwired hr hchain hid packed hpacked
    obtain ⟨hmac, rfl⟩ := exists_append_of_mem_packMsg env maker hmacSha256 hpacked
    exact hwired.readBody_eq hr hchain hid msg.type hmac
  · intro b signature hwired hr hne
    exact Block.getBlockHeader_finalize env (hwired.carried hr) hne

end Compressor

namespace Sample

/-- A long run of one byte is written as the byte and its number, all else as it is. -/
def runEncode : Bytes → Bytes
  | [] => [0]
  | b :: s => if 64 ≤ s.length + 1 ∧ s = List.replicate s.length b then 1 :: b :: BigEndian.write 4 (s.length + 1)
    else 0 :: b :: s

def runDecode : Bytes → Option Bytes
  | 0 :: s => some s
  | 1 :: b :: number => some (List.replicate (BigEndian.read number) b)
  | _ => none

theorem runDecode_runEncode {s : Bytes} (h : s.length < 256 ^ 4) : runDecode (runEncode s) = some s := by
  cases s with
  | nil => rfl
  | cons b s =>
    rw [runEncode]
    split
    · rename_i hrun
      rw [List.length_cons] at h
      rw [runDecode, BigEndian.read_write, Nat.mod_eq_of_lt h, List.replicate_succ, ← hrun.2]
    · rfl

theorem length_runEncode (s : Bytes) : (runEncode s).length ≤ s.length + 1 := by
  cases s with
  | nil => decide
  | cons b s =>
    rw [runEncode]
    split
    · rename_i hrun
      simp only [List.length_cons, BigEndian.length_write]
      omega
    · rfl

theorem runEncode_replicate {n : Nat} (b : UInt8) (h : 64 ≤ n) : (runEncode (List.replicate n b)).length = 6 := by
  obtain ⟨m, rfl⟩ := Nat.exists_eq_add_of_lt (show 0 < n by omega)
  simp only [Nat.zero_add, List.replicate_succ, runEncode, List.length_replicate]
  rw [if_pos ⟨by omega, trivial⟩, List.length_cons, List.length_cons, BigEndian.length_write]

/-- The number of bytes that fit, and a destination of zeros of which they are the first. -/
def runDecodeInto (c : Bytes) (capacity : Nat) : Int × Bytes :=
  match runDecode c with
  | some s => if s.length ≤ capacity then (s.length, s ++ List.replicate (capacity - s.length) 0)
    else (-1, List.replicate capacity 0)
  | none => (-1, List.replicate capacity 0)

theorem length_runDecodeInto (c : Bytes) (capacity : Nat) : (runDecodeInto c capacity).2.length = capacity := by
  unfold runDecodeInto
  split
  · split
    · rw [List.length_append, List.length_replicate]
      omega
    · exact List.length_replicate
  · exact List.length_replicate

theorem runEncode_fits {s : Bytes} (h : s.length ≤ lz4MaxInputSize) :
    (runEncode s).length ≤ lz4CompressBound s.length := by
  have hlen := length_runEncode s
  rw [lz4CompressBound, if_neg (by omega)]
  omega

theorem runDecodeInto_runEncode {s : Bytes} (capacity : Nat) (h : s.length ≤ lz4MaxInputSize) :
    runDecodeInto (runEncode s) capacity = if s.length ≤ capacity
      then ((s.length : Int), s ++ List.replicate (capacity - s.length) 0) else (-1, List.replicate capacity 0) := by
  have hlt : s.length < 256 ^ 4 := lt_of_le_of_lt h (by decide)
  rw [runDecodeInto, runDecode_runEncode hlt]

def runLength : Lz4 where
  compressDefault s capacity := if (runEncode s).length ≤ capacity then runEncode s else []
  decompressSafe := runDecodeInto
  length_compress s capacity := by
    split
    · assumption
    · exact Nat.zero_le _
  length_dest := length_runDecodeInto
  decompress_own s capacity h hle := by
    rw [if_pos (runEncode_fits h), runDecodeInto_runEncode capacity h, if_pos hle]
    exact ⟨rfl, List.take_left⟩
  decompress_small s capacity h hlt := by
    rw [if_pos (runEncode_fits h), runDecodeInto_runEncode capacity h, if_neg (not_le.mpr hlt)]
    exact show (-1 : Int) < 0 by decide
  compress_repetitive b n h hle := by
    have hfits := runEncode_fits (s := List.replicate n b) (by rwa [List.length_replicate])
    rw [List.length_replicate] at hfits
    rw [if_pos hfits, runEncode_replicate b h]
    omega

/-- A merger that compresses runs, and whose only JSON text is one byte long. -/
def runEnv : Env :=
  { framingEnv with
    decompressData := fun c => match Compressor.decompressData runLength c with
      | .ok d => d
      | .error _ => []
    parse := fun _ => some (supportBody [65]) }

def runMaker : Maker := ⟨fun _ => [1], Compressor.compressData runLength, fun _ => [7]⟩

theorem wired_supportBody : Compressor.Wired runLength runEnv runMaker (supportBody [65]) where
  compress := rfl
  decompress h := by simp only [runEnv, h]
  parse := rfl
  dump_ne := by decide

end Sample

namespace Compressor

open MessageHandler

/-- A text that is not made smaller. -/
theorem compression_round_trip_short : ∃ packed,
    packMsg Sample.runEnv Sample.runMaker Sample.lastByteHmac Sample.twoSigners ⟨.ssig, Sample.supportBody [65], []⟩ =
      [packed] ∧ readBody Sample.runEnv packed = .ok (Sample.supportBody [65]) := by
  have hr : Recoverable Sample.runLength [7] := ⟨by decide, by decide, by decide⟩
  refine ⟨_, rfl, ?_⟩
  exact ((compression_round_trip Sample.runLength).2.2 Sample.runEnv Sample.runMaker).1 Sample.lastByteHmac
    Sample.twoSigners ⟨.ssig, Sample.supportBody [65], []⟩ Sample.wired_supportBody hr rfl rfl _ (List.mem_singleton_self _)

/-- A run of 100 bytes comes back as 18 zeros. -/
theorem repetitive_lost : decompressData Sample.runLength (compressData Sample.runLength (List.replicate 100 65)) =
    .ok (List.replicate 18 0) := by
  decide +kernel

end Compressor

end GruutMerger
