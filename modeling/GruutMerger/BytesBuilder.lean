import GruutMerger.SignerPoolManager
import GruutMerger.Sample
import GruutMerger.Lib.BigEndian

/-!
# The builder of signed messages

`BytesBuilder` either grows with what is appended or fills a buffer of a fixed size. Integers
are appended byte by byte, most significant first, and decimal text as the integer that
`stoi` reads. The time of a signed message is appended as text when a signature is checked
and as an integer when one is made.
-/
namespace GruutMerger

open ByteText

structure BytesBuilder where
  bytes : Bytes
  filledLen : Nat
  autoAppend : Bool

namespace BytesBuilder

def empty : BytesBuilder := ⟨[], 0, true⟩

def ofLength (len : Nat) : BytesBuilder := ⟨List.replicate len 0, 0, false⟩

/-- `append` of a whole vector. What does not fit into a fixed buffer is not appended at all. -/
def append (b : BytesBuilder) (vals : Bytes) : BytesBuilder :=
  if vals = [] then b
  else if b.autoAppend then { b with bytes := b.bytes ++ vals }
  else if b.bytes.length ≤ b.filledLen then b
  else if b.bytes.length < b.filledLen + vals.length then b
  else { b with
    bytes := b.bytes.take b.filledLen ++ vals ++ b.bytes.drop (b.filledLen + vals.length)
    filledLen := b.filledLen + vals.length }

/-- The loop over the bytes of an integer, with `i` turns to go. -/
def fillLoop (n len : Nat) : Nat → Bytes → Bytes
  | 0, bytes => bytes
  | i + 1, bytes => fillLoop n len i (bytes.set (len - (i + 1)) (UInt8.ofNat (n >>> (8 * i) &&& 0xFF)))

/-- `append(uint64_t, size_t)`: lengths above eight are cut down. -/
def appendInteger (b : BytesBuilder) (n len : Nat) : BytesBuilder :=
  let len := min len 8
  if len = 0 then b else b.append (fillLoop n len len (List.replicate len 0))

/-- The length is an int that becomes a `size_t`, and -1 if it is not given. -/
def appendDec (b : BytesBuilder) (s : Bytes) (len : Int) : Except Failure BytesBuilder :=
  match stoi s with
  | some v => .ok (b.appendInteger (toUInt64 v) (toUInt64 len))
  | none => .error .std

def getBytes (b : BytesBuilder) : Bytes :=
  if b.autoAppend || decide (b.filledLen = b.bytes.length) then b.bytes else b.bytes.take b.filledLen

theorem ofNat_and_255 (n : Nat) : UInt8.ofNat (n &&& 0xFF) = UInt8.ofNat n := by
  rw [← UInt8.toNat_inj, UInt8.toNat_ofNat', UInt8.toNat_ofNat', show (0xFF : Nat) = 2 ^ 8 - 1 by rfl,
    Nat.and_two_pow_sub_one_eq_mod, Nat.mod_mod]

/-- The loop writes the low bytes behind those it has written already. -/
theorem fillLoop_eq (n : Nat) {len i : Nat} {bytes : Bytes} (hlen : bytes.length = len) (hi : i ≤ len) :
    fillLoop n len i bytes = bytes.take (len - i) ++ BigEndian.write i n := by
  induction i generalizing bytes with
  | zero => simp [fillLoop, BigEndian.write, ← hlen]
  | succ i ih =>
    have hpos : len - (i + 1) < bytes.length := by omega
    rw [fillLoop, ih (by rw [List.length_set, hlen]) (by omega), show len - i = len - (i + 1) + 1 by omega,
      List.take_succ_eq_append_getElem (by rwa [List.length_set]), List.getElem_set_self, List.take_set_of_le le_rfl,
      BigEndian.write_succ_front, ofNat_and_255, Nat.shiftRight_eq_div_pow, Nat.pow_mul, List.append_assoc]
    rfl

theorem appendInteger_eight (b : BytesBuilder) (n : Nat) {len : Nat} (h : 8 ≤ len) :
    b.appendInteger n len = b.append (BigEndian.write 8 n) := by
  have hmin : min len 8 = 8 := Nat.min_eq_right h
  simp only [appendInteger, hmin]
  rw [fillLoop_eq n (by simp) le_rfl]
  rfl

theorem append_auto {b : BytesBuilder} (h : b.autoAppend = true) (vals : Bytes) :
    (b.append vals).bytes = b.bytes ++ vals := by
  unfold append
  split
  · rename_i hnil
    rw [hnil, List.append_nil]
  · rfl

theorem appendDec_of_some {b : BytesBuilder} {s : Bytes} {v : Int} (h : stoi s = some v) :
    b.appendDec s (-1) = .ok (b.append (BigEndian.write 8 (toUInt64 v))) := by
  rw [appendDec, h]
  -- the length -1 becomes the greatest size there is
  exact congrArg Except.ok (b.appendInteger_eight _ (by decide))

/-- The bytes that a signed message gets from decimal text. -/
theorem appendDec_eq (s : Bytes) : GruutMerger.appendDec s = (empty.appendDec s (-1)).map getBytes := by
  cases h : stoi s with
  | none => rw [appendDec, GruutMerger.appendDec, h]; rfl
  | some v =>
    rw [appendDec_of_some h, GruutMerger.appendDec, h]
    rfl

theorem stoi_decimal_none {t : Nat} (h : 2 ^ 31 ≤ t) : stoi (decimal t) = none :=
  readBounded_decimal_none _ t (by exact_mod_cast h)

end BytesBuilder

namespace SignerPoolManager

open BytesBuilder

variable (env : Env)

/-- A received time is appended as the integer is, in eight bytes with the most significant
first, and the message that is checked for it is the one that is signed for it. -/
def EncodingsAgree (t : Nat) : Prop :=
  (∀ b : BytesBuilder, b.autoAppend = true → ∃ b', b.appendDec (decimal t) (-1) = .ok b' ∧ b.appendInteger t 8 = b' ∧
      b'.bytes = b.bytes ++ BigEndian.write 8 t) ∧
    ∀ (nonce : Bytes) (body : Json), Safe.getStringOf body "time" = decimal t →
      ∃ msg, signedResponse env nonce body = .ok msg ∧
        ∀ draw : JoinDraw, signMessage env draw nonce (Safe.getStringOf body "sN") (Safe.getStringOf body "dhx")
          (Safe.getStringOf body "dhy") t = env.base64.encode (draw.doSign msg)

theorem timestamp_encodings_agree_iff (t : Nat) : EncodingsAgree env t ↔ t < 2 ^ 31 := by
  constructor
  · rintro ⟨happend, _⟩
    by_contra hge
    obtain ⟨b', hb', _⟩ := happend empty rfl
    rw [BytesBuilder.appendDec, stoi_decimal_none (Nat.not_lt.mp hge)] at hb'
    cases hb'
  · intro hlt
    have hread : stoi (decimal t) = some (t : Int) := stoi_decimal t hlt
    have hvalue : toUInt64 (t : Int) = t := by
      unfold toUInt64
      omega
    refine ⟨fun b hauto => ⟨_, appendDec_of_some hread, ?_, ?_⟩, fun nonce body htime => ?_⟩
    · rw [hvalue]
      exact b.appendInteger_eight t le_rfl
    · rw [hvalue]
      exact append_auto hauto _
    · have happend : appendDec (decimal t) = .ok (BigEndian.write 8 t) := by
        rw [appendDec_eq, appendDec_of_some hread, hvalue]
        rfl
      refine ⟨_, ?_, fun draw => rfl⟩
      rw [signedResponse, htime, happend]
      rfl

/-- A time of the year 2038, which both validators admit, is not appended at all. -/
theorem timestamp_encodings_2038 :
    let body : Json := .object [("time", .string (decimal (2 ^ 31)))]
    MessageValidator.isValidType (2 ^ 31) body .timestampNow "time" = .ok true ∧
      MessageValidator.isValidType (2 ^ 31) body .timestamp "time" = .ok true ∧
      BytesBuilder.empty.appendDec (decimal (2 ^ 31)) (-1) = .error .std ∧ ¬ EncodingsAgree Sample.base (2 ^ 31) := by
  refine ⟨by decide +kernel, by decide +kernel, ?_, fun h => ?_⟩
  · rw [BytesBuilder.appendDec, stoi_decimal_none le_rfl]
  · obtain ⟨b', hb', _⟩ := h.1 empty rfl
    rw [BytesBuilder.appendDec, stoi_decimal_none le_rfl] at hb'
    cases hb'

end SignerPoolManager
end GruutMerger
