import GruutMerger.Lib.Bytes

/-!
# Base64 text

A `Base64` value is a codec with the laws that callers rely on: decoding
undoes encoding, only the empty string encodes to the empty text, and the
letters are ASCII without the underscore. `Base64.padded` is the usual padded
alphabet.
-/
namespace ByteText

structure Base64 where
  encode : Bytes → Bytes
  decode : Bytes → Bytes
  decode_encode : ∀ b, decode (encode b) = b
  encode_nil : encode [] = []
  underscore_notMem : ∀ b, underscore ∉ encode b
  encode_ascii : ∀ b, ∀ c ∈ encode b, c < 128

namespace Base64

theorem encode_injective (c : Base64) : Function.Injective c.encode := by
  intro a b h
  have ha := c.decode_encode a
  rwa [h, c.decode_encode b, eq_comm] at ha

@[simp] theorem encode_inj (c : Base64) (a b : Bytes) : c.encode a = c.encode b ↔ a = b :=
  c.encode_injective.eq_iff

@[simp] theorem encode_eq_nil (c : Base64) (b : Bytes) : c.encode b = [] ↔ b = [] := by
  constructor
  · intro h
    exact c.encode_injective (by rw [h, c.encode_nil])
  · intro h
    rw [h, c.encode_nil]

/-- Texts come in groups of four letters. -/
def Padded (c : Base64) : Prop := ∀ b, 4 ∣ (c.encode b).length

/-- A letter in front of a text never gives a text. -/
theorem Padded.encode_ne_cons {c : Base64} (h : c.Padded) (a b : Bytes) (x : UInt8) : c.encode a ≠ x :: c.encode b := by
  intro heq
  have hlen := congrArg List.length heq
  have ha := h a
  have hb := h b
  rw [List.length_cons] at hlen
  omega

/-- The sixty-four letters in the order of their values. -/
def letter (n : Nat) : UInt8 :=
  if n < 26 then UInt8.ofNat (65 + n)
  else if n < 52 then UInt8.ofNat (71 + n)
  else if n < 62 then UInt8.ofNat (n - 4)
  else if n = 62 then 43 else 47

def letterValue (b : UInt8) : Option Nat := (List.range 64).find? fun n => letter n == b

theorem letterValue_letter : ∀ n < 64, letterValue (letter n) = some n := by decide +kernel

theorem letter_ne_pad : ∀ n < 64, letter n ≠ 61 := by decide +kernel

def encodePadded : Bytes → Bytes
  | [] => []
  | [a] => [letter (a.toNat / 4), letter (a.toNat % 4 * 16), 61, 61]
  | [a, b] =>
    [letter (a.toNat / 4), letter (a.toNat % 4 * 16 + b.toNat / 16), letter (b.toNat % 16 * 4), 61]
  | a :: b :: c :: rest =>
    letter (a.toNat / 4) :: letter (a.toNat % 4 * 16 + b.toNat / 16) ::
      letter (b.toNat % 16 * 4 + c.toNat / 64) :: letter (c.toNat % 64) :: encodePadded rest

def decodeQuad (w x y z : UInt8) : Option Bytes := do
  let w ← letterValue w
  let x ← letterValue x
  if y = 61 then
    if z = 61 then some [UInt8.ofNat (w * 4 + x / 16)] else none
  else
    let y ← letterValue y
    if z = 61 then some [UInt8.ofNat (w * 4 + x / 16), UInt8.ofNat (x % 16 * 16 + y / 4)]
    else
      let z ← letterValue z
      some [UInt8.ofNat (w * 4 + x / 16), UInt8.ofNat (x % 16 * 16 + y / 4), UInt8.ofNat (y % 4 * 64 + z)]

/-- Malformed text decodes to nothing. -/
def decodePadded : Bytes → Option Bytes
  | [] => some []
  | w :: x :: y :: z :: rest => do
    let head ← decodeQuad w x y z
    let tail ← decodePadded rest
    some (head ++ tail)
  | _ => none

theorem ofNat_eq (a : UInt8) (n : Nat) (h : n = a.toNat) : UInt8.ofNat n = a := by
  rw [h, UInt8.ofNat_toNat]

theorem decodeQuad_three (a b c : UInt8) :
    decodeQuad (letter (a.toNat / 4)) (letter (a.toNat % 4 * 16 + b.toNat / 16))
      (letter (b.toNat % 16 * 4 + c.toNat / 64)) (letter (c.toNat % 64)) = some [a, b, c] := by
  have ha := a.toNat_lt
  have hb := b.toNat_lt
  have hc := c.toNat_lt
  simp only [decodeQuad, letterValue_letter (a.toNat / 4) (by omega),
    letterValue_letter (a.toNat % 4 * 16 + b.toNat / 16) (by omega),
    letterValue_letter (b.toNat % 16 * 4 + c.toNat / 64) (by omega),
    letterValue_letter (c.toNat % 64) (by omega),
    letter_ne_pad (b.toNat % 16 * 4 + c.toNat / 64) (by omega),
    letter_ne_pad (c.toNat % 64) (by omega), Option.bind_eq_bind, Option.bind_some, if_false]
  rw [ofNat_eq a _ (by omega), ofNat_eq b _ (by omega), ofNat_eq c _ (by omega)]

theorem decodeQuad_two (a b : UInt8) :
    decodeQuad (letter (a.toNat / 4)) (letter (a.toNat % 4 * 16 + b.toNat / 16))
      (letter (b.toNat % 16 * 4)) 61 = some [a, b] := by
  have ha := a.toNat_lt
  have hb := b.toNat_lt
  simp only [decodeQuad, letterValue_letter (a.toNat / 4) (by omega),
    letterValue_letter (a.toNat % 4 * 16 + b.toNat / 16) (by omega),
    letterValue_letter (b.toNat % 16 * 4) (by omega),
    letter_ne_pad (b.toNat % 16 * 4) (by omega), Option.bind_eq_bind, Option.bind_some, if_false,
    if_true]
  rw [ofNat_eq a _ (by omega), ofNat_eq b _ (by omega)]

theorem decodeQuad_one (a : UInt8) :
    decodeQuad (letter (a.toNat / 4)) (letter (a.toNat % 4 * 16)) 61 61 = some [a] := by
  have ha := a.toNat_lt
  simp only [decodeQuad, letterValue_letter (a.toNat / 4) (by omega),
    letterValue_letter (a.toNat % 4 * 16) (by omega), Option.bind_eq_bind, Option.bind_some, if_true]
  rw [ofNat_eq a _ (by omega)]

theorem decodePadded_encodePadded (b : Bytes) : decodePadded (encodePadded b) = some b := by
  induction b using encodePadded.induct with
  | case1 => rfl
  | case2 a => simp [encodePadded, decodePadded, decodeQuad_one]
  | case3 a b => simp [encodePadded, decodePadded, decodeQuad_two]
  | case4 a b c rest ih => simp [encodePadded, decodePadded, decodeQuad_three, ih]

theorem forall_mem_encodePadded {P : UInt8 → Prop} (hletter : ∀ n < 64, P (letter n)) (hpad : P 61) (b : Bytes) :
    ∀ c ∈ encodePadded b, P c := by
  induction b using encodePadded.induct with
  | case1 => simp [encodePadded]
  | case2 a =>
    have ha := a.toNat_lt
    simp only [encodePadded, List.forall_mem_cons]
    exact ⟨hletter _ (by omega), hletter _ (by omega), hpad, hpad, List.forall_mem_nil _⟩
  | case3 a b =>
    have ha := a.toNat_lt
    have hb := b.toNat_lt
    simp only [encodePadded, List.forall_mem_cons]
    exact ⟨hletter _ (by omega), hletter _ (by omega), hletter _ (by omega), hpad, List.forall_mem_nil _⟩
  | case4 a b c rest ih =>
    have ha := a.toNat_lt
    have hb := b.toNat_lt
    have hc := c.toNat_lt
    simp only [encodePadded, List.forall_mem_cons]
    exact ⟨hletter _ (by omega), hletter _ (by omega), hletter _ (by omega), hletter _ (by omega), ih⟩

def padded : Base64 where
  encode := encodePadded
  decode := fun b => (decodePadded b).getD []
  decode_encode := by intro b; rw [decodePadded_encodePadded]; rfl
  encode_nil := rfl
  underscore_notMem b hmem := forall_mem_encodePadded (P := (· ≠ underscore)) (by decide +kernel) (by decide) b _ hmem rfl
  encode_ascii := forall_mem_encodePadded (by decide +kernel) (by decide)

theorem padded_padded : padded.Padded := by
  intro b
  induction b using encodePadded.induct with
  | case1 => exact Nat.dvd_zero 4
  | case2 a => exact Nat.dvd_refl 4
  | case3 a b => exact Nat.dvd_refl 4
  | case4 a b c rest ih =>
    have hlen : (encodePadded (a :: b :: c :: rest)).length = (encodePadded rest).length + 4 := rfl
    rw [show padded.encode = encodePadded from rfl] at ih ⊢
    rw [hlen]
    exact Nat.dvd_add ih (Nat.dvd_refl 4)

example : padded.encode (ascii "Gruut!") = ascii "R3J1dXQh" := by decide

end Base64

end ByteText
