import GruutMerger.Lib.Base64

/-!
# JSON values and the `Safe` readers

The JSON values the merger handles, with the library's `empty`, `find` and
`operator[]`, and the `Safe` helpers that turn missing or ill-typed fields into
defaults. Decimal fields go through `stoll`, which may throw.
-/
namespace GruutMerger

open ByteText

/-- How a call of the source leaves without a result. -/
inductive Failure where
  /-- a `json::exception` -/
  | json
  /-- `std::out_of_range`, `std::invalid_argument` or `std::length_error` -/
  | std
  /-- an access outside a container -/
  | undefined
  deriving DecidableEq

/-- A key is written with one character for each of its bytes. -/
inductive Json where
  | null
  | boolean (b : Bool)
  | number (n : Int)
  | string (s : Bytes)
  | array (xs : List Json)
  | object (fields : List (String × Json))

namespace Json

def isArray : Json → Bool
  | array _ => true
  | _ => false

def elements : Json → List Json
  | array xs => xs
  | _ => []

/-- `empty()`: only null and containers without elements are empty. -/
def isEmpty : Json → Bool
  | null => true
  | array xs => xs.isEmpty
  | object fs => fs.isEmpty
  | _ => false

def find (j : Json) (key : String) : Option Json :=
  match j with
  | object fs => fs.lookup key
  | _ => none

/-- The non-const `operator[]` with a key: a missing field reads as null, and a
value that is neither null nor an object throws. -/
def field (j : Json) (key : String) : Except Failure Json :=
  match j with
  | null => .ok null
  | object fs => .ok ((fs.lookup key).getD null)
  | _ => .error .json

/-- The first 256 entries of the table of `serializer::decode`. -/
def utf8Type (b : UInt8) : Nat :=
  if b < 0x80 then 0 else if b < 0x90 then 1 else if b < 0xA0 then 9 else if b < 0xC0 then 7 else if b < 0xC2 then 8
  else if b < 0xE0 then 2 else if b = 0xE0 then 10 else if b = 0xED then 4 else if b < 0xF0 then 3
  else if b = 0xF0 then 11 else if b < 0xF4 then 6 else if b = 0xF4 then 5 else 8

/-- The other entries: state 0 accepts, and state 1 is never left. -/
def utf8Next : Nat → Nat → Nat
  | 0, type => [0, 1, 2, 3, 5, 8, 7, 1, 1, 1, 4, 6].getD type 1
  | 2, 1 | 2, 7 | 2, 9 => 0
  | 3, 1 | 3, 7 | 3, 9 | 4, 7 | 5, 1 | 5, 9 => 2
  | 6, 7 | 6, 9 | 7, 1 | 7, 7 | 7, 9 | 8, 1 => 3
  | _, _ => 1

def isUtf8 (s : Bytes) : Bool := decide (s.foldl (fun state b => utf8Next state (utf8Type b)) 0 = 0)

mutual
/-- Whether `dump` gives a text: it throws on a string that is not UTF-8. -/
def dumps : Json → Bool
  | string s => isUtf8 s
  | array xs => dumpsAll xs
  | object fs => dumpsFields fs
  | _ => true

def dumpsAll : List Json → Bool
  | [] => true
  | x :: xs => dumps x && dumpsAll xs

def dumpsFields : List (String × Json) → Bool
  | [] => true
  | f :: fs => isUtf8 (ascii f.1) && dumps f.2 && dumpsFields fs
end

theorem dumpsAll_eq (xs : List Json) : dumpsAll xs = xs.all dumps := by
  induction xs with
  | nil => rfl
  | cons x xs ih => rw [dumpsAll, ih, List.all_cons]

theorem isUtf8_of_ascii {s : Bytes} (h : ∀ b ∈ s, b < 128) : isUtf8 s = true := by
  refine decide_eq_true ?_
  induction s with
  | nil => rfl
  | cons b s ih =>
    have hb : utf8Type b = 0 := if_pos (h b List.mem_cons_self)
    rw [List.foldl_cons, hb]
    exact ih fun c hc => h c (List.mem_cons_of_mem _ hc)

/-- An array of base64 texts. -/
theorem dumps_encoded {α : Type} (b64 : Base64) (xs : List α) (f : α → Bytes) :
    dumps (.array (xs.map fun x => .string (b64.encode (f x)))) = true := by
  rw [dumps, dumpsAll_eq, List.all_map]
  exact List.all_eq_true.mpr fun x _ => isUtf8_of_ascii (b64.encode_ascii (f x))

end Json

/-- `static_cast<uint64_t>` of a signed value. -/
def toUInt64 (v : Int) : Nat := (v % 2 ^ 64).toNat

namespace Safe

/-- The text of a string value, and the empty text of any other. -/
def getString : Json → Bytes
  | .string s => s
  | _ => []

def getStringOf (j : Json) (key : String) : Bytes :=
  match j.find key with
  | some v => getString v
  | none => []

def getStringAt (j : Json) (idx : Nat) : Bytes := getString (j.elements.getD idx .null)

/-- `stoll`, with its exceptions. -/
def parseDecimal (s : Bytes) : Except Failure Nat :=
  if s = [] then .ok 0 else match stoll s with
    | some v => .ok (toUInt64 v)
    | none => .error .std

/-- `getInt`, which `getTime` repeats for time stamps. -/
def getInt (j : Json) (key : String) : Except Failure Nat := parseDecimal (getStringOf j key)

def getTime (s : Bytes) : Except Failure Nat := parseDecimal s

def getTimeOf (j : Json) (key : String) : Except Failure Nat := getTime (getStringOf j key)

/-- Unlike the two above, a leading minus sign gives zero. -/
def getSize (s : Bytes) : Except Failure Nat :=
  if s.head? = some 45 then .ok 0 else parseDecimal s

def getBytesFromB64 (b64 : Base64) (j : Json) (key : String) : Bytes :=
  if getStringOf j key = [] then [] else b64.decode (getStringOf j key)

/-- A field that holds an encoding reads back as what was encoded. -/
theorem getBytesFromB64_encode {b64 : Base64} {j : Json} {key : String} {b : Bytes}
    (h : getStringOf j key = b64.encode b) : getBytesFromB64 b64 j key = b := by
  rw [getBytesFromB64, h]
  split
  · rename_i hnil
    exact ((b64.encode_eq_nil b).mp hnil).symm
  · exact b64.decode_encode b

theorem parseDecimal_eq_ok_iff {s : Bytes} {n : Nat} :
    parseDecimal s = .ok n ↔ (s = [] ∧ n = 0) ∨ s ≠ [] ∧ ∃ v, stoll s = some v ∧ n = toUInt64 v := by
  unfold parseDecimal
  split
  · rename_i hnil
    simp [hnil, eq_comm]
  · rename_i hne
    cases hv : stoll s with
    | none => simp [hne]
    | some v => simp [hne, eq_comm]

/-- Digits are read as their number, if a signed integer has room for it. -/
theorem parseDecimal_of_digits {s : Bytes} (h : Digits s) {n : Nat} :
    parseDecimal s = .ok n ↔ digitsValue s 0 < 2 ^ 63 ∧ n = digitsValue s 0 := by
  rw [parseDecimal_eq_ok_iff]
  simp only [h.1, false_and, false_or, ne_eq, not_false_eq_true, true_and, stoll_of_digits h, toUInt64]
  constructor
  · rintro ⟨v, ⟨rfl, hlt⟩, rfl⟩
    omega
  · rintro ⟨hlt, rfl⟩
    exact ⟨_, ⟨rfl, by omega⟩, by omega⟩

theorem parseDecimal_decimal (n : Nat) (h : n < 2 ^ 63) : parseDecimal (decimal n) = .ok n := by
  have hn : toUInt64 (n : Int) = n := by
    unfold toUInt64
    omega
  simp [parseDecimal, decimal_ne_nil, stoll_decimal n h, hn]

theorem parseDecimal_decimal_of_le (n : Nat) (h : 2 ^ 63 ≤ n) : parseDecimal (decimal n) = .error .std := by
  have hnone : stoll (decimal n) = none := readBounded_decimal_none _ _ (by omega)
  simp [parseDecimal, decimal_ne_nil, hnone]

/-- Digits are read as a value that a signed integer has room for. -/
theorem parseDecimal_lt {s : Bytes} {n : Nat} (hd : ∀ b ∈ s, isDigit b = true) (h : parseDecimal s = .ok n) :
    n < 2 ^ 63 := by
  unfold parseDecimal at h
  split at h
  · cases h
    decide
  rename_i hne
  split at h
  · rename_i v hv
    cases h
    obtain ⟨hread, hbound⟩ := Option.filter_eq_some_iff.mp hv
    rw [readInt_of_digits s hne hd] at hread
    obtain ⟨m, _, rfl⟩ := Option.map_eq_some_iff.mp hread
    simp only [Bool.and_eq_true, decide_eq_true_eq] at hbound
    have hlt := hbound.2
    simp only [toUInt64, Int.ofNat_eq_natCast] at hlt ⊢
    omega
  · cases h

theorem getSize_eq_parseDecimal (n : Nat) : getSize (decimal n) = parseDecimal (decimal n) := by
  have hd : (decimal n).head? ≠ some 45 := by
    intro hc
    have hm : (45 : UInt8) ∈ decimal n := List.mem_of_mem_head? hc
    exact absurd (decimal_digits n 45 hm) (by decide)
  rw [getSize, if_neg hd]

theorem getSize_decimal (n : Nat) (h : n < 2 ^ 63) : getSize (decimal n) = .ok n := by
  rw [getSize_eq_parseDecimal, parseDecimal_decimal n h]

end Safe
end GruutMerger
