import Mathlib.Algebra.Group.Int.Defs
import Mathlib.Algebra.Group.Nat.Defs
import Mathlib.Data.List.TakeWhile

/-!
# Byte strings and decimal text

A byte string is a list of bytes. `decimal` writes a natural number in base
ten, `readInt` reads an optional sign and the longest run of digits after
leading blanks, as the C library does. The bounded readers fail outside their
machine range, and on text without a leading number.
-/
namespace ByteText

abbrev Bytes := List UInt8

instance Bytes.instLawfulBEq : LawfulBEq Bytes := List.instLawfulBEq

/-- The bytes of an ASCII literal. -/
def ascii (s : String) : Bytes := s.toList.map fun c => UInt8.ofNat c.toNat

theorem ascii_ofList (cs : List Char) : ascii (String.ofList cs) = cs.map fun c => UInt8.ofNat c.toNat := by
  rw [ascii, String.toList_ofList]

def underscore : UInt8 := 95

def digit (n : Nat) : UInt8 := UInt8.ofNat (48 + n % 10)

def decimalAux : Nat → Nat → Bytes → Bytes
  | 0, _, acc => acc
  | fuel + 1, n, acc =>
    if n < 10 then digit n :: acc else decimalAux fuel (n / 10) (digit n :: acc)

/-- Base-ten text of a natural number, without leading zeros. -/
def decimal (n : Nat) : Bytes := decimalAux (n + 1) n []

def isDigit (b : UInt8) : Bool := 48 ≤ b.toNat && b.toNat ≤ 57

def isSpace (b : UInt8) : Bool := b.toNat = 32 || (9 ≤ b.toNat && b.toNat ≤ 13)

def digitsValue (s : Bytes) (start : Nat) : Nat :=
  s.foldl (fun a d => a * 10 + (d.toNat - 48)) start

def readDigits (s : Bytes) : Option Nat :=
  if s.takeWhile isDigit = [] then none else some (digitsValue (s.takeWhile isDigit) 0)

/-- Leading blanks, an optional sign, then the longest run of digits. -/
def readInt (s : Bytes) : Option Int :=
  match s.dropWhile isSpace with
  | 45 :: t => (readDigits t).map fun n => -(n : Int)
  | 43 :: t => (readDigits t).map Int.ofNat
  | t => (readDigits t).map Int.ofNat

/-- Reading into a signed machine integer of `2 * bound` values. -/
def readBounded (bound : Int) (s : Bytes) : Option Int :=
  (readInt s).filter fun v => decide (-bound ≤ v) && decide (v < bound)

def stoll (s : Bytes) : Option Int := readBounded (2 ^ 63) s

def stoi (s : Bytes) : Option Int := readBounded (2 ^ 31) s

theorem digit_toNat (n : Nat) : (digit n).toNat = 48 + n % 10 := by
  have h : 48 + n % 10 < 256 := by omega
  simp [digit, UInt8.toNat_ofNat, Nat.mod_eq_of_lt h]

theorem isDigit_digit (n : Nat) : isDigit (digit n) = true := by
  have h : n % 10 < 10 := Nat.mod_lt n (by decide)
  simp only [isDigit, digit_toNat, Bool.and_eq_true, decide_eq_true_eq]
  omega

/-- Every byte in front of the accumulator is a digit. -/
theorem decimalAux_digits (fuel n : Nat) (acc : Bytes) (h : ∀ b ∈ acc, isDigit b = true) :
    ∀ b ∈ decimalAux fuel n acc, isDigit b = true := by
  induction fuel generalizing n acc with
  | zero => exact h
  | succ fuel ih =>
    have hd : ∀ b ∈ digit n :: acc, isDigit b = true := by
      intro b hb
      rcases List.mem_cons.mp hb with hb | hb
      · rw [hb]; exact isDigit_digit n
      · exact h b hb
    rw [decimalAux]
    split
    · exact hd
    · exact ih (n / 10) (digit n :: acc) hd

theorem decimal_digits (n : Nat) : ∀ b ∈ decimal n, isDigit b = true :=
  decimalAux_digits (n + 1) n [] (by simp)

/-- With enough fuel the digits in front of the accumulator read back as the number. -/
theorem digitsValue_decimalAux (fuel n : Nat) (acc : Bytes) (h : n < fuel) :
    digitsValue (decimalAux fuel n acc) 0 = digitsValue acc n := by
  induction fuel generalizing n acc with
  | zero => omega
  | succ fuel ih =>
    rw [decimalAux]
    split
    · rename_i hn
      have he : (digit n).toNat - 48 = n := by rw [digit_toNat]; omega
      simp [digitsValue, he]
    · rename_i hn
      rw [ih (n / 10) (digit n :: acc) (by omega)]
      have he : n / 10 * 10 + ((digit n).toNat - 48) = n := by rw [digit_toNat]; omega
      simp [digitsValue, he]

theorem decimalAux_ne_nil (fuel n : Nat) (acc : Bytes) (h : 0 < fuel) :
    decimalAux fuel n acc ≠ [] := by
  induction fuel generalizing n acc with
  | zero => omega
  | succ fuel ih =>
    rw [decimalAux]
    split
    · simp
    · cases fuel with
      | zero => simp [decimalAux]
      | succ fuel => exact ih (n / 10) (digit n :: acc) (by omega)

theorem decimal_ne_nil (n : Nat) : decimal n ≠ [] := decimalAux_ne_nil (n + 1) n [] (by omega)

theorem takeWhile_decimal (n : Nat) : (decimal n).takeWhile isDigit = decimal n :=
  List.takeWhile_eq_self_iff.mpr (decimal_digits n)

theorem readDigits_decimal (n : Nat) : readDigits (decimal n) = some n := by
  have hv : digitsValue (decimal n) 0 = n := by
    simpa [decimal, digitsValue] using digitsValue_decimalAux (n + 1) n [] (by omega)
  simp [readDigits, takeWhile_decimal, decimal_ne_nil, hv]

/-- A digit is neither a blank nor a sign, so nothing is skipped. -/
theorem readInt_of_digits (s : Bytes) (hs : s ≠ []) (h : ∀ b ∈ s, isDigit b = true) :
    readInt s = (readDigits s).map Int.ofNat := by
  cases s with
  | nil => exact absurd rfl hs
  | cons b t =>
    have hb := h b (by simp)
    simp only [isDigit, Bool.and_eq_true, decide_eq_true_eq] at hb
    have hspace : isSpace b = false := by simp [isSpace]; omega
    have hminus : b ≠ 45 := by intro he; subst he; exact absurd hb.1 (by decide)
    have hplus : b ≠ 43 := by intro he; subst he; exact absurd hb.1 (by decide)
    simp only [readInt, List.dropWhile_cons, hspace, Bool.false_eq_true, if_false]
    split
    · rename_i he; exact absurd (List.cons.inj he).1 hminus
    · rename_i he; exact absurd (List.cons.inj he).1 hplus
    · rfl

/-- A text that starts with a number: blanks, a sign, digits, and then no further digit. -/
def Numeral (s : Bytes) (v : Int) : Prop :=
  ∃ blanks sign digits rest, s = blanks ++ (sign ++ (digits ++ rest)) ∧ (∀ b ∈ blanks, isSpace b = true) ∧
    digits ≠ [] ∧ (∀ b ∈ digits, isDigit b = true) ∧ (∀ b ∈ rest.head?, isDigit b = false) ∧
    ((sign = [] ∨ sign = [43]) ∧ v = digitsValue digits 0 ∨ sign = [45] ∧ v = -digitsValue digits 0)

theorem isSpace_of_isDigit {b : UInt8} (h : isDigit b = true) : isSpace b = false := by
  simp only [isDigit, Bool.and_eq_true, decide_eq_true_eq] at h
  simp [isSpace]
  omega

theorem head?_dropWhile_false {p : UInt8 → Bool} {s : Bytes} : ∀ b ∈ (s.dropWhile p).head?, p b = false := by
  intro b hb
  have hhead := List.head?_dropWhile_not p s
  rw [Option.mem_def.mp hb] at hhead
  exact hhead

/-- The digits that are read end at the first byte that is none. -/
theorem readDigits_eq_some_iff {s : Bytes} {n : Nat} :
    readDigits s = some n ↔ ∃ digits rest, s = digits ++ rest ∧ digits ≠ [] ∧ (∀ b ∈ digits, isDigit b = true) ∧
      (∀ b ∈ rest.head?, isDigit b = false) ∧ n = digitsValue digits 0 := by
  unfold readDigits
  constructor
  · intro h
    split at h
    · cases h
    · rename_i hne
      exact ⟨s.takeWhile isDigit, s.dropWhile isDigit, List.takeWhile_append_dropWhile.symm, hne,
        fun b hb => List.mem_takeWhile_imp hb, head?_dropWhile_false, (Option.some.inj h).symm⟩
  · rintro ⟨digits, rest, rfl, hne, hdigits, hrest, rfl⟩
    have htake : (digits ++ rest).takeWhile isDigit = digits := by
      rw [List.takeWhile_append_of_pos hdigits]
      cases rest with
      | nil => simp
      | cons b rest => simp [hrest b rfl]
    rw [htake, if_neg hne]

/-- Blanks are skipped, and the first byte that is none ends them. -/
theorem dropWhile_isSpace_append {blanks t : Bytes} (hblanks : ∀ b ∈ blanks, isSpace b = true)
    (ht : ∀ b ∈ t.head?, isSpace b = false) : (blanks ++ t).dropWhile isSpace = t := by
  rw [List.dropWhile_append_of_pos hblanks]
  cases t with
  | nil => rfl
  | cons b t => simp [ht b rfl]

theorem numeral_of_readInt {s : Bytes} {v : Int} (h : readInt s = some v) : Numeral s v := by
  have hsplit : s = s.takeWhile isSpace ++ s.dropWhile isSpace := List.takeWhile_append_dropWhile.symm
  have hblanks : ∀ b ∈ s.takeWhile isSpace, isSpace b = true := fun b hb => List.mem_takeWhile_imp hb
  unfold readInt at h
  split at h
  · rename_i t heq
    obtain ⟨_, hread, rfl⟩ := Option.map_eq_some_iff.mp h
    obtain ⟨n, hn, heq'⟩ := Option.bind_eq_some_iff.mp hread
    cases heq'
    obtain ⟨digits, rest, rfl, hne, hdigits, hrest, rfl⟩ := readDigits_eq_some_iff.mp hn
    rw [heq] at hsplit
    exact ⟨_, [45], digits, rest, hsplit, hblanks, hne, hdigits, hrest, .inr ⟨rfl, rfl⟩⟩
  · rename_i t heq
    obtain ⟨n, hn, rfl⟩ := Option.map_eq_some_iff.mp h
    obtain ⟨digits, rest, rfl, hne, hdigits, hrest, rfl⟩ := readDigits_eq_some_iff.mp hn
    rw [heq] at hsplit
    exact ⟨_, [43], digits, rest, hsplit, hblanks, hne, hdigits, hrest, .inl ⟨.inr rfl, rfl⟩⟩
  · obtain ⟨n, hn, rfl⟩ := Option.map_eq_some_iff.mp h
    obtain ⟨digits, rest, heq, hne, hdigits, hrest, rfl⟩ := readDigits_eq_some_iff.mp hn
    rw [heq] at hsplit
    exact ⟨_, [], digits, rest, hsplit, hblanks, hne, hdigits, hrest, .inl ⟨.inl rfl, rfl⟩⟩

theorem Numeral.readInt_eq {s : Bytes} {v : Int} (h : Numeral s v) : readInt s = some v := by
  obtain ⟨blanks, sign, digits, rest, rfl, hblanks, hne, hdigits, hrest, hv⟩ := h
  have hread : readDigits (digits ++ rest) = some (digitsValue digits 0) :=
    readDigits_eq_some_iff.mpr ⟨digits, rest, rfl, hne, hdigits, hrest, rfl⟩
  unfold readInt
  rcases hv with ⟨rfl | rfl, rfl⟩ | ⟨rfl, rfl⟩
  · -- without a sign the first byte is a digit
    obtain ⟨d, digits, rfl⟩ := List.exists_cons_of_ne_nil hne
    have hd := hdigits d (by simp)
    rw [List.nil_append, dropWhile_isSpace_append hblanks (by simpa using isSpace_of_isDigit hd)]
    split
    · rename_i heq
      rw [List.cons_append] at heq
      rw [(List.cons.inj heq).1] at hd
      exact absurd hd (by decide)
    · rename_i heq
      rw [List.cons_append] at heq
      rw [(List.cons.inj heq).1] at hd
      exact absurd hd (by decide)
    · rw [hread]
      rfl
  · have hsign : ∀ b ∈ ([43] ++ (digits ++ rest)).head?, isSpace b = false := by simp [isSpace]
    rw [dropWhile_isSpace_append hblanks hsign]
    simp [hread]
  · have hsign : ∀ b ∈ ([45] ++ (digits ++ rest)).head?, isSpace b = false := by simp [isSpace]
    rw [dropWhile_isSpace_append hblanks hsign]
    simp [hread]

/-- A number is read from exactly the texts that start with one. -/
theorem readInt_eq_some_iff {s : Bytes} {v : Int} : readInt s = some v ↔ Numeral s v :=
  ⟨numeral_of_readInt, Numeral.readInt_eq⟩

/-- The numbers that fit the range are read. -/
theorem readBounded_isSome_iff {bound : Int} {s : Bytes} :
    (∃ v, readBounded bound s = some v) ↔ ∃ v, Numeral s v ∧ -bound ≤ v ∧ v < bound := by
  simp only [readBounded, Option.filter_eq_some_iff, Bool.and_eq_true, decide_eq_true_eq, readInt_eq_some_iff]

/-- A number without a sign, and nothing else. -/
def Digits (s : Bytes) : Prop := s ≠ [] ∧ ∀ b ∈ s, isDigit b = true

theorem not_digits_nil : ¬ Digits [] := fun h => h.1 rfl

theorem numeral_of_digits {s : Bytes} (h : Digits s) {v : Int} : Numeral s v ↔ v = digitsValue s 0 := by
  rw [← readInt_eq_some_iff, readInt_of_digits s h.1 h.2, readDigits, List.takeWhile_eq_self_iff.mpr h.2, if_neg h.1,
    Option.map_some, Option.some.injEq, eq_comm]
  rfl

theorem readBounded_of_digits {s : Bytes} (h : Digits s) {bound v : Int} (hbound : 0 ≤ bound) :
    readBounded bound s = some v ↔ v = digitsValue s 0 ∧ v < bound := by
  rw [readBounded, Option.filter_eq_some_iff, readInt_eq_some_iff, numeral_of_digits h]
  simp only [Bool.and_eq_true, decide_eq_true_eq]
  omega

theorem stoll_of_digits {s : Bytes} (h : Digits s) {v : Int} :
    stoll s = some v ↔ v = digitsValue s 0 ∧ v < 2 ^ 63 := readBounded_of_digits h (by decide)

theorem stoi_of_digits {s : Bytes} (h : Digits s) {v : Int} :
    stoi s = some v ↔ v = digitsValue s 0 ∧ v < 2 ^ 31 := readBounded_of_digits h (by decide)

theorem readInt_decimal (n : Nat) : readInt (decimal n) = some (n : Int) := by
  rw [readInt_of_digits _ (decimal_ne_nil n) (decimal_digits n), readDigits_decimal]
  rfl

theorem readBounded_decimal (bound : Int) (n : Nat) (h : (n : Int) < bound) :
    readBounded bound (decimal n) = some (n : Int) := by
  have hl : -bound ≤ (n : Int) := by omega
  simp [readBounded, readInt_decimal, Option.filter, h, hl]

theorem readBounded_decimal_none (bound : Int) (n : Nat) (h : bound ≤ (n : Int)) :
    readBounded bound (decimal n) = none := by
  simp [readBounded, readInt_decimal, Option.filter, h]

theorem stoll_decimal (n : Nat) (h : n < 2 ^ 63) : stoll (decimal n) = some (n : Int) :=
  readBounded_decimal _ n (by exact_mod_cast h)

theorem stoi_decimal (n : Nat) (h : n < 2 ^ 31) : stoi (decimal n) = some (n : Int) :=
  readBounded_decimal _ n (by exact_mod_cast h)

theorem decimal_injective : Function.Injective decimal := by
  intro m n h
  have hm := readDigits_decimal m
  rw [h, readDigits_decimal] at hm
  exact (Option.some.inj hm).symm

theorem underscore_notMem_decimal (n : Nat) : underscore ∉ decimal n := by
  intro h
  exact absurd (decimal_digits n underscore h) (by decide)

theorem readDigits_append_underscore (s rest : Bytes) : readDigits (s ++ underscore :: rest) = readDigits s := by
  have htake : (s ++ underscore :: rest).takeWhile isDigit = s.takeWhile isDigit := by
    induction s with
    | nil => rfl
    | cons b s ih =>
      rw [List.cons_append, List.takeWhile_cons, List.takeWhile_cons, ih]
  rw [readDigits, readDigits, htake]

/-- A number ends before an underscore. -/
theorem readInt_append_underscore (s rest : Bytes) : readInt (s ++ underscore :: rest) = readInt s := by
  have hdrop : (s ++ underscore :: rest).dropWhile isSpace = s.dropWhile isSpace ++ underscore :: rest := by
    induction s with
    | nil => rfl
    | cons b s ih =>
      rw [List.cons_append, List.dropWhile_cons, List.dropWhile_cons, ih]
      split <;> rfl
  unfold readInt
  rw [hdrop]
  cases s.dropWhile isSpace with
  | nil =>
    rw [List.nil_append]
    rfl
  | cons b t =>
    rw [List.cons_append]
    have h := readDigits_append_underscore
    split
    · rename_i heq
      cases heq
      simp only [h]
    · rename_i heq
      cases heq
      simp only [h]
    · rename_i h45 h43
      split
      · rename_i heq
        cases heq
        exact absurd rfl (h45 _)
      · rename_i heq
        cases heq
        exact absurd rfl (h43 _)
      · rw [← List.cons_append, h]

/-- Splitting at the first separator is unambiguous when neither head contains it. -/
theorem append_inj_of_notMem {sep : UInt8} {a b s t : Bytes} (ha : sep ∉ a) (hb : sep ∉ b)
    (h : a ++ sep :: s = b ++ sep :: t) : a = b ∧ s = t := by
  induction a generalizing b with
  | nil =>
    cases b with
    | nil => simpa using h
    | cons y b =>
      have hy := (List.cons.inj h).1
      exact absurd (by simp [hy]) hb
  | cons x a ih =>
    cases b with
    | nil =>
      have hx := (List.cons.inj h).1
      exact absurd (by simp [← hx]) ha
    | cons y b =>
      obtain ⟨hxy, ht⟩ := List.cons.inj h
      obtain ⟨hab, hst⟩ := ih (fun hm => ha (by simp [hm])) (fun hm => hb (by simp [hm])) ht
      exact ⟨by rw [hxy, hab], hst⟩

/-- Splitting at a separator after which there is no other. -/
theorem append_separator_cases {sep : UInt8} {a b s t : Bytes} (hs : sep ∉ s) (h : a ++ sep :: s = b ++ sep :: t) :
    a = b ∨ ∃ w, a = b ++ sep :: w ∧ t = w ++ sep :: s := by
  rcases List.append_eq_append_iff.mp h with ⟨c, rfl, hc⟩ | ⟨c, rfl, hc⟩
  · cases c with
    | nil => exact Or.inl (List.append_nil a).symm
    | cons x c =>
      obtain ⟨_, rfl⟩ := List.cons.inj hc
      exact absurd (by simp) hs
  · cases c with
    | nil => exact Or.inl (List.append_nil b)
    | cons x c =>
      obtain ⟨rfl, rfl⟩ := List.cons.inj hc
      exact Or.inr ⟨c, rfl, rfl⟩

/-- What may follow an id in a key: nothing, or a text that starts with an underscore. -/
def KeySuffix (s : Bytes) : Prop := s = [] ∨ ∃ t, s = underscore :: t

theorem append_keySuffix_inj {a b s t : Bytes} (ha : underscore ∉ a) (hb : underscore ∉ b)
    (hs : KeySuffix s) (ht : KeySuffix t) (h : a ++ s = b ++ t) : a = b ∧ s = t := by
  rcases hs with rfl | ⟨s, rfl⟩ <;> rcases ht with rfl | ⟨t, rfl⟩
  · simpa using h
  · simp only [List.append_nil] at h
    exact absurd (by simp [h]) ha
  · simp only [List.append_nil] at h
    exact absurd (by simp [← h]) hb
  · obtain ⟨hab, hst⟩ := append_inj_of_notMem ha hb h
    exact ⟨hab, by rw [hst]⟩

end ByteText
