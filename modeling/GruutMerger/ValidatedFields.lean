import GruutMerger.MessageSchema

/-!
# The fields that the validator looks at

The rows of the filter for a type are checked in order until one fails. A text may
stop the check altogether: a time is read before anything is known of it, and a
number before it is known to fit. What passes is what the filter declares, except
that a difference of times is cut down to 32 bits and elements of arrays are not
looked at.
-/
namespace GruutMerger
namespace MessageValidator

open ByteText Fallible

variable {regexMatch : Bytes → Except Failure Bool} {now : Nat} {type : MessageType} {body : Json}

theorem isDecimal_iff {s : Bytes} : isDecimal s = true ↔ Digits s := by
  simp [isDecimal, Digits]

/-- The difference that is looked at is the one of the times, up to a multiple of the
range of an `int`. -/
theorem toInt32_sub64 (now time : Nat) (h : time < 2 ^ 64) :
    -2 ^ 31 ≤ toInt32 (sub64 now time) ∧ toInt32 (sub64 now time) < 2 ^ 31 ∧
      ∃ k : Int, toInt32 (sub64 now time) = now - time - k * 2 ^ 32 := by
  refine ⟨?_, ?_, ((now : Int) - time - toInt32 (sub64 now time)) / 2 ^ 32, ?_⟩
  all_goals
    unfold toInt32 sub64
    omega

theorem absInt_eq_ok {v : Int} {n : Nat} : absInt v = .ok n ↔ v ≠ -2 ^ 31 ∧ n = v.natAbs := by
  unfold absInt
  split
  · simp_all
  · simp_all [eq_comm]

section Kinds

variable {key : String} {text : Bytes} (htext : Safe.getStringOf body key = text) {b : Bool}

include htext

/-- A `TIMESTAMP_NOW` of digits is compared with the clock. -/
theorem timestampNow_of_digits (hd : Digits text) :
    isValidType now body .timestampNow key = .ok b ↔
      digitsValue text 0 < 2 ^ 63 ∧ toInt32 (sub64 now (digitsValue text 0)) ≠ -2 ^ 31 ∧
        b = decide ((toInt32 (sub64 now (digitsValue text 0))).natAbs < timeMaxDiffSec) := by
  simp only [isValidType, isValidTypeBy, htext, isDecimal_iff.mpr hd, if_true, bind_eq_ok, pure_eq_ok, Safe.getTimeOf, Safe.getTime,
    Safe.parseDecimal_of_digits hd, absInt_eq_ok]
  constructor
  · rintro ⟨_, ⟨hlt, rfl⟩, _, ⟨hmin, rfl⟩, rfl⟩
    exact ⟨hlt, hmin, rfl⟩
  · rintro ⟨hlt, hmin, rfl⟩
    exact ⟨_, ⟨hlt, rfl⟩, _, ⟨hmin, rfl⟩, rfl⟩

/-- Any other text is refused, if it can be read. -/
theorem timestampNow_of_not_digits (hd : ¬ Digits text) :
    isValidType now body .timestampNow key = .ok b ↔ (text = [] ∨ ∃ v, stoll text = some v) ∧ b = false := by
  simp only [isValidType, isValidTypeBy, htext, show isDecimal text = false by simpa using mt isDecimal_iff.mp hd, Bool.false_eq_true,
    if_false, bind_eq_ok, pure_eq_ok, Safe.getTimeOf, Safe.getTime, Safe.parseDecimal_eq_ok_iff]
  constructor
  · rintro ⟨_, ⟨hnil, _⟩ | ⟨_, v, hv, _⟩, rfl⟩
    · exact ⟨.inl hnil, rfl⟩
    · exact ⟨.inr ⟨v, hv⟩, rfl⟩
  · rintro ⟨hread, rfl⟩
    by_cases hnil : text = []
    · exact ⟨0, .inl ⟨hnil, rfl⟩, rfl⟩
    · obtain ⟨v, hv⟩ := hread.resolve_left hnil
      exact ⟨_, .inr ⟨hnil, v, hv, rfl⟩, rfl⟩

theorem uint_eq_ok :
    isValidType now body .uint key = .ok b ↔ (Digits text → digitsValue text 0 < 2 ^ 31) ∧ (b = true ↔ Digits text) := by
  simp only [isValidType, isValidTypeBy, htext]
  by_cases hd : Digits text
  · rw [if_pos (isDecimal_iff.mpr hd)]
    cases hv : stoi text with
    | none =>
      have hlarge : ¬ digitsValue text 0 < 2 ^ 31 := fun hlt => by
        rw [(stoi_of_digits (v := digitsValue text 0) hd).mpr ⟨rfl, by omega⟩] at hv
        cases hv
      exact iff_of_false (by simp) fun h => hlarge (h.1 hd)
    | some v =>
      obtain ⟨rfl, hlt⟩ := (stoi_of_digits hd).mp hv
      have hsmall : digitsValue text 0 < 2 ^ 31 := by omega
      simp only [Int.natCast_nonneg, decide_true, Except.ok.injEq]
      constructor
      · rintro rfl
        exact ⟨fun _ => hsmall, iff_of_true rfl hd⟩
      · rintro ⟨_, hb⟩
        exact (hb.mpr hd).symm
  · rw [if_neg (mt isDecimal_iff.mp hd)]
    simp [hd, eq_comm]

end Kinds

/-- What the check of a field asks of its text to come to an end. A `BASE64` is empty or a
text that `regex_match` has an answer for. A `TIMESTAMP_NOW` is empty or starts with a number of 64 bits, and if it is all digits its difference to the
present is not the one that `abs` has no answer for; the digits of a `UINT` make a number
of 31 bits. -/
def Readable (regexMatch : Bytes → Except Failure Bool) (now : Nat) (kind : EntryType) (text : Bytes) : Prop :=
  match kind with
  | .base64 => text = [] ∨ ∃ b, regexMatch text = .ok b
  | .timestampNow => text = [] ∨ ∃ v, Numeral text v ∧ (-2 ^ 63 ≤ v ∧ v < 2 ^ 63) ∧
      (Digits text → (now - v) % 2 ^ 32 ≠ 2 ^ 31)
  | .uint => Digits text → digitsValue text 0 < 2 ^ 31
  | _ => True

theorem timestampNow_returns_iff {key : String} :
    (∃ b, isValidType now body .timestampNow key = .ok b) ↔
      Readable regexMatch now .timestampNow (Safe.getStringOf body key) := by
  by_cases hd : Digits (Safe.getStringOf body key)
  · simp only [timestampNow_of_digits rfl hd, Readable, hd.1, false_or, numeral_of_digits hd, hd, true_imp_iff]
    constructor
    · rintro ⟨_, hlt, hmin, _⟩
      obtain ⟨_, _, k, hk⟩ := toInt32_sub64 now (digitsValue (Safe.getStringOf body key) 0) (by omega)
      exact ⟨_, rfl, by omega, by omega⟩
    · rintro ⟨_, rfl, hbounds, hdiff⟩
      obtain ⟨_, _, k, hk⟩ := toInt32_sub64 now (digitsValue (Safe.getStringOf body key) 0) (by omega)
      exact ⟨_, by omega, by omega, rfl⟩
  · simp only [timestampNow_of_not_digits rfl hd, Readable, hd, false_imp_iff, and_true, exists_and_left,
      exists_eq, stoll, readBounded_isSome_iff]

theorem isValidTypeBy_returns_iff {fs : List (String × Json)} {kind : EntryType} {key : String} :
    (∃ b, isValidTypeBy regexMatch now (.object fs) kind key = .ok b) ↔
      Readable regexMatch now kind (Safe.getStringOf (.object fs) key) := by
  cases kind with
  | base64 =>
    simp only [isValidTypeBy, Readable, List.isEmpty_iff]
    split <;> simp_all
  | timestampNow => exact timestampNow_returns_iff
  | uint =>
    simp only [isValidTypeBy_of_ne (show EntryType.uint ≠ .base64 by decide), uint_eq_ok rfl, Readable]
    constructor
    · rintro ⟨_, h, _⟩
      exact h
    · intro h
      exact ⟨isDecimal (Safe.getStringOf (.object fs) key), h, isDecimal_iff⟩
  | _ => simp [isValidTypeBy, Readable, Json.field, Except.map]

/-- A type with rows has a schema, and every schema is one of objects. -/
theorem object_of_schema (h : validateSchema body type.code = true) (hrows : rows type ≠ []) :
    ∃ fs, body = .object fs := by
  have hschema : ∀ t : MessageType, rows t ≠ [] → (Schema.getSchema t.code).isSome = true := by
    intro t
    cases t <;> decide +kernel
  obtain ⟨s, hs⟩ := Option.isSome_iff_exists.mp (hschema type hrows)
  rw [validateSchema, hs, Option.all_some] at h
  cases body with
  | object fs => exact ⟨fs, rfl⟩
  | _ => cases h

/-- The row's field has the kind and the length it must have. -/
def Passes (regexMatch : Bytes → Except Failure Bool) (now : Nat) (body : Json) (row : Row) : Prop :=
  isValidTypeBy regexMatch now body row.2.1 row.1 = .ok true ∧ hasValidLength body row.1 row.2.2 = true

/-- The check of a body that its schema accepts comes to an end exactly when every field
is readable that it comes to, whatever texts `regex_match` has an answer for. -/
theorem validate_returns_iff_readable (h : validateSchema body type.code = true) :
    (∃ b, validateBy regexMatch now type body = .ok b) ↔
      ∀ before row after, rows type = before ++ row :: after → (∀ r ∈ before, Passes regexMatch now body r) →
        Readable regexMatch now row.2.1 (Safe.getStringOf body row.1) := by
  have hpasses : ∀ r, checkRowBy regexMatch now body r = .ok true ↔ Passes regexMatch now body r :=
    fun r => checkRowBy_eq_true
  rw [validateBy_eq_allM, allM_returns_iff]
  refine forall₄_congr fun before row after hsplit => ?_
  obtain ⟨fs, rfl⟩ := object_of_schema h (by rw [hsplit]; simp)
  simp only [hpasses, checkRowBy_eq_ok, ← isValidTypeBy_returns_iff]
  simp

/-- `regex_match` on a stack for texts up to a length. -/
def matchUpTo (n : Nat) (s : Bytes) : Except Failure Bool := if s.length ≤ n then matchBase64 s else .error .undefined

/-- A request to join with the time that is given. -/
def joinRequest (time : Bytes) : Json :=
  .object [("sID", .string (ascii "AAAAAAAAAAA=")), ("time", .string time), ("ver", .string (ascii "1")),
    ("cID", .string (ascii "AAAAAAAAAAA="))]

theorem validate_returns_join :
    validateSchema (joinRequest (ascii "1550000001")) MessageType.join.code = true ∧
      ∀ before row after, rows .join = before ++ row :: after →
        (∀ r ∈ before, Passes (matchUpTo 50000) 1550000000 (joinRequest (ascii "1550000001")) r) →
        Readable (matchUpTo 50000) 1550000000 row.2.1 (Safe.getStringOf (joinRequest (ascii "1550000001")) row.1) := by
  have hschema : validateSchema (joinRequest (ascii "1550000001")) MessageType.join.code = true := by decide +kernel
  have hvalid : okAnd id (validateBy (matchUpTo 50000) 1550000000 .join (joinRequest (ascii "1550000001"))) = true := by
    decide +kernel
  obtain ⟨b, hb, _⟩ := okAnd_eq_true.mp hvalid
  exact ⟨hschema, (validate_returns_iff_readable hschema).mp ⟨b, hb⟩⟩

/-- A time that is no number is an exception, not a message that is refused. -/
theorem validate_throws_join :
    validateSchema (joinRequest (ascii "now")) MessageType.join.code = true ∧
      ¬ ∃ b, validate 1550000000 .join (joinRequest (ascii "now")) = .ok b := by
  have hvalid : okAnd (fun _ => true) (validate 1550000000 .join (joinRequest (ascii "now"))) = false := by
    decide +kernel
  refine ⟨by decide +kernel, fun ⟨b, hb⟩ => ?_⟩
  rw [hb] at hvalid
  cases hvalid

/-- The sixty-four letters. -/
def IsLetter (b : UInt8) : Prop :=
  (65 ≤ b.toNat ∧ b.toNat ≤ 90) ∨ (97 ≤ b.toNat ∧ b.toNat ≤ 122) ∨ (48 ≤ b.toNat ∧ b.toNat ≤ 57) ∨ b.toNat = 43 ∨
    b.toNat = 47

/-- Letters and then at most two signs of padding, a multiple of four in all. -/
def PaddedText (s : Bytes) : Prop :=
  4 ∣ s.length ∧ ∃ letters k, k ≤ 2 ∧ s = letters ++ List.replicate k 61 ∧ ∀ b ∈ letters, IsLetter b

def isObject : Json → Bool
  | .object _ => true
  | _ => false

/-- What the kinds mean. No kind of text has the empty one in it. -/
def Holds (now : Nat) : EntryType → Json → Prop
  | .base64, .string s => s ≠ [] ∧ PaddedText s
  | .timestamp, .string s => Digits s
  | .timestampNow, .string s => Digits s ∧ ((now : Int) - digitsValue s 0).natAbs < timeMaxDiffSec
  | .hex, .string s => s ≠ [] ∧ ∀ b ∈ s, isHexDigit b = true
  | .type, .string s => s = txtypeCertificates ∨ s = txtypeDigests ∨ s = txtypeImmortalsms
  | .string, .string _ => True
  | .decimal, .string s => Digits s
  | .uint, .string s => Digits s
  | .bool, .boolean _ => True
  | .arrayOfString, .array xs => xs ≠ [] ∧ ∀ x ∈ xs, isString x = true
  | .arrayOfObject, .array xs => xs ≠ [] ∧ ∀ x ∈ xs, isObject x = true
  | _, _ => False

/-- What passes for a kind that it is not: a time whose difference to the present is near
a multiple of the range of an `int`, and an array with a wrong element. -/
def PassesFor (now : Nat) : EntryType → Json → Prop
  | .timestampNow, .string s => Digits s ∧ ∃ k : Int, k ≠ 0 ∧
      ((now : Int) - digitsValue s 0 - k * 2 ^ 32).natAbs < timeMaxDiffSec
  | .arrayOfString, .array xs => ∃ x ∈ xs, isString x = false
  | .arrayOfObject, .array xs => ∃ x ∈ xs, isObject x = false
  | _, _ => False

def HasLength (len : Nat) : Json → Prop
  | .string s => len = notLimited ∨ s.length = len
  | _ => len = notLimited

/-- The field is there, of the kind and length of the row. -/
def Declared (now : Nat) (body : Json) (row : Row) : Prop :=
  ∃ v, body.find row.1 = some v ∧ Holds now row.2.1 v ∧ HasLength row.2.2 v

/-- The field is there and passes for what it is not. -/
def Slips (now : Nat) (body : Json) (row : Row) : Prop :=
  ∃ v, body.find row.1 = some v ∧ PassesFor now row.2.1 v ∧ HasLength row.2.2 v

instance (b : UInt8) : Decidable (IsLetter b) := inferInstanceAs (Decidable (_ ∨ _))

theorem isLetter_letter : ∀ n < 64, IsLetter (Base64.letter n) := by decide +kernel

/-- The letters with a value are the sixty-four, range by range. -/
theorem isSome_letterValue_iff (b : UInt8) : (Base64.letterValue b).isSome = true ↔ IsLetter b := by
  rw [Base64.letterValue, List.find?_isSome]
  simp only [List.mem_range, beq_iff_eq]
  constructor
  · rintro ⟨n, hn, rfl⟩
    exact isLetter_letter n hn
  · rintro (h | h | h | h | h)
    · refine ⟨b.toNat - 65, by omega, ?_⟩
      rw [Base64.letter, if_pos (by omega)]
      exact Base64.ofNat_eq b _ (by omega)
    · refine ⟨b.toNat - 71, by omega, ?_⟩
      rw [Base64.letter, if_neg (by omega), if_pos (by omega)]
      exact Base64.ofNat_eq b _ (by omega)
    · refine ⟨b.toNat + 4, by omega, ?_⟩
      rw [Base64.letter, if_neg (by omega), if_neg (by omega), if_pos (by omega)]
      exact Base64.ofNat_eq b _ (by omega)
    · exact ⟨62, by decide, UInt8.toNat_inj.mp h.symm⟩
    · exact ⟨63, by decide, UInt8.toNat_inj.mp h.symm⟩

/-- A well-formed text by its first four signs. -/
theorem paddedText_cons_iff {w x y z : UInt8} {rest : Bytes} :
    PaddedText (w :: x :: y :: z :: rest) ↔
      (IsLetter w ∧ IsLetter x ∧ IsLetter y ∧ IsLetter z ∧ PaddedText rest) ∨
        (IsLetter w ∧ IsLetter x ∧ IsLetter y ∧ z = 61 ∧ rest = []) ∨
          (IsLetter w ∧ IsLetter x ∧ y = 61 ∧ z = 61 ∧ rest = []) := by
  constructor
  · rintro ⟨hlen, letters, k, hk, heq, hall⟩
    have hcount := congrArg List.length heq
    simp only [List.length_cons, List.length_append, List.length_replicate] at hcount hlen
    match letters with
    | [] =>
      simp only [List.length_nil] at hcount
      omega
    | [_] =>
      simp only [List.length_cons, List.length_nil] at hcount
      omega
    | [a, b] =>
      simp only [List.length_cons, List.length_nil] at hcount
      obtain rfl : k = 2 := by omega
      simp only [List.cons_append, List.nil_append, List.replicate, List.cons.injEq] at heq
      obtain ⟨rfl, rfl, rfl, rfl, rfl⟩ := heq
      exact .inr (.inr ⟨hall w (by simp), hall x (by simp), rfl, rfl, rfl⟩)
    | [a, b, c] =>
      simp only [List.length_cons, List.length_nil] at hcount
      obtain rfl : k = 1 := by omega
      simp only [List.cons_append, List.nil_append, List.replicate, List.cons.injEq] at heq
      obtain ⟨rfl, rfl, rfl, rfl, rfl⟩ := heq
      exact .inr (.inl ⟨hall w (by simp), hall x (by simp), hall y (by simp), rfl, rfl⟩)
    | a :: b :: c :: d :: letters =>
      simp only [List.cons_append, List.cons.injEq] at heq
      obtain ⟨rfl, rfl, rfl, rfl, rfl⟩ := heq
      exact .inl ⟨hall w (by simp), hall x (by simp), hall y (by simp), hall z (by simp), by omega, letters, k, hk, rfl,
        fun e he => hall e (by simp [he])⟩
  · rintro (⟨hw, hx, hy, hz, hlen, letters, k, hk, rfl, hall⟩ | ⟨hw, hx, hy, rfl, rfl⟩ | ⟨hw, hx, rfl, rfl, rfl⟩)
    · refine ⟨by simpa using hlen, w :: x :: y :: z :: letters, k, hk, rfl, ?_⟩
      simpa using ⟨hw, hx, hy, hz, hall⟩
    · exact ⟨by simp, [w, x, y], 1, by decide, rfl, by simpa using ⟨hw, hx, hy⟩⟩
    · exact ⟨by simp, [w, x], 2, by decide, rfl, by simpa using ⟨hw, hx⟩⟩

/-- The regular expression is the form of a base64 text. -/
theorem isBase64_iff (s : Bytes) : isBase64 s = true ↔ PaddedText s := by
  induction s using isBase64.induct with
  | case1 => exact ⟨fun _ => ⟨by simp, [], 0, by decide, rfl, by simp⟩, fun _ => rfl⟩
  | case2 w x y z rest ih =>
    rw [isBase64, paddedText_cons_iff]
    simp only [Bool.or_eq_true, Bool.and_eq_true, isSome_letterValue_iff, beq_iff_eq, List.isEmpty_iff, ih, and_assoc,
      or_assoc]
  | case3 s hnil hfour =>
    have hshort : ¬ 4 ∣ s.length := by
      rcases s with _ | ⟨w, _ | ⟨x, _ | ⟨y, _ | ⟨z, rest⟩⟩⟩⟩
      · exact absurd rfl hnil
      · simp
      · simp
      · simp
      · exact absurd rfl (hfour w x y z rest)
    rw [isBase64]
    · exact iff_of_false Bool.false_ne_true fun h => hshort h.1
    · exact hnil
    · exact hfour

/-- A field does not both have its kind and pass for it. -/
theorem Holds.not_passesFor {kind : EntryType} {v : Json} (h : Holds now kind v) : ¬ PassesFor now kind v := by
  intro hp
  unfold PassesFor at hp
  split at hp
  · -- two differences within the limit are not a multiple apart
    obtain ⟨_, k, hk, hnear⟩ := hp
    have hexact := h.2
    rw [timeMaxDiffSec] at hnear hexact
    omega
  · obtain ⟨x, hx, hwrong⟩ := hp
    exact Bool.noConfusion (hwrong.symm.trans (h.2 x hx))
  · obtain ⟨x, hx, hwrong⟩ := hp
    exact Bool.noConfusion (hwrong.symm.trans (h.2 x hx))
  · exact hp

section Fields

variable {key : String}

/-- A property of the text that the empty text does not have is one of a text field. -/
theorem text_iff {P : Bytes → Prop} {Q : Json → Prop} (hnil : ¬ P []) (hstring : ∀ s, Q (.string s) ↔ P s)
    (hother : ∀ v, isString v = false → ¬ Q v) :
    P (Safe.getStringOf body key) ↔ ∃ v, body.find key = some v ∧ Q v := by
  unfold Safe.getStringOf
  cases body.find key with
  | none => simpa using hnil
  | some v =>
    simp only [Option.some.injEq, exists_eq_left']
    cases v with
    | string s => exact (hstring s).symm
    | _ => exact ⟨fun h => absurd h hnil, fun h => absurd h (hother _ rfl)⟩

/-- A property that null does not have is one of a field that is there. -/
theorem field_iff {f : Json → Bool} {Q : Json → Prop} (hnull : f .null = false) (hf : ∀ v, f v = true ↔ Q v) {b : Bool}
    (h : (body.field key).map f = .ok b) : b = true ↔ ∃ v, body.find key = some v ∧ Q v := by
  obtain ⟨v, hv, rfl⟩ := map_eq_ok.mp h
  cases body with
  | null =>
    cases hv
    simp [Json.find, hnull]
  | object fs =>
    cases hv
    rw [Json.find]
    cases fs.lookup key with
    | none => simp [hnull]
    | some v => simp [hf]
  | _ => cases hv

/-- The check of a length. -/
theorem hasValidLength_iff {len : Nat} {v : Json} (hv : body.find key = some v) :
    hasValidLength body key len = true ↔ HasLength len v := by
  rw [hasValidLength, Safe.getStringOf, hv, Bool.or_eq_true, decide_eq_true_eq, decide_eq_true_eq]
  cases v with
  | string s => rfl
  | _ => exact ⟨fun h => h.elim id fun h => h.symm, .inl⟩

/-- An array that is checked without a look at its elements. -/
theorem isNonemptyArray_iff (test : Json → Bool) (xs : List Json) :
    isNonemptyArray (.array xs) = true ↔ (xs ≠ [] ∧ ∀ x ∈ xs, test x = true) ∨ ∃ x ∈ xs, test x = false := by
  simp only [isNonemptyArray, Bool.not_eq_true', List.isEmpty_eq_false_iff]
  constructor
  · intro hne
    by_cases hall : ∀ x ∈ xs, test x = true
    · exact .inl ⟨hne, hall⟩
    · exact .inr (by simpa using hall)
  · rintro (⟨hne, _⟩ | ⟨x, hx, _⟩)
    · exact hne
    · exact List.ne_nil_of_mem hx

theorem isNonemptyArray_iff_strings (v : Json) :
    isNonemptyArray v = true ↔ Holds now .arrayOfString v ∨ PassesFor now .arrayOfString v := by
  cases v with
  | array xs => exact isNonemptyArray_iff isString xs
  | _ => simp [isNonemptyArray, Holds, PassesFor]

theorem isNonemptyArray_iff_objects (v : Json) :
    isNonemptyArray v = true ↔ Holds now .arrayOfObject v ∨ PassesFor now .arrayOfObject v := by
  cases v with
  | array xs => exact isNonemptyArray_iff isObject xs
  | _ => simp [isNonemptyArray, Holds, PassesFor]

/-- A time of digits within the limit, when the difference is cut down. -/
theorem near_iff (now time : Nat) (h : time < 2 ^ 64) :
    (toInt32 (sub64 now time)).natAbs < timeMaxDiffSec ↔ ((now : Int) - time).natAbs < timeMaxDiffSec ∨
      ∃ k : Int, k ≠ 0 ∧ ((now : Int) - time - k * 2 ^ 32).natAbs < timeMaxDiffSec := by
  obtain ⟨hlow, hhigh, k, hk⟩ := toInt32_sub64 now time h
  rw [timeMaxDiffSec]
  constructor
  · intro hnear
    by_cases hzero : k = 0
    · exact .inl (by omega)
    · exact .inr ⟨k, hzero, by omega⟩
  · rintro (hnear | ⟨j, _, hnear⟩) <;> omega

/-- The kinds of texts. -/
def isText : EntryType → Bool
  | .bool | .arrayOfObject | .arrayOfString => false
  | _ => true

theorem not_text_kind {kind : EntryType} (hkind : isText kind = true) (v : Json) (hv : isString v = false) :
    ¬ (Holds now kind v ∨ PassesFor now kind v) := by
  cases v with
  | string s => cases hv
  | _ => cases kind <;> first | exact fun h => h.elim id id | cases hkind

/-- The kind of a field, as far as the check goes. -/
theorem isValidType_iff {kind : EntryType} {b : Bool} (h : isValidType now body kind key = .ok b) :
    b = true ↔ ∃ v, body.find key = some v ∧ (Holds now kind v ∨ PassesFor now kind v) := by
  cases kind with
  | base64 =>
    rw [isValidType_base64] at h
    cases h
    rw [Bool.and_eq_true, isBase64_iff, Bool.not_eq_true', List.isEmpty_eq_false_iff]
    exact text_iff (P := fun s => s ≠ [] ∧ PaddedText s) (by simp) (fun _ => or_iff_left id) (not_text_kind rfl)
  | timestamp =>
    cases h
    rw [isDecimal_iff]
    exact text_iff not_digits_nil (fun _ => or_iff_left id) (not_text_kind rfl)
  | timestampNow =>
    have hside : ∀ s, Holds now .timestampNow (.string s) ∨ PassesFor now .timestampNow (.string s) ↔
        Digits s ∧ (((now : Int) - digitsValue s 0).natAbs < timeMaxDiffSec ∨
          ∃ k : Int, k ≠ 0 ∧ ((now : Int) - digitsValue s 0 - k * 2 ^ 32).natAbs < timeMaxDiffSec) :=
      fun s => and_or_left.symm
    rw [← text_iff (fun hnil => not_digits_nil hnil.1) hside (not_text_kind rfl)]
    by_cases hd : Digits (Safe.getStringOf body key)
    · obtain ⟨hlt, _, rfl⟩ := (timestampNow_of_digits rfl hd).mp h
      rw [decide_eq_true_eq, near_iff _ _ (by omega)]
      exact (and_iff_right hd).symm
    · obtain ⟨_, rfl⟩ := (timestampNow_of_not_digits rfl hd).mp h
      simp [hd]
  | hex =>
    cases h
    rw [Bool.and_eq_true, Bool.not_eq_true', List.isEmpty_eq_false_iff, List.all_eq_true]
    exact text_iff (P := fun s => s ≠ [] ∧ ∀ b ∈ s, isHexDigit b = true) (by simp) (fun _ => or_iff_left id)
      (not_text_kind rfl)
  | string => exact field_iff rfl (fun v => by cases v <;> simp [Holds, PassesFor, isString]) h
  | type =>
    cases h
    simp only [Bool.or_eq_true, decide_eq_true_eq, or_assoc]
    exact text_iff (P := fun s => s = txtypeCertificates ∨ s = txtypeDigests ∨ s = txtypeImmortalsms) (by decide)
      (fun _ => or_iff_left id) (not_text_kind rfl)
  | decimal =>
    cases h
    rw [isDecimal_iff]
    exact text_iff not_digits_nil (fun _ => or_iff_left id) (not_text_kind rfl)
  | uint =>
    rw [((uint_eq_ok rfl).mp h).2]
    exact text_iff not_digits_nil (fun _ => or_iff_left id) (not_text_kind rfl)
  | bool => exact field_iff rfl (fun v => by cases v <;> simp [Holds, PassesFor, isBoolean]) h
  | arrayOfObject => exact field_iff rfl isNonemptyArray_iff_objects h
  | arrayOfString => exact field_iff rfl isNonemptyArray_iff_strings h

end Fields

/-- A row passes when its field is what it says, or slips through. -/
theorem checkRow_iff {row : Row} {b : Bool} (h : checkRow now body row = .ok b) :
    b = true ↔ Declared now body row ∨ Slips now body row := by
  obtain ⟨valid, hvalid, rfl⟩ := checkRowBy_eq_ok.mp h
  rw [Bool.and_eq_true, isValidType_iff hvalid, Declared, Slips, ← exists_or]
  constructor
  · rintro ⟨⟨v, hv, hkind⟩, hlen⟩
    rw [hasValidLength_iff hv] at hlen
    exact ⟨v, hkind.imp (fun hk => ⟨hv, hk, hlen⟩) fun hk => ⟨hv, hk, hlen⟩⟩
  · rintro ⟨v, ⟨hv, hk, hlen⟩ | ⟨hv, hk, hlen⟩⟩
    · exact ⟨⟨v, hv, .inl hk⟩, (hasValidLength_iff hv).mpr hlen⟩
    · exact ⟨⟨v, hv, .inr hk⟩, (hasValidLength_iff hv).mpr hlen⟩

theorem Declared.not_slips {row : Row} (h : Declared now body row) : ¬ Slips now body row := by
  rintro ⟨v, hv, hpass, _⟩
  obtain ⟨v', hv', hkind, _⟩ := h
  obtain rfl : v' = v := Option.some.inj (hv'.symm.trans hv)
  exact hkind.not_passesFor hpass

/-- Where the check comes to an end it accepts exactly the declared fields, unless one
slips through and no other is wrong. -/
theorem validate_exact_iff {b : Bool} (h : validate now type body = .ok b) :
    (b = true ↔ ∀ row ∈ rows type, Declared now body row) ↔
      (∀ row ∈ rows type, ¬ Slips now body row) ∨
        ∃ row ∈ rows type, ¬ Declared now body row ∧ ¬ Slips now body row := by
  rw [validate_eq_allM] at h
  cases b with
  | false =>
    -- the row that is found wrong is neither
    obtain ⟨row, hmem, hrow⟩ := exists_of_allM_false h
    have hneither : ¬ (Declared now body row ∨ Slips now body row) := fun hor =>
      Bool.false_ne_true ((checkRow_iff hrow).mpr hor)
    have hleft : ¬ ∀ row ∈ rows type, Declared now body row := fun hall => hneither (.inl (hall row hmem))
    simp only [Bool.false_eq_true, hleft, true_iff]
    exact .inr ⟨row, hmem, not_or.mp hneither⟩
  | true =>
    have heach : ∀ row ∈ rows type, Declared now body row ∨ Slips now body row := fun row hmem =>
      (checkRow_iff (allM_eq_true.mp h row hmem)).mp rfl
    simp only [true_iff]
    constructor
    · exact fun hall => .inl fun row hmem => (hall row hmem).not_slips
    · rintro (hnone | ⟨row, hmem, hnot⟩)
      · exact fun row hmem => (heach row hmem).resolve_right (hnone row hmem)
      · exact absurd (heach row hmem) (not_or.mpr hnot)

theorem validated_of_okAnd (h : okAnd id (validate now type body) = true) : validate now type body = .ok true := by
  obtain ⟨b, hb, hid⟩ := okAnd_eq_true.mp h
  rw [hb, show b = true from hid]

/-- A request to join that was sent a second ahead of the clock. -/
theorem validate_exact_join :
    validate 1550000000 .join (joinRequest (ascii "1550000001")) = .ok true ∧
      ∀ row ∈ rows .join, Declared 1550000000 (joinRequest (ascii "1550000001")) row := by
  have hvalid : validate 1550000000 .join (joinRequest (ascii "1550000001")) = .ok true :=
    validated_of_okAnd (by decide +kernel)
  refine ⟨hvalid, ((validate_exact_iff hvalid).mpr (.inl ?_)).mp rfl⟩
  rintro row hmem ⟨v, hv, hpass, _⟩
  have hrows : rows .join = [("sID", .base64, lengthId), ("time", .timestampNow, notLimited), ("cID", .base64, lengthId)] := by
    decide +kernel
  rw [hrows] at hmem
  simp only [List.mem_cons, List.not_mem_nil, or_false] at hmem
  rcases hmem with rfl | rfl | rfl
  · cases v <;> exact hpass
  · cases hv
    obtain ⟨_, k, hk, hnear⟩ := hpass
    have hvalue : digitsValue (ascii "1550000001") 0 = 1550000001 := by decide +kernel
    rw [hvalue, timeMaxDiffSec] at hnear
    omega
  · cases v <;> exact hpass

/-- A request to join that was sent 2 ^ 32 seconds later still. -/
theorem validate_accepts_distant_time :
    validate 1550000000 .join (joinRequest (ascii "5844967297")) = .ok true ∧
      ¬ ∀ row ∈ rows .join, Declared 1550000000 (joinRequest (ascii "5844967297")) row := by
  refine ⟨validated_of_okAnd (by decide +kernel), fun hall => ?_⟩
  obtain ⟨v, hv, hkind, _⟩ := hall ("time", .timestampNow, notLimited) (by decide +kernel)
  cases hv
  have hvalue : digitsValue (ascii "5844967297") 0 = 5844967297 := by decide +kernel
  have hnear := hkind.2
  rw [hvalue, timeMaxDiffSec] at hnear
  omega

end MessageValidator
end GruutMerger
