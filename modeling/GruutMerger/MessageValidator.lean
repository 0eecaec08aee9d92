import GruutMerger.Transaction
import GruutMerger.Lib.Fallible

/-!
# Message types and the message validator

For each type of message the fields that are checked before it is queued, with
the kind and the length each must have.
-/
namespace GruutMerger

open ByteText Fallible

inductive MessageType where
  | null | up | ping | reqBlock | welcome | reqStatus | resStatus | join | challenge | response1 | response2
  | success | accept | leave | joinMerger | networkInfo | chainInfo | tx | reqSsig | ssig | block | header
  | errorMsg | reqCheck | reqHeader | resCheck
  deriving DecidableEq

namespace MessageType

def code : MessageType → UInt8
  | null => 0x00
  | up => 0x30
  | ping => 0x31
  | reqBlock => 0x32
  | welcome => 0x35
  | reqStatus => 0x33
  | resStatus => 0x34
  | join => 0x54
  | challenge => 0x55
  | response1 => 0x56
  | response2 => 0x57
  | success => 0x58
  | accept => 0x59
  | leave => 0x5B
  | joinMerger => 0x70
  | networkInfo => 0x71
  | chainInfo => 0x72
  | tx => 0xB1
  | reqSsig => 0xB2
  | ssig => 0xB3
  | block => 0xB4
  | header => 0xB5
  | errorMsg => 0xFF
  | reqCheck => 0xC0
  | reqHeader => 0xE0
  | resCheck => 0xC1

end MessageType

inductive ErrorMsgType where
  | unknown | mergerBootstrap | ecdhIllegalAccess | ecdhMaxSignerPool | ecdhTimeout | ecdhInvalidSig | ecdhInvalidPk
  | timeSync | bsyncNoBlock | noSuchBlock
  deriving DecidableEq

def ErrorMsgType.code : ErrorMsgType → Nat
  | unknown => 0
  | mergerBootstrap => 11
  | ecdhIllegalAccess => 21
  | ecdhMaxSignerPool => 22
  | ecdhTimeout => 23
  | ecdhInvalidSig => 24
  | ecdhInvalidPk => 25
  | timeSync => 61
  | bsyncNoBlock => 88
  | noSuchBlock => 89

structure OutputMsgEntry where
  type : MessageType
  body : Json
  receivers : List Bytes

namespace MessageValidator

inductive EntryType where
  | base64 | timestamp | timestampNow | hex | string | type | decimal | uint | bool | arrayOfObject | arrayOfString
  deriving DecidableEq

/-- `EntryLength` -/
def lengthId : Nat := 12
def lengthSigNonce : Nat := 44
def lengthEcdhXY : Nat := 64
def lengthTxId : Nat := 44
def notLimited : Nat := 0

def timeMaxDiffSec : Nat := 3

/-- `VALID_FILTER` -/
def validFilter : List (MessageType × String × EntryType × Nat) :=
  [(.join, "sID", .base64, lengthId),
   (.join, "time", .timestampNow, notLimited),
   (.join, "cID", .base64, lengthId),
   (.response1, "sID", .base64, lengthId),
   (.response1, "time", .timestampNow, notLimited),
   (.response1, "sN", .base64, lengthSigNonce),
   (.response1, "dhx", .hex, lengthEcdhXY),
   (.response1, "dhy", .hex, lengthEcdhXY),
   (.success, "sID", .base64, lengthId),
   (.success, "time", .timestampNow, notLimited),
   (.success, "val", .bool, notLimited),
   (.tx, "txid", .base64, lengthTxId),
   (.tx, "time", .timestamp, notLimited),
   (.tx, "rID", .base64, lengthId),
   (.tx, "type", .type, notLimited),
   (.tx, "content", .arrayOfString, notLimited),
   (.ssig, "sID", .base64, lengthId),
   (.ssig, "time", .timestamp, notLimited),
   (.ping, "mID", .base64, lengthId),
   (.ping, "time", .timestampNow, notLimited),
   (.ping, "sCnt", .uint, notLimited),
   (.up, "mID", .base64, lengthId),
   (.up, "time", .timestampNow, notLimited),
   (.up, "cID", .base64, lengthId),
   (.up, "ip", .string, notLimited),
   (.up, "port", .string, notLimited),
   (.welcome, "mID", .base64, lengthId),
   (.welcome, "cID", .base64, lengthId),
   (.welcome, "time", .timestampNow, notLimited),
   (.welcome, "val", .bool, notLimited),
   (.welcome, "merger", .arrayOfObject, notLimited),
   (.welcome, "se", .arrayOfObject, notLimited),
   (.reqCheck, "sender", .base64, lengthId),
   (.reqCheck, "time", .timestampNow, notLimited),
   (.reqCheck, "dID", .base64, lengthId),
   (.reqCheck, "txid", .base64, lengthTxId),
   (.reqHeader, "rID", .base64, lengthId),
   (.reqHeader, "time", .timestamp, notLimited),
   (.reqHeader, "rCert", .string, notLimited),
   (.reqHeader, "hgt", .uint, notLimited),
   (.reqHeader, "rSig", .base64, notLimited),
   (.block, "mID", .base64, lengthId),
   (.block, "tx", .arrayOfObject, notLimited),
   (.reqBlock, "mID", .base64, lengthId),
   (.reqBlock, "time", .timestampNow, notLimited),
   (.reqBlock, "hgt", .uint, notLimited)]

/-- The regular expression for base64 texts. -/
def isBase64 : Bytes → Bool
  | [] => true
  | w :: x :: y :: z :: rest =>
    let letter := fun c => (Base64.letterValue c).isSome
    (letter w && letter x && letter y && letter z && isBase64 rest) ||
      (letter w && letter x && letter y && z == 61 && rest.isEmpty) ||
      (letter w && letter x && y == 61 && z == 61 && rest.isEmpty)
  | _ => false

def isHexDigit (b : UInt8) : Bool := isDigit b || (65 ≤ b.toNat && b.toNat ≤ 70) || (97 ≤ b.toNat && b.toNat ≤ 102)

/-- Digits only, and at least one. -/
def isDecimal (s : Bytes) : Bool := !s.isEmpty && s.all isDigit

def isNonemptyArray : Json → Bool
  | .array xs => !xs.isEmpty
  | _ => false

def isString : Json → Bool
  | .string _ => true
  | _ => false

def isBoolean : Json → Bool
  | .boolean _ => true
  | _ => false

/-- `abs` of an int, which the least one does not have. -/
def absInt (v : Int) : Except Failure Nat := if v = -2 ^ 31 then .error .undefined else .ok v.natAbs

def hasValidLength (body : Json) (key : String) (len : Nat) : Bool :=
  decide (len = notLimited) || decide ((Safe.getStringOf body key).length = len)

/-- `regex_match` where it has an answer. -/
def matchBase64 (s : Bytes) : Except Failure Bool := .ok (isBase64 s)

section Regex

-- `regex_match` goes into recursion for every sign of the text, and long texts exhaust the stack
variable (regexMatch : Bytes → Except Failure Bool)

/-- `isValidType`. The time of a `TIMESTAMP_NOW` field is read before anything is checked; `stoi`
and `abs` are only asked about digits. -/
def isValidTypeBy (now : Nat) (body : Json) (kind : EntryType) (key : String) : Except Failure Bool :=
  let text := Safe.getStringOf body key
  match kind with
  | .base64 => if text.isEmpty then .ok false else regexMatch text
  | .timestamp => .ok (isDecimal text)
  | .timestampNow => do
    let time ← Safe.getTimeOf body key
    if isDecimal text then
      return decide ((← absInt (toInt32 (sub64 now time))) < timeMaxDiffSec)
    else return false
  | .hex => .ok (!text.isEmpty && text.all isHexDigit)
  | .type => .ok (decide (text = txtypeCertificates) || decide (text = txtypeDigests) || decide (text = txtypeImmortalsms))
  | .string => (body.field key).map isString
  | .decimal => .ok (isDecimal text)
  | .uint =>
    if isDecimal text then
      match stoi text with
      | some v => .ok (decide (0 ≤ v))
      | none => .error .std
    else .ok false
  | .bool => (body.field key).map isBoolean
  | .arrayOfString => (body.field key).map isNonemptyArray
  | .arrayOfObject => (body.field key).map isNonemptyArray

def checkEntriesBy (now : Nat) (type : MessageType) (body : Json) :
    List (MessageType × String × EntryType × Nat) → Except Failure Bool
  | [] => .ok true
  | (t, key, kind, len) :: rest => do
    if t ≠ type then checkEntriesBy now type body rest
    else if (← isValidTypeBy regexMatch now body kind key) && hasValidLength body key len then
      checkEntriesBy now type body rest
    else return false

/-- `validate` -/
def validateBy (now : Nat) (type : MessageType) (body : Json) : Except Failure Bool :=
  checkEntriesBy regexMatch now type body validFilter

end Regex

/-- Both on texts that the stack has room for. -/
def isValidType (now : Nat) (body : Json) (kind : EntryType) (key : String) : Except Failure Bool :=
  isValidTypeBy matchBase64 now body kind key

def validate (now : Nat) (type : MessageType) (body : Json) : Except Failure Bool := validateBy matchBase64 now type body

theorem isValidTypeBy_of_ne {regexMatch : Bytes → Except Failure Bool} {now : Nat} {body : Json} {kind : EntryType}
    (h : kind ≠ .base64) (key : String) : isValidTypeBy regexMatch now body kind key = isValidType now body kind key := by
  cases kind with
  | base64 => exact absurd rfl h
  | _ => rfl

theorem isValidType_base64 {now : Nat} {body : Json} {key : String} : isValidType now body .base64 key =
    .ok (!(Safe.getStringOf body key).isEmpty && isBase64 (Safe.getStringOf body key)) := by
  simp only [isValidType, isValidTypeBy, matchBase64]
  split <;> simp_all

/-- Whatever is encoded passes as base64. -/
theorem isBase64_encodePadded (b : Bytes) : isBase64 (Base64.encodePadded b) = true := by
  have hletter (n : Nat) (h : n < 64) : (Base64.letterValue (Base64.letter n)).isSome = true := by
    rw [Base64.letterValue_letter n h, Option.isSome_some]
  induction b using Base64.encodePadded.induct with
  | case1 => rfl
  | case2 a =>
    have ha := a.toNat_lt
    simp [Base64.encodePadded, isBase64, hletter (a.toNat / 4) (by omega), hletter (a.toNat % 4 * 16) (by omega)]
  | case3 a b =>
    have ha := a.toNat_lt
    have hb := b.toNat_lt
    simp [Base64.encodePadded, isBase64, hletter (a.toNat / 4) (by omega),
      hletter (a.toNat % 4 * 16 + b.toNat / 16) (by omega), hletter (b.toNat % 16 * 4) (by omega)]
  | case4 a b c rest ih =>
    have ha := a.toNat_lt
    have hb := b.toNat_lt
    have hc := c.toNat_lt
    simp [Base64.encodePadded, isBase64, ih, hletter (a.toNat / 4) (by omega),
      hletter (a.toNat % 4 * 16 + b.toNat / 16) (by omega),
      hletter (b.toNat % 16 * 4 + c.toNat / 64) (by omega), hletter (c.toNat % 64) (by omega)]

/-- Key, kind and length of a field. -/
abbrev Row := String × EntryType × Nat

/-- The rows for a type. -/
def rows (type : MessageType) : List Row := (validFilter.filter fun e => e.1 = type).map Prod.snd

def checkRowBy (regexMatch : Bytes → Except Failure Bool) (now : Nat) (body : Json) (row : Row) : Except Failure Bool := do
  return (← isValidTypeBy regexMatch now body row.2.1 row.1) && hasValidLength body row.1 row.2.2

def checkRow (now : Nat) (body : Json) (row : Row) : Except Failure Bool := checkRowBy matchBase64 now body row

variable {regexMatch : Bytes → Except Failure Bool} {now : Nat} {type : MessageType} {body : Json}

theorem checkEntries_eq_allM (filter : List (MessageType × String × EntryType × Nat)) :
    checkEntriesBy regexMatch now type body filter =
      ((filter.filter fun e => e.1 = type).map Prod.snd).allM (checkRowBy regexMatch now body) := by
  induction filter with
  | nil => rfl
  | cons e filter ih =>
    obtain ⟨t, key, kind, len⟩ := e
    rw [checkEntriesBy]
    by_cases ht : t = type
    · rw [List.filter_cons_of_pos (by simpa using ht), List.map_cons, List.allM, if_neg (by simpa using ht), ih, checkRowBy]
      cases isValidTypeBy regexMatch now body kind key with
      | error e => rfl
      | ok valid => cases hasValidLength body key len <;> cases valid <;> rfl
    · rw [List.filter_cons_of_neg (by simpa using ht), if_pos ht, ih]

theorem validateBy_eq_allM : validateBy regexMatch now type body = (rows type).allM (checkRowBy regexMatch now body) :=
  checkEntries_eq_allM _

theorem validate_eq_allM : validate now type body = (rows type).allM (checkRow now body) := validateBy_eq_allM

theorem checkRowBy_eq_ok {row : Row} {b : Bool} :
    checkRowBy regexMatch now body row = .ok b ↔ ∃ valid, isValidTypeBy regexMatch now body row.2.1 row.1 = .ok valid ∧
      (valid && hasValidLength body row.1 row.2.2) = b := by
  simp only [checkRowBy, bind_eq_ok, pure_eq_ok]

theorem checkRowBy_eq_true {row : Row} :
    checkRowBy regexMatch now body row = .ok true ↔
      isValidTypeBy regexMatch now body row.2.1 row.1 = .ok true ∧ hasValidLength body row.1 row.2.2 = true := by
  rw [checkRowBy_eq_ok]
  constructor
  · rintro ⟨valid, hvalid, hboth⟩
    obtain ⟨rfl, hlen⟩ := Bool.and_eq_true_iff.mp hboth
    exact ⟨hvalid, hlen⟩
  · rintro ⟨hvalid, hlen⟩
    exact ⟨true, hvalid, hlen⟩

theorem checkRow_eq_true {row : Row} : checkRow now body row = .ok true ↔
    isValidType now body row.2.1 row.1 = .ok true ∧ hasValidLength body row.1 row.2.2 = true := checkRowBy_eq_true

/-- A row reads one field. -/
theorem checkRow_congr {fs gs : List (String × Json)} {row : Row} (h : fs.lookup row.1 = gs.lookup row.1) :
    checkRow now (.object fs) row = checkRow now (.object gs) row := by
  have htext : Safe.getStringOf (.object fs) row.1 = Safe.getStringOf (.object gs) row.1 := by
    simp only [Safe.getStringOf, Json.find, h]
  have hfield : (Json.object fs).field row.1 = (Json.object gs).field row.1 := by
    simp only [Json.field, h]
  have htype : isValidType now (.object fs) row.2.1 row.1 = isValidType now (.object gs) row.2.1 row.1 := by
    unfold isValidType isValidTypeBy
    rw [Safe.getTimeOf, Safe.getTimeOf, htext, hfield]
  change (isValidType now (.object fs) row.2.1 row.1 >>= _) = isValidType now (.object gs) row.2.1 row.1 >>= _
  rw [htype, hasValidLength, hasValidLength, htext]

theorem validate_true {key : String} {kind : EntryType} {len : Nat} (h : validate now type body = .ok true)
    (hm : (type, key, kind, len) ∈ validFilter) :
    isValidType now body kind key = .ok true ∧ hasValidLength body key len = true := by
  have hrow : (key, kind, len) ∈ rows type :=
    List.mem_map.mpr ⟨_, List.mem_filter.mpr ⟨hm, decide_eq_true rfl⟩, rfl⟩
  rw [validate_eq_allM] at h
  exact checkRow_eq_true.mp (allM_eq_true.mp h _ hrow)

/-- A clock that a time stamp is recent for. -/
def Recent (time now : Nat) : Prop := time < now + timeMaxDiffSec ∧ now < time + timeMaxDiffSec

instance (time now : Nat) : Decidable (Recent time now) := inferInstanceAs (Decidable (_ ∧ _))

end MessageValidator
end GruutMerger
