import GruutMerger.MessageValidator
import GruutMerger.SignerPool
import Mathlib.Data.List.AList

/-!
# The join protocol

A signer joins with `MSG_JOIN`, gets a nonce, answers with a signed
`MSG_RESPONSE_1` and confirms with `MSG_SUCCESS`. Joins that are under way are
kept by the text of the signer id, signers of the pool by the decoded id.
-/
namespace GruutMerger

open ByteText Fallible

def maxSignerNum : Nat := 200
def joinTimeoutSec : Nat := 10

structure JoinTemporaryData where
  mergerNonce : Bytes
  signerCert : Bytes
  sharedSecretKey : Bytes
  startTime : Nat
  joinLock : Bool

/-- What is drawn at random for a message, and what the merger's keys give for it. -/
structure JoinDraw where
  /-- `PRNG::randomize(32)` -/
  nonce : Bytes
  /-- `HmacKeyMaker::getPublicKey` -/
  dhx : Bytes
  dhy : Bytes
  /-- `HmacKeyMaker::getSharedSecretKey`, empty for coordinates that are no point of the curve -/
  getSharedSecretKey : Bytes → Bytes → Except Failure Bytes
  /-- `ECDSA::doSign` -/
  doSign : Bytes → Bytes

/-- A message of the join protocol, with the clock as it is read while it is handled. -/
structure JoinMessage where
  type : MessageType
  body : Json
  clock : Nat → Nat
  clock_lt : ∀ k, clock k < 2 ^ 64
  draw : JoinDraw

structure SignerPoolManager where
  /-- `m_join_temp_table` -/
  joinTempTable : AList fun _ : Bytes => JoinTemporaryData
  signerPool : SignerPool
  myCert : Bytes

variable (env : Env)

namespace JoinMessage

def recvIdB64 (m : JoinMessage) : Bytes := Safe.getStringOf m.body "sID"

def recvId (m : JoinMessage) : Bytes := Safe.getBytesFromB64 env.base64 m.body "sID"

/-- The entry that a `MSG_JOIN` makes. -/
def entry (m : JoinMessage) : JoinTemporaryData where
  mergerNonce := env.base64.encode m.draw.nonce
  signerCert := []
  sharedSecretKey := []
  startTime := m.clock 0
  joinLock := true

end JoinMessage

def hexDigitValue (b : UInt8) : Option Nat :=
  if isDigit b then some (b.toNat - 48)
  else if 65 ≤ b.toNat && b.toNat ≤ 70 then some (b.toNat - 55)
  else if 97 ≤ b.toNat && b.toNat ≤ 102 then some (b.toNat - 87)
  else none

/-- `strtol` with base 16 on at most two characters. -/
def strtolHex (s : Bytes) : Int :=
  let digits := fun s : Bytes => (((s.map hexDigitValue).takeWhile Option.isSome).foldl (fun v d => 16 * v + d.getD 0) 0 : Nat)
  match s.dropWhile isSpace with
  | 45 :: rest => -(digits rest : Int)
  | 43 :: rest => digits rest
  | rest => digits rest

/-- `BytesBuilder::appendHex` -/
def appendHex (s : Bytes) : Bytes :=
  (List.range (s.length / 2)).map fun i => UInt8.ofNat (strtolHex ((s.drop (2 * i)).take 2) % 256).toNat

/-- `BytesBuilder::appendDec` -/
def appendDec (s : Bytes) : Except Failure Bytes :=
  match stoi s with
  | some v => .ok (integerBytes 8 (toUInt64 v))
  | none => .error .std

/-- What a signer signs for a nonce. -/
def signedResponse (mergerNonce : Bytes) (body : Json) : Except Failure Bytes := do
  let time ← appendDec (Safe.getStringOf body "time")
  return env.base64.decode mergerNonce ++ env.base64.decode (Safe.getStringOf body "sN") ++
    appendHex (Safe.getStringOf body "dhx") ++ appendHex (Safe.getStringOf body "dhy") ++ time

/-- The signature of a `MSG_RESPONSE_1` fits the nonce and the certificate that came along. -/
def responseVerifies (mergerNonce : Bytes) (body : Json) : Except Failure Bool := do
  let msg ← signedResponse env mergerNonce body
  return env.doVerify (Safe.getStringOf body "cert") msg (Safe.getBytesFromB64 env.base64 body "sig")

namespace SignerPoolManager

def initial (myCert : Bytes) : SignerPoolManager := ⟨∅, .empty, myCert⟩

def isJoinable (s : SignerPoolManager) : Bool := decide (s.signerPool.size < maxSignerNum)

/-- Reads through a null pointer when there is no entry. -/
def isTimeout (s : SignerPoolManager) (now : Nat) (signerIdB64 : Bytes) : Except Failure Bool :=
  match s.joinTempTable.lookup signerIdB64 with
  | none => .error .undefined
  | some d => .ok (decide (joinTimeoutSec < sub64 now d.startTime))

/-- Looks for the nonce under the encoding of the id, with the same risk. -/
def verifySignature (s : SignerPoolManager) (signerId : Bytes) (body : Json) : Except Failure Bool :=
  match s.joinTempTable.lookup (env.base64.encode signerId) with
  | none => .error .undefined
  | some d => responseVerifies env d.mergerNonce body

def signMessage (draw : JoinDraw) (mergerNonce signerNonce dhx dhy : Bytes) (timestamp : Nat) : Bytes :=
  env.base64.encode (draw.doSign (env.base64.decode mergerNonce ++ env.base64.decode signerNonce ++
    appendHex dhx ++ appendHex dhy ++ integerBytes 8 timestamp))

def errorMessage (now : Nat) (recvId : Bytes) (type : ErrorMsgType) (info : Bytes) : OutputMsgEntry where
  type := .errorMsg
  body := .object [("sender", .string (env.base64.encode env.myId)), ("time", .string (decimal now)),
    ("type", .string (decimal type.code)), ("info", .string info)]
  receivers := [recvId]

def challengeMessage (now : Nat) (recvId nonce : Bytes) : OutputMsgEntry where
  type := .challenge
  body := .object [("mID", .string (env.base64.encode env.myId)), ("time", .string (decimal now)),
    ("mN", .string nonce)]
  receivers := [recvId]

def responseMessage (s : SignerPoolManager) (now : Nat) (m : JoinMessage) (mergerNonce : Bytes) : OutputMsgEntry where
  type := .response2
  body := .object [("mID", .string (env.base64.encode env.myId)), ("time", .string (decimal now)),
    ("cert", .string s.myCert), ("dhx", .string m.draw.dhx), ("dhy", .string m.draw.dhy),
    ("sig", .string (signMessage env m.draw mergerNonce (Safe.getStringOf m.body "sN") m.draw.dhx m.draw.dhy now))]
  receivers := [m.recvId env]

def acceptMessage (now : Nat) (recvId : Bytes) : OutputMsgEntry where
  type := .accept
  body := .object [("mID", .string (env.base64.encode env.myId)), ("time", .string (decimal now)),
    ("val", .boolean true)]
  receivers := [recvId]

def handleMessage (s : SignerPoolManager) (m : JoinMessage) : Except Failure (SignerPoolManager × List OutputMsgEntry) :=
  let recvIdB64 := m.recvIdB64
  let recvId := m.recvId env
  match m.type with
  | .join =>
    if !s.isJoinable then .ok (s, [errorMessage env (m.clock 0) recvId .ecdhMaxSignerPool []])
    else
      .ok ({ s with joinTempTable := s.joinTempTable.insert recvIdB64 (m.entry env) },
        [challengeMessage env (m.clock 0) recvId (m.entry env).mergerNonce])
  | .response1 =>
    match s.joinTempTable.lookup recvIdB64 with
    | none => .ok (s, [errorMessage env (m.clock 0) recvId .ecdhIllegalAccess []])
    | some d => do
      if ← s.isTimeout (m.clock 0) recvIdB64 then
        return (s, [errorMessage env (m.clock 1) recvId .ecdhTimeout (ascii "too late MSG_RESPONSE_1")])
      if !(← s.verifySignature env recvId m.body) then
        return (s, [errorMessage env (m.clock 1) recvId .ecdhInvalidSig []])
      let cert := Safe.getStringOf m.body "cert"
      let shared ← m.draw.getSharedSecretKey (Safe.getStringOf m.body "dhx") (Safe.getStringOf m.body "dhy")
      if shared = [] then
        -- the certificate is stored before the key is made
        return ({ s with joinTempTable := s.joinTempTable.insert recvIdB64 { d with signerCert := cert } },
          [errorMessage env (m.clock 1) recvId .ecdhInvalidPk []])
      return ({ s with
          joinTempTable := s.joinTempTable.insert recvIdB64
            { d with signerCert := cert, sharedSecretKey := shared, joinLock := false }
          signerPool := s.signerPool.pushSigner (m.clock 2) recvId cert shared .temporary },
        [responseMessage env s (m.clock 1) m d.mergerNonce])
  | .success => do
    if ← s.isTimeout (m.clock 0) recvIdB64 then
      return (s, [errorMessage env (m.clock 1) recvId .ecdhTimeout (ascii "too late MSG_SUCCESS")])
    return ({ s with
        signerPool := s.signerPool.updateStatus (m.clock 1) recvId .good
        joinTempTable := s.joinTempTable.erase recvIdB64 },
      [acceptMessage env (m.clock 2) recvId])
  | .leave =>
    let unlocked := match s.joinTempTable.lookup recvIdB64 with
      | some d => !d.joinLock
      | none => false
    .ok ({ s with
        joinTempTable := if unlocked then s.joinTempTable.erase recvIdB64 else s.joinTempTable
        signerPool := s.signerPool.removeSigner recvId }, [])
  | _ => .ok (s, [])

/-- The message is a join that is answered with a nonce. -/
def Issues (s : SignerPoolManager) (m : JoinMessage) : Prop := m.type = .join ∧ s.isJoinable = true

/-- The effect of a message on the joins under way and on the pool. -/
inductive Handles (s : SignerPoolManager) (m : JoinMessage) : SignerPoolManager → Prop where
  | joined (h : s.Issues m) : Handles s m
      { s with joinTempTable := s.joinTempTable.insert m.recvIdB64 (m.entry env) }
  | responded {d d' : JoinTemporaryData} {cert key : Bytes} (ht : m.type = .response1)
      (hd : s.joinTempTable.lookup m.recvIdB64 = some d) (htime : sub64 (m.clock 0) d.startTime ≤ joinTimeoutSec)
      (hsig : s.verifySignature env (m.recvId env) m.body = .ok true)
      (hnonce : d'.mergerNonce = d.mergerNonce) (hstart : d'.startTime = d.startTime) : Handles s m
      { s with
        joinTempTable := s.joinTempTable.insert m.recvIdB64 d'
        signerPool := s.signerPool.pushSigner (m.clock 2) (m.recvId env) cert key .temporary }
  | certified {d d' : JoinTemporaryData} (ht : m.type = .response1)
      (hd : s.joinTempTable.lookup m.recvIdB64 = some d) (hnonce : d'.mergerNonce = d.mergerNonce)
      (hstart : d'.startTime = d.startTime) : Handles s m
      { s with joinTempTable := s.joinTempTable.insert m.recvIdB64 d' }
  | succeeded (ht : m.type = .success) : Handles s m
      { s with
        signerPool := s.signerPool.updateStatus (m.clock 1) (m.recvId env) .good
        joinTempTable := s.joinTempTable.erase m.recvIdB64 }
  | left {table : AList fun _ : Bytes => JoinTemporaryData} (ht : m.type = .leave)
      (htable : table = s.joinTempTable ∨ table = s.joinTempTable.erase m.recvIdB64) : Handles s m
      { s with joinTempTable := table, signerPool := s.signerPool.removeSigner (m.recvId env) }
  | unchanged (h : ¬ s.Issues m) : Handles s m s

variable {env}

theorem isTimeout_of_lookup {s : SignerPoolManager} {now : Nat} {text : Bytes} {d : JoinTemporaryData}
    (hd : s.joinTempTable.lookup text = some d) :
    s.isTimeout now text = .ok (decide (joinTimeoutSec < sub64 now d.startTime)) := by
  rw [isTimeout, hd]

theorem handles_response {s s' : SignerPoolManager} {m : JoinMessage} {out : List OutputMsgEntry}
    (ht : m.type = .response1) (h : handleMessage env s m = .ok (s', out)) : Handles env s m s' := by
  have hnot : ¬ s.Issues m := fun hi => nomatch ht.symm.trans hi.1
  rw [handleMessage] at h
  simp only [ht] at h
  split at h
  · cases h
    exact .unchanged hnot
  · rename_i d hd
    rw [isTimeout_of_lookup hd] at h
    obtain ⟨late, hlate, h⟩ := bind_eq_ok.mp h
    cases hlate
    split at h
    · cases h
      exact .unchanged hnot
    rename_i hlate
    obtain ⟨verified, hverified, h⟩ := bind_eq_ok.mp h
    split at h
    · cases h
      exact .unchanged hnot
    rename_i hsig
    obtain ⟨shared, _, h⟩ := bind_eq_ok.mp h
    split at h
    · cases h
      exact .certified ht hd rfl rfl
    · cases h
      have htrue : verified = true := by simpa using hsig
      exact .responded ht hd (by simpa using hlate) (htrue ▸ hverified) rfl rfl

theorem handles {s s' : SignerPoolManager} {m : JoinMessage} {out : List OutputMsgEntry}
    (h : handleMessage env s m = .ok (s', out)) : Handles env s m s' := by
  by_cases hresponse : m.type = .response1
  · exact handles_response hresponse h
  have hother : m.type ≠ .join → ¬ s.Issues m := fun hne hi => hne hi.1
  rw [handleMessage] at h
  split at h
  · rename_i ht
    split at h
    · rename_i hfull
      cases h
      exact .unchanged fun hi => by simp [hi.2] at hfull
    · rename_i hroom
      cases h
      exact .joined ⟨ht, by simpa using hroom⟩
  · rename_i ht
    exact absurd ht hresponse
  · rename_i ht
    obtain ⟨late, _, h⟩ := bind_eq_ok.mp h
    split at h
    · cases h
      exact .unchanged (hother (by rw [ht]; decide))
    · cases h
      exact .succeeded ht
  · rename_i ht
    cases h
    exact .left ht (ite_eq_or_eq _ _ _).symm
  · rename_i ht _ _ _
    cases h
    exact .unchanged (hother ht)

theorem handleMessage_join {s : SignerPoolManager} {m : JoinMessage} (h : s.Issues m) :
    handleMessage env s m = .ok ({ s with joinTempTable := s.joinTempTable.insert m.recvIdB64 (m.entry env) },
      [challengeMessage env (m.clock 0) (m.recvId env) (m.entry env).mergerNonce]) := by
  rw [handleMessage]
  simp only [h.1, h.2]
  rfl

/-- A response in time, with a good signature and key, puts its signer into the pool. -/
theorem handleMessage_response {s : SignerPoolManager} {m : JoinMessage} {d : JoinTemporaryData} {key : Bytes}
    (ht : m.type = .response1) (hd : s.joinTempTable.lookup m.recvIdB64 = some d)
    (htime : sub64 (m.clock 0) d.startTime ≤ joinTimeoutSec)
    (hsig : s.verifySignature env (m.recvId env) m.body = .ok true)
    (hkey : m.draw.getSharedSecretKey (Safe.getStringOf m.body "dhx") (Safe.getStringOf m.body "dhy") = .ok key)
    (hne : key ≠ []) :
    handleMessage env s m = .ok ({ s with
      joinTempTable := s.joinTempTable.insert m.recvIdB64
        { d with signerCert := Safe.getStringOf m.body "cert", sharedSecretKey := key, joinLock := false }
      signerPool := s.signerPool.pushSigner (m.clock 2) (m.recvId env) (Safe.getStringOf m.body "cert") key .temporary },
      [responseMessage env s (m.clock 1) m d.mergerNonce]) := by
  have hlate : s.isTimeout (m.clock 0) m.recvIdB64 = .ok false := by
    rw [isTimeout_of_lookup hd, decide_eq_false (Nat.not_lt.mpr htime)]
  rw [handleMessage]
  simp only [ht, hd, hlate, hsig, hkey]
  exact if_neg hne

end SignerPoolManager
end GruutMerger
