import GruutMerger.BpScheduler
import GruutMerger.HighestMergers
import GruutMerger.MessageSchema

/-!
# The directory of mergers

What a merger knows of the others, their addresses and certificates: from its
settings, from those who announce themselves with `MSG_UP`, and from the lists that
`MSG_WELCOME` brings. Whoever it learns of is written to a file, and the files are
read at the next start.
-/
namespace GruutMerger

open ByteText Fallible SortedTable

/-- What there is to know of a merger or a service endpoint. -/
structure Contact where
  address : Bytes
  port : Bytes
  cert : Bytes

structure ServiceEndpointInfo where
  id : Bytes
  address : Bytes
  port : Bytes
  cert : Bytes
  connStatus : Bool

/-- The part of `Setting` that others are known by. -/
structure Settings where
  self : Contact
  /-- id and certificate of the authority and of the tracker -/
  authority : Bytes × Bytes
  tracker : Bytes × Bytes
  serviceEndpoints : List ServiceEndpointInfo
  mergers : List MergerInfo

/-- The connection manager, with the files of the mergers. -/
structure Directory where
  conn : ConnManager
  seInfo : AList fun _ : Bytes => ServiceEndpointInfo
  files : AList fun _ : Bytes => Json

/-- The certificates that reading the settings pushes, in order. -/
def Settings.certs (st : Settings) : List (Bytes × Bytes) :=
  [st.authority, st.tracker] ++ st.serviceEndpoints.map (fun e => (e.id, e.cert)) ++ st.mergers.map fun e => (e.id, e.cert)

/-- The entries of a `std::map`, in the order of its keys. -/
def inOrder {α : Type} (m : AList fun _ : Bytes => α) : List (Bytes × α) := upsertAll [] (m.entries.map fun e => (e.1, e.2))

/-- `erase` -/
def Json.erase (j : Json) (key : String) : Json :=
  match j with
  | .object fs => .object (fs.filter fun f => f.1 ≠ key)
  | j => j

def Safe.getBoolean (j : Json) (key : String) : Bool :=
  match j.find key with
  | some (.boolean b) => b
  | _ => false

def slash : UInt8 := 47

/-- Where the file of an id goes: slashes in front add nothing to the path of the directory, and any other leads to a
directory that is not there. -/
def fileName (idB64 : Bytes) : Option Bytes :=
  let name := idB64.dropWhile (· = slash)
  if slash ∈ name then none else some name

variable (env : Env)

namespace ConnManager

def hasMergerInfo (c : ConnManager) (id : Bytes) : Bool := (c.mergerInfo.lookup (env.base64.encode id)).isSome

/-- `operator[]` makes an entry where there is none. -/
def getMergerInfo (c : ConnManager) (id : Bytes) : MergerInfo :=
  (c.mergerInfo.lookup (env.base64.encode id)).getD ⟨[], [], [], [], false⟩

def setMergerStatus (c : ConnManager) (id : Bytes) (status : Bool) : ConnManager :=
  if !c.enabledMergerCheck then c
  else { c with
    mergerInfo := c.mergerInfo.insert (env.base64.encode id) { c.getMergerInfo env id with connStatus := status } }

def getAllMergerInfo (c : ConnManager) : List MergerInfo := (inOrder c.mergerInfo).map Prod.snd

/-- `MergerClient::checkRpcConnection`, with what the others answer. -/
def checkRpcConnection (c : ConnManager) (answers : MergerInfo → Bool) : ConnManager :=
  c.getAllMergerInfo.foldl (fun c info => c.setMergerStatus env info.id (answers info)) c

/-- An unknown receiver is entered as the tracker describes it; an answer with a flag has no such merger, and without a
tracker the answer is empty. -/
def lookUpReceiver (c : ConnManager) (tracker : Bytes → Json) (receiver : Bytes) : Option ConnManager :=
  if c.hasMergerInfo env receiver then some c
  else if ((tracker receiver).find "flag").isSome then none
  else
    let info : MergerInfo :=
      { id := receiver
        address := Safe.getStringOf (tracker receiver) "ip"
        port := Safe.getStringOf (tracker receiver) "port"
        cert := Safe.getStringOf (tracker receiver) "mCert"
        connStatus := false }
    some (c.setMergerInfo env info true)

/-- The loop over the receivers ends with the first that is connected. -/
def sendToReceivers (tracker : Bytes → Json) : ConnManager → List Bytes → List Bytes × ConnManager
  | c, [] => ([], c)
  | c, receiver :: receivers =>
    match c.lookUpReceiver env tracker receiver with
    | none => sendToReceivers tracker c receivers
    | some c =>
      let info := c.getMergerInfo env receiver
      if c.getMergerStatus env info.id then ([info.id], c) else sendToReceivers tracker c receivers

/-- `MergerClient::sendToMerger`: to whom a message goes. -/
def sendToMerger (c : ConnManager) (tracker : Bytes → Json) (receivers : List Bytes) : List Bytes × ConnManager :=
  if receivers = [] then ((c.getAllMergerInfo.filter fun info => c.getMergerStatus env info.id).map MergerInfo.id, c)
  else sendToReceivers env tracker c receivers

end ConnManager

namespace Directory

def setSeInfo (d : Directory) (info : ServiceEndpointInfo) (connStatus : Bool) : Directory :=
  { d with seInfo := d.seInfo.insert (env.base64.encode info.id) { info with connStatus := connStatus } }

def hasSeInfo (d : Directory) (id : Bytes) : Bool := (d.seInfo.lookup (env.base64.encode id)).isSome

/-- The body of the loop of `setMultiSeInfo`. -/
def setOneSeInfo (d : Directory) (se : Json) : Directory :=
  let seId := env.base64.decode (Safe.getStringOf se "seID")
  if d.hasSeInfo env seId then d
  else
    let info : ServiceEndpointInfo :=
      { id := seId
        address := Safe.getStringOf se "ip"
        port := Safe.getStringOf se "port"
        cert := Safe.getStringOf se "seCert"
        connStatus := false }
    setSeInfo env { d with conn := d.conn.pushCert env seId info.cert } info true

def setMultiSeInfo (d : Directory) (seList : List Json) : Directory := seList.foldl (setOneSeInfo env) d

def mergerRecord (info : MergerInfo) : Json :=
  .object [("mID", .string (env.base64.encode info.id)), ("ip", .string info.address), ("port", .string info.port),
    ("mCert", .string info.cert)]

def seRecord (info : ServiceEndpointInfo) : Json :=
  .object [("seID", .string (env.base64.encode info.id)), ("ip", .string info.address), ("port", .string info.port),
    ("seCert", .string info.cert)]

def getAllMergerInfoJson (d : Directory) : List Json := (inOrder d.conn.mergerInfo).map fun e => mergerRecord env e.2

def getAllSeInfoJson (d : Directory) : List Json := (inOrder d.seInfo).map fun e => seRecord env e.2

/-- A file that cannot be opened is not missed. -/
def writeMergerInfo (d : Directory) (mergerInfo : Json) : Directory :=
  match fileName (Safe.getStringOf mergerInfo "mID") with
  | some name => { d with files := d.files.insert name mergerInfo }
  | none => d

/-- The directory as it is set up from the settings. -/
def ofSettings (st : Settings) (files : AList fun _ : Bytes => Json) : Directory :=
  let start : ConnManager := ⟨∅, ∅, true, []⟩
  let conn := st.certs.foldl (fun (c : ConnManager) e => c.pushCert env e.1 e.2) start
  let conn := st.mergers.foldl
    (fun (c : ConnManager) info => if info.id = env.myId then c else c.setMergerInfo env info true) conn
  st.serviceEndpoints.foldl (fun d info => setSeInfo env d info true) ⟨conn, ∅, files⟩

/-- `setUpConnList`, with what the files hold in the order in which they are found. -/
def setUpConnList (st : Settings) (files : AList fun _ : Bytes => Json) (mergerList : List Json) :
    Except Failure Directory := do
  let d := ofSettings env st files
  return { d with conn := ← d.conn.setMultiMergerInfo env mergerList }

/-- What a `MSG_UP` brings. -/
def takeUp (d : Directory) (body : Json) : Directory :=
  let info : MergerInfo :=
    { id := Safe.getBytesFromB64 env.base64 body "mID"
      address := Safe.getStringOf body "ip"
      port := Safe.getStringOf body "port"
      cert := Safe.getStringOf body "mCert"
      connStatus := false }
  writeMergerInfo { d with conn := d.conn.setMergerInfo env info true } (((body.erase "time").erase "ver").erase "cID")

/-- The records that are not the own one. -/
def others (mergers : List Json) : List Json :=
  mergers.filter fun r => Safe.getStringOf r "mID" ≠ env.base64.encode env.myId

/-- What a list of mergers and one of service endpoints bring, with the records that go to files. -/
def takeList (d : Directory) (mergers records ses : List Json) : Except Failure Directory := do
  let conn ← d.conn.setMultiMergerInfo env mergers
  return setMultiSeInfo env (records.foldl writeMergerInfo { d with conn := conn }) ses

/-- What a `MSG_WELCOME` brings. -/
def takeWelcome (d : Directory) (mergers ses : List Json) : Except Failure Directory :=
  d.takeList env mergers (others env mergers) ses

/-- `MergerClient::accessToTracker`: what the tracker answers to a merger that joins. -/
def takeTracker (d : Directory) (mergers ses : List Json) : Except Failure Directory :=
  d.takeList env mergers ((others env mergers).map (Json.erase · "hgt")) ses

end Directory

/-- `Bootstrapper::sendMsgUp`, to everybody. -/
def upMessage (now : Nat) (st : Settings) : OutputMsgEntry where
  type := .up
  body := .object [("mID", .string (env.base64.encode env.myId)), ("time", .string (decimal now)),
    ("ver", .string (decimal 1)), ("cID", .string (env.base64.encode env.myChainId)), ("ip", .string st.self.address),
    ("port", .string st.self.port), ("mCert", .string st.self.cert)]
  receivers := []

def welcomeMessage (now : Nat) (d : Directory) (mergerId : Bytes) : OutputMsgEntry where
  type := .welcome
  body := .object [("mID", .string (env.base64.encode env.myId)), ("cID", .string (env.base64.encode env.myChainId)),
    ("time", .string (decimal now)), ("val", .boolean true), ("merger", .array (d.getAllMergerInfoJson env)),
    ("se", .array (d.getAllSeInfoJson env))]
  receivers := [mergerId]

/-- The scheduler of a merger, with what it knows of the others. -/
structure Peer where
  scheduler : BpScheduler
  directory : Directory
  welcome : Bool

def BpScheduler.MessageKind.type : BpScheduler.MessageKind → MessageType
  | .ping => .ping
  | .up => .up
  | .welcome => .welcome

namespace Peer

/-- `BpScheduler::handleMessage`; a `MSG_WELCOME` gets the time that it is made at. -/
def handleMessage (now later : Nat) (kind : BpScheduler.MessageKind) (body : Json) (p : Peer) :
    Except Failure (Peer × List OutputMsgEntry) := do
  if Safe.getStringOf body "cID" ≠ env.base64.encode env.myChainId then return (p, [])
  let mergerId := Safe.getBytesFromB64 env.base64 body "mID"
  let time ← Safe.getTimeOf body "time"
  if bpInterval / 2 < (toInt64 time - toInt64 now).natAbs then return (p, [])
  match kind with
  | .ping =>
    let numSigners ← Safe.getInt body "sCnt"
    let status := BpStatus.ofString (Safe.getStringOf body "stat")
    let scheduler ← BpScheduler.updateRecvStatus now p.scheduler mergerId (time / bpInterval)
      (if numSigners < minSignatureCollectSize then .errorOnSigners else status)
    return ({ p with scheduler := scheduler }, [])
  | .up =>
    let directory := p.directory.takeUp env body
    let scheduler ← BpScheduler.updateRecvStatus now p.scheduler mergerId (time / bpInterval) .inBootWait
    return ({ p with scheduler := scheduler, directory := directory }, [welcomeMessage env later directory mergerId])
  | .welcome =>
    if !Safe.getBoolean body "val" then return (p, [])
    match body.find "merger", body.find "se" with
    | some mergers, some ses =>
      let directory ← p.directory.takeWelcome env mergers.elements ses.elements
      return ({ p with welcome := true, directory := directory }, [])
    | _, _ => return ({ p with welcome := true }, [])

variable {env} {now later : Nat} {kind : BpScheduler.MessageKind} {body : Json} {p p' : Peer} {out : List OutputMsgEntry}

/-- The scheduler goes its own way. -/
theorem handleMessage_scheduler (h : p.handleMessage env now later kind body = .ok (p', out)) :
    p.scheduler.handleMessage env now kind body = .ok p'.scheduler := by
  unfold handleMessage at h
  unfold BpScheduler.handleMessage
  split at h
  · rename_i hchain
    cases h
    rw [if_pos hchain]
    rfl
  · rename_i hchain
    rw [if_neg hchain]
    obtain ⟨time, htime, h⟩ := bind_eq_ok.mp h
    simp only [htime, bind, Except.bind]
    split at h
    · rename_i hlate
      cases h
      rw [if_pos hlate]
      rfl
    · rename_i hlate
      rw [if_neg hlate]
      cases kind with
      | ping =>
        obtain ⟨n, hn, h⟩ := bind_eq_ok.mp h
        obtain ⟨scheduler, hs, h⟩ := bind_eq_ok.mp h
        cases h
        simp only [hn, hs]
      | up =>
        obtain ⟨scheduler, hs, h⟩ := bind_eq_ok.mp h
        cases h
        exact hs
      | welcome =>
        simp only at h
        split at h
        · cases h
          rfl
        split at h
        · obtain ⟨directory, _, h⟩ := bind_eq_ok.mp h
          cases h
          rfl
        · cases h
          rfl

/-- The directory changes with an announcement, which is answered with what is known then, and with a welcome. -/
theorem handleMessage_cases (h : p.handleMessage env now later kind body = .ok (p', out)) :
    (p'.directory = p.directory ∧ out = []) ∨
      (kind = .up ∧ p'.directory = p.directory.takeUp env body ∧
        out = [welcomeMessage env later p'.directory (Safe.getBytesFromB64 env.base64 body "mID")]) ∨
      kind = .welcome ∧ out = [] ∧ ∃ mergers ses, body.find "merger" = some mergers ∧ body.find "se" = some ses ∧
        p.directory.takeWelcome env mergers.elements ses.elements = .ok p'.directory := by
  unfold handleMessage at h
  split at h
  · cases h
    exact Or.inl ⟨rfl, rfl⟩
  obtain ⟨time, _, h⟩ := bind_eq_ok.mp h
  split at h
  · cases h
    exact Or.inl ⟨rfl, rfl⟩
  cases kind with
  | ping =>
    obtain ⟨n, _, h⟩ := bind_eq_ok.mp h
    obtain ⟨scheduler, _, h⟩ := bind_eq_ok.mp h
    cases h
    exact Or.inl ⟨rfl, rfl⟩
  | up =>
    obtain ⟨scheduler, _, h⟩ := bind_eq_ok.mp h
    cases h
    exact Or.inr (Or.inl ⟨rfl, rfl, rfl⟩)
  | welcome =>
    simp only at h
    split at h
    · cases h
      exact Or.inl ⟨rfl, rfl⟩
    split at h
    · rename_i mergers ses hmergers hses
      obtain ⟨directory, hdirectory, h⟩ := bind_eq_ok.mp h
      cases h
      exact Or.inr (Or.inr ⟨rfl, rfl, mergers, ses, hmergers, hses, hdirectory⟩)
    · cases h
      exact Or.inl ⟨rfl, rfl⟩

section Timely

-- a message for this chain that comes in time is not passed over
variable {time : Nat} (hchain : Safe.getStringOf body "cID" = env.base64.encode env.myChainId)
  (htime : Safe.getStringOf body "time" = decimal time) (hlt : time + MessageValidator.timeMaxDiffSec ≤ 2 ^ 63)
  (hnow : MessageValidator.Recent time now)

include htime hlt in
theorem getTimeOf_timely : Safe.getTimeOf body "time" = .ok time := by
  rw [Safe.getTimeOf, htime]
  refine Safe.parseDecimal_decimal time ?_
  simp only [MessageValidator.timeMaxDiffSec] at hlt
  omega

include hlt hnow in
theorem near_of_recent : ¬ bpInterval / 2 < (toInt64 time - toInt64 now).natAbs := by
  obtain ⟨hlow, hhigh⟩ := hnow
  simp only [MessageValidator.timeMaxDiffSec] at hlow hhigh hlt
  unfold toInt64 bpInterval
  omega

include hchain htime hlt hnow

theorem handleMessage_up (h : p.handleMessage env now later .up body = .ok (p', out)) :
    p'.directory = p.directory.takeUp env body ∧
      out = [welcomeMessage env later p'.directory (Safe.getBytesFromB64 env.base64 body "mID")] := by
  unfold handleMessage at h
  simp only [hchain, ne_eq, not_true_eq_false, if_false, getTimeOf_timely htime hlt, bind, Except.bind,
    near_of_recent hlt hnow] at h
  obtain ⟨scheduler, _, h⟩ := bind_eq_ok.mp h
  cases h
  exact ⟨rfl, rfl⟩

theorem handleMessage_welcome {mergers ses : Json} {d : Directory} (hval : Safe.getBoolean body "val" = true)
    (hmergers : body.find "merger" = some mergers) (hses : body.find "se" = some ses)
    (hd : p.directory.takeWelcome env mergers.elements ses.elements = .ok d) :
    p.handleMessage env now later .welcome body = .ok ({ p with welcome := true, directory := d }, []) := by
  unfold handleMessage
  simp only [hchain, ne_eq, not_true_eq_false, if_false, getTimeOf_timely htime hlt, bind, Except.bind,
    near_of_recent hlt hnow, hval, hmergers, hses, Bool.not_true, Bool.false_eq_true, hd]
  rfl

end Timely

end Peer
end GruutMerger
