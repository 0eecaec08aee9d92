import GruutMerger.Env
import GruutMerger.Lib.Fallible
import GruutMerger.Lib.SortedTable

/-!
# The scheduler of block producers

Every merger keeps a table of the statuses the others announced, with the slot
of the announcement. `reschedule` reads its role for the next slot off the table:
whoever announced to be secondary becomes primary, and the next one in the order
of ids becomes secondary. The status is locked near the end of a slot and
unlocked by the merger's own announcement in the next one.
-/
namespace GruutMerger

open ByteText Fallible SortedTable

/-- Ids compare as vectors of bytes do. -/
instance uint8LinearOrder : LinearOrder UInt8 where
  le_refl := UInt8.le_refl
  le_trans _ _ _ := UInt8.le_trans
  le_antisymm _ _ := UInt8.le_antisymm
  le_total := UInt8.le_total
  lt_iff_le_not_ge _ _ := by
    simp only [UInt8.le_iff_toNat_le, UInt8.lt_iff_toNat_lt]
    omega
  toDecidableLE := inferInstance

def minSignatureCollectSize : Nat := 1

inductive BpStatus where
  | inBootWait
  | idle
  | primary
  | secondary
  | errorOnSigners
  | unknown
  deriving DecidableEq

namespace BpStatus

/-- `STATUS_STRING`, in the order of the map. -/
def statusString : List (BpStatus × String) :=
  [(inBootWait, "IN_BOOT_WAIT"), (idle, "IDLE"), (primary, "PRIMARY"), (secondary, "SECONDARY"),
   (errorOnSigners, "ERROR_ON_SIGNERS"), (unknown, "UNKNOWN")]

def ofString (str : Bytes) : BpStatus :=
  ((statusString.find? fun item => str = ascii item.2).map Prod.fst).getD unknown

def toString (status : BpStatus) : Bytes := ascii ((statusString.lookup status).getD "UNKNOWN")

theorem ofString_toString (status : BpStatus) : ofString (toString status) = status := by
  cases status <;> decide

/-- The statuses of mergers that can produce blocks. -/
def Ready (status : BpStatus) : Prop := status = idle ∨ status = primary ∨ status = secondary

instance (status : BpStatus) : Decidable (Ready status) := inferInstanceAs (Decidable (_ ∨ _))

theorem Ready.ne_inBootWait {status : BpStatus} (h : status.Ready) : status ≠ inBootWait := by
  rintro rfl
  exact absurd h (by decide)

end BpStatus

/-- Id, slot and status of an announcement. -/
abbrev BpRecvStatusInfo := Bytes × Nat × BpStatus

structure BpScheduler where
  myMid : Bytes
  currentStatus : BpStatus
  isLock : Bool
  recvStatus : List BpRecvStatusInfo
  blockProducers : List Bytes

namespace BpScheduler

/-- The mergers that announced in the slot that they are ready. -/
def possibleMergers (slot : Nat) (table : List BpRecvStatusInfo) : List (Bytes × BpStatus) :=
  table.filterMap fun item =>
    if item.2.1 = slot ∧ item.2.2.Ready then some (item.1, item.2.2) else none

def isAllIdle (table : List BpRecvStatusInfo) : Bool := table.all fun item => item.2.2 = .idle

/-- `size() - 1`. -/
def lastIndex (size : Nat) : Nat := if size = 0 then 2 ^ 64 - 1 else size - 1

/-- The loop that finds `my_pos`: the number of possible mergers up to the own entry,
less one. -/
def myPosition (slot : Nat) (my : Bytes) (table : List BpRecvStatusInfo) : Nat :=
  (table.foldl (fun (acc : Nat × Nat) item =>
    let size := if item.2.1 = slot ∧ item.2.2.Ready then acc.1 + 1 else acc.1
    (size, if item.1 = my then lastIndex size else acc.2)) (0, 0)).2

/-- Step 1: the first secondary, or else the first primary. -/
def findPrimary (mergers : List (Bytes × BpStatus)) : Option Nat :=
  (mergers.findIdx? fun m => m.2 = .secondary).or (mergers.findIdx? fun m => m.2 = .primary)

def primaryPosition (mergers : List (Bytes × BpStatus)) : Nat := (findPrimary mergers).getD 0

def secondaryPosition (mergers : List (Bytes × BpStatus)) : Nat :=
  (primaryPosition mergers + 1) % mergers.length

/-- Steps 1 to 3: without a primary to be found, nobody gets that role. -/
def roles (mergers : List (Bytes × BpStatus)) : List BpStatus :=
  let start := List.replicate mergers.length BpStatus.unknown
  let first := match findPrimary mergers with
    | some i => start.set i .primary
    | none => start
  let second := first.set (secondaryPosition mergers) .secondary
  second.map fun role => if role = .primary ∨ role = .secondary then role else .idle

/-- Access to an element by index. -/
def elementAt {α : Type} (xs : List α) (i : Nat) : Except Failure α :=
  match xs[i]? with
  | some x => .ok x
  | none => .error .undefined

def reschedule (now : Nat) (s : BpScheduler) : Except Failure BpScheduler := do
  if s.isLock then return s
  if s.currentStatus = .errorOnSigners then return s
  let myPrevStatus := ((s.recvStatus.find? fun item => item.1 = s.myMid).map fun item => item.2.2).getD .inBootWait
  let slot := now / bpInterval
  if myPrevStatus = .inBootWait then return { s with currentStatus := .idle }
  let mergers := possibleMergers slot s.recvStatus
  let myPos := myPosition slot s.myMid s.recvStatus
  if mergers.length = 0 then return s
  if mergers.length = 1 then return { s with currentStatus := .primary, blockProducers := [s.myMid] }
  if isAllIdle s.recvStatus then
    let status := if myPos = 0 then .primary else if myPos = 1 then .secondary else .idle
    let first ← elementAt mergers 0
    let second ← elementAt mergers 1
    return { s with currentStatus := status, blockProducers := [first.1, second.1] }
  let first ← elementAt mergers (primaryPosition mergers)
  let second ← elementAt mergers (secondaryPosition mergers)
  let role ← elementAt (roles mergers) myPos
  return { s with currentStatus := role, blockProducers := [first.1, second.1] }

def updateRecvStatus (now : Nat) (s : BpScheduler) (id : Bytes) (slot : Nat) (status : BpStatus) :
    Except Failure BpScheduler :=
  reschedule now { s with recvStatus := upsert s.recvStatus id (slot, status) }

/-- `m_is_lock` is set near the end of a slot, when the status is passed on to the
transaction collector. -/
def lockStatus (s : BpScheduler) : BpScheduler := { s with isLock := true }

/-- The status that is announced. -/
def pingStatus (s : BpScheduler) (numSigners : Nat) : BpStatus :=
  let status := if s.currentStatus ≠ .inBootWait ∧ numSigners < minSignatureCollectSize then .errorOnSigners
    else s.currentStatus
  if status = .errorOnSigners ∧ minSignatureCollectSize ≤ numSigners then .idle else status

variable (env : Env)

def pingMessage (my : Bytes) (now numSigners : Nat) (status : BpStatus) : Json :=
  .object [("mID", .string (env.base64.encode my)), ("cID", .string (env.base64.encode env.myChainId)),
    ("time", .string (decimal now)), ("sCnt", .string (decimal numSigners)), ("stat", .string status.toString)]

def sendPingMessage (now numSigners : Nat) (s : BpScheduler) : Except Failure (Json × BpScheduler) := do
  let status := s.pingStatus numSigners
  let s' ← updateRecvStatus now { s with currentStatus := status, isLock := false } s.myMid
    (now / bpInterval) status
  return (pingMessage env s.myMid now numSigners status, s')

/-- The kinds of message the scheduler looks at. -/
inductive MessageKind where
  | ping
  | up
  | welcome
  deriving DecidableEq

/-- Address book and answer of a new merger belong to other modules. -/
def handleMessage (now : Nat) (kind : MessageKind) (body : Json) (s : BpScheduler) : Except Failure BpScheduler := do
  if Safe.getStringOf body "cID" ≠ env.base64.encode env.myChainId then return s
  let id := Safe.getBytesFromB64 env.base64 body "mID"
  let time ← Safe.getTimeOf body "time"
  if bpInterval / 2 < (toInt64 time - toInt64 now).natAbs then return s
  match kind with
  | .ping =>
    let numSigners ← Safe.getInt body "sCnt"
    let status := BpStatus.ofString (Safe.getStringOf body "stat")
    updateRecvStatus now s id (time / bpInterval)
      (if numSigners < minSignatureCollectSize then .errorOnSigners else status)
  | .up => updateRecvStatus now s id (time / bpInterval) .inBootWait
  | .welcome => return s

variable {env}

/-- The role that the table gives to a position among the possible mergers. -/
def roleAt (slot : Nat) (table : List BpRecvStatusInfo) (i : Nat) : BpStatus :=
  if isAllIdle table then if i = 0 then .primary else if i = 1 then .secondary else .idle
  else (roles (possibleMergers slot table)).getD i .idle

/-- The block producers that the table gives. -/
def producersAt (slot : Nat) (table : List BpRecvStatusInfo) : List Bytes :=
  let mergers := possibleMergers slot table
  let positions := if isAllIdle table then [0, 1] else [primaryPosition mergers, secondaryPosition mergers]
  positions.map fun i => (mergers.map Prod.fst).getD i []

theorem possibleMergers_append (slot : Nat) (t u : List BpRecvStatusInfo) :
    possibleMergers slot (t ++ u) = possibleMergers slot t ++ possibleMergers slot u := List.filterMap_append ..

theorem mem_possibleMergers {slot : Nat} {table : List BpRecvStatusInfo} {m : Bytes × BpStatus} :
    m ∈ possibleMergers slot table ↔ (m.1, slot, m.2) ∈ table ∧ m.2.Ready := by
  simp only [possibleMergers, List.mem_filterMap, Option.ite_none_right_eq_some, Option.some.injEq]
  constructor
  · rintro ⟨⟨id, n, st⟩, hmem, ⟨rfl, hr⟩, rfl⟩
    exact ⟨hmem, hr⟩
  · rintro ⟨hmem, hr⟩
    exact ⟨_, hmem, ⟨rfl, hr⟩, rfl⟩

/-- The loop over entries of others counts the possible mergers. -/
theorem foldl_position {slot : Nat} {my : Bytes} {table : List BpRecvStatusInfo}
    (hother : ∀ item ∈ table, item.1 ≠ my) (acc : Nat × Nat) :
    table.foldl (fun (acc : Nat × Nat) item =>
      let size := if item.2.1 = slot ∧ item.2.2.Ready then acc.1 + 1 else acc.1
      (size, if item.1 = my then lastIndex size else acc.2)) acc =
      (acc.1 + (possibleMergers slot table).length, acc.2) := by
  induction table generalizing acc with
  | nil => rfl
  | cons item table ih =>
    rw [List.foldl_cons, ih fun i hi => hother i (by simp [hi])]
    simp only [if_neg (hother item (by simp)), possibleMergers, List.filterMap_cons]
    split <;> simp [Nat.add_assoc, Nat.add_comm 1]

/-- `my_pos`, by the possible mergers before the own entry. -/
theorem myPosition_split {slot sl : Nat} {my : Bytes} {st : BpStatus} {before after : List BpRecvStatusInfo}
    (hbefore : ∀ item ∈ before, item.1 ≠ my) (hafter : ∀ item ∈ after, item.1 ≠ my) :
    myPosition slot my (before ++ (my, sl, st) :: after) = lastIndex (if sl = slot ∧ st.Ready
      then (possibleMergers slot before).length + 1 else (possibleMergers slot before).length) := by
  rw [myPosition, List.foldl_append, foldl_position hbefore, List.foldl_cons, foldl_position hafter]
  simp

/-- In a table with one entry for each merger the own one has others around it. -/
theorem split_own {my : Bytes} {sl : Nat} {st : BpStatus} {before after : List BpRecvStatusInfo}
    (hkeys : ((before ++ (my, sl, st) :: after).map Prod.fst).Nodup) :
    (∀ item ∈ before, item.1 ≠ my) ∧ ∀ item ∈ after, item.1 ≠ my := by
  simp only [List.map_append, List.map_cons, List.nodup_append, List.nodup_cons] at hkeys
  exact ⟨fun item hi => hkeys.2.2 _ (List.mem_map_of_mem hi) my (by simp),
    fun item hi heq => hkeys.2.1.1 (heq ▸ List.mem_map_of_mem hi)⟩

/-- `my_pos` is the position of the merger's own entry. -/
theorem myPosition_eq {slot : Nat} {my : Bytes} {st : BpStatus} {table : List BpRecvStatusInfo}
    (hkeys : (table.map Prod.fst).Nodup) (hmine : (my, slot, st) ∈ table) (hready : st.Ready) :
    (possibleMergers slot table)[myPosition slot my table]? = some (my, st) := by
  obtain ⟨before, after, rfl⟩ := List.append_of_mem hmine
  obtain ⟨hbefore, hafter⟩ := split_own hkeys
  have hpos : myPosition slot my (before ++ (my, slot, st) :: after) = (possibleMergers slot before).length := by
    rw [myPosition_split hbefore hafter, if_pos ⟨rfl, hready⟩]
    simp [lastIndex]
  have hself : possibleMergers slot ((my, slot, st) :: after) = (my, st) :: possibleMergers slot after := by
    simp [possibleMergers, hready]
  rw [hpos, possibleMergers_append, hself]
  simp

theorem findPrimary_lt {mergers : List (Bytes × BpStatus)} {i : Nat} (h : findPrimary mergers = some i) :
    i < mergers.length := by
  rw [findPrimary, Option.or_eq_some_iff] at h
  rcases h with h | ⟨_, h⟩
  · exact (List.findIdx?_eq_some_iff_getElem.mp h).1
  · exact (List.findIdx?_eq_some_iff_getElem.mp h).1

theorem primaryPosition_lt {mergers : List (Bytes × BpStatus)} (h : 0 < mergers.length) :
    primaryPosition mergers < mergers.length := by
  unfold primaryPosition
  cases hp : findPrimary mergers with
  | none => exact h
  | some i => exact findPrimary_lt hp

theorem secondaryPosition_lt {mergers : List (Bytes × BpStatus)} (h : 0 < mergers.length) :
    secondaryPosition mergers < mergers.length := Nat.mod_lt _ h

@[simp] theorem length_roles (mergers : List (Bytes × BpStatus)) : (roles mergers).length = mergers.length := by
  unfold roles
  cases findPrimary mergers <;> simp

/-- The role at a position, for two mergers or more. -/
theorem roles_getElem? {mergers : List (Bytes × BpStatus)} {i : Nat} (hi : i < mergers.length) :
    (roles mergers)[i]? = some (if i = secondaryPosition mergers then .secondary
      else if findPrimary mergers = some i then .primary else .idle) := by
  unfold roles
  rw [List.getElem?_map]
  cases hp : findPrimary mergers with
  | none =>
    rw [List.getElem?_set, List.length_replicate, List.getElem?_replicate, if_pos hi]
    by_cases hs : secondaryPosition mergers = i
    · simp [hs, hi]
    · simp [hs, Ne.symm hs]
  | some p =>
    have hlen : (List.replicate mergers.length BpStatus.unknown).length = mergers.length := List.length_replicate
    rw [List.getElem?_set, List.getElem?_set, List.length_set, hlen, List.getElem?_replicate, if_pos hi]
    by_cases hs : secondaryPosition mergers = i
    · simp [hs, hi]
    · by_cases hpi : p = i
      · simp [hs, Ne.symm hs, hpi, hi]
      · simp [hs, Ne.symm hs, hpi]

/-- At most one position is primary. -/
theorem roleAt_primary_unique {slot : Nat} {table : List BpRecvStatusInfo} {i j : Nat}
    (hi : i < (possibleMergers slot table).length) (hj : j < (possibleMergers slot table).length)
    (h : roleAt slot table i = .primary) (h' : roleAt slot table j = .primary) : i = j := by
  unfold roleAt at h h'
  by_cases hidle : isAllIdle table = true
  · rw [if_pos hidle] at h h'
    have hzero : ∀ {k : Nat}, (if k = 0 then BpStatus.primary else if k = 1 then .secondary else .idle) = .primary →
        k = 0 := by
      intro k hk
      by_contra hne
      rw [if_neg hne] at hk
      split at hk <;> cases hk
    rw [hzero h, hzero h']
  · rw [if_neg hidle] at h h'
    have hfound : ∀ {k : Nat}, k < (possibleMergers slot table).length →
        (roles (possibleMergers slot table)).getD k .idle = .primary →
        findPrimary (possibleMergers slot table) = some k := by
      intro k hk hrole
      rw [List.getD_eq_getElem?_getD, roles_getElem? hk, Option.getD_some] at hrole
      split at hrole
      · cases hrole
      · split at hrole
        · assumption
        · cases hrole
    exact Option.some.inj ((hfound hi h).symm.trans (hfound hj h'))

theorem elementAt_getD {α : Type} {xs : List α} {i : Nat} (h : i < xs.length) (x : α) :
    elementAt xs i = .ok (xs.getD i x) := by
  rw [elementAt, List.getD_eq_getElem?_getD, List.getElem?_eq_getElem h, Option.getD_some]

theorem elementAt_fst {mergers : List (Bytes × BpStatus)} {i : Nat} (hi : i < mergers.length) :
    ∃ m, elementAt mergers i = .ok m ∧ m.1 = (mergers.map Prod.fst).getD i [] := by
  refine ⟨_, elementAt_getD hi ([], .unknown), ?_⟩
  simp [List.getD_eq_getElem?_getD, hi]

section Decision

variable {s s' : BpScheduler} {now slot : Nat} {st : BpStatus}

theorem reschedule_locked (h : s.isLock = true) : reschedule now s = .ok s := by
  simp [reschedule, h, pure, Except.pure]

/-- The own entry is the one that is found. -/
theorem find_own (hkeys : (s.recvStatus.map Prod.fst).Nodup) (hmine : (s.myMid, slot, st) ∈ s.recvStatus) :
    s.recvStatus.find? (fun item => item.1 = s.myMid) = some (s.myMid, slot, st) := by
  cases hf : s.recvStatus.find? (fun item => item.1 = s.myMid) with
  | none => exact absurd (List.find?_eq_none.mp hf _ hmine) (by simp)
  | some item =>
    have hid := of_decide_eq_true (List.find?_some (p := fun item : BpRecvStatusInfo => item.1 = s.myMid) hf)
    rw [List.inj_on_of_nodup_map hkeys (List.mem_of_find?_eq_some hf) hmine hid]

section Own

variable {sl : Nat} (hkeys : (s.recvStatus.map Prod.fst).Nodup) (hlock : s.isLock = false)
  (hstat : s.currentStatus ≠ .errorOnSigners) (hslot : now / bpInterval = slot)
  (hmine : (s.myMid, sl, st) ∈ s.recvStatus) (hboot : st ≠ .inBootWait)

include hkeys hlock hstat hslot hmine hboot

/-- Without a possible merger nothing is decided. -/
theorem reschedule_none (hnone : (possibleMergers slot s.recvStatus).length = 0) : reschedule now s = .ok s := by
  unfold reschedule
  simp [hlock, hstat, find_own hkeys hmine, hslot, hboot, hnone, pure, Except.pure]

/-- The only possible merger is taken for the own one. -/
theorem reschedule_alone (hone : (possibleMergers slot s.recvStatus).length = 1) :
    reschedule now s = .ok { s with currentStatus := .primary, blockProducers := [s.myMid] } := by
  unfold reschedule
  simp [hlock, hstat, find_own hkeys hmine, hslot, hboot, hone, pure, Except.pure]

/-- With at least two possible mergers the role is the one at `my_pos`. -/
theorem reschedule_eq (htwo : 2 ≤ (possibleMergers slot s.recvStatus).length)
    (hpos : isAllIdle s.recvStatus = true ∨
      myPosition slot s.myMid s.recvStatus < (possibleMergers slot s.recvStatus).length) :
    reschedule now s = .ok { s with
      currentStatus := roleAt slot s.recvStatus (myPosition slot s.myMid s.recvStatus)
      blockProducers := producersAt slot s.recvStatus } := by
  unfold reschedule roleAt producersAt
  simp only [hlock, hstat, find_own hkeys hmine, hslot, Option.map_some, Option.getD_some, hboot, if_false,
    Bool.false_eq_true, show (possibleMergers slot s.recvStatus).length ≠ 0 by omega,
    show (possibleMergers slot s.recvStatus).length ≠ 1 by omega]
  generalize possibleMergers slot s.recvStatus = mergers at htwo hpos
  by_cases hidle : isAllIdle s.recvStatus = true
  · obtain ⟨first, hfirst, hid⟩ := elementAt_fst (show 0 < mergers.length by omega)
    obtain ⟨second, hsecond, hid'⟩ := elementAt_fst (show 1 < mergers.length by omega)
    simp only [hidle, if_true, hfirst, hsecond, hid, hid', List.map_cons, List.map_nil, bind, Except.bind, pure,
      Except.pure]
  · have hpos' : 0 < mergers.length := by omega
    obtain ⟨first, hfirst, hid⟩ := elementAt_fst (primaryPosition_lt hpos')
    obtain ⟨second, hsecond, hid'⟩ := elementAt_fst (secondaryPosition_lt hpos')
    have hrole := elementAt_getD (by rw [length_roles]; exact hpos.resolve_left hidle :
      myPosition slot s.myMid s.recvStatus < (roles mergers).length) BpStatus.idle
    simp only [hidle, if_false, Bool.false_eq_true, hfirst, hsecond, hrole, hid, hid', List.map_cons,
      List.map_nil, bind, Except.bind, pure, Except.pure]

end Own

end Decision
end BpScheduler
end GruutMerger
