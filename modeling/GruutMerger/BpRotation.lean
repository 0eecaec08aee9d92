import GruutMerger.BpAgreement
import Mathlib.Data.List.FinRange
import Mathlib.Data.Fintype.Prod

/-!
# Rotation of the block producers

Mergers with ids in ascending order, each with a table that lists all of them as
idle. In every slot each one announces its status once, every announcement
reaches everyone in some order, and at the end of the slot all lock their status.
The slots then go round: position `k` is primary in slot `k` and the next one
secondary.
-/
namespace GruutMerger

open ByteText Fallible SortedTable BpScheduler

/-- All mergers, the announcements of the slot with the time of sending, and who has
handled whose announcement. -/
structure MergerNet (n : Nat) where
  mergers : Fin n → BpScheduler
  sent : Fin n → Option (Nat × Json)
  seen : Fin n → Fin n → Bool

namespace MergerNet

variable {n : Nat}

/-- Everyone has handled everyone's announcement. -/
def Complete (net : MergerNet n) : Prop := ∀ i j, net.seen i j = true

/-- Merger `i` goes on to a new state having handled the announcement of `j`. -/
def handle (net : MergerNet n) (i j : Fin n) (s : BpScheduler) : MergerNet n :=
  { net with
    mergers := Function.update net.mergers i s
    seen := Function.update net.seen i (Function.update (net.seen i) j true) }

/-- The end of a slot. -/
def turn (net : MergerNet n) : MergerNet n :=
  { mergers := fun i => (net.mergers i).lockStatus, sent := fun _ => none, seen := fun _ _ => false }

/-- Mergers with tables that list everyone as idle, before the first slot. -/
structure Start (ids : Fin n → Bytes) (net : MergerNet n) : Prop where
  mid : ∀ i, (net.mergers i).myMid = ids i
  idle : ∀ i, (net.mergers i).currentStatus = .idle
  lock : ∀ i, (net.mergers i).isLock = true
  table : ∀ i, ∃ slots : Fin n → Nat, (net.mergers i).recvStatus = List.ofFn fun j => (ids j, slots j, .idle)
  sent : ∀ i, net.sent i = none
  seen : ∀ i j, net.seen i j = false

variable (env : Env)

/-- Whether an announcement is recent enough to be looked at. -/
def Timely (sent now : Nat) : Prop := (toInt64 sent - toInt64 now).natAbs ≤ bpInterval / 2

/-- A run up to some point of its `k`-th slot; the first one has number `first`. -/
inductive Run (ids : Fin n → Bytes) (first : Nat) : Nat → MergerNet n → Prop where
  | start {net : MergerNet n} (h : net.Start ids) : Run ids first 0 net
  | send {k now numSigners : Nat} {net : MergerNet n} {i : Fin n} {msg : Json} {s : BpScheduler}
      (h : Run ids first k net) (hnew : net.sent i = none) (hslot : now / bpInterval = first + k)
      (hsigners : minSignatureCollectSize ≤ numSigners)
      (hs : (net.mergers i).sendPingMessage env now numSigners = .ok (msg, s)) :
      Run ids first k { net.handle i i s with sent := Function.update net.sent i (some (now, msg)) }
  | receive {k now time : Nat} {net : MergerNet n} {i j : Fin n} {msg : Json} {s : BpScheduler}
      (h : Run ids first k net) (hsent : net.sent j = some (time, msg)) (hnew : net.seen i j = false)
      (hslot : now / bpInterval = first + k) (htimely : Timely time now)
      (hs : (net.mergers i).handleMessage env now .ping msg = .ok s) :
      Run ids first k (net.handle i j s)
  | turn {k : Nat} {net : MergerNet n} (h : Run ids first k net) (hall : net.Complete) :
      Run ids first (k + 1) net.turn

variable {env}

section Ping

variable {now time numSigners : Nat} {id : Bytes} {status : BpStatus} {s s' : BpScheduler}

theorem parseDecimal_bound {m v : Nat} (h : Safe.parseDecimal (decimal m) = .ok v) : m < 2 ^ 63 := by
  by_contra hm
  have hnone : stoll (decimal m) = none := readBounded_decimal_none _ m (by omega)
  simp [Safe.parseDecimal, decimal_ne_nil, hnone] at h

/-- A timely ping is an update of the sender's entry. -/
theorem handleMessage_ping (ht : time < 2 ^ 63) (hm : numSigners < 2 ^ 63)
    (hsigners : minSignatureCollectSize ≤ numSigners) (htimely : Timely time now) :
    s.handleMessage env now .ping (pingMessage env id time numSigners status) =
      s.updateRecvStatus now id (time / bpInterval) status := by
  have hcid : Safe.getStringOf (pingMessage env id time numSigners status) "cID" =
      env.base64.encode env.myChainId := rfl
  have hmid : Safe.getBytesFromB64 env.base64 (pingMessage env id time numSigners status) "mID" = id :=
    Safe.getBytesFromB64_encode rfl
  have hstat : Safe.getStringOf (pingMessage env id time numSigners status) "stat" = status.toString := rfl
  have htime : Safe.getTimeOf (pingMessage env id time numSigners status) "time" = .ok time :=
    Safe.parseDecimal_decimal time ht
  have hcount : Safe.getInt (pingMessage env id time numSigners status) "sCnt" = .ok numSigners :=
    Safe.parseDecimal_decimal numSigners hm
  simp only [handleMessage, hcid, hmid, hstat, htime, hcount, ne_eq, not_true_eq_false, if_false, bind, Except.bind,
    if_neg (Nat.not_lt.mpr htimely), if_neg (Nat.not_lt.mpr hsigners), BpStatus.ofString_toString]

/-- A ping with a number out of range throws. -/
theorem bounds_of_ping (htimely : Timely time now)
    (h : s.handleMessage env now .ping (pingMessage env id time numSigners status) = .ok s') :
    time < 2 ^ 63 ∧ numSigners < 2 ^ 63 := by
  have hcid : Safe.getStringOf (pingMessage env id time numSigners status) "cID" =
      env.base64.encode env.myChainId := rfl
  simp only [handleMessage, hcid, ne_eq, not_true_eq_false, if_false] at h
  obtain ⟨t, ht, h⟩ := bind_eq_ok.mp h
  have htime := parseDecimal_bound ht
  obtain rfl : time = t := Except.ok.inj ((Safe.parseDecimal_decimal time htime).symm.trans ht)
  rw [if_neg (Nat.not_lt.mpr htimely)] at h
  obtain ⟨m, hm, _⟩ := bind_eq_ok.mp h
  exact ⟨htime, parseDecimal_bound hm⟩

end Ping

/-- The roles after the `k`-th slot. -/
def role (k : Nat) (i : Fin n) : BpStatus :=
  if i.val = k % n then .primary else if i.val = (k + 1) % n then .secondary else .idle

/-- What is announced in the `k`-th slot. -/
def announced : Nat → Fin n → BpStatus
  | 0, _ => .idle
  | k + 1, i => role k i

theorem ready_announced (k : Nat) (i : Fin n) : (announced k i).Ready := by
  cases k with
  | zero => exact .inl rfl
  | succ k =>
    by_cases hp : i.val = k % n
    · rw [announced, role, if_pos hp]
      exact .inr (.inl rfl)
    · by_cases hs : i.val = (k + 1) % n
      · rw [announced, role, if_neg hp, if_pos hs]
        exact .inr (.inr rfl)
      · rw [announced, role, if_neg hp, if_neg hs]
        exact .inl rfl

/-- The table with these entries. -/
def tableOf (ids : Fin n → Bytes) (entry : Fin n → Nat × BpStatus) : List BpRecvStatusInfo :=
  List.ofFn fun j => (ids j, entry j)

section Table

variable {ids : Fin n → Bytes} {entry : Fin n → Nat × BpStatus}

theorem mem_tableOf {e : BpRecvStatusInfo} : e ∈ tableOf ids entry ↔ ∃ j, (ids j, entry j) = e := List.mem_ofFn

theorem sorted_tableOf (hids : StrictMono ids) (entry : Fin n → Nat × BpStatus) : Sorted (tableOf ids entry) := by
  rw [Sorted, tableOf, List.pairwise_ofFn]
  exact fun i j hij => hids hij

theorem upsert_tableOf (hids : StrictMono ids) (j : Fin n) (v : Nat × BpStatus) :
    upsert (tableOf ids entry) (ids j) v = tableOf ids (Function.update entry j v) := by
  refine (sorted_upsert (sorted_tableOf hids entry) _ _).eq_of_mem (sorted_tableOf hids _) fun e => ?_
  rw [mem_upsert (sorted_tableOf hids entry), mem_tableOf, mem_tableOf]
  constructor
  · rintro (rfl | ⟨hne, i, rfl⟩)
    · exact ⟨j, by simp⟩
    · exact ⟨i, by rw [Function.update_of_ne fun hij => hne (by rw [hij])]⟩
  · rintro ⟨i, rfl⟩
    by_cases hij : i = j
    · exact .inl (by rw [hij, Function.update_self])
    · exact .inr ⟨fun h => hij (hids.injective h), i, by rw [Function.update_of_ne hij]⟩

end Table

/-- Merger `i` during the `k`-th slot, having handled the announcements in `seen`. -/
structure Within (ids : Fin n → Bytes) (first k : Nat) (i : Fin n) (seen : Fin n → Bool) (s : BpScheduler) :
    Prop where
  mid : s.myMid = ids i
  table : ∃ entry, s.recvStatus = tableOf ids entry ∧ ∀ j, seen j = true → entry j = (first + k, announced k j)
  waits : seen i = false → s.isLock = true ∧ s.currentStatus = announced k i
  opened : seen i = true → Open (first + k) (announced k i) s

section Within

variable {ids : Fin n → Bytes} {first k : Nat} {i : Fin n} {seen : Fin n → Bool} {s s' : BpScheduler}

theorem Within.pingStatus (h : Within ids first k i seen s) (hseen : seen i = false) {numSigners : Nat}
    (hsigners : minSignatureCollectSize ≤ numSigners) : s.pingStatus numSigners = announced k i := by
  have hready := ready_announced k i
  rw [BpScheduler.pingStatus, (h.waits hseen).2]
  have hne : announced k i ≠ .errorOnSigners := by
    intro heq
    rw [heq] at hready
    exact absurd hready (by decide)
  simp [Nat.not_lt.mpr hsigners, hne]

/-- The table after an announcement that was made in the slot. -/
theorem Within.table_update (h : Within ids first k i seen s) (hids : StrictMono ids) (j : Fin n) :
    ∃ entry, upsert s.recvStatus (ids j) (first + k, announced k j) = tableOf ids entry ∧
      ∀ l, Function.update seen j true l = true → entry l = (first + k, announced k l) := by
  obtain ⟨entry, htable, hentry⟩ := h.table
  refine ⟨Function.update entry j (first + k, announced k j), by rw [htable, upsert_tableOf hids], fun l hl => ?_⟩
  by_cases hlj : l = j
  · rw [hlj, Function.update_self]
  · rw [Function.update_of_ne hlj] at hl ⊢
    exact hentry l hl

theorem Within.sorted (h : Within ids first k i seen s) (hids : StrictMono ids) : Sorted s.recvStatus := by
  obtain ⟨entry, htable, _⟩ := h.table
  rw [htable]
  exact sorted_tableOf hids entry

theorem Within.send (h : Within ids first k i seen s) (hids : StrictMono ids) (hseen : seen i = false)
    {now numSigners : Nat} (hslot : now / bpInterval = first + k) (hsigners : minSignatureCollectSize ≤ numSigners)
    {msg : Json} (hs : s.sendPingMessage env now numSigners = .ok (msg, s')) :
    Within ids first k i (Function.update seen i true) s' ∧
      msg = pingMessage env (ids i) now numSigners (announced k i) := by
  have hstatus := h.pingStatus hseen hsigners
  obtain ⟨htable, hmid⟩ := sendPing_frame hs
  obtain ⟨s₁, hs₁, hopen⟩ := open_sendPing (h.sorted hids) hslot (hstatus ▸ ready_announced k i)
  rw [hs] at hs₁
  cases hs₁
  rw [hstatus] at hopen htable
  rw [h.mid, hslot] at htable
  refine ⟨⟨hmid.trans h.mid, by rw [htable]; exact h.table_update hids i, ?_, fun _ => hopen⟩, by
    rw [hstatus, h.mid]⟩
  rw [Function.update_self]
  simp

theorem Within.receive (h : Within ids first k i seen s) (hids : StrictMono ids) {j : Fin n} (hseen : seen j = false)
    (hij : seen i = false → j ≠ i) {now : Nat} (hslot : now / bpInterval = first + k)
    (hs : s.updateRecvStatus now (ids j) (first + k) (announced k j) = .ok s') :
    Within ids first k i (Function.update seen j true) s' := by
  obtain ⟨htable, hmid, hlock⟩ := reschedule_frame hs
  have hne : j ≠ i := by
    rintro rfl
    exact hij hseen rfl
  refine ⟨hmid.trans h.mid, by rw [htable]; exact h.table_update hids j, fun hi => ?_, fun hi => ?_⟩
  · rw [Function.update_of_ne hne.symm] at hi
    obtain ⟨hl, hstat⟩ := h.waits hi
    rw [update_locked hl] at hs
    cases hs
    exact ⟨hl, hstat⟩
  · rw [Function.update_of_ne hne.symm] at hi
    obtain ⟨s₁, hs₁, hopen⟩ := (h.opened hi).update hslot (by rw [h.mid]; exact fun he => hne (hids.injective he))
      (announced k j)
    rw [hs] at hs₁
    cases hs₁
    exact hopen

end Within

/-- The table in which everyone has announced in the slot. -/
def fullTable (ids : Fin n → Bytes) (first k : Nat) : List BpRecvStatusInfo :=
  tableOf ids fun j => (first + k, announced k j)

section Full

variable {ids : Fin n → Bytes} {first k : Nat}

theorem possibleMergers_fullTable (ids : Fin n → Bytes) (first k : Nat) :
    possibleMergers (first + k) (fullTable ids first k) = List.ofFn fun j => (ids j, announced k j) := by
  rw [possibleMergers, fullTable, tableOf, List.ofFn_eq_map, List.filterMap_map, List.ofFn_eq_map,
    ← List.filterMap_eq_map]
  congr 1
  funext j
  simp [ready_announced]

theorem mod_succ_ne (hn : 2 ≤ n) (k : Nat) : (k + 1) % n ≠ k % n := by
  intro h
  have hlt := Nat.mod_lt k (show 0 < n by omega)
  rw [Nat.add_mod, Nat.mod_eq_of_lt (show 1 < n by omega)] at h
  by_cases hlast : k % n + 1 = n
  · rw [hlast, Nat.mod_self] at h
    omega
  · rw [Nat.mod_eq_of_lt (by omega)] at h
    omega

/-- After the first slot someone announces to be primary and exactly one to be secondary. -/
theorem announced_secondary (hn : 2 ≤ n) {k : Nat} {i : Fin n} :
    announced (k + 1) i = .secondary ↔ i.val = (k + 1) % n := by
  have hne := mod_succ_ne hn k
  rw [announced, role]
  constructor
  · intro h
    split at h
    · cases h
    · split at h
      · assumption
      · cases h
  · intro h
    rw [if_neg (by omega), if_pos h]

theorem findPrimary_fullTable (hn : 2 ≤ n) (ids : Fin n → Bytes) (k : Nat) :
    findPrimary (List.ofFn fun j => (ids j, announced (k + 1) j)) = some ((k + 1) % n) := by
  have hlt := Nat.mod_lt (k + 1) (show 0 < n by omega)
  have hsecond : (List.ofFn fun j => (ids j, announced (k + 1) j)).findIdx? (fun m => m.2 = BpStatus.secondary) =
      some ((k + 1) % n) := by
    rw [List.findIdx?_eq_some_iff_getElem]
    refine ⟨by simpa using hlt, ?_, fun j hj => ?_⟩
    · simp [announced_secondary hn]
    · have hjn : j < n := by omega
      simp only [List.getElem_ofFn, announced_secondary hn, decide_eq_true_eq]
      omega
  rw [findPrimary, hsecond, Option.some_or]

theorem myPosition_fullTable (hids : StrictMono ids) (i : Fin n) :
    myPosition (first + k) (ids i) (fullTable ids first k) = i.val := by
  have hmem : (ids i, first + k, announced k i) ∈ fullTable ids first k := mem_tableOf.mpr ⟨i, rfl⟩
  have hsorted : Sorted (fullTable ids first k) := sorted_tableOf hids _
  have h := myPosition_eq hsorted.nodup hmem (ready_announced k i)
  rw [possibleMergers_fullTable, List.getElem?_ofFn] at h
  split at h
  · exact congrArg Fin.val (hids.injective (Prod.mk.inj (Option.some.inj h)).1)
  · cases h

theorem name_fullTable (ids : Fin n → Bytes) (first k : Nat) (j : Fin n) :
    ((possibleMergers (first + k) (fullTable ids first k)).map Prod.fst).getD j.val [] = ids j := by
  simp [possibleMergers_fullTable, List.getD_eq_getElem?_getD]

theorem allIdle_fullTable (ids : Fin n → Bytes) (first : Nat) : isAllIdle (fullTable ids first 0) = true := by
  rw [isAllIdle, List.all_eq_true]
  intro e he
  obtain ⟨j, rfl⟩ := mem_tableOf.mp he
  rfl

theorem not_allIdle_fullTable (hn : 2 ≤ n) (ids : Fin n → Bytes) (first k : Nat) :
    isAllIdle (fullTable ids first (k + 1)) = false := by
  rw [isAllIdle, List.all_eq_false]
  have hlt := Nat.mod_lt (k + 1) (show 0 < n by omega)
  refine ⟨_, mem_tableOf.mpr ⟨⟨(k + 1) % n, hlt⟩, rfl⟩, ?_⟩
  rw [(announced_secondary hn).mpr rfl]
  simp

/-- A complete table gives everyone the role that goes with its position. -/
theorem roleAt_fullTable (hn : 2 ≤ n) (i : Fin n) : roleAt (first + k) (fullTable ids first k) i.val = role k i := by
  cases k with
  | zero =>
    have hone : (0 + 1) % n = 1 := Nat.mod_eq_of_lt (by omega)
    rw [roleAt, if_pos (allIdle_fullTable ids first), role, Nat.zero_mod, hone]
  | succ k =>
    have hpossible := possibleMergers_fullTable ids first (k + 1)
    have hne := mod_succ_ne hn (k + 1)
    have hfind := findPrimary_fullTable hn ids k
    have hlen : i.val < (List.ofFn fun j => (ids j, announced (k + 1) j)).length := by simp
    rw [roleAt, not_allIdle_fullTable hn, hpossible, if_neg (by simp), List.getD_eq_getElem?_getD, roles_getElem? hlen,
      Option.getD_some, secondaryPosition, primaryPosition, hfind, Option.getD_some, List.length_ofFn, Nat.mod_add_mod,
      role]
    by_cases hp : i.val = (k + 1) % n
    · rw [if_neg (by omega), if_pos (by rw [hp]), if_pos hp]
    · have hp' : some ((k + 1) % n) ≠ some i.val := fun h => hp (Option.some.inj h).symm
      rw [if_neg hp', if_neg hp]

theorem producersAt_fullTable (hn : 2 ≤ n) : producersAt (first + k) (fullTable ids first k) =
    [ids ⟨k % n, Nat.mod_lt _ (by omega)⟩, ids ⟨(k + 1) % n, Nat.mod_lt _ (by omega)⟩] := by
  have hpositions : (if isAllIdle (fullTable ids first k) then [0, 1]
      else [primaryPosition (possibleMergers (first + k) (fullTable ids first k)),
        secondaryPosition (possibleMergers (first + k) (fullTable ids first k))]) = [k % n, (k + 1) % n] := by
    cases k with
    | zero =>
      have hone : (0 + 1) % n = 1 := Nat.mod_eq_of_lt (by omega)
      rw [if_pos (allIdle_fullTable ids first), Nat.zero_mod, hone]
    | succ k =>
      rw [not_allIdle_fullTable hn, if_neg (by simp), possibleMergers_fullTable, secondaryPosition, primaryPosition,
        findPrimary_fullTable hn, Option.getD_some, List.length_ofFn, Nat.mod_add_mod]
  rw [producersAt]
  simp only [hpositions]
  rw [List.map_cons, List.map_cons, List.map_nil, name_fullTable ids first k ⟨k % n, Nat.mod_lt _ (by omega)⟩,
    name_fullTable ids first k ⟨(k + 1) % n, Nat.mod_lt _ (by omega)⟩]

end Full

/-- Who has handled all announcements has the role of its position. -/
theorem Within.complete {ids : Fin n → Bytes} {first k : Nat} {i : Fin n} {seen : Fin n → Bool} {s : BpScheduler}
    (h : Within ids first k i seen s) (hn : 2 ≤ n) (hids : StrictMono ids) (hall : ∀ j, seen j = true) :
    s.currentStatus = role k i ∧ s.blockProducers =
      [ids ⟨k % n, Nat.mod_lt _ (by omega)⟩, ids ⟨(k + 1) % n, Nat.mod_lt _ (by omega)⟩] := by
  obtain ⟨entry, htable, hentry⟩ := h.table
  have hfull : s.recvStatus = fullTable ids first k := by
    rw [htable, fullTable, funext fun j => hentry j (hall j)]
  have htwo : 2 ≤ (possibleMergers (first + k) s.recvStatus).length := by
    rw [hfull, possibleMergers_fullTable, List.length_ofFn]
    exact hn
  obtain ⟨hrole, hproducers⟩ := (h.opened (hall i)).decided htwo
  rw [hfull, h.mid, myPosition_fullTable hids, roleAt_fullTable hn] at hrole
  rw [hfull, producersAt_fullTable hn] at hproducers
  exact ⟨hrole, hproducers⟩

/-- All mergers during the `k`-th slot, and the announcements on their way. -/
structure DuringSlot (env : Env) (ids : Fin n → Bytes) (first k : Nat) (net : MergerNet n) : Prop where
  within : ∀ i, Within ids first k i (net.seen i) (net.mergers i)
  unsent : ∀ i, net.sent i = none → net.seen i i = false
  message : ∀ j time msg, net.sent j = some (time, msg) → time / bpInterval = first + k ∧ net.seen j j = true ∧
    ∃ numSigners, minSignatureCollectSize ≤ numSigners ∧ msg = pingMessage env (ids j) time numSigners (announced k j)

theorem seen_handle (net : MergerNet n) (i j : Fin n) (s : BpScheduler) (a b : Fin n) :
    (net.handle i j s).seen a b = if a = i ∧ b = j then true else net.seen a b := by
  by_cases ha : a = i
  · by_cases hb : b = j
    · simp [handle, ha, hb]
    · simp [handle, ha, hb]
  · simp [handle, ha]

section Steps

variable {ids : Fin n → Bytes} {first k : Nat} {net : MergerNet n}

/-- Handling an announcement concerns one merger. -/
theorem within_handle (h : ∀ l, Within ids first k l (net.seen l) (net.mergers l)) {i j : Fin n} {s : BpScheduler}
    (hi : Within ids first k i (Function.update (net.seen i) j true) s) (l : Fin n) :
    Within ids first k l ((net.handle i j s).seen l) ((net.handle i j s).mergers l) := by
  by_cases hli : l = i
  · subst hli
    simpa [handle] using hi
  · simpa [handle, Function.update_of_ne hli] using h l

theorem seen_handle_of_seen (i j : Fin n) (s : BpScheduler) {a b : Fin n} (h : net.seen a b = true) :
    (net.handle i j s).seen a b = true := by
  rw [seen_handle]
  split
  · rfl
  · exact h

theorem Start.duringSlot (h : net.Start ids) : net.DuringSlot env ids first 0 := by
  refine ⟨fun i => ⟨h.mid i, ?_, fun _ => ⟨h.lock i, h.idle i⟩, fun hseen => ?_⟩, fun i _ => h.seen i i, ?_⟩
  · obtain ⟨slots, hslots⟩ := h.table i
    exact ⟨fun j => (slots j, .idle), hslots, fun j hj => by simp [h.seen i j] at hj⟩
  · simp [h.seen i i] at hseen
  · intro j time msg hsent
    simp [h.sent j] at hsent

theorem DuringSlot.send (h : net.DuringSlot env ids first k) (hids : StrictMono ids) {now numSigners : Nat} {i : Fin n}
    {msg : Json} {s : BpScheduler} (hnew : net.sent i = none) (hslot : now / bpInterval = first + k)
    (hsigners : minSignatureCollectSize ≤ numSigners)
    (hs : (net.mergers i).sendPingMessage env now numSigners = .ok (msg, s)) :
    DuringSlot env ids first k { net.handle i i s with sent := Function.update net.sent i (some (now, msg)) } := by
  obtain ⟨hwithin, hmsg⟩ := (h.within i).send hids (h.unsent i hnew) hslot hsigners hs
  refine ⟨within_handle h.within hwithin, fun l hl => ?_, fun j time msg' hsent => ?_⟩
  · by_cases hli : l = i
    · simp [hli] at hl
    · simp only [Function.update_of_ne hli] at hl
      simpa [seen_handle, hli] using h.unsent l hl
  · by_cases hji : j = i
    · subst hji
      simp only [Function.update_self, Option.some.injEq, Prod.mk.injEq] at hsent
      obtain ⟨rfl, rfl⟩ := hsent
      exact ⟨hslot, by simp [seen_handle], numSigners, hsigners, hmsg⟩
    · simp only [Function.update_of_ne hji] at hsent
      obtain ⟨htime, hseen, hform⟩ := h.message j time msg' hsent
      exact ⟨htime, seen_handle_of_seen i i s hseen, hform⟩

theorem DuringSlot.receive (h : net.DuringSlot env ids first k) (hids : StrictMono ids) {now time : Nat} {i j : Fin n}
    {msg : Json} {s : BpScheduler} (hsent : net.sent j = some (time, msg)) (hnew : net.seen i j = false)
    (hslot : now / bpInterval = first + k) (htimely : Timely time now)
    (hs : (net.mergers i).handleMessage env now .ping msg = .ok s) : DuringSlot env ids first k (net.handle i j s) := by
  obtain ⟨htime, hseen, numSigners, hsigners, rfl⟩ := h.message j time msg hsent
  obtain ⟨ht, hm⟩ := bounds_of_ping htimely hs
  rw [handleMessage_ping ht hm hsigners htimely, htime] at hs
  have hne : j ≠ i := by
    rintro rfl
    rw [hnew] at hseen
    cases hseen
  have hwithin := (h.within i).receive hids hnew (fun _ => hne) hslot hs
  refine ⟨within_handle h.within hwithin, fun l hl => ?_, fun l time msg hl => ?_⟩
  · have hcell : ¬ (l = i ∧ l = j) := fun ⟨hli, hlj⟩ => hne (hlj.symm.trans hli)
    rw [seen_handle, if_neg hcell]
    exact h.unsent l hl
  · obtain ⟨ht, hs', hform⟩ := h.message l time msg hl
    exact ⟨ht, seen_handle_of_seen i j s hs', hform⟩

theorem DuringSlot.turn (h : net.DuringSlot env ids first k) (hn : 2 ≤ n) (hids : StrictMono ids) (hall : net.Complete) :
    DuringSlot env ids first (k + 1) net.turn := by
  refine ⟨fun i => ?_, fun i _ => rfl, fun j time msg hsent => by cases hsent⟩
  have hi := h.within i
  obtain ⟨entry, htable, _⟩ := hi.table
  exact ⟨hi.mid, ⟨entry, htable, fun j hj => by cases hj⟩, fun _ => ⟨rfl, (hi.complete hn hids (hall i)).1⟩,
    fun hseen => by cases hseen⟩

end Steps

theorem Run.duringSlot {ids : Fin n → Bytes} {first k : Nat} {net : MergerNet n} (hn : 2 ≤ n) (hids : StrictMono ids)
    (h : Run env ids first k net) : net.DuringSlot env ids first k := by
  induction h with
  | start h => exact h.duringSlot
  | send _ hnew hslot hsigners hs ih => exact ih.send hids hnew hslot hsigners hs
  | receive _ hsent hnew hslot htimely hs ih => exact ih.receive hids hsent hnew hslot htimely hs
  | turn _ hall ih => exact ih.turn hn hids hall

/-- At the end of the `k`-th slot position `k` is primary and the next one secondary, and
everyone knows it. -/
theorem rotation {ids : Fin n → Bytes} {first k : Nat} {net : MergerNet n} (hn : 2 ≤ n) (hids : StrictMono ids)
    (h : Run env ids first k net) (hall : net.Complete) (i : Fin n) :
    (net.mergers i).blockProducers =
        [ids ⟨k % n, Nat.mod_lt _ (by omega)⟩, ids ⟨(k + 1) % n, Nat.mod_lt _ (by omega)⟩] ∧
      (net.mergers i).currentStatus =
        if i.val = k % n then .primary else if i.val = (k + 1) % n then .secondary else .idle := by
  obtain ⟨hrole, hproducers⟩ := ((h.duringSlot hn hids).within i).complete hn hids (hall i)
  exact ⟨hproducers, hrole⟩

/-- Announcements that nobody has handled yet. -/
def unseen (net : MergerNet n) : Finset (Fin n × Fin n) := {p | net.seen p.1 p.2 = false}

theorem mem_unseen {net : MergerNet n} {p : Fin n × Fin n} : p ∈ net.unseen ↔ net.seen p.1 p.2 = false := by
  simp [unseen]

theorem unseen_handle {net : MergerNet n} {i j : Fin n} (h : net.seen i j = false) (s : BpScheduler) :
    (net.handle i j s).unseen ⊂ net.unseen := by
  refine (Finset.ssubset_iff_of_subset fun p hp => ?_).mpr ⟨(i, j), mem_unseen.mpr h, ?_⟩
  · rw [mem_unseen, seen_handle] at hp
    split at hp
    · cases hp
    · exact mem_unseen.mpr hp
  · rw [mem_unseen, seen_handle]
    simp

/-- The announcements on their way can be read. -/
def Readable (env : Env) (ids : Fin n → Bytes) (k : Nat) (net : MergerNet n) : Prop :=
  ∀ j time msg, net.sent j = some (time, msg) → time < 2 ^ 63 ∧ ∃ numSigners,
    minSignatureCollectSize ≤ numSigners ∧ numSigners < 2 ^ 63 ∧
      msg = pingMessage env (ids j) time numSigners (announced k j)

/-- A merger can handle an announcement of another one. -/
theorem Within.can_receive {ids : Fin n → Bytes} {first k : Nat} {i j : Fin n} {seen : Fin n → Bool} {s : BpScheduler}
    (h : Within ids first k i seen s) (hids : StrictMono ids) (hij : j ≠ i) {now : Nat}
    (hslot : now / bpInterval = first + k) (status : BpStatus) :
    ∃ s', s.updateRecvStatus now (ids j) (first + k) status = .ok s' := by
  cases hseen : seen i with
  | false => exact ⟨_, update_locked (h.waits hseen).1 _ _⟩
  | true =>
    obtain ⟨s', hs, _⟩ := (h.opened hseen).update hslot (by rw [h.mid]; exact fun he => hij (hids.injective he)) status
    exact ⟨s', hs⟩

/-- A slot that has begun can be completed. -/
theorem Run.exists_complete {ids : Fin n → Bytes} {first k : Nat} {net : MergerNet n} (hn : 2 ≤ n)
    (hids : StrictMono ids) (hbound : (first + k + 1) * bpInterval ≤ 2 ^ 63) (h : Run env ids first k net)
    (hread : net.Readable env ids k) : ∃ net', Run env ids first k net' ∧ net'.Complete := by
  -- every step handles one more announcement
  induction hu : net.unseen using Finset.strongInduction generalizing net with
  | H u ih =>
    subst hu
    by_cases hall : net.Complete
    · exact ⟨net, h, hall⟩
    have hnext : ∀ net' : MergerNet n, Run env ids first k net' → net'.unseen ⊂ net.unseen →
        net'.Readable env ids k → ∃ net'', Run env ids first k net'' ∧ net''.Complete :=
      fun net' hrun hlt hr => ih _ hlt hrun hr rfl
    have hslotInv := h.duringSlot hn hids
    obtain ⟨i, j, hij⟩ : ∃ i j, net.seen i j = false := by
      simpa [Complete] using hall
    cases hsent : net.sent j with
    | none =>
      have hseen := hslotInv.unsent j hsent
      have hslot : (first + k) * bpInterval / bpInterval = first + k := Nat.mul_div_cancel _ (by decide)
      have hstatus := (hslotInv.within j).pingStatus hseen (Nat.le_refl minSignatureCollectSize)
      obtain ⟨s, hs, _⟩ := open_sendPing ((hslotInv.within j).sorted hids) hslot
        (hstatus.symm ▸ ready_announced k j)
      have hsend := h.send hsent hslot (Nat.le_refl _) hs
      refine hnext _ hsend (unseen_handle hseen s) fun l time msg hl => ?_
      by_cases hlj : l = j
      · subst hlj
        simp only [Function.update_self, Option.some.injEq, Prod.mk.injEq] at hl
        obtain ⟨rfl, rfl⟩ := hl
        refine ⟨?_, minSignatureCollectSize, Nat.le_refl _, by decide, by rw [hstatus, (hslotInv.within l).mid]⟩
        have : 0 < bpInterval := by decide
        rw [Nat.add_mul] at hbound
        omega
      · simp only [Function.update_of_ne hlj] at hl
        exact hread l time msg hl
    | some ping =>
      obtain ⟨time, msg⟩ := ping
      obtain ⟨htime, hseen, _⟩ := hslotInv.message j time msg hsent
      obtain ⟨ht, numSigners, hsigners, hm, rfl⟩ := hread j time msg hsent
      have hne : j ≠ i := by
        rintro rfl
        rw [hij] at hseen
        cases hseen
      have htimely : Timely time time := by simp [Timely]
      obtain ⟨s, hs⟩ := (hslotInv.within i).can_receive hids hne htime (announced k j)
      have hmsg : (net.mergers i).handleMessage env time .ping
          (pingMessage env (ids j) time numSigners (announced k j)) = .ok s := by
        rw [handleMessage_ping ht hm hsigners htimely, htime, hs]
      exact hnext _ (h.receive hsent hij htime htimely hmsg) (unseen_handle hij s) hread

/-- Everyone idle, as known from an earlier slot. -/
def allIdle (ids : Fin n → Bytes) : MergerNet n where
  mergers i := ⟨ids i, .idle, true, tableOf ids fun _ => (0, .idle), []⟩
  sent _ := none
  seen _ _ := false

theorem start_allIdle (ids : Fin n → Bytes) : (allIdle ids).Start ids :=
  ⟨fun _ => rfl, fun _ => rfl, fun _ => rfl, fun _ => ⟨fun _ => 0, rfl⟩, fun _ => rfl, fun _ _ => rfl⟩

/-- There are runs through as many slots as the clock can count. -/
theorem exists_run {ids : Fin n → Bytes} {first k : Nat} (hn : 2 ≤ n) (hids : StrictMono ids)
    (hbound : (first + k + 1) * bpInterval ≤ 2 ^ 63) : ∃ net, Run env ids first k net ∧ net.Complete := by
  induction k with
  | zero =>
    exact Run.exists_complete hn hids hbound (.start (start_allIdle ids)) fun _ _ _ h => by cases h
  | succ k ih =>
    have hmono : (first + k + 1) * bpInterval ≤ (first + (k + 1) + 1) * bpInterval :=
      Nat.mul_le_mul_right _ (by omega)
    obtain ⟨net, hrun, hall⟩ := ih (by omega)
    exact Run.exists_complete hn hids hbound (.turn hrun hall) fun _ _ _ h => by cases h

def threeIds (i : Fin 3) : Bytes := [UInt8.ofNat (i.val + 1)]

/-- Three mergers in their fifth slot. -/
theorem rotation_three : ∃ net, Run Sample.base threeIds 7 4 net ∧ net.Complete ∧
    ∀ i, (net.mergers i).blockProducers = [[2], [3]] ∧
      (net.mergers i).currentStatus = if i.val = 1 then .primary else if i.val = 2 then .secondary else .idle := by
  have hids : StrictMono threeIds := by
    unfold StrictMono
    decide
  obtain ⟨net, hrun, hall⟩ : ∃ net, Run Sample.base threeIds 7 4 net ∧ net.Complete :=
    exists_run (by decide) hids (by decide)
  exact ⟨net, hrun, hall, fun i => rotation (by decide) hids hrun hall i⟩

end MergerNet
end GruutMerger
