import GruutMerger.BpScheduler

/-!
# The roles that one table gives

The mergers that announced in the slot that they are ready are the available ones.
When all of them decide by one table, there is one primary and one secondary among
them, the two that everyone lists as block producers: unless no available merger
announced a role and an entry that is out of date did. A merger that is not
available itself takes the place of the available one before it in the table for
its own.
-/
namespace GruutMerger
namespace BpScheduler

open ByteText Fallible

/-- The place of the first merger with the status. -/
def FirstWith (status : BpStatus) (mergers : List (Bytes × BpStatus)) (i : Nat) : Prop :=
  mergers[i]?.map Prod.snd = some status ∧ ∀ j < i, mergers[j]?.map Prod.snd ≠ some status

/-- The place of the first that announced to be secondary or, if nobody did, of the
first that announced to be primary. -/
def Foremost (mergers : List (Bytes × BpStatus)) (i : Nat) : Prop :=
  FirstWith .secondary mergers i ∨ (∀ m ∈ mergers, m.2 ≠ .secondary) ∧ FirstWith .primary mergers i

/-- The place after the foremost one, or after the first place if nobody announced a role. -/
def Follows (mergers : List (Bytes × BpStatus)) (i : Nat) : Prop :=
  ∃ j, (Foremost mergers j ∨ j = 0 ∧ ∀ l, ¬ Foremost mergers l) ∧ i = (j + 1) % mergers.length

theorem findIdx?_eq_some_iff {status : BpStatus} {mergers : List (Bytes × BpStatus)} {i : Nat} :
    mergers.findIdx? (fun m => m.2 = status) = some i ↔ FirstWith status mergers i := by
  rw [List.findIdx?_eq_some_iff_getElem, FirstWith]
  constructor
  · rintro ⟨hi, hst, hbefore⟩
    refine ⟨by simpa [hi] using hst, fun j hj => ?_⟩
    simpa [show j < mergers.length by omega] using hbefore j hj
  · rintro ⟨hst, hbefore⟩
    obtain ⟨m, hm, rfl⟩ := Option.map_eq_some_iff.mp hst
    obtain ⟨hi, rfl⟩ := List.getElem?_eq_some_iff.mp hm
    refine ⟨hi, by simp, fun j hj => ?_⟩
    simpa [show j < mergers.length by omega] using hbefore j hj

theorem findPrimary_eq_some_iff {mergers : List (Bytes × BpStatus)} {i : Nat} :
    findPrimary mergers = some i ↔ Foremost mergers i := by
  rw [findPrimary, Option.or_eq_some_iff, findIdx?_eq_some_iff, findIdx?_eq_some_iff, Foremost,
    List.findIdx?_eq_none_iff]
  simp

theorem findPrimary_eq_none_iff {mergers : List (Bytes × BpStatus)} :
    findPrimary mergers = none ↔ ∀ m ∈ mergers, m.2 ≠ .secondary ∧ m.2 ≠ .primary := by
  rw [findPrimary, Option.or_eq_none_iff, List.findIdx?_eq_none_iff, List.findIdx?_eq_none_iff]
  simp only [decide_eq_false_iff_not]
  exact ⟨fun h m hm => ⟨h.1 m hm, h.2 m hm⟩, fun h => ⟨fun m hm => (h m hm).1, fun m hm => (h m hm).2⟩⟩

theorem follows_iff {mergers : List (Bytes × BpStatus)} {i : Nat} :
    Follows mergers i ↔ i = secondaryPosition mergers := by
  unfold Follows secondaryPosition primaryPosition
  cases hp : findPrimary mergers with
  | none =>
    have hnone : ∀ l, ¬ Foremost mergers l := fun l hl => by
      rw [← findPrimary_eq_some_iff, hp] at hl
      cases hl
    simp [hnone]
  | some p =>
    have hsome : ∀ j, Foremost mergers j ↔ j = p := fun j => by
      rw [← findPrimary_eq_some_iff, hp, Option.some.injEq, eq_comm]
    simp [hsome]

section Places

variable {slot : Nat} {table : List BpRecvStatusInfo}

/-- The place of the first block producer. -/
def primaryAt (slot : Nat) (table : List BpRecvStatusInfo) : Nat :=
  if isAllIdle table then 0 else primaryPosition (possibleMergers slot table)

/-- The place of the second block producer. -/
def secondaryAt (slot : Nat) (table : List BpRecvStatusInfo) : Nat :=
  if isAllIdle table then 1 else secondaryPosition (possibleMergers slot table)

/-- Somebody leads: everyone in the table is idle, or an available merger announced a role. -/
def Led (slot : Nat) (table : List BpRecvStatusInfo) : Prop :=
  isAllIdle table = true ∨ ∃ m ∈ possibleMergers slot table, m.2 ≠ .idle

instance : Decidable (Led slot table) := inferInstanceAs (Decidable (_ ∨ _))

theorem findPrimary_isSome_iff :
    (findPrimary (possibleMergers slot table)).isSome ↔ ∃ m ∈ possibleMergers slot table, m.2 ≠ .idle := by
  rw [← not_iff_not, Bool.not_eq_true, Option.isSome_eq_false_iff, Option.isNone_iff_eq_none,
    findPrimary_eq_none_iff]
  push Not
  refine forall₂_congr fun m hm => ?_
  have hready := (mem_possibleMergers.mp hm).2
  constructor
  · rintro ⟨hsec, hpri⟩
    exact hready.resolve_right fun h => h.elim hpri hsec
  · intro hidle
    simp [hidle]

theorem primaryAt_lt (hpos : 0 < (possibleMergers slot table).length) :
    primaryAt slot table < (possibleMergers slot table).length := by
  unfold primaryAt
  split
  · exact hpos
  · exact primaryPosition_lt hpos

theorem secondaryAt_lt (htwo : 2 ≤ (possibleMergers slot table).length) :
    secondaryAt slot table < (possibleMergers slot table).length := by
  unfold secondaryAt
  split
  · exact htwo
  · exact secondaryPosition_lt (by omega)

theorem primaryAt_ne_secondaryAt (htwo : 2 ≤ (possibleMergers slot table).length) :
    primaryAt slot table ≠ secondaryAt slot table := by
  unfold primaryAt secondaryAt
  split
  · decide
  · have hlt := primaryPosition_lt (show 0 < (possibleMergers slot table).length by omega)
    rw [secondaryPosition]
    rcases Nat.lt_or_ge (primaryPosition (possibleMergers slot table) + 1) (possibleMergers slot table).length
      with hnext | hlast
    · rw [Nat.mod_eq_of_lt hnext]
      omega
    · rw [Nat.le_antisymm hlast hlt, Nat.mod_self]
      omega

/-- The role of a place, outside the case that everyone is idle. -/
theorem roleAt_of_not_idle (hidle : isAllIdle table = false) {i : Nat} (hi : i < (possibleMergers slot table).length) :
    roleAt slot table i = if i = secondaryPosition (possibleMergers slot table) then .secondary
      else if findPrimary (possibleMergers slot table) = some i then .primary else .idle := by
  rw [roleAt, hidle, if_neg (by simp), List.getD_eq_getElem?_getD, roles_getElem? hi, Option.getD_some]

theorem roleAt_eq_secondary_iff {i : Nat} (hi : i < (possibleMergers slot table).length) :
    roleAt slot table i = .secondary ↔ i = secondaryAt slot table := by
  cases hidle : isAllIdle table with
  | true =>
    simp only [roleAt, secondaryAt, hidle, if_true]
    split
    · simp_all
    · split <;> simp_all
  | false =>
    rw [roleAt_of_not_idle hidle hi, secondaryAt, hidle, if_neg Bool.false_ne_true]
    by_cases hs : i = secondaryPosition (possibleMergers slot table)
    · simp [hs]
    · rw [if_neg hs]
      split <;> simp [hs]

theorem roleAt_eq_primary_iff (htwo : 2 ≤ (possibleMergers slot table).length) {i : Nat}
    (hi : i < (possibleMergers slot table).length) :
    roleAt slot table i = .primary ↔ i = primaryAt slot table ∧ Led slot table := by
  cases hidle : isAllIdle table with
  | true =>
    simp only [roleAt, primaryAt, Led, hidle, if_true]
    split
    · simp_all
    · split <;> simp_all
  | false =>
    have hne := primaryAt_ne_secondaryAt htwo
    rw [roleAt_of_not_idle hidle hi]
    simp only [primaryAt, secondaryAt, Led, hidle, Bool.false_eq_true, if_false, false_or, ← findPrimary_isSome_iff]
      at hne ⊢
    rw [primaryPosition] at hne ⊢
    cases hp : findPrimary (possibleMergers slot table) with
    | none =>
      simp only [reduceCtorEq, if_false, Option.isSome_none, Bool.false_eq_true, and_false, iff_false]
      split <;> simp
    | some p =>
      rw [hp, Option.getD_some] at hne
      by_cases hs : i = secondaryPosition (possibleMergers slot table)
      · simp [hs, Ne.symm hne]
      · simp only [hs, if_false, Option.some.injEq, Option.getD_some, Option.isSome_some, and_true]
        by_cases hpi : p = i
        · simp [hpi]
        · simp [hpi, Ne.symm hpi]

theorem producersAt_eq {first second : Bytes}
    (hfirst : ((possibleMergers slot table).map Prod.fst)[primaryAt slot table]? = some first)
    (hsecond : ((possibleMergers slot table).map Prod.fst)[secondaryAt slot table]? = some second) :
    producersAt slot table = [first, second] := by
  unfold producersAt
  unfold primaryAt at hfirst
  unfold secondaryAt at hsecond
  split at hfirst <;> rename_i hidle <;> simp only [hidle, if_true, if_false, Bool.false_eq_true] at hsecond <;>
    simp only [hidle, if_true, if_false, Bool.false_eq_true, List.map_cons, List.map_nil, List.getD_eq_getElem?_getD,
      hfirst, hsecond, Option.getD_some]

/-- The ids of the available mergers. -/
def available (slot : Nat) (table : List BpRecvStatusInfo) : List Bytes := (possibleMergers slot table).map Prod.fst

@[simp] theorem length_available : (available slot table).length = (possibleMergers slot table).length :=
  List.length_map _

theorem nodup_available (hkeys : (table.map Prod.fst).Nodup) : (available slot table).Nodup := by
  have hsub : (available slot table).Sublist (table.map Prod.fst) := by
    induction table with
    | nil => exact .slnil
    | cons item table ih =>
      rw [List.map_cons, List.nodup_cons] at hkeys
      rw [available, possibleMergers, List.filterMap_cons]
      split
      · exact (ih hkeys.2).cons _
      · rename_i heq
        obtain ⟨_, heq⟩ := Option.ite_none_right_eq_some.mp heq
        cases heq
        exact (ih hkeys.2).cons_cons _
  exact hkeys.sublist hsub

theorem exists_available_at {i : Nat} (hi : i < (possibleMergers slot table).length) :
    ∃ id ∈ available slot table, (available slot table)[i]? = some id :=
  ⟨_, List.getElem_mem (by simpa using hi), List.getElem?_eq_getElem _⟩

theorem lt_of_available_at {i : Nat} {id : Bytes} (hi : (available slot table)[i]? = some id) :
    i < (possibleMergers slot table).length := by
  simpa using (List.getElem?_eq_some_iff.mp hi).1

/-- An id stands at one place only. -/
theorem place_eq_iff (hkeys : (table.map Prod.fst).Nodup) {i j : Nat} {id id' : Bytes}
    (hi : (available slot table)[i]? = some id) (hj : (available slot table)[j]? = some id') : i = j ↔ id = id' := by
  constructor
  · rintro rfl
    exact Option.some.inj (hi.symm.trans hj)
  · rintro rfl
    exact (List.getElem?_inj (List.getElem?_eq_some_iff.mp hi).1 (nodup_available hkeys)).mp (hi.trans hj.symm)

end Places

section OnePrimary

variable {now : Nat} {table : List BpRecvStatusInfo}

/-- Two of the available mergers have the roles: everyone available that decides by the
table lists them as block producers, the first of them and no other becomes primary,
and the second of them and no other becomes secondary. -/
def OnePrimary (now : Nat) (table : List BpRecvStatusInfo) : Prop :=
  ∃ first ∈ available (now / bpInterval) table, ∃ second ∈ available (now / bpInterval) table, first ≠ second ∧
    ∀ s : BpScheduler, s.recvStatus = table → s.isLock = false → s.currentStatus ≠ .errorOnSigners →
      s.myMid ∈ available (now / bpInterval) table →
      ∃ s', reschedule now s = .ok s' ∧ s'.blockProducers = [first, second] ∧
        (s'.currentStatus = .primary ↔ s.myMid = first) ∧ (s'.currentStatus = .secondary ↔ s.myMid = second)

/-- An available merger takes the role of its place. -/
theorem reschedule_available {s : BpScheduler} (hkeys : (s.recvStatus.map Prod.fst).Nodup) (hlock : s.isLock = false)
    (hstat : s.currentStatus ≠ .errorOnSigners) (hmem : s.myMid ∈ available (now / bpInterval) s.recvStatus)
    (htwo : 2 ≤ (possibleMergers (now / bpInterval) s.recvStatus).length) :
    ∃ i, (available (now / bpInterval) s.recvStatus)[i]? = some s.myMid ∧
      reschedule now s = .ok { s with
        currentStatus := roleAt (now / bpInterval) s.recvStatus i
        blockProducers := producersAt (now / bpInterval) s.recvStatus } := by
  obtain ⟨m, hm, hid⟩ := List.mem_map.mp hmem
  obtain ⟨hmine, hready⟩ := mem_possibleMergers.mp hm
  rw [hid] at hmine
  have hpos := myPosition_eq hkeys hmine hready
  refine ⟨_, ?_, reschedule_eq hkeys hlock hstat rfl hmine hready.ne_inBootWait htwo
    (.inr (List.getElem?_eq_some_iff.mp hpos).1)⟩
  rw [available, List.getElem?_map, hpos, Option.map_some]

/-- The one listed first has to be primary. -/
theorem OnePrimary.led (h : OnePrimary now table) (hkeys : (table.map Prod.fst).Nodup)
    (htwo : 2 ≤ (possibleMergers (now / bpInterval) table).length) : Led (now / bpInterval) table := by
  obtain ⟨first', _, second', _, _, hall⟩ := h
  obtain ⟨first, hfmem, hfirst⟩ := exists_available_at (primaryAt_lt
    (show 0 < (possibleMergers (now / bpInterval) table).length by omega))
  obtain ⟨second, _, hsecond⟩ := exists_available_at (secondaryAt_lt htwo)
  let s : BpScheduler := ⟨first, .idle, false, table, []⟩
  obtain ⟨s', hs', hlist, hprimary, _⟩ := hall s rfl rfl (by simp [s]) hfmem
  obtain ⟨i, hi, hs⟩ := reschedule_available (s := s) hkeys rfl (by simp [s]) hfmem htwo
  rw [hs] at hs'
  cases hs'
  simp only [s] at hi hlist hprimary
  rw [producersAt_eq hfirst hsecond] at hlist
  exact ((roleAt_eq_primary_iff htwo (lt_of_available_at hi)).mp (hprimary.mpr (List.cons.inj hlist).1)).2

theorem Led.onePrimary (hled : Led (now / bpInterval) table) (hkeys : (table.map Prod.fst).Nodup)
    (htwo : 2 ≤ (possibleMergers (now / bpInterval) table).length) : OnePrimary now table := by
  obtain ⟨first, hfmem, hfirst⟩ := exists_available_at (primaryAt_lt
    (show 0 < (possibleMergers (now / bpInterval) table).length by omega))
  obtain ⟨second, hsmem, hsecond⟩ := exists_available_at (secondaryAt_lt htwo)
  refine ⟨first, hfmem, second, hsmem,
    fun heq => primaryAt_ne_secondaryAt htwo ((place_eq_iff hkeys hfirst hsecond).mpr heq), ?_⟩
  rintro s rfl hlock hstat hmem
  obtain ⟨i, hi, hs⟩ := reschedule_available hkeys hlock hstat hmem htwo
  have hilt := lt_of_available_at hi
  refine ⟨_, hs, producersAt_eq hfirst hsecond, ?_, ?_⟩
  · rw [roleAt_eq_primary_iff htwo hilt, place_eq_iff hkeys hi hfirst]
    exact and_iff_left hled
  · rw [roleAt_eq_secondary_iff hilt, place_eq_iff hkeys hi hsecond]

/-- With two available mergers or more there is one primary and one secondary among them
exactly when somebody leads. Entries out of date count in the question whether everyone
is idle and give nobody a role. -/
theorem one_primary_iff_led (hkeys : (table.map Prod.fst).Nodup)
    (htwo : 2 ≤ (possibleMergers (now / bpInterval) table).length) :
    OnePrimary now table ↔ Led (now / bpInterval) table :=
  ⟨fun h => h.led hkeys htwo, fun h => h.onePrimary hkeys htwo⟩

/-- Two idle mergers and the primary, all in slot 7. -/
def primaryStays : List BpRecvStatusInfo := [([1], 7, .idle), ([2], 7, .idle), ([3], 7, .primary)]

theorem one_primary_iff_led_primaryStays :
    2 ≤ (possibleMergers (70 / bpInterval) primaryStays).length ∧ OnePrimary 70 primaryStays :=
  ⟨by decide, (one_primary_iff_led (by decide) (by decide)).mpr (by decide)⟩

/-- Two mergers are idle in slot 7, and the primary has not been heard since slot 6. -/
def primaryLeft : List BpRecvStatusInfo := [([1], 7, .idle), ([2], 7, .idle), ([3], 6, .primary)]

/-- Neither of the two becomes primary. -/
theorem no_primary_primaryLeft :
    (primaryLeft.map Prod.fst).Nodup ∧ 2 ≤ (possibleMergers (70 / bpInterval) primaryLeft).length ∧
      ¬ OnePrimary 70 primaryLeft := by
  have hkeys : (primaryLeft.map Prod.fst).Nodup := by decide
  have htwo : 2 ≤ (possibleMergers (70 / bpInterval) primaryLeft).length := by decide
  exact ⟨hkeys, htwo, fun h => absurd (h.led hkeys htwo) (by decide)⟩

end OnePrimary

section OwnRole

variable {now slot sl : Nat} {s : BpScheduler} {st : BpStatus}

/-- Whatever the status was before, it is this one after. -/
def Sets (now : Nat) (s : BpScheduler) (role : BpStatus) : Prop :=
  ∀ prev ≠ .errorOnSigners, ∃ s', reschedule now { s with currentStatus := prev } = .ok s' ∧ s'.currentStatus = role

/-- The merger is among the available ones and has the role there: the only one is primary. -/
def HoldsRole (slot : Nat) (s : BpScheduler) (role : BpStatus) : Prop :=
  ∃ i, (available slot s.recvStatus)[i]? = some s.myMid ∧
    (if (available slot s.recvStatus).length = 1 then .primary else roleAt slot s.recvStatus i) = role

/-- The access to the list of possible mergers is in range, and the merger becomes primary
or secondary only if it holds that role. -/
def TakesOwnRole (now : Nat) (s : BpScheduler) : Prop :=
  (∃ s', reschedule now s = .ok s') ∧
    ∀ role, role = .primary ∨ role = .secondary → Sets now s role → HoldsRole (now / bpInterval) s role

/-- The number of available mergers before the own entry. -/
def numBefore (slot : Nat) (my : Bytes) (table : List BpRecvStatusInfo) : Nat :=
  (possibleMergers slot (table.takeWhile fun item => item.1 ≠ my)).length

/-- The merger is not mistaken for the available one before it: it is available itself, or
nobody is, or at least two are and the one before it has no role to be taken. -/
def Unmistaken (slot : Nat) (my : Bytes) (sl : Nat) (st : BpStatus) (table : List BpRecvStatusInfo) : Prop :=
  let mergers := possibleMergers slot table
  let before := numBefore slot my table
  (sl = slot ∧ st.Ready) ∨ mergers.length = 0 ∨
    2 ≤ mergers.length ∧
      if isAllIdle table then before = 0 ∨ 3 ≤ before
      else 1 ≤ before ∧ ¬ Foremost mergers (before - 1) ∧ ¬ Follows mergers (before - 1)

theorem Sets.unique {role role' : BpStatus} (h : Sets now s role) (h' : Sets now s role') : role = role' := by
  obtain ⟨s₁, hs, rfl⟩ := h .idle (by simp)
  obtain ⟨s₂, hs', rfl⟩ := h' .idle (by simp)
  rw [hs] at hs'
  cases hs'
  rfl

/-- When a status is set, only that one is in question. -/
theorem Sets.takesOwnRole_iff {role : BpStatus} (h : Sets now s role) (hstat : s.currentStatus ≠ .errorOnSigners) :
    TakesOwnRole now s ↔ (role = .primary ∨ role = .secondary → HoldsRole (now / bpInterval) s role) := by
  obtain ⟨s', hs, _⟩ := h s.currentStatus hstat
  constructor
  · exact fun hown hrole => hown.2 role hrole h
  · refine fun hown => ⟨⟨s', hs⟩, fun role' hrole hset => ?_⟩
    obtain rfl := h.unique hset
    exact hown hrole

/-- Outside the range of the list there is no role. -/
theorem reschedule_out_of_range (hkeys : (s.recvStatus.map Prod.fst).Nodup) (hlock : s.isLock = false)
    (hstat : s.currentStatus ≠ .errorOnSigners) (hslot : now / bpInterval = slot)
    (hmine : (s.myMid, sl, st) ∈ s.recvStatus) (hboot : st ≠ .inBootWait)
    (htwo : 2 ≤ (possibleMergers slot s.recvStatus).length) (hidle : isAllIdle s.recvStatus = false)
    (hpos : (possibleMergers slot s.recvStatus).length ≤ myPosition slot s.myMid s.recvStatus) :
    reschedule now s = .error .undefined := by
  unfold reschedule
  simp only [hlock, hstat, find_own hkeys hmine, hslot, Option.map_some, Option.getD_some, hboot, if_false,
    Bool.false_eq_true, show (possibleMergers slot s.recvStatus).length ≠ 0 by omega,
    show (possibleMergers slot s.recvStatus).length ≠ 1 by omega, hidle]
  generalize possibleMergers slot s.recvStatus = mergers at htwo hpos
  obtain ⟨first, hfirst, _⟩ := elementAt_fst (primaryPosition_lt (show 0 < mergers.length by omega))
  obtain ⟨second, hsecond, _⟩ := elementAt_fst (secondaryPosition_lt (show 0 < mergers.length by omega))
  have hrole : elementAt (roles mergers) (myPosition slot s.myMid s.recvStatus) = .error .undefined := by
    rw [elementAt, List.getElem?_eq_none (by rwa [length_roles])]
  simp only [hfirst, hsecond, hrole, bind, Except.bind]

theorem takeWhile_own {my : Bytes} {before after : List BpRecvStatusInfo} (hbefore : ∀ item ∈ before, item.1 ≠ my) :
    (before ++ (my, sl, st) :: after).takeWhile (fun item => item.1 ≠ my) = before := by
  rw [List.takeWhile_append_of_pos (by simpa using hbefore)]
  simp

/-- The index of a merger that is not available itself. -/
theorem myPosition_unavailable (hkeys : (s.recvStatus.map Prod.fst).Nodup)
    (hmine : (s.myMid, sl, st) ∈ s.recvStatus) (hnot : ¬ (sl = slot ∧ st.Ready)) :
    myPosition slot s.myMid s.recvStatus = lastIndex (numBefore slot s.myMid s.recvStatus) ∧
      numBefore slot s.myMid s.recvStatus ≤ (possibleMergers slot s.recvStatus).length ∧
      s.myMid ∉ available slot s.recvStatus := by
  have hmem : s.myMid ∉ available slot s.recvStatus := by
    intro hmem
    obtain ⟨m, hm, hid⟩ := List.mem_map.mp hmem
    obtain ⟨hmine', hready⟩ := mem_possibleMergers.mp hm
    rw [hid] at hmine'
    cases List.inj_on_of_nodup_map hkeys hmine' hmine rfl
    exact hnot ⟨rfl, hready⟩
  generalize s.recvStatus = table at *
  obtain ⟨before, after, rfl⟩ := List.append_of_mem hmine
  obtain ⟨hbefore, hafter⟩ := split_own hkeys
  rw [numBefore, takeWhile_own hbefore, myPosition_split hbefore hafter, if_neg hnot, possibleMergers_append]
  exact ⟨rfl, by simp, hmem⟩

/-- A role that the merger does not hold it must not take. -/
theorem Sets.takesOwnRole_iff_of_unavailable {role : BpStatus} (h : Sets now s role)
    (hstat : s.currentStatus ≠ .errorOnSigners) (hnot : s.myMid ∉ available (now / bpInterval) s.recvStatus) :
    TakesOwnRole now s ↔ role ≠ .primary ∧ role ≠ .secondary := by
  have hholds : ¬ HoldsRole (now / bpInterval) s role := by
    rintro ⟨i, hi, _⟩
    exact hnot (List.mem_of_getElem? hi)
  rw [h.takesOwnRole_iff hstat]
  simp [hholds]

/-- The places with a role, outside the case that everyone is idle. -/
theorem roleAt_idle_iff {table : List BpRecvStatusInfo} (hidle : isAllIdle table = false) {i : Nat}
    (hi : i < (possibleMergers slot table).length) :
    (roleAt slot table i ≠ .primary ∧ roleAt slot table i ≠ .secondary) ↔
      ¬ Foremost (possibleMergers slot table) i ∧ ¬ Follows (possibleMergers slot table) i := by
  rw [roleAt_of_not_idle hidle hi, ← findPrimary_eq_some_iff, follows_iff]
  by_cases hs : i = secondaryPosition (possibleMergers slot table)
  · simp [hs]
  · by_cases hp : findPrimary (possibleMergers slot table) = some i
    · simp [hs, hp]
    · simp [hs, hp]

section Own

variable (hkeys : (s.recvStatus.map Prod.fst).Nodup) (hlock : s.isLock = false)
  (hmine : (s.myMid, sl, st) ∈ s.recvStatus) (hboot : st ≠ .inBootWait)

include hkeys hlock hmine hboot

theorem sets_alone (hone : (possibleMergers (now / bpInterval) s.recvStatus).length = 1) : Sets now s .primary :=
  fun prev hprev => ⟨_, reschedule_alone (s := { s with currentStatus := prev }) hkeys hlock hprev rfl hmine hboot hone,
    rfl⟩

theorem sets_roleAt (htwo : 2 ≤ (possibleMergers (now / bpInterval) s.recvStatus).length)
    (hpos : isAllIdle s.recvStatus = true ∨ myPosition (now / bpInterval) s.myMid s.recvStatus <
      (possibleMergers (now / bpInterval) s.recvStatus).length) :
    Sets now s (roleAt (now / bpInterval) s.recvStatus (myPosition (now / bpInterval) s.myMid s.recvStatus)) :=
  fun prev hprev => ⟨_, reschedule_eq (s := { s with currentStatus := prev }) hkeys hlock hprev rfl hmine hboot htwo
    hpos, rfl⟩

variable (hstat : s.currentStatus ≠ .errorOnSigners)

include hstat

theorem takesOwnRole_of_available (hslot : sl = now / bpInterval) (hready : st.Ready) : TakesOwnRole now s := by
  subst hslot
  have hplace := myPosition_eq hkeys hmine hready
  have hlt := (List.getElem?_eq_some_iff.mp hplace).1
  have hmem : (available (now / bpInterval) s.recvStatus)[myPosition (now / bpInterval) s.myMid s.recvStatus]? =
      some s.myMid := by
    rw [available, List.getElem?_map, hplace, Option.map_some]
  by_cases hone : (possibleMergers (now / bpInterval) s.recvStatus).length = 1
  · exact ((sets_alone hkeys hlock hmine hboot hone).takesOwnRole_iff hstat).mpr fun _ => ⟨_, hmem, by simp [hone]⟩
  · exact ((sets_roleAt hkeys hlock hmine hboot (by omega) (.inr hlt)).takesOwnRole_iff hstat).mpr fun _ =>
      ⟨_, hmem, by simp [hone]⟩

/-- Without an available merger the status stays as it is. -/
theorem takesOwnRole_of_none (hnone : (possibleMergers (now / bpInterval) s.recvStatus).length = 0) :
    TakesOwnRole now s := by
  refine ⟨⟨s, reschedule_none hkeys hlock hstat rfl hmine hboot hnone⟩, fun role hrole hset => ?_⟩
  obtain ⟨s', hs, hst⟩ := hset .idle (by simp)
  rw [reschedule_none (s := { s with currentStatus := .idle }) hkeys hlock (by simp) rfl hmine hboot hnone] at hs
  cases hs
  subst hst
  simp at hrole

/-- With at least two available mergers, none of them the merger itself, the index is that
of the one before its entry. -/
theorem takesOwnRole_iff_of_unavailable (hsize : s.recvStatus.length < 2 ^ 64)
    (hnot : ¬ (sl = now / bpInterval ∧ st.Ready)) (htwo : 2 ≤ (possibleMergers (now / bpInterval) s.recvStatus).length) :
    TakesOwnRole now s ↔
      if isAllIdle s.recvStatus then
        numBefore (now / bpInterval) s.myMid s.recvStatus = 0 ∨ 3 ≤ numBefore (now / bpInterval) s.myMid s.recvStatus
      else 1 ≤ numBefore (now / bpInterval) s.myMid s.recvStatus ∧
        ¬ Foremost (possibleMergers (now / bpInterval) s.recvStatus)
          (numBefore (now / bpInterval) s.myMid s.recvStatus - 1) ∧
        ¬ Follows (possibleMergers (now / bpInterval) s.recvStatus)
          (numBefore (now / bpInterval) s.myMid s.recvStatus - 1) := by
  obtain ⟨hpos, hle, hmem⟩ := myPosition_unavailable hkeys hmine hnot
  have hlen : (possibleMergers (now / bpInterval) s.recvStatus).length ≤ s.recvStatus.length :=
    List.length_filterMap_le _ _
  cases hidle : isAllIdle s.recvStatus with
  | true =>
    rw [(sets_roleAt hkeys hlock hmine hboot htwo (.inl hidle)).takesOwnRole_iff_of_unavailable hstat hmem, hpos,
      if_pos rfl, roleAt, if_pos hidle]
    generalize numBefore (now / bpInterval) s.myMid s.recvStatus = k
    match k with
    | 0 => simp [lastIndex]
    | 1 => simp [lastIndex]
    | 2 => simp [lastIndex]
    | k + 3 => simp [lastIndex]
  | false =>
    rw [if_neg Bool.false_ne_true]
    rcases Nat.eq_zero_or_pos (numBefore (now / bpInterval) s.myMid s.recvStatus) with hzero | hsome
    · -- nobody before it: the index is the greatest number of its type
      rw [hzero, lastIndex, if_pos rfl] at hpos
      have herr := reschedule_out_of_range hkeys hlock hstat rfl hmine hboot htwo hidle (by omega)
      constructor
      · rintro ⟨⟨s', hs⟩, _⟩
        rw [herr] at hs
        cases hs
      · intro h
        omega
    · rw [lastIndex, if_neg (by omega)] at hpos
      rw [(sets_roleAt hkeys hlock hmine hboot htwo (.inr (by omega))).takesOwnRole_iff_of_unavailable hstat hmem,
        hpos, roleAt_idle_iff hidle (by omega)]
      exact (and_iff_right hsome).symm

/-- A merger takes its own role exactly when it is not mistaken for another one. -/
theorem takes_own_role_iff (hsize : s.recvStatus.length < 2 ^ 64) :
    TakesOwnRole now s ↔ Unmistaken (now / bpInterval) s.myMid sl st s.recvStatus := by
  by_cases hown : sl = now / bpInterval ∧ st.Ready
  · exact ⟨fun _ => .inl hown, fun _ => takesOwnRole_of_available hkeys hlock hmine hboot hstat hown.1 hown.2⟩
  · unfold Unmistaken
    simp only [hown, false_or]
    by_cases hnone : (possibleMergers (now / bpInterval) s.recvStatus).length = 0
    · exact ⟨fun _ => .inl hnone, fun _ => takesOwnRole_of_none hkeys hlock hmine hboot hstat hnone⟩
    · by_cases hone : (possibleMergers (now / bpInterval) s.recvStatus).length = 1
      · have hmem := (myPosition_unavailable hkeys hmine hown).2.2
        rw [(sets_alone hkeys hlock hmine hboot hone).takesOwnRole_iff_of_unavailable hstat hmem, hone]
        simp
      · have htwo : 2 ≤ (possibleMergers (now / bpInterval) s.recvStatus).length := by omega
        rw [takesOwnRole_iff_of_unavailable hkeys hlock hmine hboot hstat hsize hown htwo]
        simp only [hnone, false_or, htwo, true_and]

end Own

/-- The first of three mergers has not announced itself in slot 7 yet. -/
def firstLate : BpScheduler := ⟨[1], .idle, false, [([1], 6, .idle), ([2], 7, .idle), ([3], 7, .idle)], []⟩

theorem takes_own_role_firstLate :
    Unmistaken (70 / bpInterval) [1] 6 .idle firstLate.recvStatus ∧ TakesOwnRole 70 firstLate := by
  have hplace : Unmistaken (70 / bpInterval) [1] 6 .idle firstLate.recvStatus := by
    refine .inr (.inr ⟨by decide, ?_⟩)
    rw [if_pos (by decide)]
    exact .inl (by decide)
  exact ⟨hplace, (takes_own_role_iff (by decide) rfl (by simp [firstLate]) (by decide) (by decide) (by decide)).mpr
    hplace⟩

/-- The second of them is late. -/
def secondLate : BpScheduler := ⟨[2], .idle, false, [([1], 7, .idle), ([2], 6, .idle), ([3], 7, .idle)], []⟩

/-- The first of them is late, and the third one was primary. -/
def firstLateAfterPrimary : BpScheduler :=
  ⟨[1], .idle, false, [([1], 6, .idle), ([2], 7, .idle), ([3], 7, .primary)], []⟩

/-- The second becomes primary in place of the first; the first has no place at all. -/
theorem takes_own_role_late :
    (Sets 70 secondLate .primary ∧ [2] ∉ available 7 secondLate.recvStatus ∧ ¬ TakesOwnRole 70 secondLate) ∧
      reschedule 70 firstLateAfterPrimary = .error .undefined ∧ ¬ TakesOwnRole 70 firstLateAfterPrimary := by
  have hmine : (secondLate.myMid, 6, BpStatus.idle) ∈ secondLate.recvStatus := by simp [secondLate]
  have hsets : Sets 70 secondLate .primary :=
    sets_roleAt (by decide) rfl hmine (by decide) (by decide) (.inl (by decide))
  have hmem : [2] ∉ available (70 / bpInterval) secondLate.recvStatus := by decide
  have herr : reschedule 70 firstLateAfterPrimary = .error .undefined := by rfl
  refine ⟨⟨hsets, hmem, fun h => ?_⟩, herr, fun h => ?_⟩
  · exact ((hsets.takesOwnRole_iff_of_unavailable (by decide) hmem).mp h).1 rfl
  · obtain ⟨⟨s', hs⟩, _⟩ := h
    rw [herr] at hs
    cases hs

end OwnRole
end BpScheduler
end GruutMerger
