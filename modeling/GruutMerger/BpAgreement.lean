import GruutMerger.BpScheduler
import GruutMerger.Sample

/-!
# Agreement of schedulers

Two mergers that start a slot with the same table and hear the same
announcements, each in an order of its own, end the slot with the same table and
the same block producers. What a merger decided in between from an incomplete
table is overwritten: after its own announcement every further one makes it
decide again.
-/
namespace GruutMerger
namespace BpScheduler

open ByteText Fallible SortedTable

variable (env : Env)

/-- Announcements of one slot, handled one after the other: the merger's own, which it
makes itself and which unlocks its status, and those of others. -/
inductive Processes (slot : Nat) : BpScheduler → List (Bytes × BpStatus) → BpScheduler → Prop where
  | done (s : BpScheduler) : Processes slot s [] s
  | own {s s₁ s₂ : BpScheduler} {now numSigners : Nat} {msg : Json} {us : List (Bytes × BpStatus)}
      (hslot : now / bpInterval = slot) (h : s.sendPingMessage env now numSigners = .ok (msg, s₁))
      (rest : Processes slot s₁ us s₂) : Processes slot s ((s.myMid, s.pingStatus numSigners) :: us) s₂
  | other {s s₁ s₂ : BpScheduler} {now : Nat} {id : Bytes} {status : BpStatus} {us : List (Bytes × BpStatus)}
      (hid : id ≠ s.myMid) (hslot : now / bpInterval = slot) (h : s.updateRecvStatus now id slot status = .ok s₁)
      (rest : Processes slot s₁ us s₂) : Processes slot s ((id, status) :: us) s₂

/-- A merger that has announced itself in the slot and has decided by its table. -/
structure Open (slot : Nat) (st : BpStatus) (s : BpScheduler) : Prop where
  sorted : Sorted s.recvStatus
  lock : s.isLock = false
  healthy : s.currentStatus ≠ .errorOnSigners
  own : (s.myMid, slot, st) ∈ s.recvStatus
  ready : st.Ready
  decided : 2 ≤ (possibleMergers slot s.recvStatus).length →
    s.currentStatus = roleAt slot s.recvStatus (myPosition slot s.myMid s.recvStatus) ∧
      s.blockProducers = producersAt slot s.recvStatus

variable {env}

theorem reschedule_frame {now : Nat} {s s' : BpScheduler} (h : reschedule now s = .ok s') :
    s'.recvStatus = s.recvStatus ∧ s'.myMid = s.myMid ∧ s'.isLock = s.isLock := by
  have hlast : ∀ {status : BpStatus} {producers : List Bytes},
      (pure { s with currentStatus := status, blockProducers := producers } : Except Failure BpScheduler) = .ok s' →
      s'.recvStatus = s.recvStatus ∧ s'.myMid = s.myMid ∧ s'.isLock = s.isLock := by
    intro status producers heq
    cases heq
    exact ⟨rfl, rfl, rfl⟩
  simp only [reschedule] at h
  split at h
  · exact hlast h
  split at h
  · exact hlast h
  split at h
  · exact hlast h
  split at h
  · exact hlast h
  split at h
  · exact hlast h
  split at h
  · simp only [bind_eq_ok] at h
    obtain ⟨_, _, _, _, h⟩ := h
    exact hlast h
  · simp only [bind_eq_ok] at h
    obtain ⟨_, _, _, _, _, _, h⟩ := h
    exact hlast h

theorem sendPing_frame {now k : Nat} {s s' : BpScheduler} {msg : Json}
    (h : s.sendPingMessage env now k = .ok (msg, s')) :
    s'.recvStatus = upsert s.recvStatus s.myMid (now / bpInterval, s.pingStatus k) ∧ s'.myMid = s.myMid := by
  obtain ⟨s₁, hs, h⟩ := bind_eq_ok.mp h
  cases h
  obtain ⟨htable, hmid, _⟩ := reschedule_frame hs
  exact ⟨htable, hmid⟩

/-- While the status is locked an announcement only goes into the table. -/
theorem update_locked {now slot : Nat} {s : BpScheduler} (h : s.isLock = true) (id : Bytes) (status : BpStatus) :
    s.updateRecvStatus now id slot status = .ok { s with recvStatus := upsert s.recvStatus id (slot, status) } :=
  reschedule_locked h

theorem roleAt_healthy (slot : Nat) (table : List BpRecvStatusInfo) (i : Nat)
    (hi : i < (possibleMergers slot table).length) : roleAt slot table i ≠ .errorOnSigners := by
  unfold roleAt
  split
  · split
    · simp
    · split <;> simp
  · rw [List.getD_eq_getElem?_getD, roles_getElem? hi, Option.getD_some]
    split
    · simp
    · split <;> simp

/-- A merger with its own announcement in the table decides. -/
theorem open_reschedule {now slot : Nat} {st : BpStatus} {s : BpScheduler} (hsorted : Sorted s.recvStatus)
    (hlock : s.isLock = false) (hstat : s.currentStatus ≠ .errorOnSigners) (hslot : now / bpInterval = slot)
    (hmine : (s.myMid, slot, st) ∈ s.recvStatus) (hready : st.Ready) :
    ∃ s', reschedule now s = .ok s' ∧ Open slot st s' := by
  have hposition := myPosition_eq hsorted.nodup hmine hready
  obtain ⟨hpos, _⟩ := List.getElem?_eq_some_iff.mp hposition
  have hboot := hready.ne_inBootWait
  by_cases htwo : 2 ≤ (possibleMergers slot s.recvStatus).length
  · exact ⟨_, reschedule_eq hsorted.nodup hlock hstat hslot hmine hboot htwo (.inr hpos),
      ⟨hsorted, hlock, roleAt_healthy _ _ _ hpos, hmine, hready, fun _ => ⟨rfl, rfl⟩⟩⟩
  · exact ⟨_, reschedule_alone hsorted.nodup hlock hstat hslot hmine hboot (by omega),
      ⟨hsorted, hlock, by simp, hmine, hready, fun h => absurd h htwo⟩⟩

theorem Open.update {now slot : Nat} {st : BpStatus} {s : BpScheduler} (h : Open slot st s)
    (hslot : now / bpInterval = slot) {id : Bytes} (hid : id ≠ s.myMid) (status : BpStatus) :
    ∃ s', s.updateRecvStatus now id slot status = .ok s' ∧ Open slot st s' :=
  open_reschedule (sorted_upsert h.sorted _ _) h.lock h.healthy hslot
    ((mem_upsert h.sorted).mpr (.inr ⟨Ne.symm hid, h.own⟩)) h.ready

/-- The own announcement unlocks the status. -/
theorem open_sendPing {now slot numSigners : Nat} {s : BpScheduler} (hsorted : Sorted s.recvStatus)
    (hslot : now / bpInterval = slot) (hready : (s.pingStatus numSigners).Ready) :
    ∃ s', s.sendPingMessage env now numSigners =
        .ok (pingMessage env s.myMid now numSigners (s.pingStatus numSigners), s') ∧
      Open slot (s.pingStatus numSigners) s' := by
  have hhealthy : s.pingStatus numSigners ≠ .errorOnSigners := by
    intro heq
    rw [heq] at hready
    exact absurd hready (by decide)
  obtain ⟨s', hs, hopen⟩ := open_reschedule
    (s := { s with currentStatus := s.pingStatus numSigners, isLock := false
                   recvStatus := upsert s.recvStatus s.myMid (slot, s.pingStatus numSigners) })
    (sorted_upsert hsorted _ _) rfl hhealthy hslot ((mem_upsert hsorted).mpr (.inl rfl)) hready
  refine ⟨s', ?_, hopen⟩
  rw [sendPingMessage, updateRecvStatus, hslot, hs]
  rfl

/-- The entries that announcements of a slot leave in the table. -/
def entries (slot : Nat) (us : List (Bytes × BpStatus)) : List BpRecvStatusInfo :=
  us.map fun u => (u.1, slot, u.2)

@[simp] theorem entries_keys (slot : Nat) (us : List (Bytes × BpStatus)) :
    (entries slot us).map Prod.fst = us.map Prod.fst := by
  simp [entries]

/-- Handling announcements writes them into the table, and once the own one is among
them the merger has decided by its table. -/
theorem Processes.spec {slot : Nat} {s s' : BpScheduler} {us : List (Bytes × BpStatus)}
    (h : Processes env slot s us s') (hsorted : Sorted s.recvStatus)
    (hready : ∀ st, (s.myMid, st) ∈ us → st.Ready) :
    s'.recvStatus = upsertAll s.recvStatus (entries slot us) ∧ s'.myMid = s.myMid ∧
      ((∃ st, Open slot st s ∨ (s.myMid, st) ∈ us) → ∃ st, Open slot st s') := by
  induction h with
  | done s => exact ⟨rfl, rfl, fun ⟨st, hst⟩ => ⟨st, hst.resolve_right (by simp)⟩⟩
  | @own s s₁ s₂ now k msg us hslot hs rest ih =>
    obtain ⟨htable, hmid⟩ := sendPing_frame hs
    have hopen : Open slot (s.pingStatus k) s₁ := by
      obtain ⟨s₁', hs', hopen⟩ := open_sendPing hsorted hslot (hready (s.pingStatus k) (by simp))
      rw [hs] at hs'
      cases hs'
      exact hopen
    rw [htable, hmid, hslot] at ih
    obtain ⟨ht, hm, hdone⟩ := ih (sorted_upsert hsorted _ _) fun st hst => hready st (by simp [hst])
    exact ⟨ht, hm, fun _ => hdone ⟨_, .inl hopen⟩⟩
  | @other s s₁ s₂ now id status us hid hslot hs rest ih =>
    obtain ⟨htable, hmid, _⟩ := reschedule_frame hs
    simp only at htable hmid
    rw [htable, hmid] at ih
    obtain ⟨ht, hm, hopen⟩ := ih (sorted_upsert hsorted _ _) fun st hst => hready st (by simp [hst])
    refine ⟨ht, hm, fun ⟨st, hst⟩ => hopen ⟨st, ?_⟩⟩
    rcases hst with hst | hst
    · obtain ⟨s₁', hs', hopen'⟩ := hst.update hslot hid status
      rw [hs] at hs'
      cases hs'
      exact .inl hopen'
    · rcases List.mem_cons.mp hst with heq | hst
      · exact absurd (Prod.mk.inj heq).1.symm hid
      · exact .inr hst

/-- Announcements of a slot can be handled in any order. -/
theorem exists_processes {slot : Nat} {s : BpScheduler} {us : List (Bytes × BpStatus)} (hsorted : Sorted s.recvStatus)
    (hkeys : (us.map Prod.fst).Nodup) (hready : ∀ st, (s.myMid, st) ∈ us → st.Ready)
    (hphase : (s.isLock = true ∧ ∃ k, (s.myMid, s.pingStatus k) ∈ us) ∨
      (s.myMid ∉ us.map Prod.fst ∧ ∃ st, Open slot st s)) :
    ∃ s', Processes env slot s us s' := by
  induction us generalizing s with
  | nil => exact ⟨s, .done s⟩
  | cons u us ih =>
    obtain ⟨id, status⟩ := u
    rw [List.map_cons, List.nodup_cons] at hkeys
    have hslot : slot * bpInterval / bpInterval = slot := Nat.mul_div_cancel _ (by decide)
    by_cases hid : id = s.myMid
    · -- the own announcement
      subst hid
      rcases hphase with ⟨_, k, hk⟩ | ⟨hnot, _⟩
      · have hstatus : s.pingStatus k = status := by
          rcases List.mem_cons.mp hk with heq | hmem
          · exact (Prod.mk.inj heq).2
          · exact absurd (List.mem_map_of_mem hmem) hkeys.1
        subst hstatus
        obtain ⟨s₁, hs, hopen⟩ := open_sendPing hsorted hslot (hready (s.pingStatus k) (by simp))
        obtain ⟨_, hmid⟩ := sendPing_frame hs
        obtain ⟨s', hrest⟩ := ih hopen.sorted hkeys.2 (fun st hst => hready st (by rw [← hmid]; simp [hst]))
          (.inr ⟨by rw [hmid]; exact hkeys.1, _, hopen⟩)
        exact ⟨s', .own hslot hs hrest⟩
      · exact absurd (List.mem_map_of_mem (List.mem_cons_self)) hnot
    · rcases hphase with ⟨hlock, k, hk⟩ | ⟨hnot, st, hopen⟩
      · -- still locked: only the table changes
        have hk' : (s.myMid, s.pingStatus k) ∈ us :=
          (List.mem_cons.mp hk).resolve_left fun heq => hid (Prod.mk.inj heq).1.symm
        obtain ⟨s', hrest⟩ := ih (s := { s with recvStatus := upsert s.recvStatus id (slot, status) })
          (sorted_upsert hsorted _ _) hkeys.2 (fun st hst => hready st (by simp [hst])) (.inl ⟨hlock, k, hk'⟩)
        exact ⟨s', .other hid hslot (update_locked hlock id status) hrest⟩
      · obtain ⟨s₁, hs, hopen'⟩ := hopen.update hslot hid status
        obtain ⟨_, hmid, _⟩ := reschedule_frame hs
        have hmid' : s₁.myMid = s.myMid := hmid
        obtain ⟨s', hrest⟩ := ih hopen'.sorted hkeys.2 (fun st hst => hready st (by rw [← hmid']; simp [hst]))
          (.inr ⟨by rw [hmid']; exact fun h => hnot (by simp [h]), st, hopen'⟩)
        exact ⟨s', .other hid hslot hs hrest⟩

theorem ready_of_mem {us : List (Bytes × BpStatus)} (hkeys : (us.map Prod.fst).Nodup) {id : Bytes} {st : BpStatus}
    (hmem : (id, st) ∈ us) (hready : st.Ready) : ∀ st', (id, st') ∈ us → st'.Ready := by
  intro st' hmem'
  obtain rfl : st' = st := (Prod.mk.inj (List.inj_on_of_nodup_map hkeys hmem' hmem rfl)).2
  exact hready

/-- An announcement of a ready merger makes it one of the possible ones. -/
theorem mem_possible_of_announced {slot : Nat} {table : List BpRecvStatusInfo} {us : List (Bytes × BpStatus)}
    (hsorted : Sorted table) (hkeys : (us.map Prod.fst).Nodup) {u : Bytes × BpStatus} (hmem : u ∈ us)
    (hready : u.2.Ready) : u ∈ possibleMergers slot (upsertAll table (entries slot us)) := by
  rw [mem_possibleMergers, mem_upsertAll hsorted (by rwa [entries_keys])]
  exact ⟨.inl (List.mem_map_of_mem hmem), hready⟩

theorem two_le_length {α : Type} {x y : α} {l : List α} (hx : x ∈ l) (hy : y ∈ l) (hne : x ≠ y) : 2 ≤ l.length := by
  match l, hx, hy with
  | [z], hx, hy => exact absurd ((List.mem_singleton.mp hx).trans (List.mem_singleton.mp hy).symm) hne
  | _ :: _ :: _, _, _ => simp

/-- Not two of the mergers that decided by one table are primary. -/
theorem Open.not_both_primary {slot : Nat} {a b : BpScheduler} {sa sb : BpStatus} (ha : Open slot sa a)
    (hb : Open slot sb b) (htable : b.recvStatus = a.recvStatus) (hne : a.myMid ≠ b.myMid)
    (htwo : 2 ≤ (possibleMergers slot a.recvStatus).length) :
    ¬ (a.currentStatus = .primary ∧ b.currentStatus = .primary) := by
  rintro ⟨hpa, hpb⟩
  have hposa := myPosition_eq ha.sorted.nodup ha.own ha.ready
  have hposb := myPosition_eq hb.sorted.nodup hb.own hb.ready
  rw [(ha.decided htwo).1] at hpa
  rw [(hb.decided (by rwa [htable])).1, htable] at hpb
  rw [htable] at hposb
  have hpos := roleAt_primary_unique (List.getElem?_eq_some_iff.mp hposa).1
    (List.getElem?_eq_some_iff.mp hposb).1 hpa hpb
  rw [hpos, hposb] at hposa
  exact hne (Prod.mk.inj (Option.some.inj hposa)).1.symm

/-- Two mergers with equal tables that hear the same announcements of a slot, in any two
orders, end with equal tables and equal block producers, and not both are primary. -/
theorem slot_agreement {slot : Nat} {a b : BpScheduler} {us vs : List (Bytes × BpStatus)} {j k : Nat}
    (hne : a.myMid ≠ b.myMid) (hsorted : Sorted a.recvStatus) (htable : b.recvStatus = a.recvStatus)
    (hkeys : (us.map Prod.fst).Nodup) (hperm : us.Perm vs)
    (ha : a.isLock = true ∧ (a.myMid, a.pingStatus j) ∈ us ∧ (a.pingStatus j).Ready)
    (hb : b.isLock = true ∧ (b.myMid, b.pingStatus k) ∈ us ∧ (b.pingStatus k).Ready) :
    (∃ a', Processes env slot a us a') ∧ (∃ b', Processes env slot b vs b') ∧
      ∀ a' b', Processes env slot a us a' → Processes env slot b vs b' →
        Sorted a'.recvStatus ∧ b'.recvStatus = a'.recvStatus ∧ b'.blockProducers = a'.blockProducers ∧
          ¬ (a'.currentStatus = .primary ∧ b'.currentStatus = .primary) := by
  obtain ⟨hla, hmema, hra⟩ := ha
  obtain ⟨hlb, hmemb, hrb⟩ := hb
  have hkeys' : (vs.map Prod.fst).Nodup := (hperm.map Prod.fst).nodup_iff.mp hkeys
  have hreadya := ready_of_mem hkeys hmema hra
  have hreadyb := ready_of_mem hkeys' (hperm.mem_iff.mp hmemb) hrb
  have hsortedb : Sorted b.recvStatus := htable ▸ hsorted
  refine ⟨exists_processes hsorted hkeys hreadya (.inl ⟨hla, j, hmema⟩),
    exists_processes hsortedb hkeys' hreadyb (.inl ⟨hlb, k, hperm.mem_iff.mp hmemb⟩), ?_⟩
  intro a' b' hpa hpb
  obtain ⟨hta, hma, hopena⟩ := hpa.spec hsorted hreadya
  obtain ⟨htb, hmb, hopenb⟩ := hpb.spec hsortedb hreadyb
  obtain ⟨sa, hopena⟩ := hopena ⟨_, .inr hmema⟩
  obtain ⟨sb, hopenb⟩ := hopenb ⟨_, .inr (hperm.mem_iff.mp hmemb)⟩
  have hsame : b'.recvStatus = a'.recvStatus := by
    have hentries : (entries slot us).Perm (entries slot vs) := hperm.map _
    rw [hta, htb, htable]
    exact (upsertAll_perm hsorted (by rwa [entries_keys]) hentries).symm
  have htwo : 2 ≤ (possibleMergers slot a'.recvStatus).length := by
    rw [hta]
    exact two_le_length (mem_possible_of_announced hsorted hkeys hmema hra)
      (mem_possible_of_announced hsorted hkeys hmemb hrb) fun heq => hne (Prod.mk.inj heq).1
  refine ⟨hopena.sorted, hsame, ?_, hopena.not_both_primary hopenb hsame (by rwa [hma, hmb]) htwo⟩
  rw [(hopena.decided htwo).2, (hopenb.decided (by rwa [hsame])).2, hsame]

/-- A merger that knows of three idle ones and waits for the slot to begin. -/
def waiting (id : Bytes) : BpScheduler :=
  ⟨id, .idle, true, [([1], 6, .idle), ([2], 6, .idle), ([3], 6, .idle)], []⟩

/-- Two of three idle mergers that hear the third one first and last. -/
theorem slot_agreement_three :
    let us : List (Bytes × BpStatus) := [([1], .idle), ([2], .idle), ([3], .idle)]
    let vs : List (Bytes × BpStatus) := [([3], .idle), ([2], .idle), ([1], .idle)]
    (∃ a', Processes Sample.base 7 (waiting [1]) us a') ∧ (∃ b', Processes Sample.base 7 (waiting [2]) vs b') ∧
      ∀ a' b', Processes Sample.base 7 (waiting [1]) us a' → Processes Sample.base 7 (waiting [2]) vs b' →
        Sorted a'.recvStatus ∧ b'.recvStatus = a'.recvStatus ∧ b'.blockProducers = a'.blockProducers ∧
          ¬ (a'.currentStatus = .primary ∧ b'.currentStatus = .primary) := by
  have hsorted : Sorted (waiting [1]).recvStatus := by
    unfold Sorted
    decide
  exact slot_agreement (j := 1) (k := 1) (by decide) hsorted rfl (by decide) (by decide) (by decide) (by decide)

end BpScheduler
end GruutMerger
