import Mathlib.Data.List.Sort
import Mathlib.Data.List.Lex
import Mathlib.Data.List.Nodup

/-!
# Tables sorted by key

A table is a list of keys with values, strictly sorted by key. An update of a
known key happens in place, one of a new key appends it and sorts. A sorted
table is determined by its entries, so updates of different keys can be done in
any order.
-/
namespace SortedTable

variable {κ α : Type} [LinearOrder κ]

/-- Strictly sorted by key. -/
def Sorted (t : List (κ × α)) : Prop := t.Pairwise fun a b => a.1 < b.1

/-- Write the value of a key. -/
def upsert (t : List (κ × α)) (k : κ) (v : α) : List (κ × α) :=
  match t.findIdx? fun e => e.1 = k with
  | some i => t.set i (k, v)
  | none => (t ++ [(k, v)]).insertionSort fun a b => a.1 ≤ b.1

/-- One update after the other. -/
def upsertAll (t : List (κ × α)) (us : List (κ × α)) : List (κ × α) :=
  us.foldl (fun t u => upsert t u.1 u.2) t

theorem Sorted.nodup {t : List (κ × α)} (h : Sorted t) : (t.map Prod.fst).Nodup := by
  rw [List.Nodup, List.pairwise_map]
  exact h.imp fun hlt => ne_of_lt hlt

theorem Sorted.eq_of_mem {t t' : List (κ × α)} (h : Sorted t) (h' : Sorted t')
    (hmem : ∀ e, e ∈ t ↔ e ∈ t') : t = t' := by
  refine List.Perm.eq_of_pairwise (fun a b _ _ hab hba => ?_) h h' ?_
  · exact absurd (hab.trans hba) (lt_irrefl _)
  · rw [List.perm_ext_iff_of_nodup h.nodup.of_map h'.nodup.of_map]
    exact hmem

section Update

variable {t : List (κ × α)} {k : κ} {v : α}

/-- An update replaces the entry of the key or brings in a new one. -/
theorem upsert_cases (t : List (κ × α)) (k : κ) (v : α) :
    (∃ before after w, t = before ++ (k, w) :: after ∧ upsert t k v = before ++ (k, v) :: after) ∨
      (k ∉ t.map Prod.fst ∧ upsert t k v = (t ++ [(k, v)]).insertionSort fun a b => a.1 ≤ b.1) := by
  unfold upsert
  split
  · rename_i i hi
    obtain ⟨hlt, hk, _⟩ := List.findIdx?_eq_some_iff_getElem.mp hi
    refine .inl ⟨t.take i, t.drop (i + 1), t[i].2, ?_, ?_⟩
    · conv_lhs => rw [← List.take_append_drop i t, List.drop_eq_getElem_cons hlt]
      rw [← of_decide_eq_true hk]
    · rw [List.set_eq_take_append_cons_drop, if_pos hlt]
  · rename_i hnone
    refine .inr ⟨fun hmem => ?_, rfl⟩
    obtain ⟨e, he, rfl⟩ := List.mem_map.mp hmem
    exact absurd (List.findIdx?_eq_none_iff.mp hnone e he) (by simp)

theorem sorted_upsert (h : Sorted t) (k : κ) (v : α) : Sorted (upsert t k v) := by
  rcases upsert_cases t k v with ⟨before, after, w, rfl, hu⟩ | ⟨hnew, hu⟩
  · rw [hu]
    simpa [Sorted, List.pairwise_append] using h
  · rw [hu]
    have hle := List.pairwise_insertionSort (fun a b : κ × α => a.1 ≤ b.1) (t ++ [(k, v)])
    have hkeys : ((t ++ [(k, v)]).map Prod.fst).Nodup := by
      rw [List.map_append, List.nodup_append]
      refine ⟨h.nodup, by simp, fun a ha b hb heq => ?_⟩
      obtain rfl : b = k := by simpa using hb
      exact hnew (heq ▸ ha)
    have hperm := (List.perm_insertionSort (fun a b : κ × α => a.1 ≤ b.1) (t ++ [(k, v)])).map Prod.fst
    have hne := List.pairwise_map.mp (hperm.nodup_iff.mpr hkeys)
    exact (hle.and hne).imp fun hab => lt_of_le_of_ne hab.1 hab.2

/-- After an update the key has the new value and every other key its old one. -/
theorem mem_upsert (h : Sorted t) {e : κ × α} :
    e ∈ upsert t k v ↔ e = (k, v) ∨ (e.1 ≠ k ∧ e ∈ t) := by
  rcases upsert_cases t k v with ⟨before, after, w, rfl, hu⟩ | ⟨hnew, hu⟩
  · rw [hu]
    have hkey : ∀ a, a ∈ before ∨ a ∈ after → a.1 ≠ k := by
      intro a ha hk
      have hmem : a ∈ before ++ (k, w) :: after := by simp; tauto
      have hdup := h.nodup
      obtain rfl : a = (k, w) := List.inj_on_of_nodup_map h.nodup hmem (by simp) hk
      simp only [List.map_append, List.map_cons, List.nodup_append, List.nodup_cons, List.mem_map] at hdup
      rcases ha with ha | ha
      · exact hdup.2.2 k ⟨_, ha, rfl⟩ k (by simp) rfl
      · exact hdup.2.1.1 ⟨_, ha, rfl⟩
    simp only [List.mem_append, List.mem_cons]
    constructor
    · rintro (ha | rfl | ha)
      · exact .inr ⟨hkey e (.inl ha), .inl ha⟩
      · exact .inl rfl
      · exact .inr ⟨hkey e (.inr ha), .inr (.inr ha)⟩
    · rintro (rfl | ⟨hne, ha | rfl | ha⟩)
      · exact .inr (.inl rfl)
      · exact .inl ha
      · exact absurd rfl hne
      · exact .inr (.inr ha)
  · rw [hu, List.mem_insertionSort, List.mem_append, List.mem_singleton]
    constructor
    · rintro (ha | rfl)
      · exact .inr ⟨fun hk => hnew (hk ▸ List.mem_map_of_mem ha), ha⟩
      · exact .inl rfl
    · rintro (rfl | ⟨_, ha⟩)
      · exact .inr rfl
      · exact .inl ha

end Update

theorem sorted_upsertAll {t : List (κ × α)} (h : Sorted t) (us : List (κ × α)) : Sorted (upsertAll t us) := by
  induction us generalizing t with
  | nil => exact h
  | cons u us ih => exact ih (sorted_upsert h u.1 u.2)

/-- After updates of different keys these have their new values. -/
theorem mem_upsertAll {t us : List (κ × α)} (h : Sorted t) (hus : (us.map Prod.fst).Nodup) {e : κ × α} :
    e ∈ upsertAll t us ↔ e ∈ us ∨ (e.1 ∉ us.map Prod.fst ∧ e ∈ t) := by
  induction us generalizing t with
  | nil => simp [upsertAll]
  | cons u us ih =>
    rw [List.map_cons, List.nodup_cons] at hus
    have hstep : upsertAll t (u :: us) = upsertAll (upsert t u.1 u.2) us := rfl
    rw [hstep, ih (sorted_upsert h u.1 u.2) hus.2, mem_upsert h, List.mem_cons, List.map_cons, List.mem_cons]
    constructor
    · rintro (ha | ⟨hn, rfl | ⟨hne, ha⟩⟩)
      · exact .inl (.inr ha)
      · exact .inl (.inl rfl)
      · exact .inr ⟨not_or.mpr ⟨hne, hn⟩, ha⟩
    · rintro ((rfl | ha) | ⟨hn, ha⟩)
      · exact .inr ⟨hus.1, .inl rfl⟩
      · exact .inl ha
      · obtain ⟨hne, hn⟩ := not_or.mp hn
        exact .inr ⟨hn, .inr ⟨hne, ha⟩⟩

/-- Updates of different keys can be done in any order. -/
theorem upsertAll_perm {t us us' : List (κ × α)} (h : Sorted t) (hus : (us.map Prod.fst).Nodup)
    (hp : us.Perm us') : upsertAll t us = upsertAll t us' := by
  have hus' : (us'.map Prod.fst).Nodup := (hp.map Prod.fst).nodup_iff.mp hus
  refine (sorted_upsertAll h us).eq_of_mem (sorted_upsertAll h us') fun e => ?_
  rw [mem_upsertAll h hus, mem_upsertAll h hus', hp.mem_iff, (hp.map Prod.fst).mem_iff]

end SortedTable
