import Mathlib.Data.List.Nodup

/-!
# Stacks with lazy deletion

A stack of elements with keys, newest first, beside the set of keys that are alive. Taking an
element out only takes its key out of the set, so the stack keeps stale copies. An element
counts if its key is alive and no newer element has it.
-/
namespace LazyStack

variable {α κ : Type} [BEq κ] [LawfulBEq κ] (key : α → κ)

/-- The elements that count, newest first. -/
def live : List α → List κ → List α
  | [], _ => []
  | x :: xs, ks => if key x ∈ ks then x :: live xs (ks.erase (key x)) else live xs ks

variable {key}

theorem key_mem_of_live {xs : List α} {ks : List κ} {x : α} (h : x ∈ live key xs ks) : key x ∈ ks := by
  induction xs generalizing ks with
  | nil => cases h
  | cons y xs ih =>
    rw [live] at h
    split at h
    · rename_i hy
      rcases List.mem_cons.mp h with rfl | h
      · exact hy
      · exact List.mem_of_mem_erase (ih h)
    · exact ih h

theorem nodup_live (xs : List α) {ks : List κ} (h : ks.Nodup) : ((live key xs ks).map key).Nodup := by
  induction xs generalizing ks with
  | nil => exact List.nodup_nil
  | cons x xs ih =>
    rw [live]
    split
    · rw [List.map_cons, List.nodup_cons]
      refine ⟨fun hmem => ?_, ih (h.erase _)⟩
      obtain ⟨y, hy, heq⟩ := List.mem_map.mp hmem
      have halive := key_mem_of_live hy
      rw [heq] at halive
      exact (h.mem_erase_iff.mp halive).1 rfl
    · exact ih h

/-- A key that is alive and has an element has one that counts. -/
theorem exists_live {xs : List α} {ks : List κ} (h : ks.Nodup) {k : κ} (hk : k ∈ ks) (hx : ∃ x ∈ xs, key x = k) :
    k ∈ (live key xs ks).map key := by
  induction xs generalizing ks with
  | nil => simp at hx
  | cons y xs ih =>
    obtain ⟨x, hx, hxk⟩ := hx
    rw [live]
    by_cases hy : key y = k
    · rw [if_pos (hy ▸ hk), List.map_cons, hy]
      exact List.mem_cons_self
    · have hrest : ∃ x ∈ xs, key x = k := by
        rcases List.mem_cons.mp hx with rfl | hx
        · exact absurd hxk hy
        · exact ⟨x, hx, hxk⟩
      split
      · rw [List.map_cons]
        exact List.mem_cons_of_mem _ (ih (h.erase _) (h.mem_erase_iff.mpr ⟨Ne.symm hy, hk⟩) hrest)
      · exact ih h hk hrest

/-- A new element with a new key. -/
theorem live_push {x : α} {ks : List κ} (xs : List α) : live key (x :: xs) (key x :: ks) = x :: live key xs ks := by
  rw [live, if_pos List.mem_cons_self, List.erase_cons_head]

/-- Elements without a key that is alive may be left out. -/
theorem live_append_stale {ys : List α} {ks : List κ} (h : ∀ y ∈ ys, key y ∉ ks) (xs : List α) :
    live key (ys ++ xs) ks = live key xs ks := by
  induction ys with
  | nil => rfl
  | cons y ys ih =>
    rw [List.cons_append, live, if_neg (h y List.mem_cons_self)]
    exact ih fun z hz => h z (List.mem_cons_of_mem _ hz)

/-- Taking keys out takes their elements out: no older copy comes up instead. -/
theorem live_filter (xs : List α) {ks : List κ} (h : ks.Nodup) (p : κ → Bool) :
    live key xs (ks.filter p) = (live key xs ks).filter fun x => p (key x) := by
  induction xs generalizing ks with
  | nil => rfl
  | cons x xs ih =>
    by_cases hx : key x ∈ ks
    · rw [live, live, if_pos hx, List.filter_cons]
      by_cases hp : p (key x) = true
      · rw [if_pos (List.mem_filter.mpr ⟨hx, hp⟩), if_pos hp, ← ih (h.erase _), h.erase_eq_filter,
          (h.filter p).erase_eq_filter, List.filter_comm]
      · -- the key goes in any case, so it does not matter that it is looked for first
        have hnot : key x ∉ ks.filter p := fun hmem => hp (List.mem_filter.mp hmem).2
        have hsame : (ks.erase (key x)).filter p = ks.filter p := by
          rw [h.erase_eq_filter, List.filter_comm]
          refine List.filter_eq_self.mpr fun k hk => ?_
          have hne : k ≠ key x := fun heq => hnot (heq ▸ hk)
          simpa using hne
        rw [if_neg hnot, if_neg hp, ← ih (h.erase _), hsame]
    · have hnot : key x ∉ ks.filter p := fun hmem => hx (List.mem_filter.mp hmem).1
      rw [live, live, if_neg hx, if_neg hnot, ih h]

/-- Taking out the keys of the newest leaves the others. -/
theorem filter_notMem_take {xs : List α} (h : (xs.map key).Nodup) (n : Nat) :
    xs.filter (fun x => decide (key x ∉ (xs.take n).map key)) = xs.drop n := by
  have hsplit : xs.map key = (xs.take n).map key ++ (xs.drop n).map key := by
    rw [← List.map_append, List.take_append_drop]
  rw [hsplit] at h
  have hdisjoint := (List.nodup_append.mp h).2.2
  have htaken : (xs.take n).filter (fun x => decide (key x ∉ (xs.take n).map key)) = [] := by
    rw [List.filter_eq_nil_iff]
    intro x hx
    have hmem : key x ∈ (xs.take n).map key := List.mem_map_of_mem hx
    rw [decide_eq_true_eq, not_not]
    exact hmem
  have hleft : (xs.drop n).filter (fun x => decide (key x ∉ (xs.take n).map key)) = xs.drop n := by
    rw [List.filter_eq_self]
    intro x hx
    rw [decide_eq_true_eq]
    exact fun hmem => hdisjoint _ hmem _ (List.mem_map_of_mem hx) rfl
  calc xs.filter (fun x => decide (key x ∉ (xs.take n).map key))
      = (xs.take n ++ xs.drop n).filter (fun x => decide (key x ∉ (xs.take n).map key)) := by rw [List.take_append_drop]
    _ = xs.drop n := by rw [List.filter_append, htaken, hleft, List.nil_append]

/-- The newest element that counts is the first one with a key that is alive. -/
theorem head?_live (xs : List α) (ks : List κ) : (live key xs ks).head? = xs.find? fun x => decide (key x ∈ ks) := by
  induction xs with
  | nil => rfl
  | cons x xs ih =>
    rw [live, List.find?_cons]
    by_cases hx : key x ∈ ks
    · rw [if_pos hx, decide_eq_true hx]
      rfl
    · rw [if_neg hx, decide_eq_false hx]
      exact ih

end LazyStack
