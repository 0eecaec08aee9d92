import Mathlib.Data.List.Induction

/-!
# The first greatest element

A search that goes through a list once and remembers an element until a later one has
a greater key. It starts from the key 0, so an element with that key is never taken.
-/
namespace FirstMax

variable {α : Type} (eligible : α → Prop) (key : α → Nat)

/-- No eligible element has a greater key, and none before this one has as great a key. -/
def IsFirst (xs : List α) (x : α) : Prop :=
  ∃ before after, xs = before ++ x :: after ∧ eligible x ∧ 0 < key x ∧ (∀ y ∈ xs, eligible y → key y ≤ key x) ∧
    ∀ y ∈ before, eligible y → key y < key x

variable {eligible key}

theorem IsFirst.unique {xs : List α} {x y : α} (hx : IsFirst eligible key xs x) (hy : IsFirst eligible key xs y) :
    x = y := by
  obtain ⟨before, after, rfl, ex, _, hle, hlt⟩ := hx
  obtain ⟨before', after', hsplit, ey, _, hle', hlt'⟩ := hy
  have hyx : key y ≤ key x := hle y (by rw [hsplit]; simp) ey
  have hxy : key x ≤ key y := hle' x (by simp) ex
  rcases List.append_eq_append_iff.mp hsplit with ⟨c, rfl, hc⟩ | ⟨c, rfl, hc⟩
  · cases c with
    | nil => exact (List.cons.inj hc).1
    | cons z c =>
      obtain ⟨rfl, _⟩ := List.cons.inj hc
      exact absurd (hlt' x (by simp) ex) (Nat.not_lt.mpr hyx)
  · cases c with
    | nil => exact (List.cons.inj hc).1.symm
    | cons z c =>
      obtain ⟨rfl, _⟩ := List.cons.inj hc
      exact absurd (hlt y (by simp) ey) (Nat.not_lt.mpr hxy)

variable (eligible key) [DecidablePred eligible]

/-- The greatest key so far and the element that has it. -/
def step (best : Nat × Option α) (x : α) : Nat × Option α :=
  if eligible x ∧ best.1 < key x then (key x, some x) else best

def search (xs : List α) : Option α := (xs.foldl (step eligible key) (0, none)).2

/-- What the search remembers. -/
theorem foldl_step_cases (xs : List α) :
    (xs.foldl (step eligible key) (0, none) = (0, none) ∧ ∀ y ∈ xs, eligible y → key y = 0) ∨
      ∃ x, xs.foldl (step eligible key) (0, none) = (key x, some x) ∧ IsFirst eligible key xs x := by
  -- from the end: the last element is taken, or what was remembered stays the first
  induction xs using List.reverseRecOn with
  | nil => exact Or.inl ⟨rfl, by simp⟩
  | append_singleton xs z ih =>
    rw [List.foldl_append, List.foldl_cons, List.foldl_nil]
    rcases ih with ⟨hfold, hzero⟩ | ⟨x, hfold, before, after, rfl, ex, hpos, hle, hlt⟩
    · rw [hfold, step]
      split
      · rename_i hz
        refine Or.inr ⟨z, rfl, xs, [], rfl, hz.1, hz.2, fun y hy ey => ?_, fun y hy ey => ?_⟩
        · rcases List.mem_append.mp hy with hy | hy
          · rw [hzero y hy ey]
            exact Nat.zero_le _
          · exact Nat.le_of_eq (congrArg key (List.mem_singleton.mp hy))
        · rw [hzero y hy ey]
          exact hz.2
      · rename_i hz
        refine Or.inl ⟨rfl, fun y hy ey => ?_⟩
        rcases List.mem_append.mp hy with hy | hy
        · exact hzero y hy ey
        · obtain rfl := List.mem_singleton.mp hy
          exact Nat.eq_zero_of_not_pos fun h => hz ⟨ey, h⟩
    · rw [hfold, step]
      split
      · rename_i hz
        refine Or.inr ⟨z, rfl, before ++ x :: after, [], rfl, hz.1, Nat.lt_trans hpos hz.2, fun y hy ey => ?_,
          fun y hy ey => ?_⟩
        · rcases List.mem_append.mp hy with hy | hy
          · exact Nat.le_of_lt (Nat.lt_of_le_of_lt (hle y hy ey) hz.2)
          · exact Nat.le_of_eq (congrArg key (List.mem_singleton.mp hy))
        · exact Nat.lt_of_le_of_lt (hle y hy ey) hz.2
      · rename_i hz
        refine Or.inr ⟨x, rfl, before, after ++ [z], by simp, ex, hpos, fun y hy ey => ?_, hlt⟩
        rcases List.mem_append.mp hy with hy | hy
        · exact hle y hy ey
        · obtain rfl := List.mem_singleton.mp hy
          exact Nat.not_lt.mp fun h => hz ⟨ey, h⟩

variable {eligible key}

theorem search_eq_some_iff {xs : List α} {x : α} : search eligible key xs = some x ↔ IsFirst eligible key xs x := by
  rcases foldl_step_cases eligible key xs with ⟨hfold, hzero⟩ | ⟨z, hfold, hz⟩
  · rw [search, hfold]
    refine iff_of_false (fun h => nomatch h) ?_
    rintro ⟨before, after, rfl, ex, hpos, _⟩
    exact absurd (hzero x (by simp) ex) (Nat.ne_of_gt hpos)
  · rw [search, hfold]
    exact ⟨fun h => Option.some.inj h ▸ hz, fun h => congrArg some (hz.unique h)⟩

theorem search_eq_none {xs : List α} (h : ∀ y ∈ xs, ¬ eligible y) : search eligible key xs = none := by
  cases hs : search eligible key xs with
  | none => rfl
  | some x =>
    obtain ⟨before, after, rfl, ex, _⟩ := search_eq_some_iff.mp hs
    exact absurd ex (h x (by simp))

end FirstMax
