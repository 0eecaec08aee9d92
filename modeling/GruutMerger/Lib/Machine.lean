import GruutMerger.Lib.Fallible

/-!
# Machines that answer

A machine takes inputs one after the other and answers each with outputs; it may
fail. One party sees the inputs that are its own and the outputs that are meant for
it. If no other input changes what the machine keeps for that party, and what it
answers to the party's own inputs depends on nothing else, then the party sees what
it would see alone, and the machine fails only where it would fail for one of them alone.
-/
namespace Machine

open Fallible

variable {ε σ α ω : Type}

/-- All inputs, with the outputs in order. -/
def run (step : σ → α → Except ε (σ × List ω)) (s : σ) : List α → Except ε (σ × List ω)
  | [] => .ok (s, [])
  | x :: xs => do
    let (t, out) ← step s x
    let (u, rest) ← run step t xs
    return (u, out ++ rest)

variable {step : σ → α → Except ε (σ × List ω)} {s t u : σ} {x : α} {xs ys : List α} {out : List ω}

theorem run_nil : run step s [] = .ok (t, out) ↔ t = s ∧ out = [] := by
  simp only [run, Except.ok.injEq, Prod.mk.injEq]
  exact and_congr eq_comm eq_comm

theorem run_cons : run step s (x :: xs) = .ok (u, out) ↔
    ∃ t first rest, step s x = .ok (t, first) ∧ run step t xs = .ok (u, rest) ∧ out = first ++ rest := by
  simp only [run, bind_eq_ok, pure_eq_ok, Prod.exists, Prod.mk.injEq]
  constructor
  · rintro ⟨t, first, hstep, u', rest, hrest, rfl, rfl⟩
    exact ⟨t, first, rest, hstep, hrest, rfl⟩
  · rintro ⟨t, first, rest, hstep, hrest, rfl⟩
    exact ⟨t, first, hstep, u, rest, hrest, rfl, rfl⟩

theorem run_singleton (h : step s x = .ok (t, out)) : run step s [x] = .ok (t, out) :=
  run_cons.mpr ⟨t, out, [], h, rfl, (List.append_nil _).symm⟩

theorem run_append : run step s (xs ++ ys) = .ok (u, out) ↔
    ∃ t first rest, run step s xs = .ok (t, first) ∧ run step t ys = .ok (u, rest) ∧ out = first ++ rest := by
  induction xs generalizing s out with
  | nil =>
    constructor
    · intro h
      exact ⟨s, [], out, rfl, h, rfl⟩
    · rintro ⟨t, first, rest, hfirst, hrest, rfl⟩
      obtain ⟨rfl, rfl⟩ := run_nil.mp hfirst
      exact hrest
  | cons x xs ih =>
    simp only [List.cons_append, run_cons, ih]
    constructor
    · rintro ⟨t, first, _, hstep, ⟨t', mid, rest, hmid, hrest, rfl⟩, rfl⟩
      exact ⟨t', first ++ mid, rest, ⟨t, first, mid, hstep, hmid, rfl⟩, hrest, (List.append_assoc _ _ _).symm⟩
    · rintro ⟨t', _, rest, ⟨t, first, mid, hstep, hmid, rfl⟩, hrest, rfl⟩
      exact ⟨t, first, mid ++ rest, hstep, ⟨t', mid, rest, hmid, hrest, rfl⟩, List.append_assoc _ _ _⟩

/-- Every input meets a condition on the state in which it comes. -/
def EachInput (step : σ → α → Except ε (σ × List ω)) (c : σ → α → Prop) (s : σ) (xs : List α) : Prop :=
  EachStep (fun s x => (step s x).map Prod.fst) c s xs

instance decidableEachInput {c : σ → α → Prop} [∀ s x, Decidable (c s x)] (s : σ) (xs : List α) :
    Decidable (EachInput step c s xs) := inferInstanceAs (Decidable (EachStep _ _ _ _))

theorem EachInput.next {c : σ → α → Prop} (h : EachInput step c s (x :: xs)) (hstep : step s x = .ok (t, out)) :
    EachInput step c t xs := h.2 t (map_fst_eq_ok.mpr ⟨out, hstep⟩)

/-- How a machine with all inputs and one with a party's own inputs are kept together. -/
structure Isolates (step : σ → α → Except ε (σ × List ω)) (own : α → Bool) (seen : ω → Bool) (c : σ → α → Prop)
    (R : σ → σ → Prop) : Prop where
  /-- an input of its own has the same answer, which it sees -/
  own_step : ∀ {s s' x t out}, R s s' → own x = true → c s x → step s x = .ok (t, out) →
    (∃ t', step s' x = .ok (t', out) ∧ R t t') ∧ ∀ o ∈ out, seen o = true
  /-- and has one here if it has one alone -/
  own_returns : ∀ {s s' x t' out}, R s s' → own x = true → c s x → step s' x = .ok (t', out) → ∃ t, step s x = .ok (t, out)
  /-- any other input changes nothing for it, and it does not see the answer -/
  other_step : ∀ {s s' x t out}, R s s' → own x = false → step s x = .ok (t, out) →
    R t s' ∧ ∀ o ∈ out, seen o = false
  /-- nor does the machine fail on it -/
  other_returns : ∀ {s x}, own x = false → c s x → ∃ t out, step s x = .ok (t, out)

variable {own : α → Bool} {seen : ω → Bool} {c : σ → α → Prop} {R : σ → σ → Prop} {s' t' : σ}

/-- A party sees what it would see alone. -/
theorem Isolates.run (h : Isolates step own seen c R) (hR : R s s') (hc : EachInput step c s xs)
    (hrun : run step s xs = .ok (t, out)) :
    ∃ t', Machine.run step s' (xs.filter own) = .ok (t', out.filter seen) ∧ R t t' := by
  induction xs generalizing s s' out with
  | nil =>
    obtain ⟨rfl, rfl⟩ := run_nil.mp hrun
    exact ⟨s', rfl, hR⟩
  | cons x xs ih =>
    obtain ⟨u, first, rest, hstep, hrest, rfl⟩ := run_cons.mp hrun
    rw [List.filter_append]
    cases hx : own x with
    | true =>
      obtain ⟨⟨u', hstep', hu⟩, hseen⟩ := h.own_step hR hx hc.1 hstep
      obtain ⟨t', hrun', ht⟩ := ih hu (hc.next hstep) hrest
      rw [List.filter_cons_of_pos hx, List.filter_eq_self.mpr hseen]
      exact ⟨t', run_cons.mpr ⟨u', first, _, hstep', hrun', rfl⟩, ht⟩
    | false =>
      obtain ⟨hu, hunseen⟩ := h.other_step hR hx hstep
      obtain ⟨t', hrun', ht⟩ := ih hu (hc.next hstep) hrest
      have hnone : first.filter seen = [] := List.filter_eq_nil_iff.mpr fun o ho => by simp [hunseen o ho]
      rw [List.filter_cons_of_neg (by simp [hx]), hnone]
      exact ⟨t', hrun', ht⟩

/-- What returns for the party alone returns among others. -/
theorem Isolates.returns (h : Isolates step own seen c R) (hR : R s s') (hc : EachInput step c s xs)
    (hrun : Machine.run step s' (xs.filter own) = .ok (t', out)) : ∃ t out, Machine.run step s xs = .ok (t, out) := by
  induction xs generalizing s s' out with
  | nil => exact ⟨s, [], rfl⟩
  | cons x xs ih =>
    cases hx : own x with
    | true =>
      rw [List.filter_cons_of_pos hx] at hrun
      obtain ⟨u', first, rest, hstep', hrest, _⟩ := run_cons.mp hrun
      obtain ⟨u, hstep⟩ := h.own_returns hR hx hc.1 hstep'
      obtain ⟨⟨v', hv, hu⟩, _⟩ := h.own_step hR hx hc.1 hstep
      obtain ⟨rfl, _⟩ := Prod.mk.inj (Except.ok.inj (hv.symm.trans hstep'))
      obtain ⟨t, out, hall⟩ := ih hu (hc.next hstep) hrest
      exact ⟨t, _, run_cons.mpr ⟨u, first, out, hstep, hall, rfl⟩⟩
    | false =>
      rw [List.filter_cons_of_neg (by simp [hx])] at hrun
      obtain ⟨u, first, hstep⟩ := h.other_returns hx hc.1
      obtain ⟨t, out, hall⟩ := ih (h.other_step hR hx hstep).1 (hc.next hstep) hrun
      exact ⟨t, _, run_cons.mpr ⟨u, first, out, hstep, hall, rfl⟩⟩

end Machine
