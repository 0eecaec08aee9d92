import Mathlib.Logic.Basic
import Mathlib.Data.List.Forall2

/-!
# Computations that may fail

Taking apart a computation in `Except` that has succeeded, and invariants of a
loop whose body may fail.
-/
namespace Fallible

variable {ε α β σ : Type}

theorem bind_eq_ok {x : Except ε α} {f : α → Except ε β} {b : β} :
    (x >>= f) = .ok b ↔ ∃ a, x = .ok a ∧ f a = .ok b := by
  cases x with
  | error e => simp [bind, Except.bind]
  | ok a => simp [bind, Except.bind]

theorem map_eq_ok {x : Except ε α} {f : α → β} {b : β} :
    x.map f = .ok b ↔ ∃ a, x = .ok a ∧ f a = b := by
  cases x with
  | error e => simp [Except.map]
  | ok a => simp [Except.map]

/-- What is answered beside the new state may be anything. -/
theorem map_fst_eq_ok {x : Except ε (α × β)} {a : α} : x.map Prod.fst = .ok a ↔ ∃ b, x = .ok (a, b) := by
  rw [map_eq_ok]
  constructor
  · rintro ⟨⟨a', b⟩, hx, rfl⟩
    exact ⟨b, hx⟩
  · rintro ⟨b, hx⟩
    exact ⟨(a, b), hx, rfl⟩

@[simp] theorem pure_eq_ok {a b : α} : (pure a : Except ε α) = .ok b ↔ a = b := by
  simp [pure, Except.pure]

theorem foldlM_nil_eq_ok {f : σ → α → Except ε σ} {s t : σ} : [].foldlM f s = .ok t ↔ t = s := by
  rw [List.foldlM_nil, pure_eq_ok, eq_comm]

theorem foldlM_cons_eq_ok {f : σ → α → Except ε σ} {s t : σ} {x : α} {xs : List α} :
    (x :: xs).foldlM f s = .ok t ↔ ∃ u, f s x = .ok u ∧ xs.foldlM f u = .ok t := by
  rw [List.foldlM_cons, bind_eq_ok]

theorem foldlM_append_eq_ok {f : σ → α → Except ε σ} {s t : σ} {xs ys : List α} :
    (xs ++ ys).foldlM f s = .ok t ↔ ∃ u, xs.foldlM f s = .ok u ∧ ys.foldlM f u = .ok t := by
  rw [List.foldlM_append, bind_eq_ok]

theorem foldlM_concat_eq_ok {f : σ → α → Except ε σ} {s t : σ} {xs : List α} {x : α} :
    (xs ++ [x]).foldlM f s = .ok t ↔ ∃ u, xs.foldlM f s = .ok u ∧ f u x = .ok t := by
  simp only [foldlM_append_eq_ok, foldlM_cons_eq_ok, foldlM_nil_eq_ok, exists_eq_right']

/-- What every turn of a loop keeps, the loop keeps. -/
theorem foldlM_invariant {P : σ → Prop} {f : σ → α → Except ε σ} {xs : List α} {s t : σ}
    (hstep : ∀ s x t, x ∈ xs → P s → f s x = .ok t → P t) (hs : P s) (h : xs.foldlM f s = .ok t) :
    P t := by
  induction xs generalizing s with
  | nil =>
    obtain rfl : s = t := by simpa using h
    exact hs
  | cons x xs ih =>
    obtain ⟨u, hu, h⟩ := foldlM_cons_eq_ok.mp h
    exact ih (fun s x t hx => hstep s x t (by simp [hx])) (hstep s x u (by simp) hs hu) h

/-- What each turn of a loop sets up for its element and every other turn keeps holds of all
elements in the end. -/
theorem foldlM_collects {P : σ → Prop} {R : α → σ → Prop} {f : σ → α → Except ε σ} {xs : List α} {s t : σ}
    (hstep : ∀ s x t, x ∈ xs → P s → f s x = .ok t → P t ∧ R x t ∧ ∀ y, R y s → R y t) (hs : P s)
    (h : xs.foldlM f s = .ok t) : P t ∧ (∀ x ∈ xs, R x t) ∧ ∀ y, R y s → R y t := by
  induction xs generalizing s with
  | nil =>
    obtain rfl : s = t := by simpa using h
    exact ⟨hs, by simp, fun _ hy => hy⟩
  | cons x xs ih =>
    obtain ⟨u, hu, h⟩ := foldlM_cons_eq_ok.mp h
    obtain ⟨hpu, hxu, hkeep⟩ := hstep s x u (by simp) hs hu
    obtain ⟨hpt, hall, hkeep'⟩ := ih (fun s y t hy => hstep s y t (by simp [hy])) hpu h
    refine ⟨hpt, fun y hy => ?_, fun y hy => hkeep' y (hkeep y hy)⟩
    rcases List.mem_cons.mp hy with rfl | hy
    · exact hkeep' y hxu
    · exact hall y hy

/-- A loop returns, or fails as one of its turns does. -/
theorem foldlM_returns {P : σ → Prop} {Q : ε → Prop} {f : σ → α → Except ε σ} {xs : List α} {s : σ}
    (hkeep : ∀ s x t, x ∈ xs → P s → f s x = .ok t → P t)
    (hstep : ∀ s x, x ∈ xs → P s → (∃ t, f s x = .ok t) ∨ ∃ e, f s x = .error e ∧ Q e) (hs : P s) :
    (∃ t, xs.foldlM f s = .ok t) ∨ ∃ e, xs.foldlM f s = .error e ∧ Q e := by
  induction xs generalizing s with
  | nil => exact Or.inl ⟨s, rfl⟩
  | cons x xs ih =>
    rw [List.foldlM_cons]
    rcases hstep s x (by simp) hs with ⟨u, hu⟩ | ⟨e, he, hq⟩
    · rw [hu]
      exact ih (fun s y t hy => hkeep s y t (by simp [hy])) (fun s y hy => hstep s y (by simp [hy]))
        (hkeep s x u (by simp) hs hu)
    · rw [he]
      exact Or.inr ⟨e, rfl, hq⟩

/-- Every turn that a loop takes meets a condition. -/
def EachStep (f : σ → α → Except ε σ) (c : σ → α → Prop) (s : σ) : List α → Prop
  | [] => True
  | x :: xs => c s x ∧ ∀ t, f s x = .ok t → EachStep f c t xs

instance decidableEachStep {f : σ → α → Except ε σ} {c : σ → α → Prop} [∀ s x, Decidable (c s x)] :
    ∀ (s : σ) (xs : List α), Decidable (EachStep f c s xs)
  | _, [] => .isTrue trivial
  | s, x :: xs =>
    match h : f s x with
    | .error _ => decidable_of_iff (c s x) ⟨fun hc => ⟨hc, fun _ hstep => (nomatch h.symm.trans hstep)⟩, fun hc => hc.1⟩
    | .ok t =>
      have := decidableEachStep (f := f) (c := c) t xs
      decidable_of_iff (c s x ∧ EachStep f c t xs)
        ⟨fun hc => ⟨hc.1, fun _ hstep => Except.ok.inj (h.symm.trans hstep) ▸ hc.2⟩, fun hc => ⟨hc.1, hc.2 t h⟩⟩

theorem EachStep.left {f : σ → α → Except ε σ} {c : σ → α → Prop} {xs ys : List α} {s : σ}
    (h : EachStep f c s (xs ++ ys)) : EachStep f c s xs := by
  induction xs generalizing s with
  | nil => trivial
  | cons x xs ih => exact ⟨h.1, fun t hstep => ih (h.2 t hstep)⟩

/-- What every turn under the condition keeps, such a loop keeps. -/
theorem EachStep.invariant {P : σ → Prop} {f : σ → α → Except ε σ} {c : σ → α → Prop} {xs : List α} {s t : σ}
    (h : EachStep f c s xs) (hstep : ∀ {s x t}, c s x → P s → f s x = .ok t → P t) (hs : P s)
    (hrun : xs.foldlM f s = .ok t) : P t := by
  induction xs generalizing s with
  | nil =>
    obtain rfl : s = t := by simpa using hrun
    exact hs
  | cons x xs ih =>
    obtain ⟨u, hu, hrun⟩ := foldlM_cons_eq_ok.mp hrun
    exact ih (h.2 u hu) (hstep h.1 hs hu) hrun

/-- A loop whose turns under the condition follow those of another loop follows it to the end. -/
theorem EachStep.simulates {τ : Type} {g : τ → α → τ} {f : σ → α → Except ε σ} {c : σ → α → Prop} {xs : List α} {s : σ}
    (h : EachStep f c s xs) (abs : σ → τ) (hstep : ∀ s x, c s x → ∃ t, f s x = .ok t ∧ abs t = g (abs s) x) :
    ∃ t, xs.foldlM f s = .ok t ∧ abs t = xs.foldl g (abs s) := by
  induction xs generalizing s with
  | nil => exact ⟨s, rfl, rfl⟩
  | cons x xs ih =>
    obtain ⟨u, hu, habs⟩ := hstep s x h.1
    obtain ⟨t, ht, hend⟩ := ih (h.2 u hu)
    refine ⟨t, foldlM_cons_eq_ok.mpr ⟨u, hu, ht⟩, ?_⟩
    rw [hend, habs, List.foldl_cons]

/-- A map that succeeds does so element by element. -/
theorem mapM_eq_ok {f : α → Except ε β} {xs : List α} {ys : List β} :
    xs.mapM f = .ok ys ↔ List.Forall₂ (fun x y => f x = .ok y) xs ys := by
  induction xs generalizing ys with
  | nil =>
    rw [List.mapM_nil, pure_eq_ok, List.forall₂_nil_left_iff, eq_comm]
  | cons x xs ih =>
    simp only [List.mapM_cons, bind_eq_ok, pure_eq_ok, List.forall₂_cons_left_iff, ih]
    constructor
    · rintro ⟨y, hy, zs, hzs, rfl⟩
      exact ⟨y, zs, hy, hzs, rfl⟩
    · rintro ⟨y, zs, hy, hzs, rfl⟩
      exact ⟨y, hy, zs, hzs, rfl⟩

theorem exists_of_forall₂_left {R : α → β → Prop} {xs : List α} {ys : List β} (h : List.Forall₂ R xs ys) :
    ∀ x ∈ xs, ∃ y ∈ ys, R x y := by
  induction h with
  | nil => simp
  | cons hxy _ ih =>
    intro x hx
    rcases List.mem_cons.mp hx with rfl | hx
    · exact ⟨_, by simp, hxy⟩
    · obtain ⟨y, hy, hr⟩ := ih x hx
      exact ⟨y, by simp [hy], hr⟩

theorem exists_forall₂ {R : α → β → Prop} {xs : List α} (h : ∀ x ∈ xs, ∃ y, R x y) : ∃ ys, List.Forall₂ R xs ys := by
  induction xs with
  | nil => exact ⟨[], .nil⟩
  | cons x xs ih =>
    obtain ⟨y, hy⟩ := h x (by simp)
    obtain ⟨ys, hys⟩ := ih fun z hz => h z (by simp [hz])
    exact ⟨y :: ys, .cons hy hys⟩

theorem mapM_ok_left {f : α → Except ε β} {xs : List α} {ys : List β} (h : xs.mapM f = .ok ys) :
    ∀ x ∈ xs, ∃ y ∈ ys, f x = .ok y := exists_of_forall₂_left (mapM_eq_ok.mp h)

theorem mapM_ok_right {f : α → Except ε β} {xs : List α} {ys : List β} (h : xs.mapM f = .ok ys) :
    ∀ y ∈ ys, ∃ x ∈ xs, f x = .ok y := exists_of_forall₂_left (mapM_eq_ok.mp h).flip

/-- A map whose function succeeds exactly under a condition, with a known result. -/
theorem mapM_eq_ok_map {f : α → Except ε β} {p : α → Prop} {g : α → β}
    (hf : ∀ x y, f x = .ok y ↔ p x ∧ y = g x) {xs : List α} {ys : List β} :
    xs.mapM f = .ok ys ↔ (∀ x ∈ xs, p x) ∧ ys = xs.map g := by
  induction xs generalizing ys with
  | nil =>
    rw [List.mapM_nil, pure_eq_ok]
    simp [eq_comm]
  | cons x xs ih =>
    simp only [List.mapM_cons, bind_eq_ok, pure_eq_ok, hf, ih]
    constructor
    · rintro ⟨y, ⟨hx, rfl⟩, zs, ⟨hxs, rfl⟩, rfl⟩
      exact ⟨by simpa using ⟨hx, hxs⟩, by simp⟩
    · rintro ⟨hp, rfl⟩
      exact ⟨g x, ⟨hp x (by simp), rfl⟩, xs.map g, ⟨fun z hz => hp z (by simp [hz]), rfl⟩, by simp⟩

/-- A conjunction that is found true has gone through all elements. -/
theorem allM_eq_true {f : α → Except ε Bool} {xs : List α} : xs.allM f = .ok true ↔ ∀ x ∈ xs, f x = .ok true := by
  induction xs with
  | nil => simp [List.allM]
  | cons x xs ih =>
    rw [List.allM, bind_eq_ok, List.forall_mem_cons]
    constructor
    · rintro ⟨b, hb, h⟩
      cases b with
      | false => cases h
      | true => exact ⟨hb, ih.mp h⟩
    · rintro ⟨hx, h⟩
      exact ⟨true, hx, ih.mpr h⟩

/-- A conjunction that is found false has come to an element that is. -/
theorem exists_of_allM_false {f : α → Except ε Bool} {xs : List α} (h : xs.allM f = .ok false) :
    ∃ x ∈ xs, f x = .ok false := by
  induction xs with
  | nil => cases h
  | cons x xs ih =>
    rw [List.allM] at h
    obtain ⟨b, hb, h⟩ := bind_eq_ok.mp h
    cases b with
    | false => exact ⟨x, by simp, hb⟩
    | true =>
      obtain ⟨y, hy, hf⟩ := ih h
      exact ⟨y, by simp [hy], hf⟩

/-- A conjunction returns when every element does that it comes to. -/
theorem allM_returns_iff {f : α → Except ε Bool} {xs : List α} :
    (∃ b, xs.allM f = .ok b) ↔
      ∀ before x after, xs = before ++ x :: after → (∀ y ∈ before, f y = .ok true) → ∃ b, f x = .ok b := by
  induction xs with
  | nil => exact ⟨fun _ before x after h => by simp at h, fun _ => ⟨true, rfl⟩⟩
  | cons x xs ih =>
    rw [List.allM]
    constructor
    · rintro ⟨b, h⟩ before y after hsplit hbefore
      obtain ⟨c, hc, h⟩ := bind_eq_ok.mp h
      cases before with
      | nil =>
        obtain ⟨rfl, _⟩ := List.cons.inj hsplit
        exact ⟨c, hc⟩
      | cons z before =>
        obtain ⟨rfl, hrest⟩ := List.cons.inj hsplit
        obtain rfl : c = true := Except.ok.inj (hc.symm.trans (hbefore x (by simp)))
        exact ih.mp ⟨b, h⟩ before y after hrest fun w hw => hbefore w (by simp [hw])
    · intro h
      obtain ⟨b, hb⟩ := h [] x xs rfl (by simp)
      cases b with
      | false => exact ⟨false, bind_eq_ok.mpr ⟨false, hb, rfl⟩⟩
      | true =>
        obtain ⟨b, hrest⟩ := ih.mpr fun before y after hsplit hbefore =>
          h (x :: before) y after (by rw [hsplit]; rfl) (by simpa using ⟨hb, hbefore⟩)
        exact ⟨b, bind_eq_ok.mpr ⟨true, hb, hrest⟩⟩

/-- A test of the result, false when there is none. -/
def okAnd (p : α → Bool) : Except ε α → Bool
  | .ok a => p a
  | .error _ => false

theorem okAnd_eq_true {p : α → Bool} {x : Except ε α} : okAnd p x = true ↔ ∃ a, x = .ok a ∧ p a = true := by
  cases x with
  | error e => simp [okAnd]
  | ok a => simp [okAnd]

/-- A test for one error. -/
def failsWith [DecidableEq ε] (e : ε) : Except ε α → Bool
  | .ok _ => false
  | .error e' => decide (e' = e)

theorem failsWith_eq_true [DecidableEq ε] {e : ε} {x : Except ε α} : failsWith e x = true ↔ x = .error e := by
  cases x with
  | error e' => simp [failsWith]
  | ok a => simp [failsWith]

theorem bind_eq_error {x : Except ε α} {f : α → Except ε β} {e : ε} :
    (x >>= f) = .error e ↔ x = .error e ∨ ∃ a, x = .ok a ∧ f a = .error e := by
  cases x with
  | error e' => simp [bind, Except.bind]
  | ok a => simp [bind, Except.bind]

theorem map_eq_error {x : Except ε α} {f : α → β} {e : ε} : x.map f = .error e ↔ x = .error e := by
  cases x with
  | error e' => simp [Except.map]
  | ok a => simp [Except.map]

end Fallible
