import Mathlib.Data.List.Induction

/-!
# Lists of items that follow each other

`ok s x` says that item `x` may come next in state `s`, and `next x` is the
state it leads to. A trail is a list of items each of which may come next.
-/
namespace Trail

variable {σ α : Type} (next : α → σ) (ok : σ → α → Prop)

/-- The state a list of items leads to. -/
def finish (s : σ) (xs : List α) : σ := xs.foldl (fun _ x => next x) s

/-- Each item may come next in the state that the one before leads to. -/
def Valid : σ → List α → Prop
  | _, [] => True
  | s, x :: xs => ok s x ∧ Valid (next x) xs

@[simp] theorem finish_nil (s : σ) : finish next s [] = s := rfl

@[simp] theorem finish_cons (s : σ) (x : α) (xs : List α) :
    finish next s (x :: xs) = finish next (next x) xs := rfl

theorem finish_append (s : σ) (xs ys : List α) :
    finish next s (xs ++ ys) = finish next (finish next s xs) ys := List.foldl_append

@[simp] theorem finish_concat (s : σ) (xs : List α) (x : α) : finish next s (xs ++ [x]) = next x := by
  rw [finish_append, finish_cons, finish_nil]

variable {next ok}

theorem valid_append {s : σ} {xs ys : List α} :
    Valid next ok s (xs ++ ys) ↔ Valid next ok s xs ∧ Valid next ok (finish next s xs) ys := by
  induction xs generalizing s with
  | nil => simp [Valid]
  | cons x xs ih => simp [Valid, ih, and_assoc]

theorem Valid.mono {ok' : σ → α → Prop} (himp : ∀ s x, ok s x → ok' s x) {s : σ} {xs : List α}
    (h : Valid next ok s xs) : Valid next ok' s xs := by
  induction xs generalizing s with
  | nil => trivial
  | cons x xs ih => exact ⟨himp s x h.1, ih h.2⟩

/-- The item at a position may follow what comes before it. -/
theorem Valid.at {s : σ} {xs : List α} (h : Valid next ok s xs) {k : Nat} {x : α} (hk : xs[k]? = some x) :
    ok (finish next s (xs.take k)) x := by
  induction xs generalizing s k with
  | nil => simp at hk
  | cons y xs ih =>
    cases k with
    | zero =>
      obtain rfl : y = x := by simpa using hk
      exact h.1
    | succ k => exact ih h.2 (by simpa using hk)

/-- The state reached by an item is its own. -/
theorem finish_take_succ (s : σ) {xs : List α} {k : Nat} {x : α} (hk : xs[k]? = some x) :
    finish next s (xs.take (k + 1)) = next x := by
  rw [List.take_add_one, hk]
  simp

/-- The same trail, with states seen through a function. -/
theorem Valid.image {τ : Type} {next' : α → τ} {ok' : τ → α → Prop} (f : σ → τ) (hnext : ∀ x, next' x = f (next x))
    (hok : ∀ s x, ok s x → ok' (f s) x) {s : σ} {xs : List α} (h : Valid next ok s xs) : Valid next' ok' (f s) xs := by
  induction xs generalizing s with
  | nil => trivial
  | cons x xs ih => exact ⟨hok s x h.1, hnext x ▸ ih h.2⟩

end Trail
