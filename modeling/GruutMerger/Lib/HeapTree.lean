import Mathlib.Algebra.Group.Nat.Defs
import Mathlib.Data.List.Basic
import Mathlib.Data.List.GetD
import Mathlib.Data.List.Induction
import Mathlib.Logic.Function.Iterate

/-!
# Complete binary trees in one list

A complete tree over `n` leaves laid out in one list, leaves first: the nodes
`2 * i` and `2 * i + 1` have their parent at `n + i`, so the root comes last.
Filling the parents from left to right reads only finished nodes. When the
function that makes a parent can be undone, the root determines the tree.
-/
namespace HeapTree

variable {α : Type}

/-- Every parent is made from its two children. -/
def Paired (f : α → α → α) (n : Nat) (t : Nat → α) : Prop :=
  ∀ i, i + 1 < n → t (n + i) = f (t (2 * i)) (t (2 * i + 1))

/-- Two trees with the same root are the same, as far as parents determine their
children at every place. -/
theorem Paired.eq_of_root {f : α → α → α} {n : Nat} {t u : Nat → α} (ht : Paired f n t) (hu : Paired f n u)
    (hinj : ∀ i, i + 1 < n → f (t (2 * i)) (t (2 * i + 1)) = f (u (2 * i)) (u (2 * i + 1)) →
      t (2 * i) = u (2 * i) ∧ t (2 * i + 1) = u (2 * i + 1))
    (hroot : t (2 * n - 2) = u (2 * n - 2)) : ∀ j, j ≤ 2 * n - 2 → t j = u j := by
  -- downwards from the root: the parent of node `j` stands to its right
  have hdown : ∀ k j, j + k = 2 * n - 2 → t j = u j := by
    intro k
    induction k using Nat.strongRecOn with
    | ind k ih =>
      intro j hj
      by_cases hk : k = 0
      · have hlast : j = 2 * n - 2 := by omega
        rw [hlast, hroot]
      · have hparent : t (n + j / 2) = u (n + j / 2) :=
          ih (2 * n - 2 - (n + j / 2)) (by omega) (n + j / 2) (by omega)
        rw [ht (j / 2) (by omega), hu (j / 2) (by omega)] at hparent
        obtain ⟨hleft, hright⟩ := hinj (j / 2) (by omega) hparent
        rcases Nat.mod_two_eq_zero_or_one j with hmod | hmod
        · rwa [show 2 * (j / 2) = j by omega] at hleft
        · rwa [show 2 * (j / 2) + 1 = j by omega] at hright
  intro j hj
  exact hdown (2 * n - 2 - j) j (by omega)

/-- The leaves determine the tree. -/
theorem Paired.eq_of_leaves {f : α → α → α} {n : Nat} {t u : Nat → α} (ht : Paired f n t) (hu : Paired f n u)
    (hleaf : ∀ j, j < n → t j = u j) : ∀ j, j < 2 * n - 1 → t j = u j := by
  intro j
  induction j using Nat.strongRecOn with
  | ind j ih =>
    intro hj
    by_cases hlt : j < n
    · exact hleaf j hlt
    · have hparent : j = n + (j - n) := by omega
      rw [hparent, ht (j - n) (by omega), hu (j - n) (by omega), ih (2 * (j - n)) (by omega) (by omega),
        ih (2 * (j - n) + 1) (by omega) (by omega)]

/-- Where level `k` begins in a tree over `2 ^ h` leaves. -/
def levelStart (h k : Nat) : Nat := 2 ^ (h + 1) - 2 ^ (h + 1 - k)

@[simp] theorem levelStart_zero (h : Nat) : levelStart h 0 = 0 := by simp [levelStart]

theorem two_pow_sub {h k : Nat} (hk : k < h) : 2 ^ (h - k) = 2 * 2 ^ (h - (k + 1)) := by
  rw [show h - k = h - (k + 1) + 1 by omega, Nat.pow_succ, Nat.mul_comm]

/-- What is left from the start of a level on. -/
theorem levelStart_add {h k : Nat} (hk : k ≤ h) : levelStart h k + 2 * 2 ^ (h - k) = 2 * 2 ^ h := by
  have hle : 2 ^ (h + 1 - k) ≤ 2 ^ (h + 1) := Nat.pow_le_pow_right (by decide) (by omega)
  rw [show h - k = h + 1 - (k + 1) by omega, ← two_pow_sub (by omega), levelStart, Nat.sub_add_cancel hle,
    Nat.pow_succ, Nat.mul_comm]

theorem levelStart_succ {h k : Nat} (hk : k < h) : levelStart h (k + 1) = levelStart h k + 2 ^ (h - k) := by
  have hhere := levelStart_add (Nat.le_of_lt hk)
  have hnext := levelStart_add (k := k + 1) hk
  have hhalf := two_pow_sub hk
  omega

/-- The starts are even, so a node is a right child where its place is odd. -/
theorem levelStart_even {h k : Nat} (hk : k ≤ h) : levelStart h k % 2 = 0 := by
  have hhere := levelStart_add hk
  omega

theorem levelStart_add_lt {h k i : Nat} (hk : k ≤ h) (hi : i < 2 ^ (h - k)) :
    levelStart h k + i < 2 * 2 ^ h - 1 := by
  have hhere := levelStart_add hk
  omega

/-- A node of one level is made from two neighbours of the level below. -/
theorem Paired.level {f : α → α → α} {h k i : Nat} {t : Nat → α} (ht : Paired f (2 ^ h) t) (hk : k < h)
    (hi : i < 2 ^ (h - (k + 1))) : t (levelStart h (k + 1) + i) =
      f (t (levelStart h k + 2 * i)) (t (levelStart h k + (2 * i + 1))) := by
  have hhere := levelStart_add (Nat.le_of_lt hk)
  have hnext := levelStart_succ hk
  have hhalf := two_pow_sub hk
  have hparent := ht (levelStart h k / 2 + i) (by omega)
  rw [show 2 ^ h + (levelStart h k / 2 + i) = levelStart h (k + 1) + i by omega,
    show 2 * (levelStart h k / 2 + i) = levelStart h k + 2 * i by omega] at hparent
  exact hparent

/-- Node `i` of level `k` of the perfect tree over some leaves. -/
def perfect (f : α → α → α) (leaf : Nat → α) : Nat → Nat → α
  | 0, i => leaf i
  | k + 1, i => f (perfect f leaf k (2 * i)) (perfect f leaf k (2 * i + 1))

theorem Paired.perfect {f : α → α → α} {h : Nat} {t leaf : Nat → α} (ht : Paired f (2 ^ h) t)
    (hleaf : ∀ i, i < 2 ^ h → t i = leaf i) {k : Nat} (hk : k ≤ h) {i : Nat} (hi : i < 2 ^ (h - k)) :
    t (levelStart h k + i) = HeapTree.perfect f leaf k i := by
  induction k generalizing i with
  | zero =>
    rw [levelStart_zero, Nat.zero_add]
    exact hleaf i hi
  | succ k ih =>
    have hhalf := two_pow_sub hk
    rw [ht.level (by omega) hi, ih (by omega) (by omega), ih (by omega) (by omega), HeapTree.perfect]

theorem perfect_const (f : α → α → α) (a : α) (k i : Nat) :
    perfect f (fun _ => a) k i = (fun x => f x x)^[k] a := by
  induction k generalizing i with
  | zero => rfl
  | succ k ih => rw [perfect, ih, ih, Function.iterate_succ_apply']

/-- One step up: the neighbour stands on the right where the flag is set. -/
def combine (f : α → α → α) (x : α) (s : Bool × α) : α := if s.1 then f x s.2 else f s.2 x

/-- The other child of the same parent. -/
def neighbour (i : Nat) : Nat := if i % 2 = 0 then i + 1 else i - 1

theorem combine_perfect (f : α → α → α) (leaf : Nat → α) (k i : Nat) :
    combine f (perfect f leaf k i) (decide (i % 2 = 0), perfect f leaf k (neighbour i)) =
      perfect f leaf (k + 1) (i / 2) := by
  rw [perfect, combine, neighbour]
  by_cases h : i % 2 = 0
  · rw [if_pos (by simpa using h), if_pos h, show 2 * (i / 2) = i by omega]
  · rw [if_neg (by simpa using h), if_neg h, show 2 * (i / 2) = i - 1 by omega, show i - 1 + 1 = i by omega]

/-- A path that reaches a node starts at one, as many levels below as it is long,
when each of its steps that gives a node starts at a child of it. -/
theorem exists_perfect_of_path {f : α → α → α} {leaf : Nat → α} {x : α} {path : List (Bool × α)} {h top i : Nat}
    (hback : ∀ front s back, path = front ++ s :: back → ∀ k < top, ∀ i < 2 ^ (h - (k + 1)),
      combine f (front.foldl (combine f) x) s = perfect f leaf (k + 1) i →
        front.foldl (combine f) x = perfect f leaf k (2 * i) ∨
          front.foldl (combine f) x = perfect f leaf k (2 * i + 1))
    (hlen : path.length ≤ top) (htop : top ≤ h) (hi : i < 2 ^ (h - top))
    (hend : path.foldl (combine f) x = perfect f leaf top i) :
    ∃ j, j < 2 ^ (h - (top - path.length)) ∧ x = perfect f leaf (top - path.length) j := by
  induction path using List.reverseRecOn generalizing top i with
  | nil => exact ⟨i, hi, hend⟩
  | append_singleton path s ih =>
    rw [List.length_append, List.length_singleton] at hlen ⊢
    obtain ⟨k, rfl⟩ : ∃ k, top = k + 1 := ⟨top - 1, by omega⟩
    have hhalf := two_pow_sub (h := h) (k := k) (by omega)
    rw [List.foldl_append] at hend
    have hprev : ∀ front s' back, path = front ++ s' :: back → ∀ l < k, ∀ i < 2 ^ (h - (l + 1)),
        combine f (front.foldl (combine f) x) s' = perfect f leaf (l + 1) i →
          front.foldl (combine f) x = perfect f leaf l (2 * i) ∨
            front.foldl (combine f) x = perfect f leaf l (2 * i + 1) :=
      fun front s' back hsplit l hl => hback front s' (back ++ [s]) (by simp [hsplit]) l (by omega)
    rw [show k + 1 - (path.length + 1) = k - path.length by omega]
    rcases hback path s [] rfl k (by omega) i hi hend with hnode | hnode
    · exact ih hprev (by omega) (by omega) (by omega) hnode
    · exact ih hprev (by omega) (by omega) (by omega) hnode

theorem length_foldl {β : Type} {s : List α → β → List α} (h : ∀ t i, (s t i).length = t.length)
    (is : List β) (t : List α) : (is.foldl s t).length = t.length := by
  induction is generalizing t with
  | nil => rfl
  | cons i is ih => rw [List.foldl_cons, ih, h]

/-- Setting a first part of a list place by place. -/
theorem getD_foldl_set (g : Nat → α) (d : α) (k : Nat) (t : List α) (hk : k ≤ t.length) (j : Nat) :
    ((List.range k).foldl (fun m i => m.set i (g i)) t).getD j d = if j < k then g j else t.getD j d := by
  induction k with
  | zero => simp
  | succ k ih =>
    have hlen : ((List.range k).foldl (fun m i => m.set i (g i)) t).length = t.length :=
      length_foldl (fun _ _ => List.length_set) _ _
    rw [List.range_succ, List.foldl_append, List.foldl_cons, List.foldl_nil, List.getD_eq_getElem?_getD,
      List.getElem?_set]
    by_cases hj : k = j
    · subst hj
      rw [if_pos rfl, if_pos (by omega), if_pos (by omega)]
      rfl
    · rw [if_neg hj, ← List.getD_eq_getElem?_getD, ih (by omega)]
      by_cases hlt : j < k
      · rw [if_pos hlt, if_pos (by omega)]
      · rw [if_neg hlt, if_neg (by omega)]

/-- The parent of two neighbours goes to the next free place. -/
def putParent (f : α → α → α) (d : α) (n : Nat) (t : List α) (i : Nat) : List α :=
  t.set (n + i) (f (t.getD (2 * i) d) (t.getD (2 * i + 1) d))

def putParents (f : α → α → α) (d : α) (n k : Nat) (t : List α) : List α :=
  (List.range k).foldl (putParent f d n) t

theorem putParents_succ (f : α → α → α) (d : α) (n k : Nat) (t : List α) :
    putParents f d n (k + 1) t = putParent f d n (putParents f d n k t) k := by
  rw [putParents, List.range_succ, List.foldl_append]
  rfl

@[simp] theorem length_putParents (f : α → α → α) (d : α) (n k : Nat) (t : List α) :
    (putParents f d n k t).length = t.length := length_foldl (fun _ _ => List.length_set) _ _

/-- A place that is not filled yet keeps its value, in particular a leaf. -/
theorem getD_putParents_of_lt (f : α → α → α) (d : α) (n k : Nat) (t : List α) {j : Nat}
    (hj : j < n ∨ n + k ≤ j) : (putParents f d n k t).getD j d = t.getD j d := by
  induction k with
  | zero => rfl
  | succ k ih =>
    rw [putParents_succ, putParent, List.getD_eq_getElem?_getD, List.getElem?_set_ne (by omega),
      ← List.getD_eq_getElem?_getD]
    exact ih (by omega)

/-- A place stays as it is once it is filled. -/
theorem getD_putParents_filled (f : α → α → α) (d : α) (n : Nat) (t : List α) {j k l : Nat} (hj : j < n + k)
    (hkl : k ≤ l) : (putParents f d n l t).getD j d = (putParents f d n k t).getD j d := by
  induction l with
  | zero =>
    obtain rfl : k = 0 := by omega
    rfl
  | succ l ih =>
    rcases Nat.lt_or_ge l k with hlt | hge
    · obtain rfl : k = l + 1 := by omega
      rfl
    · rw [putParents_succ, putParent, List.getD_eq_getElem?_getD, List.getElem?_set_ne (by omega),
        ← List.getD_eq_getElem?_getD, ih hge]

theorem paired_putParents (f : α → α → α) (d : α) (n : Nat) {t : List α} (hlen : 2 * n - 1 ≤ t.length) :
    Paired f n fun j => (putParents f d n (n - 1) t).getD j d := by
  intro i hi
  have hat : ∀ j, j < n + i → (putParents f d n (n - 1) t).getD j d = (putParents f d n i t).getD j d :=
    fun j hj => getD_putParents_filled f d n t hj (by omega)
  have hparent : (putParents f d n (n - 1) t).getD (n + i) d = (putParents f d n (i + 1) t).getD (n + i) d :=
    getD_putParents_filled f d n t (by omega) (by omega)
  simp only [hparent, hat (2 * i) (by omega), hat (2 * i + 1) (by omega)]
  have hin : n + i < (putParents f d n i t).length := by
    rw [length_putParents]
    omega
  rw [putParents_succ, putParent, List.getD_eq_getElem?_getD, List.getElem?_set_self hin]
  rfl

end HeapTree
