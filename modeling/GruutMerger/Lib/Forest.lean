import Mathlib.Data.List.Nodup
import Mathlib.Algebra.Order.BigOperators.Group.List
import Mathlib.Algebra.GroupWithZero.Nat
import Mathlib.Algebra.Order.Group.Nat

/-!
# Levelled forests with positional parents

A forest is a list of levels, and `par` gives each entry the index of its
parent in the level above, or a negative number when it has none. Everything
below an index of the level above is listed by `preorder`, walked by `dfs`, and
related to parent links by `Chain`. A walk up is `ascend`.
-/
namespace Forest

variable {α β : Type} (par : α → Int)

/-- Entry `j` of level `i`. -/
def node (f : List (List α)) (i j : Nat) : Option α := (f.getD i [])[j]?

@[simp] theorem node_nil (i j : Nat) : node ([] : List (List α)) i j = none := by simp [node]

@[simp] theorem node_cons_zero (level : List α) (rest : List (List α)) (j : Nat) :
    node (level :: rest) 0 j = level[j]? := by simp [node]

@[simp] theorem node_cons_succ (level : List α) (rest : List (List α)) (i j : Nat) :
    node (level :: rest) (i + 1) j = node rest i j := by simp [node]

theorem node_drop (f : List (List α)) (n i j : Nat) : node (f.drop n) i j = node f (n + i) j := by
  simp [node, List.getD_eq_getElem?_getD, List.getElem?_drop]

/-- `Chain f k d j e`: entry `e` stands at level `d`, index `j`, and its parent
links lead up to index `k` of the level above the forest. -/
inductive Chain (f : List (List α)) (k : Nat) : Nat → Nat → α → Prop where
  | top {j : Nat} {e : α} (h : node f 0 j = some e) (hp : par e = k) : Chain f k 0 j e
  | step {d i j : Nat} {a e : α} (h : Chain f k d i a) (hn : node f (d + 1) j = some e)
      (hp : par e = i) : Chain f k (d + 1) j e

variable {par}

theorem Chain.node_eq {f : List (List α)} {k d j : Nat} {e : α} (h : Chain par f k d j e) :
    node f d j = some e := by
  cases h <;> assumption

/-- The first link of a chain, split off at the top level. -/
theorem chain_cons {level : List α} {rest : List (List α)} {k d j : Nat} {e : α} :
    Chain par (level :: rest) k (d + 1) j e ↔
      ∃ i a, level[i]? = some a ∧ par a = k ∧ Chain par rest i d j e := by
  constructor
  · intro h
    induction d generalizing j e with
    | zero =>
      cases h with
      | step h hn hp =>
        cases h with
        | top ha hk => exact ⟨_, _, by simpa using ha, hk, .top (by simpa using hn) hp⟩
    | succ d ih =>
      cases h with
      | step h hn hp =>
        obtain ⟨i, a, ha, hk, hc⟩ := ih h
        exact ⟨i, a, ha, hk, .step hc (by simpa using hn) hp⟩
  · rintro ⟨i, a, ha, hk, h⟩
    induction h with
    | top hn hp => exact .step (.top (by simpa using ha) hk) (by simpa using hn) hp
    | step _ hn hp ih => exact .step ih (by simpa using hn) hp

/-- A chain only looks at the entries on it. -/
theorem Chain.mono {f g : List (List α)} {k d j : Nat} {e : α} (h : Chain par f k d j e)
    (hfg : ∀ i j a, node f i j = some a → node g i j = some a) : Chain par g k d j e := by
  induction h with
  | top hn hp => exact .top (hfg _ _ _ hn) hp
  | step _ hn hp ih => exact .step ih (hfg _ _ _ hn) hp

theorem node_map {γ : Type} (g : α → γ) (f : List (List α)) (i j : Nat) :
    node (f.map (·.map g)) i j = (node f i j).map g := by
  simp only [node, List.getD_eq_getElem?_getD, List.getElem?_map]
  cases f[i]? <;> simp

/-- Chains of a forest whose entries are mapped, keeping the parent indices. -/
theorem chain_map {γ : Type} {par' : γ → Int} {g : α → γ} (hg : ∀ a, par' (g a) = par a)
    {f : List (List α)} {k d j : Nat} {b : γ} :
    Chain par' (f.map (·.map g)) k d j b ↔ ∃ e, g e = b ∧ Chain par f k d j e := by
  constructor
  · intro h
    induction h with
    | top hn hp =>
      rw [node_map, Option.map_eq_some_iff] at hn
      obtain ⟨e, he, rfl⟩ := hn
      exact ⟨e, rfl, .top he (by rw [← hg, hp])⟩
    | step _ hn hp ih =>
      rw [node_map, Option.map_eq_some_iff] at hn
      obtain ⟨e, he, rfl⟩ := hn
      obtain ⟨a, _, hc⟩ := ih
      exact ⟨e, rfl, .step hc he (by rw [← hg, hp])⟩
  · rintro ⟨e, rfl, h⟩
    induction h with
    | top hn hp => exact .top (by rw [node_map, hn]; rfl) (by rw [hg, hp])
    | step _ hn hp ih => exact .step ih (by rw [node_map, hn]; rfl) (by rw [hg, hp])

variable (par)

/-- `Hangs f k i q anc`: an entry of level `i` with parent index `q` is below index
`k` of the level above the forest, and `anc` are its ancestors, nearest first. -/
def Hangs (f : List (List α)) (k : Nat) : Nat → Int → List α → Prop
  | 0, q, anc => q = k ∧ anc = []
  | i + 1, q, anc => ∃ (j : Nat) (a : α) (up : List α), q = j ∧ node f i j = some a ∧ anc = a :: up ∧
      Hangs f k i (par a) up

variable {par}

theorem Hangs.unique {f : List (List α)} {k i : Nat} {q : Int} {anc anc' : List α} (h : Hangs par f k i q anc)
    (h' : Hangs par f k i q anc') : anc = anc' := by
  induction i generalizing q anc anc' with
  | zero => rw [h.2, h'.2]
  | succ i ih =>
    obtain ⟨j, a, up, rfl, ha, rfl, hup⟩ := h
    obtain ⟨j', a', up', hj, ha', rfl, hup'⟩ := h'
    obtain rfl : j = j' := Int.ofNat.inj hj
    obtain rfl : a = a' := Option.some.inj (ha.symm.trans ha')
    rw [ih hup hup']

theorem Hangs.congr {f g : List (List α)} {k i : Nat} {q : Int} {anc : List α} (h : Hangs par f k i q anc)
    (hfg : ∀ d < i, ∀ j, node g d j = node f d j) : Hangs par g k i q anc := by
  induction i generalizing q anc with
  | zero => exact h
  | succ i ih =>
    obtain ⟨j, a, up, hj, ha, hanc, hup⟩ := h
    exact ⟨j, a, up, hj, (hfg i (by omega) j).trans ha, hanc, ih hup fun d hd => hfg d (by omega)⟩

theorem chain_iff_hangs {f : List (List α)} {k d j : Nat} {e : α} :
    Chain par f k d j e ↔ node f d j = some e ∧ ∃ anc, Hangs par f k d (par e) anc := by
  constructor
  · intro h
    induction h with
    | top hn hp => exact ⟨hn, [], hp, rfl⟩
    | @step d i j a e _ hn hp ih =>
      obtain ⟨ha, up, hup⟩ := ih
      exact ⟨hn, a :: up, i, a, up, hp, ha, rfl, hup⟩
  · rintro ⟨hn, anc, h⟩
    induction d generalizing j e anc with
    | zero => exact .top hn h.1
    | succ d ih =>
      obtain ⟨i, a, up, hi, ha, _, hup⟩ := h
      exact .step (ih ha up hup) hn hi

/-- The farthest ancestor, split off at the top level. -/
theorem hangs_cons {level : List α} {rest : List (List α)} {k i : Nat} {q : Int} {anc : List α} :
    Hangs par (level :: rest) k (i + 1) q anc ↔ ∃ j a anc', level[j]? = some a ∧ par a = k ∧
      anc = anc' ++ [a] ∧ Hangs par rest j i q anc' := by
  constructor
  · intro h
    induction i generalizing q anc with
    | zero =>
      obtain ⟨j, a, up, rfl, ha, rfl, hk, rfl⟩ := h
      exact ⟨j, a, [], by simpa using ha, hk, rfl, rfl, rfl⟩
    | succ i ih =>
      obtain ⟨j, a, up, rfl, ha, rfl, hup⟩ := h
      obtain ⟨r, b, anc', hb, hk, rfl, hrest⟩ := ih hup
      exact ⟨r, b, a :: anc', hb, hk, rfl, j, a, anc', rfl, by simpa using ha, rfl, hrest⟩
  · rintro ⟨r, b, anc', hb, hk, rfl, h⟩
    induction i generalizing q anc' with
    | zero =>
      obtain ⟨rfl, rfl⟩ := h
      exact ⟨r, b, [], rfl, by simpa using hb, rfl, hk, rfl⟩
    | succ i ih =>
      obtain ⟨j, a, up, rfl, ha, rfl, hup⟩ := h
      exact ⟨j, a, up ++ [b], rfl, by simpa using ha, rfl, ih up hup⟩

variable (par)

/-- An entry of level `i` with parent index `q` has its ancestors all the way to the
first level. -/
def Grounded (f : List (List α)) : Nat → Int → Prop
  | 0, _ => True
  | i + 1, q => ∃ (j : Nat) (a : α), q = j ∧ node f i j = some a ∧ Grounded f i (par a)

variable {par}

theorem Hangs.grounded {f : List (List α)} {k i : Nat} {q : Int} {anc : List α} (h : Hangs par f k i q anc) :
    Grounded par f i q := by
  induction i generalizing q anc with
  | zero => trivial
  | succ i ih =>
    obtain ⟨j, a, up, hj, ha, _, hup⟩ := h
    exact ⟨j, a, hj, ha, ih hup⟩

theorem Grounded.nonneg {f : List (List α)} {i : Nat} {q : Int} (h : Grounded par f i q) : i = 0 ∨ 0 ≤ q := by
  cases i with
  | zero => exact Or.inl rfl
  | succ i =>
    obtain ⟨j, _, hj, _⟩ := h
    exact Or.inr (by omega)

/-- Ancestors stay when the entries that can be one do. -/
theorem Grounded.mono {f g : List (List α)} {i : Nat} {q : Int} (h : Grounded par f i q)
    (hfg : ∀ d j a, node f d j = some a → d = 0 ∨ 0 ≤ par a →
      ∃ b, node g d j = some b ∧ (d = 0 ∨ par b = par a)) : Grounded par g i q := by
  induction i generalizing q with
  | zero => trivial
  | succ i ih =>
    obtain ⟨j, a, hj, ha, hup⟩ := h
    cases i with
    | zero =>
      obtain ⟨b, hb, _⟩ := hfg 0 j a ha (Or.inl rfl)
      exact ⟨j, b, hj, hb, trivial⟩
    | succ i =>
      obtain ⟨b, hb, hpar⟩ := hfg (i + 1) j a ha hup.nonneg
      exact ⟨j, b, hj, hb, (hpar.resolve_left (by omega)) ▸ ih hup⟩

/-- The first level taken away. -/
theorem Grounded.tail {level : List α} {rest : List (List α)} {i : Nat} {q : Int}
    (h : Grounded par (level :: rest) (i + 1) q) : Grounded par rest i q := by
  induction i generalizing q with
  | zero => trivial
  | succ i ih =>
    obtain ⟨j, a, hj, ha, hup⟩ := h
    exact ⟨j, a, hj, by simpa using ha, ih hup⟩

/-- A chain below an entry continues the chain to it. -/
theorem Chain.descend {f : List (List α)} {k i q d j : Nat} {x e : α} (h : Chain par f k i q x)
    (hc : Chain par (f.drop (i + 1)) q d j e) : Chain par f k (i + 1 + d) j e := by
  induction hc with
  | top hn hp =>
    rw [node_drop] at hn
    exact .step h hn hp
  | step _ hn hp ih =>
    rw [node_drop] at hn
    exact .step ih hn hp

variable (par)

/-- Everything below index `k` of the level above, each entry with its level and
index, in the order of a depth-first walk. -/
def preorder : List (List α) → Nat → List (Nat × Nat × α)
  | [], _ => []
  | level :: rest, k => level.zipIdx.flatMap fun x =>
    if par x.1 = k then (0, x.2, x.1) :: (preorder rest x.2).map fun t => (t.1 + 1, t.2) else []

/-- The depth-first walk itself, with an accumulator. -/
def dfs (visit : β → Nat → α → β) : List (List α) → Nat → β → β
  | [], _, b => b
  | level :: rest, k, b => level.zipIdx.foldl
    (fun b x => if par x.1 = k then dfs visit rest x.2 (visit b x.2 x.1) else b) b

variable {par}

theorem mem_preorder {f : List (List α)} {k d j : Nat} {e : α} :
    (d, j, e) ∈ preorder par f k ↔ Chain par f k d j e := by
  induction f generalizing k d with
  | nil =>
    constructor
    · intro h; simp [preorder] at h
    · intro h; have := h.node_eq; simp at this
  | cons level rest ih =>
    simp only [preorder, List.mem_flatMap]
    constructor
    · rintro ⟨x, hx, h⟩
      have hlevel := List.mem_zipIdx_iff_getElem?.mp hx
      split at h
      · rename_i hk
        rcases List.mem_cons.mp h with h | h
        · cases h
          exact .top (by simpa using hlevel) hk
        · obtain ⟨⟨d', j', e'⟩, ht, he⟩ := List.mem_map.mp h
          cases he
          exact chain_cons.mpr ⟨x.2, x.1, hlevel, hk, ih.mp ht⟩
      · simp at h
    · intro h
      cases d with
      | zero =>
        cases h with
        | top hn hp =>
          have hx : (e, j) ∈ level.zipIdx := List.mem_zipIdx_iff_getElem?.mpr (by simpa using hn)
          exact ⟨(e, j), hx, by simp [hp]⟩
      | succ d =>
        obtain ⟨i, a, ha, hk, hc⟩ := chain_cons.mp h
        have hx : (a, i) ∈ level.zipIdx := List.mem_zipIdx_iff_getElem?.mpr ha
        refine ⟨(a, i), hx, ?_⟩
        simp only [hk, if_true, List.mem_cons, List.mem_map]
        exact Or.inr ⟨(d, j, e), ih.mpr hc, rfl⟩

/-- An entry is below one index only. -/
theorem Chain.root_unique {f : List (List α)} {k k' d j : Nat} {e e' : α} (h : Chain par f k d j e)
    (h' : Chain par f k' d j e') : k = k' := by
  induction h generalizing e' with
  | top hn hp =>
    cases h' with
    | top hn' hp' =>
      obtain rfl := Option.some.inj (hn.symm.trans hn')
      exact Int.ofNat.inj (hp.symm.trans hp')
  | step hc hn hp ih =>
    cases h' with
    | step hc' hn' hp' =>
      obtain rfl := Option.some.inj (hn.symm.trans hn')
      obtain rfl := Int.ofNat.inj (hp.symm.trans hp')
      exact ih hc'

/-- No position is listed twice. -/
theorem nodup_preorder (f : List (List α)) (k : Nat) :
    ((preorder par f k).map fun t => (t.1, t.2.1)).Nodup := by
  induction f generalizing k with
  | nil => simp [preorder]
  | cons level rest ih =>
    rw [preorder, List.map_flatMap, List.nodup_flatMap]
    constructor
    · intro x _
      split
      · rw [List.map_cons, List.nodup_cons, List.map_map]
        refine ⟨by simp, ?_⟩
        have h := (ih x.2).map (f := fun t : Nat × Nat => (t.1 + 1, t.2))
          (fun a b hab => by simpa [Prod.ext_iff] using hab)
        rw [List.map_map] at h
        exact h
      · simp
    · -- positions below different entries of the first level differ
      have hidx : (level.zipIdx.map Prod.snd).Nodup := by
        rw [List.zipIdx_map_snd]
        exact List.nodup_range'
      refine (List.pairwise_map.mp hidx).imp fun {x y} hxy => ?_
      simp only [Function.onFun]
      intro t ht ht'
      split at ht
      · split at ht'
        · simp only [List.map_cons, List.map_map, List.mem_cons, List.mem_map] at ht ht'
          rcases ht with rfl | ⟨⟨d, j, e⟩, hm, rfl⟩
          · rcases ht' with he | ⟨⟨d', j', e'⟩, _, he⟩
            · exact hxy (Prod.mk.inj he).2
            · simp [Prod.ext_iff] at he
          · rcases ht' with he | ⟨⟨d', j', e'⟩, hm', he⟩
            · simp [Prod.ext_iff] at he
            · simp only [Function.comp_apply, Prod.mk.injEq, Nat.add_right_cancel_iff] at he
              obtain ⟨rfl, rfl⟩ := he
              exact hxy ((mem_preorder.mp hm).root_unique (mem_preorder.mp hm'))
        · simp at ht'
      · simp at ht

/-- An entry below the first level is listed after its parent. -/
theorem preorder_parent {f : List (List α)} {k d j : Nat} {e : α} (h : (d + 1, j, e) ∈ preorder par f k) :
    ∃ (i : Nat) (a : α), par e = i ∧ [(d, i, a), (d + 1, j, e)].Sublist (preorder par f k) := by
  induction f generalizing k d with
  | nil => cases h
  | cons level rest ih =>
    simp only [preorder] at h ⊢
    obtain ⟨x, hx, h⟩ := List.mem_flatMap.mp h
    have hsub := List.sublist_flatten_of_mem (List.mem_map_of_mem (f := fun x : α × Nat =>
      if par x.1 = k then (0, x.2, x.1) :: (preorder par rest x.2).map fun t => (t.1 + 1, t.2) else []) hx)
    rw [← List.flatMap_def] at hsub
    split at h
    · rename_i hk
      rw [if_pos hk] at hsub
      obtain ⟨⟨d', j', e'⟩, ht, heq⟩ := List.mem_map.mp ((List.mem_cons.mp h).resolve_left (by simp))
      obtain ⟨rfl, rfl, rfl⟩ : d' = d ∧ j' = j ∧ e' = e := by simpa using heq
      have hbelow := List.mem_map_of_mem (f := fun t : Nat × Nat × α => (t.1 + 1, t.2)) ht
      cases d' with
      | zero =>
        cases mem_preorder.mp ht with
        | top _ hp => exact ⟨x.2, x.1, hp, ((List.singleton_sublist.mpr hbelow).cons_cons _).trans hsub⟩
      | succ d =>
        obtain ⟨i, a, hp, hlist⟩ := ih ht
        have hlift := hlist.map fun t : Nat × Nat × α => (t.1 + 1, t.2)
        exact ⟨i, a, hp, (hlift.cons _).trans hsub⟩
    · cases h

/-- The walk visits the listed entries in the listed order. -/
theorem dfs_eq_foldl (visit : β → Nat → α → β) (f : List (List α)) (k : Nat) (b : β) :
    dfs par visit f k b = (preorder par f k).foldl (fun b t => visit b t.2.1 t.2.2) b := by
  induction f generalizing k b with
  | nil => rfl
  | cons level rest ih =>
    simp only [dfs, preorder]
    generalize level.zipIdx = xs
    induction xs generalizing b with
    | nil => rfl
    | cons x xs ihx =>
      simp only [List.foldl_cons, List.flatMap_cons, List.foldl_append]
      rw [ihx]
      congr 1
      split
      · simp [ih, List.foldl_map]
      · rfl

section Map

variable {γ : Type} {par' : γ → Int} {g : α → γ}

theorem preorder_map (hg : ∀ a, par' (g a) = par a) (f : List (List α)) (k : Nat) :
    preorder par' (f.map (·.map g)) k = (preorder par f k).map fun t => (t.1, t.2.1, g t.2.2) := by
  induction f generalizing k with
  | nil => rfl
  | cons level rest ih =>
    simp only [List.map_cons, preorder, List.map_flatMap, List.zipIdx_map, List.flatMap_map]
    congr 1
    funext x
    by_cases hx : par x.1 = k
    · simp [hg, hx, ih, Function.comp_def]
    · simp [hg, hx]

theorem dfs_map (hg : ∀ a, par' (g a) = par a) (visit : β → Nat → γ → β) (f : List (List α)) (k : Nat)
    (b : β) : dfs par' visit (f.map (·.map g)) k b = dfs par (fun b j a => visit b j (g a)) f k b := by
  rw [dfs_eq_foldl, dfs_eq_foldl, preorder_map hg, List.foldl_map]

end Map

/-- Empty levels on top change nothing. -/
theorem preorder_append_empty (f : List (List α)) (n k : Nat) :
    preorder par (f ++ List.replicate n []) k = preorder par f k := by
  induction f generalizing k with
  | nil => cases n <;> rfl
  | cons level rest ih => simp only [List.cons_append, preorder, ih]

theorem dfs_append_empty (visit : β → Nat → α → β) (f : List (List α)) (n k : Nat) (b : β) :
    dfs par visit (f ++ List.replicate n []) k b = dfs par visit f k b := by
  rw [dfs_eq_foldl, dfs_eq_foldl, preorder_append_empty]

theorem node_append_empty (f : List (List α)) (n i j : Nat) :
    node (f ++ List.replicate n []) i j = node f i j := by
  simp only [node, List.getD_eq_getElem?_getD, List.getElem?_append, List.getElem?_replicate]
  split
  · rfl
  · rename_i h
    have hf : f[i]? = none := List.getElem?_eq_none (by omega)
    rw [hf]
    split <;> rfl

section Best

variable (key : α → Nat)

/-- Keep the position of the first entry with the greatest key. -/
def relax (b : Nat × Nat) (i : Nat) (e : α) : Nat × Nat := if b.1 < key e then (key e, i) else b

theorem relax_foldl_ge (ts : List (Nat × Nat × α)) (b : Nat × Nat) :
    b.1 ≤ (ts.foldl (fun b t => relax key b t.2.1 t.2.2) b).1 ∧
      ∀ t ∈ ts, key t.2.2 ≤ (ts.foldl (fun b t => relax key b t.2.1 t.2.2) b).1 := by
  induction ts generalizing b with
  | nil => simp
  | cons t ts ih =>
    obtain ⟨h₁, h₂⟩ := ih (relax key b t.2.1 t.2.2)
    have hb : b.1 ≤ (relax key b t.2.1 t.2.2).1 := by unfold relax; split <;> omega
    have ht : key t.2.2 ≤ (relax key b t.2.1 t.2.2).1 := by unfold relax; split <;> omega
    refine ⟨by simp only [List.foldl_cons]; omega, ?_⟩
    intro u hu
    rcases List.mem_cons.mp hu with hu | hu
    · subst hu; simp only [List.foldl_cons]; omega
    · exact h₂ u hu

/-- The walk returns its start or the position of an entry it visited. -/
theorem relax_foldl_mem (ts : List (Nat × Nat × α)) (b : Nat × Nat) :
    (ts.foldl (fun b t => relax key b t.2.1 t.2.2) b) = b ∨
      ∃ t ∈ ts, ts.foldl (fun b t => relax key b t.2.1 t.2.2) b = (key t.2.2, t.2.1) ∧
        b.1 < key t.2.2 := by
  induction ts generalizing b with
  | nil => simp
  | cons t ts ih =>
    simp only [List.foldl_cons]
    have hstep : relax key b t.2.1 t.2.2 = b ∨
        (relax key b t.2.1 t.2.2 = (key t.2.2, t.2.1) ∧ b.1 < key t.2.2) := by
      unfold relax; split <;> simp_all
    rcases ih (relax key b t.2.1 t.2.2) with h | ⟨u, hu, h, hlt⟩
    · rcases hstep with hs | ⟨hs, hlt⟩
      · exact Or.inl (by rw [h, hs])
      · exact Or.inr ⟨t, by simp, by rw [h, hs], hlt⟩
    · refine Or.inr ⟨u, by simp [hu], h, ?_⟩
      rcases hstep with hs | ⟨hs, hlt'⟩
      · rwa [hs] at hlt
      · rw [hs] at hlt
        simp only at hlt
        omega

/-- The best entry below `k`: nothing below `k` has a greater key, and the
answer is the position of an entry below `k` unless none has a positive key. -/
theorem dfs_relax_spec (f : List (List α)) (k : Nat) :
    (∀ d j e, Chain par f k d j e → key e ≤ (dfs par (relax key) f k (0, 0)).1) ∧
      (dfs par (relax key) f k (0, 0) = (0, 0) ∨
        ∃ d e, Chain par f k d (dfs par (relax key) f k (0, 0)).2 e ∧
          key e = (dfs par (relax key) f k (0, 0)).1) := by
  rw [dfs_eq_foldl]
  constructor
  · intro d j e h
    exact (relax_foldl_ge key (preorder par f k) (0, 0)).2 (d, j, e) (mem_preorder.mpr h)
  · rcases relax_foldl_mem key (preorder par f k) (0, 0) with h | ⟨t, ht, h, _⟩
    · exact Or.inl h
    · obtain ⟨d, j, e⟩ := t
      refine Or.inr ⟨d, e, ?_⟩
      rw [h]
      exact ⟨mem_preorder.mp ht, rfl⟩

end Best

variable (par)

/-- The entries met going up from level `i`, index `q`, to the top level. -/
def ascend (f : List (List α)) : Nat → Int → Option (List α)
  | 0, q => if q < 0 then none else (node f 0 q.toNat).map fun e => [e]
  | i + 1, q =>
    if q < 0 then none
    else (node f (i + 1) q.toNat).bind fun e => (ascend f i (par e)).map (e :: ·)

variable {par}

theorem ascend_map {γ : Type} {par' : γ → Int} {g : α → γ} (hg : ∀ a, par' (g a) = par a)
    (f : List (List α)) (i : Nat) (q : Int) :
    ascend par' (f.map (·.map g)) i q = (ascend par f i q).map (List.map g) := by
  induction i generalizing q with
  | zero =>
    simp only [ascend, node_map]
    split
    · rfl
    · cases node f 0 q.toNat <;> rfl
  | succ i ih =>
    simp only [ascend, node_map]
    split
    · rfl
    · cases node f (i + 1) q.toNat with
      | none => rfl
      | some e => simp [hg, ih, Function.comp_def]

theorem ascend_ne_nil {f : List (List α)} {i : Nat} {q : Int} {path : List α} (h : ascend par f i q = some path) :
    path ≠ [] := by
  rintro rfl
  cases i with
  | zero => simp [ascend] at h
  | succ i => simp [ascend, Option.bind_eq_some_iff] at h

theorem ascend_congr {f f' : List (List α)} (h : ∀ i j, node f' i j = node f i j) (i : Nat) (q : Int) :
    ascend par f' i q = ascend par f i q := by
  induction i generalizing q with
  | zero => simp only [ascend, h]
  | succ i ih => simp only [ascend, h, ih]

/-- Going up from an entry meets the entry and its ancestors. -/
theorem Hangs.ascend {f : List (List α)} {k i j : Nat} {e : α} {anc : List α} (h : Hangs par f k i (par e) anc)
    (hn : node f i j = some e) : Forest.ascend par f i j = some (e :: anc) := by
  induction i generalizing j e anc with
  | zero => simp [Forest.ascend, hn, h.2]
  | succ i ih =>
    obtain ⟨j', a, up, hj, ha, rfl, hup⟩ := h
    simp [Forest.ascend, hn, hj, ih hup ha]

variable (par)

/-- The total weight of everything below index `k` of the level above. -/
def weight (w : α → Nat) (f : List (List α)) (k : Nat) : Nat :=
  ((preorder par f k).map fun t => w t.2.2).sum

/-- Each entry of the first level with the weight it carries. -/
def carried (w : α → Nat) (level : List α) (rest : List (List α)) : List (α × Nat) :=
  level.zipIdx.map fun x => (x.1, w x.1 + weight par w rest x.2)

variable {par}

theorem weight_cons (w : α → Nat) (level : List α) (rest : List (List α)) (k : Nat) :
    weight par w (level :: rest) k =
      (((carried par w level rest).filter fun x => decide (par x.1 = k)).map Prod.snd).sum := by
  unfold weight carried
  rw [preorder]
  induction level.zipIdx with
  | nil => rfl
  | cons x xs ih =>
    rw [List.flatMap_cons, List.map_append, List.sum_append, ih, List.map_cons, List.filter_cons]
    by_cases hx : par x.1 = k
    · simp [hx, weight, Function.comp_def]
    · simp [hx]

variable (par)

/-- `Leads f i j d k`: the parent links lead from entry `k` of level `d` to entry `j` of level
`i`, which may be the same. -/
inductive Leads (f : List (List α)) (i j : Nat) : Nat → Nat → Prop where
  | self {e : α} (h : node f i j = some e) : Leads f i j i j
  | step {d k q : Nat} {e : α} (hn : node f (d + 1) k = some e) (hp : par e = q) (h : Leads f i j d q) :
      Leads f i j (d + 1) k

/-- The positions from which the links lead to an entry: its own, and those below it. -/
def family (f : List (List α)) (i j : Nat) : List (Nat × Nat) :=
  (i, j) :: (preorder par (f.drop (i + 1)) j).map fun t => (i + 1 + t.1, t.2.1)

variable {par}

theorem Chain.leads {f : List (List α)} {i j d k : Nat} {a e : α} (ha : node f i j = some a)
    (h : Chain par (f.drop (i + 1)) j d k e) : Leads par f i j (i + 1 + d) k := by
  induction h with
  | top hn hp =>
    rw [node_drop] at hn
    exact .step hn hp (.self ha)
  | @step d q k b e _ hn hp ih =>
    rw [node_drop] at hn
    exact .step hn hp ih

theorem Leads.cases_chain {f : List (List α)} {i j d k : Nat} (h : Leads par f i j d k) :
    (d = i ∧ k = j) ∨ ∃ d' e, d = i + 1 + d' ∧ Chain par (f.drop (i + 1)) j d' k e := by
  induction h with
  | self _ => exact Or.inl ⟨rfl, rfl⟩
  | @step d k q e hn hp _ ih =>
    rcases ih with ⟨rfl, rfl⟩ | ⟨d', a, rfl, hc⟩
    · exact Or.inr ⟨0, e, rfl, .top (by rw [node_drop]; exact hn) hp⟩
    · exact Or.inr ⟨d' + 1, e, rfl, .step hc (by rw [node_drop]; exact hn) hp⟩

theorem mem_family {f : List (List α)} {i j d k : Nat} {a : α} (ha : node f i j = some a) :
    (d, k) ∈ family par f i j ↔ Leads par f i j d k := by
  rw [family, List.mem_cons, List.mem_map]
  constructor
  · rintro (heq | ⟨⟨d', k', e⟩, hmem, heq⟩)
    · cases heq
      exact .self ha
    · cases heq
      exact (mem_preorder.mp hmem).leads ha
  · intro h
    rcases h.cases_chain with ⟨rfl, rfl⟩ | ⟨d', e, rfl, hc⟩
    · exact Or.inl rfl
    · exact Or.inr ⟨(d', k, e), mem_preorder.mpr hc, rfl⟩

theorem nodup_family (f : List (List α)) (i j : Nat) : (family par f i j).Nodup := by
  rw [family, List.nodup_cons]
  constructor
  · intro hmem
    obtain ⟨⟨d, k, e⟩, _, heq⟩ := List.mem_map.mp hmem
    have hlevel : i + 1 + d = i := (Prod.mk.inj heq).1
    omega
  · have hnodup : ((preorder par (f.drop (i + 1)) j).map fun t => (t.1, t.2.1)).Nodup := nodup_preorder _ _
    have hshift := hnodup.map (f := fun t : Nat × Nat => (i + 1 + t.1, t.2))
      fun a b hab => by simpa [Prod.ext_iff] using hab
    rw [List.map_map] at hshift
    exact hshift

/-- The weight of an entry and of everything below it, position by position. -/
theorem sum_family (w : α → Nat) {f : List (List α)} {i j : Nat} {a : α} (ha : node f i j = some a) :
    ((family par f i j).map fun q => ((node f q.1 q.2).map w).getD 0).sum = w a + weight par w (f.drop (i + 1)) j := by
  rw [family, List.map_cons, List.sum_cons, ha, Option.map_some, Option.getD_some, List.map_map, weight]
  congr 2
  refine List.map_congr_left fun t ht => ?_
  have hn := (mem_preorder.mp ht).node_eq
  rw [node_drop] at hn
  simp [hn]

theorem sum_map_le_of_subset {f : β → Nat} {xs ys : List β} (hnd : xs.Nodup)
    (hsub : ∀ x ∈ xs, x ∈ ys) : (xs.map f).sum ≤ (ys.map f).sum := by
  obtain ⟨zs, hperm, hsl⟩ := List.subperm_of_subset hnd hsub
  rw [← (hperm.map f).sum_eq]
  exact (hsl.map f).sum_le_sum (by simp)

end Forest
