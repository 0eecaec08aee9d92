import Mathlib.Data.List.Induction
import Mathlib.Data.List.Nodup
import Mathlib.Logic.Function.Basic

/-!
# Key-value stores with atomic batches

A store is a finite or infinite map. A batch is a list of puts and deletes
that reaches the store as a whole, in order, so the last operation on a key
decides it. A journal of such writes over several named stores gives the
contents after any number of them.
-/
namespace KeyValue

variable {K V N : Type} [DecidableEq K] [DecidableEq N]

abbrev Store (K V : Type) := K → Option V

inductive Op (K V : Type) where
  | put : K → V → Op K V
  | delete : K → Op K V

def Op.key : Op K V → K
  | .put k _ => k
  | .delete k => k

def Op.value : Op K V → Option V
  | .put _ v => some v
  | .delete _ => none

abbrev Batch (K V : Type) := List (Op K V)

def Store.apply (s : Store K V) (o : Op K V) : Store K V := Function.update s o.key o.value

/-- Apply a whole batch, oldest operation first. -/
def Store.write (s : Store K V) (b : Batch K V) : Store K V := b.foldl Store.apply s

@[simp] theorem write_nil (s : Store K V) : s.write [] = s := rfl

@[simp] theorem write_cons (s : Store K V) (o : Op K V) (b : Batch K V) :
    s.write (o :: b) = (s.apply o).write b := rfl

theorem write_append (s : Store K V) (a b : Batch K V) : s.write (a ++ b) = (s.write a).write b :=
  List.foldl_append

/-- A key that no operation names keeps its value. -/
theorem write_other (s : Store K V) (b : Batch K V) (k : K) (h : ∀ o ∈ b, o.key ≠ k) :
    s.write b k = s k := by
  induction b generalizing s with
  | nil => rfl
  | cons o b ih =>
    rw [write_cons, ih (s.apply o) (fun o' ho => h o' (by simp [ho]))]
    exact Function.update_of_ne (h o (by simp)).symm _ _

/-- The last operation on a key decides it. -/
theorem write_last (s : Store K V) (a b : Batch K V) (o : Op K V) (h : ∀ o' ∈ b, o'.key ≠ o.key) :
    s.write (a ++ o :: b) o.key = o.value := by
  rw [write_append, write_cons, write_other _ _ _ h]
  exact Function.update_self _ _ _

/-- What a batch writes under other keys can be left out. -/
theorem write_left_cancel (s : Store K V) {a b c : Batch K V} (ha : ∀ o ∈ a, ∀ o' ∈ c, o.key ≠ o'.key)
    (hb : ∀ o ∈ b, ∀ o' ∈ c, o.key ≠ o'.key) (h : s.write (a ++ c) = s.write (b ++ c)) : s.write a = s.write b := by
  funext k
  by_cases hk : ∃ o' ∈ c, o'.key = k
  · obtain ⟨o', ho', rfl⟩ := hk
    rw [write_other s a _ fun o ho => ha o ho o' ho', write_other s b _ fun o ho => hb o ho o' ho']
  · have hc : ∀ o' ∈ c, o'.key ≠ k := fun o' ho' heq => hk ⟨o', ho', heq⟩
    rw [write_append, write_append] at h
    rw [← write_other (s.write a) c k hc, h, write_other _ _ _ hc]

/-- The last element with a property. -/
theorem exists_last {A : Type} {p : A → Prop} [DecidablePred p] {l : List A} (h : ∃ x ∈ l, p x) :
    ∃ front x back, l = front ++ x :: back ∧ p x ∧ ∀ y ∈ back, ¬p y := by
  induction l using List.reverseRecOn with
  | nil => simp at h
  | append_singleton l a ih =>
    by_cases ha : p a
    · exact ⟨l, a, [], rfl, ha, by simp⟩
    · have hl : ∃ x ∈ l, p x := by
        obtain ⟨x, hx, hpx⟩ := h
        rcases List.mem_append.mp hx with hx | hx
        · exact ⟨x, hx, hpx⟩
        · exact absurd (List.mem_singleton.mp hx ▸ hpx) ha
      obtain ⟨front, x, back, rfl, hpx, hback⟩ := ih hl
      refine ⟨front, x, back ++ [a], by simp, hpx, fun y hy => ?_⟩
      rcases List.mem_append.mp hy with hy | hy
      · exact hback y hy
      · rw [List.mem_singleton.mp hy]
        exact ha

/-- A key that a batch names gets its value from one of the operations on it. -/
theorem write_named (s : Store K V) (b : Batch K V) (k : K) (h : ∃ o ∈ b, o.key = k) :
    ∃ o ∈ b, o.key = k ∧ s.write b k = o.value := by
  obtain ⟨front, o, back, rfl, rfl, hback⟩ := exists_last h
  exact ⟨o, by simp, rfl, write_last s front back o hback⟩

/-- A key put by some operation, and by every other with the same value, holds it. -/
theorem write_put (s : Store K V) (b : Batch K V) (k : K) (v : V) (hm : .put k v ∈ b)
    (h : ∀ o ∈ b, o.key = k → o = .put k v) : s.write b k = some v := by
  obtain ⟨o, ho, hk, hv⟩ := write_named s b k ⟨_, hm, rfl⟩
  rw [hv, h o ho hk]
  rfl

/-- After a batch of puts a key holds the last value put under it. -/
theorem write_puts {R : Type} (s : Store K V) (key : R → K) (value : R → V) (rs : List R) (k : K) :
    s.write (rs.map fun r => .put (key r) (value r)) k =
      ((rs.filter fun r => decide (key r = k)).getLast?.map value).or (s k) := by
  induction rs using List.reverseRecOn with
  | nil => rfl
  | append_singleton rs r ih =>
    rw [List.map_append, write_append, List.filter_append, List.getLast?_append]
    by_cases hk : key r = k
    · subst hk
      simp [Store.apply, Op.key, Op.value]
    · rw [write_other _ _ _ (by simpa [Op.key] using hk), ih]
      simp [hk]

/-- A batch that names no key twice leaves the value of each of its operations. -/
theorem write_of_nodup (s : Store K V) {b : Batch K V} (hd : (b.map Op.key).Nodup) {o : Op K V}
    (ho : o ∈ b) : s.write b o.key = o.value := by
  obtain ⟨front, back, rfl⟩ := List.append_of_mem ho
  refine write_last s front back o fun o' ho' heq => ?_
  rw [List.map_append, List.map_cons, List.nodup_append] at hd
  have hn := (List.nodup_cons.mp hd.2.1).1
  exact hn (List.mem_map.mpr ⟨o', ho', heq⟩)

/-- The first of some records under a key. -/
def firstOf (rs : List (K × V)) (k : K) : Option V := (rs.find? fun r => decide (r.1 = k)).map Prod.snd

theorem firstOf_eq_none {rs : List (K × V)} {k : K} : firstOf rs k = none ↔ ∀ r ∈ rs, r.1 ≠ k := by
  simp [firstOf]

theorem firstOf_eq_some {rs : List (K × V)} {k : K} {v : V} (h : firstOf rs k = some v) : (k, v) ∈ rs := by
  obtain ⟨r, hr, rfl⟩ := Option.map_eq_some_iff.mp h
  have hk : r.1 = k := by simpa using List.find?_some hr
  exact hk ▸ List.mem_of_find?_eq_some hr

/-- Where the records of a key agree, the first of them is what writing them all
leaves; `name` says under which key a record is stored. -/
theorem write_firstOf {K' : Type} [DecidableEq K'] {name : K → K'} (hname : Function.Injective name)
    (s : Store K' V) (rs : List (K × V)) (k : K) (h : ∀ r ∈ rs, ∀ v, r.1 = k → (k, v) ∈ rs → r.2 = v) :
    s.write (rs.map fun r => .put (name r.1) r.2) (name k) = (firstOf rs k).or (s (name k)) := by
  cases hf : firstOf rs k with
  | none =>
    refine write_other _ _ _ fun o ho heq => ?_
    obtain ⟨r, hr, rfl⟩ := List.mem_map.mp ho
    exact firstOf_eq_none.mp hf r hr (hname heq)
  | some v =>
    have hmem := firstOf_eq_some hf
    refine write_put _ _ _ v (List.mem_map.mpr ⟨(k, v), hmem, rfl⟩) fun o ho heq => ?_
    obtain ⟨r, hr, rfl⟩ := List.mem_map.mp ho
    have hk : r.1 = k := hname heq
    rw [hk, h r hr v hk hmem]

/-- The last value recorded for a key. -/
def lastOf (rs : List (K × V)) (k : K) : Option V :=
  (rs.filter fun r => decide (r.1 = k)).getLast?.map Prod.snd

theorem lastOf_eq_none {rs : List (K × V)} {k : K} : lastOf rs k = none ↔ firstOf rs k = none := by
  rw [firstOf_eq_none, lastOf, Option.map_eq_none_iff, List.getLast?_eq_none_iff, List.filter_eq_nil_iff]
  simp

theorem lastOf_eq_some {rs : List (K × V)} {k : K} {v : V} (h : lastOf rs k = some v) : (k, v) ∈ rs := by
  obtain ⟨r, hr, rfl⟩ := Option.map_eq_some_iff.mp h
  obtain ⟨hmem, hk⟩ := List.mem_filter.mp (List.mem_of_getLast? hr)
  exact of_decide_eq_true hk ▸ hmem

/-- Where no key is recorded twice, first and last are the same. -/
theorem lastOf_of_nodup {rs : List (K × V)} (h : (rs.map Prod.fst).Nodup) (k : K) : lastOf rs k = firstOf rs k := by
  cases hf : firstOf rs k with
  | none => exact lastOf_eq_none.mpr hf
  | some x =>
    cases hl : lastOf rs k with
    | none =>
      rw [lastOf_eq_none.mp hl] at hf
      cases hf
    | some y =>
      have heq := List.inj_on_of_nodup_map h (lastOf_eq_some hl) (firstOf_eq_some hf) rfl
      exact congrArg (fun r : K × V => some r.2) heq

/-- Writing records leaves the last one of each key. -/
theorem write_lastOf {K' : Type} [DecidableEq K'] {name : K → K'} (hname : Function.Injective name)
    (s : Store K' V) (rs : List (K × V)) (k : K) :
    s.write (rs.map fun r => .put (name r.1) r.2) (name k) = (lastOf rs k).or (s (name k)) := by
  rw [write_puts s (fun r => name r.1) Prod.snd rs, lastOf]
  congr 4
  funext r
  exact decide_eq_decide.mpr hname.eq_iff

/-- Several named stores. -/
abbrev Disk (N K V : Type) := N → Store K V

/-- One durable write: a batch that reaches one of the stores as a whole. -/
structure Write (N K V : Type) where
  store : N
  batch : Batch K V

def Disk.write (d : Disk N K V) (w : Write N K V) : Disk N K V :=
  Function.update d w.store ((d w.store).write w.batch)

/-- The contents after a sequence of durable writes. -/
def Disk.replay (d : Disk N K V) (ws : List (Write N K V)) : Disk N K V := ws.foldl Disk.write d

@[simp] theorem replay_cons (d : Disk N K V) (w : Write N K V) (ws : List (Write N K V)) :
    d.replay (w :: ws) = (d.write w).replay ws := rfl

theorem replay_append (d : Disk N K V) (a b : List (Write N K V)) :
    d.replay (a ++ b) = (d.replay a).replay b := List.foldl_append

@[simp] theorem disk_write_self (d : Disk N K V) (n : N) (b : Batch K V) :
    d.write ⟨n, b⟩ n = (d n).write b := Function.update_self _ _ _

theorem disk_write_other (d : Disk N K V) (n m : N) (b : Batch K V) (h : m ≠ n) :
    d.write ⟨n, b⟩ m = d m := Function.update_of_ne h _ _

/-- A store that none of the writes names is unchanged. -/
theorem replay_other (d : Disk N K V) (ws : List (Write N K V)) (n : N) (h : ∀ w ∈ ws, w.store ≠ n) :
    d.replay ws n = d n := by
  induction ws generalizing d with
  | nil => rfl
  | cons w ws ih =>
    rw [replay_cons, ih (d.write w) (fun w' hw => h w' (by simp [hw]))]
    exact disk_write_other d w.store n w.batch (h w (by simp)).symm

end KeyValue
