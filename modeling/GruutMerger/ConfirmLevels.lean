import GruutMerger.Support
import GruutMerger.Sample
import Mathlib.Algebra.BigOperators.Group.List.Lemmas
import Mathlib.Algebra.BigOperators.Group.Finset.Basic

/-!
# Confirm levels

`updateConfirmLevel` gives each entry of the pool, in whatever bin it is, the number of
support signatures of the entry and of all entries whose links lead to it. Nothing is
asked of the pool: an orphan has no links to follow, and a level from before is
overwritten first.
-/
namespace GruutMerger
namespace Pool

open Forest

/-- The number of support signatures of the entry at a position. -/
def numSSigsAt (bins : List Bin) (q : Nat × Nat) : Nat := ((node bins q.1 q.2).map own).getD 0

/-- A level is what the entry itself has and what everything above it has. -/
theorem node_updateConfirmLevel (bins : List Bin) (i j : Nat) : node (updateConfirmLevel bins) i j =
    (node bins i j).map fun e =>
      withLevel (e, own e + weight UnresolvedBlock.prevVectorIdx own (bins.drop (i + 1)) j) := by
  induction bins generalizing i with
  | nil => simp [updateConfirmLevel]
  | cons bin rest ih =>
    rw [updateConfirmLevel_cons]
    cases i with
    | zero => simp [carried, Function.comp_def]
    | succ i => simpa using ih i

/-- The confirm level of each entry becomes the number of signatures of all entries from
which the links lead to it, and nothing else of the entry changes. -/
theorem confirm_level_subtree_sum (p : Pool) {i j : Nat} {e : UnresolvedBlock} (he : node p.blockPool i j = some e) :
    ∃ positions : Finset (Nat × Nat),
      (∀ q, q ∈ positions ↔ Forest.Leads UnresolvedBlock.prevVectorIdx p.blockPool i j q.1 q.2) ∧
      node (updateConfirmLevel p.blockPool) i j =
        some { e with confirmLevel := ∑ q ∈ positions, numSSigsAt p.blockPool q } := by
  let members := family UnresolvedBlock.prevVectorIdx p.blockPool i j
  have hnodup : members.Nodup := nodup_family p.blockPool i j
  refine ⟨members.toFinset, fun q => ?_, ?_⟩
  · rw [List.mem_toFinset]
    exact mem_family he
  · have hsum : ∑ q ∈ members.toFinset, numSSigsAt p.blockPool q =
        own e + weight UnresolvedBlock.prevVectorIdx own (p.blockPool.drop (i + 1)) j := by
      rw [List.sum_toFinset _ hnodup]
      exact sum_family own he
    rw [node_updateConfirmLevel, he, hsum]
    rfl

/-- A block with two on top of it, and an orphan beside them; the levels are left from before. -/
def forked : Pool :=
  let entry := fun (prev : Int) (r : Sample.Row) (row : Nat) => (⟨prev, true, 7, [], r.block row⟩ : UnresolvedBlock)
  { Pool.fresh with
    blockPool := [[entry 0 ⟨[1], [0], [0], 1, [Sample.good 1], []⟩ 0],
      [entry 0 ⟨[2], [1], Sample.hashOf 0, 2, [Sample.good 1, Sample.good 2], []⟩ 1,
       entry (-1) ⟨[3], [8], [8], 2, [Sample.good 1], []⟩ 2,
       entry 0 ⟨[4], [1], Sample.hashOf 0, 2, [Sample.good 3], []⟩ 3]] }

theorem confirm_level_subtree_sum_forked : ∃ e, node forked.blockPool 0 0 = some e ∧
    ∃ positions : Finset (Nat × Nat),
      (∀ q, q ∈ positions ↔ Forest.Leads UnresolvedBlock.prevVectorIdx forked.blockPool 0 0 q.1 q.2) ∧
      node (updateConfirmLevel forked.blockPool) 0 0 =
        some { e with confirmLevel := ∑ q ∈ positions, numSSigsAt forked.blockPool q } :=
  ⟨_, rfl, confirm_level_subtree_sum forked rfl⟩

example : (updateConfirmLevel forked.blockPool).map (·.map (·.confirmLevel)) = [[4], [2, 1, 1]] := by decide +kernel

end Pool
end GruutMerger
