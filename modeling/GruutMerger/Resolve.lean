import GruutMerger.PoolInvariant
import GruutMerger.Linked

/-!
# Resolving

What one turn of `getResolvedBlocks` takes out of the pool and what the whole
loop does: the resolved blocks are a chain on top of the last block, and the
pool left behind hangs on the last of them.
-/
namespace GruutMerger

open ByteText Forest

variable (env : Env)

namespace Pool

theorem bestConfirmed_spec (bin : Bin) :
    (∀ e ∈ bin, e.prevVectorIdx = 0 → e.confirmLevel ≤ (bestConfirmed bin).1) ∧
      (0 < (bestConfirmed bin).1 → ∃ e, bin[(bestConfirmed bin).2]? = some e ∧ e.prevVectorIdx = 0 ∧
        e.confirmLevel = (bestConfirmed bin).1) := by
  -- the loop is the depth-first walk of a single level
  have hbest : bestConfirmed bin = dfs UnresolvedBlock.prevVectorIdx (relax (·.confirmLevel)) [bin] 0 (0, 0) :=
    rfl
  obtain ⟨hmax, hpos⟩ := @dfs_relax_spec _ UnresolvedBlock.prevVectorIdx (·.confirmLevel) [bin] 0
  rw [← hbest] at hmax hpos
  constructor
  · intro e he hp
    obtain ⟨j, hj⟩ := List.getElem?_of_mem he
    exact hmax 0 j e (.top (by simpa using hj) hp)
  · intro hlt
    rcases hpos with h | ⟨d, e, hc, hk⟩
    · rw [h] at hlt
      omega
    · cases hc with
      | top hn hp => exact ⟨e, by simpa using hn, hp, hk⟩
      | step _ hn _ => simp at hn

/-- A resolvable entry hangs on the last block, has enough support and some
block on top of it. -/
theorem resolvable_some {bins : List Bin} {w : UnresolvedBlock} (h : resolvable bins = some w) :
    ∃ bin next rest, ∃ idx : Nat, bins = bin :: next :: rest ∧ bin[idx]? = some w ∧
      w.prevVectorIdx = 0 ∧ blockConfirmLevel ≤ w.confirmLevel ∧
      (∀ e ∈ bin, e.prevVectorIdx = 0 → e.confirmLevel ≤ w.confirmLevel) ∧
      ∃ e ∈ next, e.prevVectorIdx = idx := by
  unfold resolvable at h
  split at h
  · rename_i bin next rest
    simp only at h
    split at h
    · cases h
    rename_i hlevel
    split at h
    · rename_i hafter
      obtain ⟨hmax, hpos⟩ := bestConfirmed_spec bin
      have hconfirm : 0 < blockConfirmLevel := by decide
      obtain ⟨e, he, hp, hk⟩ := hpos (by omega)
      obtain rfl : e = w := Option.some.inj (he.symm.trans h)
      obtain ⟨child, hchild, hidx⟩ := List.any_eq_true.mp hafter
      refine ⟨bin, next, rest, (bestConfirmed bin).2, rfl, he, hp, by omega, ?_, child, hchild,
        by simpa using hidx⟩
      intro a ha hpa
      rw [hk]
      exact hmax a ha hpa
    · cases h
  · cases h

/-- The pool with confirm levels brought up to date. -/
def counted (p : Pool) : Pool := { p with blockPool := updateConfirmLevel p.blockPool }

theorem Ok.counted {p : Pool} (h : p.Ok) : p.counted.Ok :=
  WellLinked.congr (skeleton_updateConfirmLevel p.blockPool).symm h

theorem blocks_rebase (p : Pool) (bin : Bin) : (p.rebase bin).map (·.block) = bin.map (·.block) := by
  simp [rebase, Function.comp_def]

theorem Ok.advance {p : Pool} {w : UnresolvedBlock} (h : p.Ok) (hw : resolvable p.blockPool = some w) :
    (p.advance w).Ok := by
  obtain ⟨bin, next, rest, idx, hbins, hat, _, _, _, _⟩ := resolvable_some hw
  unfold Ok at h
  rw [hbins] at h
  obtain ⟨hbin, _, hnext, hhash, hrest⟩ := h
  have hheight : w.block.height = p.lastHeight + 1 := (hbin w (List.mem_of_getElem? hat)).1
  simp only [Ok, Pool.advance, hbins, List.tail_cons]
  refine ⟨?_, ?_, ?_⟩
  · intro e he
    obtain ⟨a, ha, rfl⟩ := List.mem_map.mp he
    refine ⟨?_, rfl⟩
    have := (hnext a ha).1
    simp only
    omega
  · have hm := congrArg (List.map Block.blockHash) (blocks_rebase
      { p with
        prevBlockId := p.lastBlockId, prevHash := p.lastHash, lastBlockId := w.block.blockId
        lastHash := w.block.blockHash, lastHeight := w.block.height } next)
    simp only [List.map_map] at hm
    exact hm ▸ hhash
  · rw [linkIndex_congr (blocks_rebase _ next), hheight]
    exact hrest

/-- The turns of the loop, up to the one that finds nothing to resolve. -/
inductive Resolves : Pool → List UnresolvedBlock → List Bytes → Pool → Prop where
  | stop {p : Pool} (h : resolvable p.counted.blockPool = none) : Resolves p [] [] p.counted
  | step {p p' : Pool} {w : UnresolvedBlock} {ws : List UnresolvedBlock} {ds : List Bytes}
      (h : resolvable p.counted.blockPool = some w) (hr : Resolves (p.counted.advance w) ws ds p') :
      Resolves p (w :: ws) (dropped env (p.counted.bin 0) w ++ ds) p'

theorem length_updateConfirmLevel (bins : List Bin) : (updateConfirmLevel bins).length = bins.length := by
  simpa [skeleton] using congrArg List.length (skeleton_updateConfirmLevel bins)

theorem length_advance (p : Pool) (w : UnresolvedBlock) :
    (p.advance w).blockPool.length = p.blockPool.length - 1 := by
  unfold advance
  cases p.blockPool with
  | nil => rfl
  | cons bin rest => cases rest <;> simp

theorem resolveStep_none {p : Pool} (h : resolvable p.counted.blockPool = none) :
    p.resolveStep env = (p.counted, none) := by
  simp only [counted] at h
  simp only [resolveStep, h, counted]

theorem resolveStep_some {p : Pool} {w : UnresolvedBlock} (h : resolvable p.counted.blockPool = some w) :
    p.resolveStep env = (p.counted.advance w, some (w, dropped env (p.counted.bin 0) w)) := by
  simp only [counted] at h
  simp only [resolveStep, h, counted]

theorem resolves_resolveLoop (fuel : Nat) (p : Pool) (h : p.blockPool.length < fuel) :
    Resolves env p (p.resolveLoop env fuel).1 (p.resolveLoop env fuel).2.1 (p.resolveLoop env fuel).2.2 := by
  induction fuel generalizing p with
  | zero => omega
  | succ fuel ih =>
    cases hw : resolvable p.counted.blockPool with
    | none =>
      simp only [resolveLoop, resolveStep_none env hw]
      exact .stop hw
    | some w =>
      simp only [resolveLoop, resolveStep_some env hw]
      refine .step hw (ih _ ?_)
      -- a resolved entry stands in the first of at least two bins
      obtain ⟨bin, next, rest, _, hbins, _⟩ := resolvable_some hw
      have hlen : p.counted.blockPool.length = p.blockPool.length := length_updateConfirmLevel _
      rw [length_advance]
      rw [hbins, List.length_cons] at hlen
      rw [hbins, List.length_cons]
      omega

theorem resolves_resolve (p : Pool) :
    Resolves env p (p.resolve env).1 (p.resolve env).2.1 (p.resolve env).2.2 :=
  resolves_resolveLoop env _ p (by omega)

variable {env}

theorem Resolves.eq_counted {p p' : Pool} {ds : List Bytes} (hr : Resolves env p [] ds p') :
    p' = p.counted := by
  cases hr with
  | stop _ => rfl

theorem Resolves.ok {p p' : Pool} {ws : List UnresolvedBlock} {ds : List Bytes} (hr : Resolves env p ws ds p')
    (h : p.Ok) : p'.Ok := by
  induction hr with
  | stop _ => exact h.counted
  | step hw _ ih => exact ih (h.counted.advance hw)

/-- The time of the last block is set once and stays. -/
theorem Resolves.lastTime {p p' : Pool} {ws : List UnresolvedBlock} {ds : List Bytes}
    (hr : Resolves env p ws ds p') : p'.lastTime = p.lastTime := by
  induction hr with
  | stop _ => rfl
  | step _ _ ih => exact ih

/-- The last block as the tip to build on. -/
def tip (p : Pool) : Tip := ⟨p.lastBlockId, p.lastHash, p.lastHeight⟩

theorem Ok.follows {p : Pool} {w : UnresolvedBlock} (h : p.Ok) (hw : resolvable p.blockPool = some w) :
    Follows p.tip w.block := by
  obtain ⟨bin, next, rest, idx, hbins, hat, hroot, _⟩ := resolvable_some hw
  have hmem : w ∈ p.blockPool.getD 0 [] := by
    rw [hbins]
    exact List.mem_of_getElem? hat
  have hheight := WellLinked.height_of_mem h hmem
  have hindex := WellLinked.root_of_mem h hmem
  rw [hroot, rootIndex] at hindex
  split at hindex
  · rename_i hlast
    simp only [namesLast, Bool.and_eq_true, decide_eq_true_eq] at hlast
    exact ⟨hlast.1, hlast.2, hheight⟩
  · omega

/-- The resolved blocks are a chain from the old last block to the new one. -/
theorem Resolves.linked {p p' : Pool} {ws : List UnresolvedBlock} {ds : List Bytes}
    (hr : Resolves env p ws ds p') (h : p.Ok) :
    Linked p.tip (ws.map (·.block)) ∧ p'.tip = tipOf p.tip (ws.map (·.block)) := by
  induction hr with
  | stop _ => exact ⟨trivial, rfl⟩
  | step hw _ ih =>
    obtain ⟨hlinked, htip⟩ := ih (h.counted.advance hw)
    exact ⟨⟨h.counted.follows hw, hlinked⟩, htip⟩

theorem mem_blocksOf_advance {p : Pool} {w : UnresolvedBlock} {b : Block}
    (h : b ∈ blocksOf (p.advance w).blockPool) : b ∈ blocksOf p.blockPool := by
  unfold advance at h
  cases hbins : p.blockPool with
  | nil => simp [hbins, blocksOf] at h
  | cons bin rest =>
    cases rest with
    | nil => simp [hbins, blocksOf] at h
    | cons next rest =>
      simp only [hbins, List.tail_cons, blocksOf_eq, List.map_cons, blocks_rebase,
        List.flatten_cons, List.mem_append] at h ⊢
      exact Or.inr h

theorem blocksOf_counted (p : Pool) : blocksOf p.counted.blockPool = blocksOf p.blockPool :=
  blocksOf_of_skeleton (skeleton_updateConfirmLevel _)

/-- Everything resolved and everything left was in the pool. -/
theorem Resolves.mem_blocksOf {p p' : Pool} {ws : List UnresolvedBlock} {ds : List Bytes}
    (hr : Resolves env p ws ds p') {b : Block}
    (hb : b ∈ ws.map (·.block) ∨ b ∈ blocksOf p'.blockPool) : b ∈ blocksOf p.blockPool := by
  induction hr with
  | @stop p _ => simpa [blocksOf_counted] using hb
  | @step p p' w ws ds hw _ ih =>
    rw [← blocksOf_counted p]
    simp only [List.map_cons, List.mem_cons, or_assoc] at hb
    rcases hb with rfl | hb
    · obtain ⟨bin, next, rest, idx, hbins, hat, _⟩ := resolvable_some hw
      rw [Pool.mem_blocksOf, hbins]
      exact ⟨0, w, List.mem_of_getElem? hat, rfl⟩
    · exact mem_blocksOf_advance (ih hb)

end Pool
end GruutMerger
