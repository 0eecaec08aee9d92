import GruutMerger.Forwards
import GruutMerger.PoolRun
import GruutMerger.Rises
import GruutMerger.Support

/-!
# Resolution as a whole

What becomes of the blocks of the pool when `getResolvedBlocks` has run: each is
resolved, dropped for a resolved block of its height, or still there.
-/
namespace GruutMerger

open ByteText Forest

variable {env : Env}

namespace Pool

/-- Rivals of the resolved block in the first bin are dropped. -/
theorem mem_dropped {bin : Bin} {w e : UnresolvedBlock} (hw : w ∈ bin) (he : e ∈ bin)
    (hne : e.block.blockId ≠ w.block.blockId) : e.block.getBlockIdB64 env ∈ dropped env bin w := by
  have hlen : 1 < bin.length := by
    match bin, hw, he with
    | [a], hw, he =>
      rw [List.mem_singleton.mp hw, List.mem_singleton.mp he] at hne
      exact absurd rfl hne
    | _ :: _ :: _, _, _ => simp
  rw [dropped, if_pos hlen]
  exact mem_idsOf env (List.mem_filter.mpr ⟨he, decide_eq_true hne⟩)

theorem mem_of_dropped {bin : Bin} {w : UnresolvedBlock} {id : Bytes} (h : id ∈ dropped env bin w) :
    ∃ e ∈ bin, e.block.getBlockIdB64 env = id := by
  unfold dropped at h
  split at h
  · obtain ⟨e, he, rfl⟩ := List.mem_map.mp h
    exact ⟨e, (List.mem_filter.mp he).1, rfl⟩
  · cases h

theorem not_mem_dropped_self {bin : Bin} {w : UnresolvedBlock} :
    w.block.getBlockIdB64 env ∉ dropped env bin w := by
  unfold dropped
  split
  · intro h
    obtain ⟨e, he, heq⟩ := List.mem_map.mp h
    exact of_decide_eq_true (List.mem_filter.mp he).2 (env.base64.encode_injective heq)
  · simp

/-- Everything dropped was in the pool. -/
theorem Resolves.mem_drops {p p' : Pool} {ws : List UnresolvedBlock} {ds : List Bytes}
    (hr : Resolves env p ws ds p') : ∀ id ∈ ds, ∃ b ∈ blocksOf p.blockPool, b.getBlockIdB64 env = id := by
  induction hr with
  | stop _ => simp
  | @step p p' w ws ds hw _ ih =>
    intro id hid
    rw [← blocksOf_counted p]
    rcases List.mem_append.mp hid with hid | hid
    · obtain ⟨e, he, heq⟩ := mem_of_dropped hid
      exact ⟨e.block, Pool.mem_blocksOf.mpr ⟨0, e, he, rfl⟩, heq⟩
    · obtain ⟨b, hb, heq⟩ := ih id hid
      exact ⟨b, mem_blocksOf_advance hb, heq⟩

/-- The loop ends in one way. -/
theorem Resolves.unique {p q q' : Pool} {ws vs : List UnresolvedBlock} {ds es : List Bytes}
    (h : Resolves env p ws ds q) (h' : Resolves env p vs es q') : (ws, ds, q) = (vs, es, q') := by
  induction h generalizing vs es q' with
  | stop hn =>
    cases h' with
    | stop _ => rfl
    | step hw _ =>
      rw [hn] at hw
      cases hw
  | step hw _ ih =>
    cases h' with
    | stop hn =>
      rw [hn] at hw
      cases hw
    | step hw' hr' =>
      obtain rfl := Option.some.inj (hw.symm.trans hw')
      cases ih hr'
      rfl

/-- More turns change nothing. -/
theorem resolveLoop_eq {p : Pool} {n : Nat} (h : p.blockPool.length < n) : p.resolveLoop env n = p.resolve env :=
  (resolves_resolveLoop env n p h).unique (resolves_resolve env p)

/-- The first bin goes, the others stay. -/
theorem blocksOf_advance {p : Pool} {w : UnresolvedBlock} (hw : resolvable p.blockPool = some w) :
    w ∈ p.bin 0 ∧ blocksOf p.blockPool = (p.bin 0).map (·.block) ++ blocksOf (p.advance w).blockPool := by
  obtain ⟨bin, next, rest, idx, hbins, hat, _⟩ := resolvable_some hw
  have hzero : p.bin 0 = bin := by rw [Pool.bin, hbins, List.getD_cons_zero]
  rw [hzero]
  refine ⟨List.mem_of_getElem? hat, ?_⟩
  simp only [advance, hbins, List.tail_cons, blocksOf_eq, List.map_cons, blocks_rebase, List.flatten_cons]

theorem IdsDiffer.counted {p : Pool} (h : IdsDiffer p.blockPool) : IdsDiffer p.counted.blockPool := by
  rwa [IdsDiffer, blocksOf_counted]

theorem IdsDiffer.advance {p : Pool} {w : UnresolvedBlock} (h : IdsDiffer p.blockPool)
    (hw : resolvable p.blockPool = some w) : IdsDiffer (p.advance w).blockPool := by
  unfold IdsDiffer at h ⊢
  rw [(blocksOf_advance hw).2, List.map_append] at h
  exact (List.nodup_append.mp h).2.1

variable (env) in
/-- A block of the first bin is resolved or dropped, and no other block is. -/
theorem Ok.fate_first {p : Pool} {w : UnresolvedBlock} (h : p.Ok) (hids : IdsDiffer p.blockPool)
    (hw : resolvable p.blockPool = some w) {b : Block} (hb : b ∈ blocksOf p.blockPool) :
    (b ∈ blocksOf (p.advance w).blockPool ∧ b ≠ w.block ∧ b.getBlockIdB64 env ∉ dropped env (p.bin 0) w) ∨
    (b ∉ blocksOf (p.advance w).blockPool ∧
      ((b = w.block ∧ b.getBlockIdB64 env ∉ dropped env (p.bin 0) w) ∨
        (b ≠ w.block ∧ b.getBlockIdB64 env ∈ dropped env (p.bin 0) w))) := by
  obtain ⟨hwin, hblocks⟩ := blocksOf_advance hw
  have hfirst : ∀ e ∈ p.bin 0, e.block.height = p.lastHeight + 1 := fun e he => WellLinked.height_of_mem h he
  have hrest : ∀ a ∈ blocksOf (p.advance w).blockPool, p.lastHeight + 1 < a.height := by
    intro a ha
    obtain ⟨d, j, e, hn, rfl, hheight⟩ := (h.advance hw).node_of_mem ha
    have hlast : (p.advance w).lastHeight = w.block.height := rfl
    rw [hheight, hlast, hfirst w hwin]
    omega
  have hbins : b ∈ (p.bin 0).map (·.block) ∨ b ∈ blocksOf (p.advance w).blockPool := by
    rw [hblocks] at hb
    exact List.mem_append.mp hb
  rcases hbins with hbin | hrem
  · obtain ⟨e, he, rfl⟩ := List.mem_map.mp hbin
    refine Or.inr ⟨fun hmem => ?_, ?_⟩
    · have := hrest _ hmem
      have := hfirst e he
      omega
    · by_cases hid : e.block.blockId = w.block.blockId
      · have heq : e.block = w.block :=
          hids.eq_of_id hb (mem_blocksOf.mpr ⟨0, w, hwin, rfl⟩) hid
        rw [heq]
        exact Or.inl ⟨rfl, not_mem_dropped_self⟩
      · exact Or.inr ⟨fun heq => hid (congrArg Block.blockId heq), mem_dropped hwin he hid⟩
  · have hheight := hrest b hrem
    refine Or.inl ⟨hrem, fun heq => ?_, fun hmem => ?_⟩
    · have := hfirst w hwin
      rw [heq] at hheight
      omega
    · obtain ⟨e, he, heq⟩ := mem_of_dropped hmem
      have hsame := hids.eq_of_id (mem_blocksOf.mpr ⟨0, e, he, rfl⟩) hb (env.base64.encode_injective heq)
      have := hfirst e he
      rw [hsame] at this
      omega

/-- What became of a block of the old pool. -/
inductive Fate where
  | resolved | dropped | kept
  deriving DecidableEq

/-- The block has the fate, and only that one. -/
def HasFate (env : Env) (ws : List UnresolvedBlock) (ds : List Bytes) (p : Pool) (b : Block) (f : Fate) : Prop :=
  (b ∈ ws.map (·.block) ↔ f = .resolved) ∧ (b.getBlockIdB64 env ∈ ds ↔ f = .dropped) ∧
    (b ∈ blocksOf p.blockPool ↔ f = .kept)

theorem Resolves.fate {p p' : Pool} {ws : List UnresolvedBlock} {ds : List Bytes} (hr : Resolves env p ws ds p')
    (h : p.Ok) (hids : IdsDiffer p.blockPool) {b : Block} (hb : b ∈ blocksOf p.blockPool) :
    ∃ f, HasFate env ws ds p' b f := by
  induction hr with
  | @stop p _ => exact ⟨.kept, by simp, by simp, by simp [blocksOf_counted, hb]⟩
  | @step p p' w ws ds hw hrest ih =>
    rw [← blocksOf_counted] at hb
    have hmem : ∀ {a : Block}, a ∈ ws.map (·.block) ∨ a ∈ blocksOf p'.blockPool →
        a ∈ blocksOf (p.counted.advance w).blockPool := hrest.mem_blocksOf
    rcases h.counted.fate_first env hids.counted hw hb with ⟨hin, hne, hdrop⟩ | ⟨hout, hcases⟩
    · obtain ⟨f, h₁, h₂, h₃⟩ := ih (h.counted.advance hw) (hids.counted.advance hw) hin
      exact ⟨f, by simpa [hne] using h₁, by simpa [hdrop] using h₂, h₃⟩
    · have hlater : b ∉ ws.map (·.block) ∧ b.getBlockIdB64 env ∉ ds ∧ b ∉ blocksOf p'.blockPool := by
        refine ⟨fun hm => hout (hmem (Or.inl hm)), fun hd => ?_, fun hm => hout (hmem (Or.inr hm))⟩
        obtain ⟨b', hb', heq⟩ := hrest.mem_drops _ hd
        rw [hids.counted.eq_of_id (mem_blocksOf_advance hb') hb (env.base64.encode_injective heq)] at hb'
        exact hout hb'
      rcases hcases with ⟨rfl, hdrop⟩ | ⟨hne, hdrop⟩
      · exact ⟨.resolved, by simp, by simp [hdrop, hlater.2.1], by simp [hlater.2.2]⟩
      · refine ⟨.dropped, ?_, by simp [hdrop], by simp [hlater.2.2]⟩
        simpa [hne] using hlater.1

end Pool

/-- The entry of the first bin that is taken: on top of the last block, with the greatest
confirm level of those, enough of it, and a block of the pool on top. -/
structure Pool.Chosen (q : Pool) (w : UnresolvedBlock) : Prop where
  first : w ∈ q.counted.bin 0
  follows : Follows q.tip w.block
  enough : blockConfirmLevel ≤ w.confirmLevel
  greatest : ∀ e ∈ q.counted.bin 0, Follows q.tip e.block → e.confirmLevel ≤ w.confirmLevel
  child : ∃ b ∈ Pool.blocksOf q.blockPool, Follows w.block.tip b

theorem Pool.Ok.chosen {q : Pool} {w : UnresolvedBlock} (h : q.Ok)
    (hw : Pool.resolvable q.counted.blockPool = some w) : q.Chosen w := by
  obtain ⟨bin, next, rest, idx, hbins, hat, hroot, hlevel, hmax, child, hchild, hidx⟩ := Pool.resolvable_some hw
  have hbin : q.counted.bin 0 = bin := by rw [Pool.bin, hbins, List.getD_cons_zero]
  obtain ⟨k, hk⟩ := List.getElem?_of_mem hchild
  have hwnode : Forest.node q.counted.blockPool 0 idx = some w := by
    rw [hbins]
    simpa using hat
  have hchildnode : Forest.node q.counted.blockPool 1 k = some child := by
    rw [hbins]
    simpa using hk
  refine ⟨by rw [hbin]; exact List.mem_of_getElem? hat, h.counted.follows hw, hlevel, fun e he hf => ?_, ?_⟩
  · have hindex := Pool.WellLinked.root_of_mem h.counted he
    have hlast : q.counted.namesLast e.block = true := Pool.Follows.namesLast hf
    rw [Pool.rootIndex, if_pos hlast] at hindex
    rw [hbin] at he
    exact hmax e he hindex
  · refine ⟨child.block, ?_, (h.counted.follows_of_index hwnode hchildnode).mp hidx⟩
    rw [← Pool.blocksOf_counted]
    exact Pool.mem_blocksOf_of_node hchildnode

theorem Pool.ResolvedAt.ok {p q : Pool} {w : UnresolvedBlock} (hr : Pool.ResolvedAt p q w) (h : p.Ok) : q.Ok := by
  induction hr with
  | now _ => exact h
  | later hw _ ih => exact ih (h.counted.advance hw)

/-- The loop of `getResolvedBlocks` ends. The blocks it returns are a chain from the old
last block to the new one, each the best of its height at its turn. Every block of the old
pool is resolved, dropped or still there, and only one of these; what is there stands in
the bin of its height. -/
theorem ChainState.resolution_conserves {c c' : ChainState} {ws : List UnresolvedBlock} {ds : List Bytes}
    (h : Reachable env c) (hids : Pool.IdsDiffer c.pool.blockPool)
    (hres : c.getResolvedBlocks env = (ws, ds, c')) :
    (∀ n, c.pool.blockPool.length < n → c.pool.resolveLoop env n = (ws, ds, c'.pool)) ∧
    Linked c.pool.tip (ws.map (·.block)) ∧ c'.pool.tip = tipOf c.pool.tip (ws.map (·.block)) ∧
    (∀ w ∈ ws, ∃ q, Pool.ResolvedAt c.pool q w ∧ q.Chosen w) ∧
    (∀ b ∈ Pool.blocksOf c.pool.blockPool, ∃ f, Pool.HasFate env ws ds c'.pool b f) ∧
    ∀ i, ∀ e ∈ c'.pool.bin i, e.block.height = c'.pool.lastHeight + 1 + i := by
  cases hres
  have hr := Pool.resolves_resolve env c.pool
  obtain ⟨hlinked, htip⟩ := hr.linked h.ok
  refine ⟨fun n hn => Pool.resolveLoop_eq hn, hlinked, htip, fun w hw => ?_, fun b hb => hr.fate h.ok hids hb,
    fun i e he => (hr.ok h.ok).height_of_mem he⟩
  obtain ⟨q, hq⟩ := hr.resolvedAt hw
  exact ⟨q, hq, (hq.ok h.ok).chosen hq.resolvable⟩

/-- A fork of which one block is resolved. -/
theorem ChainState.resolution_conserves_fork : ∃ c c' ws ds, Reachable (Sample.world Sample.forkRows) c ∧
    c.getResolvedBlocks (Sample.world Sample.forkRows) = (ws, ds, c') ∧ ws ≠ [] ∧
    Linked c.pool.tip (ws.map (·.block)) ∧ c'.pool.tip = tipOf c.pool.tip (ws.map (·.block)) ∧
    ∀ b ∈ Pool.blocksOf c.pool.blockPool, ∃ f, Pool.HasFate (Sample.world Sample.forkRows) ws ds c'.pool b f := by
  have hrun : Fallible.okAnd (fun c : ChainState =>
      decide ((Pool.blocksOf c.pool.blockPool).map Block.blockId).Nodup &&
      !(c.getResolvedBlocks (Sample.world Sample.forkRows)).1.isEmpty)
      (Sample.pushAll Sample.forkRows 1000 [3, 4, 1, 0] Sample.initial.chain) = true := by decide +kernel
  obtain ⟨c, hc, htest⟩ := Fallible.okAnd_eq_true.mp hrun
  simp only [Bool.and_eq_true, decide_eq_true_eq, Bool.not_eq_true', List.isEmpty_eq_false_iff] at htest
  have hreach := Sample.reachable_pushAll (by decide +kernel) (by decide) (by decide)
    (.setPool ⟨Storage.empty, [], []⟩ _ [] _ _ _ _) hc
  obtain ⟨_, hlinked, htip, _, hfate, _⟩ := ChainState.resolution_conserves hreach htest.1 rfl
  exact ⟨c, _, _, _, hreach, rfl, htest.2, hlinked, htip, hfate⟩

/-- Three blocks in a row, the first with a height that has wrapped round: read from the text
"-9223372036854775807" it lands in the first bin. -/
def Sample.wrappedRows : List Sample.Row :=
  [⟨[1], genesisBlockPrevId base, genesisBlockPrevHash base, 2 ^ 63 + 1, [good 1, good 2, good 3], [digestTx]⟩,
   ⟨[2], [1], hashOf 0, 2, [good 1, good 2, good 3], [digestTx]⟩,
   ⟨[3], [2], hashOf 1, 3, [good 1, good 2, good 3], [digestTx]⟩]

/-- The blocks of a resolution need not have consecutive heights. -/
theorem ChainState.resolution_wrapped : ∃ c c' ws ds,
    Sample.pushAll Sample.wrappedRows 1000 [0, 1, 2] Sample.initial.chain = .ok c ∧
    Pool.IdsDiffer c.pool.blockPool ∧ c.getResolvedBlocks (Sample.world Sample.wrappedRows) = (ws, ds, c') ∧
    ws.map (·.block.height) = [2 ^ 63 + 1, 2] ∧ ¬Linked c.pool.tip (ws.map (·.block)) := by
  have hrun : Fallible.okAnd (fun c : ChainState =>
      decide ((Pool.blocksOf c.pool.blockPool).map Block.blockId).Nodup && decide (c.pool.lastHeight = 0) &&
      decide ((c.getResolvedBlocks (Sample.world Sample.wrappedRows)).1.map (·.block.height) = [2 ^ 63 + 1, 2]))
      (Sample.pushAll Sample.wrappedRows 1000 [0, 1, 2] Sample.initial.chain) = true := by decide +kernel
  obtain ⟨c, hc, htest⟩ := Fallible.okAnd_eq_true.mp hrun
  simp only [Bool.and_eq_true, decide_eq_true_eq] at htest
  obtain ⟨⟨hids, hlast⟩, hheights⟩ := htest
  refine ⟨c, _, _, _, hc, hids, rfl, hheights, fun hlinked => ?_⟩
  obtain ⟨w, hw, hheight⟩ : ∃ w, (c.getResolvedBlocks (Sample.world Sample.wrappedRows)).1[0]? = some w ∧
      w.block.height = 2 ^ 63 + 1 := by
    have hat := congrArg (·[0]?) hheights
    rw [List.getElem?_map] at hat
    exact Option.map_eq_some_iff.mp hat
  have hfirst : w.block.height = c.pool.lastHeight + 0 + 1 :=
    hlinked.height_at ((List.getElem?_map ..).trans (congrArg (Option.map _) hw))
  omega

end GruutMerger
