import GruutMerger.ChainService
import GruutMerger.DeliveryOrder

/-!
# The first gap of a chain

Blocks of one chain that arrive in any order leave gaps. The pool connects the
blocks below the first gap, its longest position is the last of them, and the
lowest unresolved link is the link from there to the block in the gap.
-/
namespace GruutMerger

open ByteText Forest Fallible

/-- Of a chain the first `k` blocks have arrived and the next one has not. -/
structure Upto (cs ds : List Block) (k : Nat) : Prop where
  le : k ≤ cs.length
  arrived : ∀ b ∈ cs.take k, b ∈ ds
  missing : ∀ b, cs[k]? = some b → b ∉ ds

theorem exists_upto (cs ds : List Block) : ∃ k, Upto cs ds k := by
  induction cs with
  | nil => exact ⟨0, le_rfl, by simp, by simp⟩
  | cons c cs ih =>
    by_cases hc : c ∈ ds
    · obtain ⟨k, hk⟩ := ih
      refine ⟨k + 1, Nat.succ_le_succ hk.le, fun b hb => ?_, hk.missing⟩
      rcases List.mem_cons.mp hb with rfl | hb
      · exact hc
      · exact hk.arrived b hb
    · exact ⟨0, Nat.zero_le _, by simp, fun b hb => by cases hb; exact hc⟩

theorem mem_take_of_getElem? {cs : List Block} {i k : Nat} {b : Block} (hb : cs[i]? = some b) (hi : i < k) : b ∈ cs.take k :=
  List.mem_of_getElem? (by rw [List.getElem?_take_of_lt hi]; exact hb)

/-- More blocks take it no less far. -/
theorem Upto.mono {cs ds ds' : List Block} {k k' : Nat} (h : Upto cs ds k) (h' : Upto cs ds' k')
    (hsub : ∀ b ∈ ds, b ∈ ds') : k ≤ k' := by
  by_contra hlt
  have hle := h.le
  have hat : cs[k']? = some cs[k'] := List.getElem?_eq_getElem (by omega)
  exact h'.missing _ hat (hsub _ (h.arrived _ (mem_take_of_getElem? hat (by omega))))

/-- It is full once everything is there. -/
theorem Upto.eq_length {cs ds : List Block} {k : Nat} (h : Upto cs ds k) (hall : ∀ b ∈ cs, b ∈ ds) : k = cs.length := by
  by_contra hne
  have hle := h.le
  have hat : cs[k]? = some cs[k] := List.getElem?_eq_getElem (by omega)
  exact h.missing _ hat (hall _ (List.mem_of_getElem? hat))

namespace Pool

theorem Resolves.cachePos {env : Env} {p p' : Pool} {ws : List UnresolvedBlock} {ds : List Bytes}
    (hr : Resolves env p ws ds p') : p'.cachePos = p.cachePos := by
  induction hr with
  | stop _ => rfl
  | step _ _ ih => exact ih

/-- The height that the bins of the pool go up to. -/
def top (p : Pool) : Nat := p.lastHeight + p.blockPool.length

theorem Resolves.top {env : Env} {p p' : Pool} {ws : List UnresolvedBlock} {ds : List Bytes}
    (hr : Resolves env p ws ds p') (h : p.Ok) : p'.top = p.top := by
  induction hr with
  | @stop p _ => rw [Pool.top, Pool.top, show p.counted.blockPool.length = p.blockPool.length from length_updateConfirmLevel _]; rfl
  | step hw _ ih => exact (ih (h.counted.advance hw)).trans (h.top_advance hw)

theorem Queried.longestPos {env : Env} {p p' : Pool} (h : p.Queried env p') :
    p'.getLongestBlockPos.1 = p.getLongestBlockPos.1 := by
  have hpos : p.getLongestBlockPos.2.cachePos = some p.getLongestBlockPos.1 := by
    unfold Pool.getLongestBlockPos
    split
    · assumption
    · rfl
  have hagain : ∀ {q : Pool}, q.cachePos = some p.getLongestBlockPos.1 → q.getLongestBlockPos.1 = p.getLongestBlockPos.1 := by
    intro q hq
    rw [Pool.getLongestBlockPos, hq]
  rcases h.cases env with rfl | rfl | ⟨_, _, _, rfl | rfl⟩ | ⟨_, _, _, rfl⟩
  · rfl
  · exact hagain hpos
  · unfold Pool.getLongestBlockPos
    cases p.cachePos <;> rfl
  · exact hagain hpos
  · exact hagain hpos

theorem Queried.cachePos_isSome {env : Env} {p p' : Pool} (h : p.Queried env p') (hpos : p.cachePos.isSome) :
    p'.cachePos.isSome := by
  have hsame : p.getLongestBlockPos.2 = p := by
    obtain ⟨pos, hpos⟩ := Option.isSome_iff_exists.mp hpos
    rw [Pool.getLongestBlockPos, hpos]
  rcases h.cases env with rfl | rfl | ⟨_, _, _, rfl | rfl⟩ | ⟨_, _, _, rfl⟩
  · exact hpos
  · rwa [hsame]
  · exact hpos
  · simpa only [hsame] using hpos
  · simpa only [hsame] using hpos

section Chain

variable {start : Pool} {cs : List Block} (hcs : start.Continues cs) (h0 : start.lastHeight = 0)
include hcs

theorem Continues.at_height {b : Block} (hb : b ∈ cs) (hfrom : start.lastHeight = 0) : cs[b.height - 1]? = some b := by
  obtain ⟨k, hk⟩ := List.getElem?_of_mem hb
  have hheight := hcs.linked.height_at hk
  have htip : start.tip.height = start.lastHeight := rfl
  rwa [show b.height - 1 = k by omega]

variable {ds done rest : List Block} {p : Pool} (h : Filling start cs ds done rest p) {k : Nat} (hk : Upto cs ds k)
include h

theorem Filling.mem_rest_of_high {b : Block} (hb : b ∈ cs) (hhigh : p.lastHeight < b.height) : b ∈ rest := by
  rw [h.split] at hb
  refine (List.mem_append.mp hb).resolve_left fun hdone => ?_
  obtain ⟨i, hi⟩ := List.getElem?_of_mem hdone
  have hlt := (List.getElem?_eq_some_iff.mp hi).1
  have hlinked := hcs.linked
  rw [h.split] at hlinked
  have hheight := Linked.height_at (Trail.valid_append.mp hlinked).1 hi
  have hlast := h.height hcs
  have htip : start.tip.height = start.lastHeight := rfl
  omega

omit hcs in
theorem Filling.done_eq : done = cs.take done.length := by
  rw [h.split, List.take_left']
  rfl

include hk

omit hcs in
theorem Filling.done_le : done.length ≤ k := by
  by_contra hlt
  have hat : cs[k]? = done[k]? := by
    rw [h.split, List.getElem?_append_left (by omega)]
  have hin : done[k]? = some done[k] := List.getElem?_eq_getElem (by omega)
  exact hk.missing _ (hat.trans hin) (h.arrived _ (List.mem_of_getElem? hin))

/-- The blocks that have arrived above the last one, up to the first gap. -/
theorem Filling.rises_take : p.Rises (rest.take (k - done.length)) := by
  refine ⟨fun b hb => ?_, ?_⟩
  · refine (h.mem b).mpr ⟨hk.arrived b ?_, List.mem_of_mem_take hb⟩
    rw [h.split, List.take_append]
    exact List.mem_append_right _ hb
  · have hlinked := h.linked hcs
    rw [← List.take_append_drop (k - done.length) rest] at hlinked
    exact (Trail.valid_append.mp hlinked).1

include h0

/-- The search ends at the last block below the first gap. -/
theorem Filling.search_height (hn : p.Near) (hhead : done = [] ∨ done.length < k) :
    (Pool.searchLongestPos p.blockPool).1 = k := by
  have hlast := h.height hcs
  have hle := h.done_le hk
  have hlen := congrArg List.length h.split
  rw [List.length_append] at hlen
  have hkle := hk.le
  have hrises := h.rises_take hcs hk
  have hcount : (rest.take (k - done.length)).length = k - done.length := by
    rw [List.length_take]
    omega
  rcases h.ok.longest hn rfl with ⟨hzero, hnone⟩ | ⟨bs, d, e, hlong, _, hheight, _⟩
  · -- nothing is on top of the last block, so nothing was ever resolved
    have hshort := hnone.2 _ hrises
    rw [hcount, List.length_nil] at hshort
    obtain rfl := hhead.resolve_right (by omega)
    rw [List.length_nil] at hshort
    rw [hzero]
    simp only
    omega
  · have htip : p.tip.height = p.lastHeight := rfl
    have hend : e.block.height = p.lastHeight + (bs.length + 1) := by
      have := hlong.1.2.height_at (k := bs.length) (b := e.block) (by simp)
      omega
    have hlow := hlong.2 _ hrises
    rw [hcount, List.length_append, List.length_singleton] at hlow
    rw [← hheight]
    by_contra hne
    -- the chain would go over the gap
    have hi : k - done.length < (bs ++ [e.block]).length := by
      rw [List.length_append, List.length_singleton]
      omega
    have hat := List.getElem?_eq_getElem hi
    have hmem := (h.mem _).mp (hlong.1.1 _ (List.mem_of_getElem? hat))
    have hover := hlong.1.2.height_at hat
    have hgap := hcs.at_height (h.mem_chain hmem.2) h0
    rw [show (bs ++ [e.block])[k - done.length].height - 1 = k by omega] at hgap
    exact hk.missing _ hgap hmem.1

/-- The link that is asked for: the block in the gap, or none when there is no gap. -/
theorem Filling.lowest_link (hn : p.Near) (hr : p.InRange) (hpos : p.getLongestBlockPos.1.1 = k) (hlast : p.lastHeight < 2 ^ 31) :
    ∃ p', p.getUnresolvedLowestLink =
      .ok (if k < p.top then (k + 1, (tipOf start.tip (cs.take k)).hash) else (0, []), p') := by
  have hheight := h.height hcs
  have hle := h.done_le hk
  obtain ⟨cached, hsnd⟩ := p.getLongestBlockPos_snd
  have hat := h.ok.at_getLongestBlockPos hn hr
  simp only [getUnresolvedLowestLink, hsnd]
  generalize p.getLongestBlockPos.1 = pos at hat hpos
  by_cases hgap : k < p.top
  · have hrange : k < p.blockPool.length + p.lastHeight := by
      rw [Pool.top] at hgap
      omega
    rw [if_pos hgap, if_pos ⟨by omega, by omega⟩]
    split
    · rename_i heq
      have hdone : done = cs.take k := by
        rw [← show done.length = k by omega]
        exact h.done_eq
      have hhash : p.lastHash = (tipOf start.tip (cs.take k)).hash := by
        rw [← hdone]
        exact congrArg Tip.hash h.tip
      rw [hhash, ← heq, hpos]
      exact ⟨_, rfl⟩
    · rename_i hne
      obtain ⟨i, e, hi, hlt, hnode⟩ := hat (by omega)
      have hidx : binIdx p.lastHeight pos.1 = i := by
        rw [binIdx_of_lt (by omega) (by omega) (by omega)]
        omega
      have hin := mem_bin_of_node hnode
      have hblock : e.block.height = k := by
        have := WellLinked.height_of_mem h.ok hin
        omega
      have hchain := hcs.at_height (h.mem_chain ((h.mem _).mp (mem_blocksOf.mpr ⟨i, e, hin, rfl⟩)).2) h0
      have htip : tipOf start.tip (cs.take (e.block.height - 1 + 1)) = e.block.tip := Trail.finish_take_succ start.tip hchain
      rw [show e.block.height - 1 + 1 = k by omega] at htip
      rw [hidx, if_pos (by omega), Int.toNat_natCast, hnode, htip]
      simp only
      rw [hblock]
      exact ⟨_, rfl⟩
  · have hrange : ¬ (p.lastHeight ≤ pos.1 ∧ pos.1 < p.blockPool.length + p.lastHeight) := by
      rw [Pool.top] at hgap
      omega
    rw [if_neg hgap, if_neg hrange]
    exact ⟨_, rfl⟩

omit h0

/-- What is resolved has a block on top that has arrived. -/
theorem Filling.advanced {w : UnresolvedBlock} (hw : resolvable p.counted.blockPool = some w) : done.length + 1 < k := by
  obtain ⟨_, next, more, hrest, _⟩ := h.resolvable_first hcs hw
  obtain ⟨_, _, _, _, _, _, child, hchild, _⟩ := resolvable_counted hw
  have hin := (h.mem _).mp (mem_blocksOf.mpr ⟨1, child, hchild, rfl⟩)
  have hheight := WellLinked.height_of_mem h.ok hchild
  have hat : rest[1]? = some next := by rw [hrest]; rfl
  have hnext := (h.linked hcs).height_at hat
  have htip : p.tip.height = p.lastHeight := rfl
  obtain rfl : child.block = next :=
    hcs.eq_of_height (h.mem_chain hin.2) (h.mem_chain (List.mem_of_getElem? hat)) (by omega)
  obtain ⟨_, _, hturn⟩ := h.turn hcs hw
  have hle := hturn.done_le hk
  rw [List.length_append, List.length_singleton] at hle
  refine lt_of_le_of_ne hle fun heq => ?_
  refine hk.missing child.block ?_ hin.1
  rw [← heq, h.split, List.getElem?_append_right (by omega), Nat.add_sub_cancel_left]
  exact hat

theorem Filling.resolves_head {env : Env} {p' : Pool} {ws : List UnresolvedBlock} {drops : List Bytes}
    (hr : Resolves env p ws drops p') (hhead : done = [] ∨ done.length < k) :
    done ++ ws.map (·.block) = [] ∨ (done ++ ws.map (·.block)).length < k := by
  induction hr generalizing done rest with
  | stop _ => simpa using hhead
  | @step p p' w ws drops hw _ ih =>
    obtain ⟨more, _, hturn⟩ := h.turn hcs hw
    have hlt := h.advanced hcs hk hw
    have := ih hturn (Or.inr (by rw [List.length_append, List.length_singleton]; exact hlt))
    simpa using this

end Chain

theorem Filling.recached {start : Pool} {cs ds done rest : List Block} {p p' : Pool} (h : Filling start cs ds done rest p)
    (hq : p.Recached p') : Filling start cs ds done rest p' := by
  obtain ⟨_, _, _, rfl⟩ := hq
  exact ⟨h.split, h.ok, h.tip, h.time, h.mem, h.arrived, h.count, h.top, h.room, h.top_le⟩

end Pool

namespace ChainState

/-- The blocks that have been resolved. -/
def resolved (c : ChainState) : List Block := resolvedIn c.layered.storage.log

variable {env : Env} {cs : List Block}

theorem continues_initial (hcs : Chain env cs) : (ChainState.initial env).pool.Continues cs where
  linked := hcs.linked
  ids := hcs.ids
  named b hb := (hcs.savable b hb).id_ne
  fits := by
    have hzero : (ChainState.initial env).pool.lastHeight = 0 := rfl
    rcases List.eq_nil_or_concat cs with rfl | ⟨init, c, rfl⟩
    · rw [hzero]
      exact Nat.two_pow_pos 31
    · have hat := hcs.linked.height_at (k := init.length) (b := c) (by simp)
      have hlt := hcs.height_lt c (by simp)
      have htip : (genesisTip env).height = 0 := rfl
      rw [hzero, List.length_concat]
      omega

variable (env cs) in
/-- A merger among whose blocks are those of `ds`, the first `k` of the chain without a gap. -/
structure Placed (ds : List Block) (c : ChainState) (k : Nat) : Prop where
  steady : Steady env cs c
  upto : Upto cs ds k
  position : c.pool.getLongestBlockPos.1.1 = k
  filling : Pool.Filling (ChainState.initial env).pool cs ds c.resolved (cs.drop c.resolved.length) c.pool
  head : c.resolved = [] ∨ c.resolved.length < k

variable (cs) in
/-- With the whole chain there, no more can be resolved. -/
def Settled (ds : List Block) (c : ChainState) : Prop :=
  (∀ b ∈ cs, b ∈ ds) → Pool.resolvedCount (cs.drop c.resolved.length) = 0

variable {ds : List Block} {c : ChainState} {k : Nat}

theorem Placed.queried (h : Placed env cs ds c k) {p' : Pool} (hq : c.pool.Queried env p') :
    Placed env cs ds { c with pool := p' } k :=
  ⟨h.steady.queried hq, h.upto, hq.longestPos.symm ▸ h.position, h.filling.recached (Pool.Queried.eq env hq), h.head⟩

/-- A block that is there already changes nothing. -/
theorem Placed.push_known (h : Placed env cs ds c k) (hcs : Chain env cs) {now : Nat} {b : Block} (hb : b ∈ cs) (hin : b ∈ ds)
    {r : PushResult} {c₁ : ChainState} (hp : c.push env now b false = .ok (r, c₁)) :
    c₁ = c ∧ (r.height = 0 ∨ r.duplicated = true) := by
  obtain ⟨a, hpool, hlayered⟩ := (push_eq_ok env).mp hp
  have hcont := continues_initial hcs
  obtain ⟨pool₁, layered₁⟩ := c₁
  rcases Pool.push_steps env hpool with ⟨rfl, rfl, rfl, _⟩ | ⟨i, hlow, _, hidx, hcases⟩
  · obtain rfl : layered₁ = c.layered := hlayered
    exact ⟨rfl, Or.inl rfl⟩
  · -- the block is in its bin
    have hmem := (h.filling.mem b).mpr ⟨hin, h.filling.mem_rest_of_high hcont hb hlow⟩
    obtain ⟨d, j, e, hnode, rfl, hheight⟩ := h.steady.sane.ok.node_of_mem hmem
    have hlt := hcs.height_lt e.block hb
    rw [Pool.binIdx_of_lt hlow (by omega) (by omega)] at hidx
    obtain rfl : d = i := by omega
    have hbin := Pool.mem_bin_of_node hnode
    rcases hcases with ⟨rfl, rfl, rfl, _⟩ | ⟨hnone, _⟩
    · have hsize : d + 1 ≤ c.pool.blockPool.length := by
        by_contra hge
        rw [List.getD_eq_default _ _ (by omega)] at hbin
        cases hbin
      have hgrow : c.pool.grow (d + 1) = c.pool := by
        rw [Pool.grow, Nat.sub_eq_zero_of_le hsize, List.replicate_zero, List.append_nil]
      obtain rfl : layered₁ = c.layered := hlayered
      rw [hgrow]
      exact ⟨rfl, Or.inr rfl⟩
    · have := hnone e hbin
      simp [Block.same] at this

/-- A block that is new is taken in; the position is that of the chain below the next gap. -/
theorem Placed.push_new (h : Placed env cs ds c k) (hcs : Chain env cs) {now : Nat} {b : Block} (hb : b ∈ cs) (hnew : b ∉ ds)
    (hlate : (ChainState.initial env).pool.LateFor cs now) {r : PushResult} {c₁ : ChainState}
    (hp : c.push env now b false = .ok (r, c₁)) :
    r.height ≠ 0 ∧ r.duplicated = false ∧ c₁.pool.top = max c.pool.top b.height ∧
      ((∀ a ∈ cs, a ∈ ds ++ [b]) → r.linked = true) ∧ (r.linked = true → c₁.pool.Fresh env) ∧
      c₁.pool.cachePos.isSome ∧ ∃ k', k ≤ k' ∧ Placed env cs (ds ++ [b]) c₁ k' := by
  have hcont := continues_initial hcs
  have hrest := h.filling.mem_rest hb hnew
  obtain ⟨hw, _⟩ := h.filling.admits hcont hrest hlate
  obtain ⟨r', c', hp', hsteady, hfresh⟩ := h.steady.push_returns hcs.toTame hb (hcs.received b hb) hw
  rw [hp] at hp'
  cases hp'
  obtain ⟨r', p', a, hpool, hfill, hlinked⟩ := h.filling.push env hcont hb hnew hlate
  obtain ⟨a', hpool', _⟩ := (push_eq_ok env).mp hp
  rw [hpool] at hpool'
  cases hpool'
  have hlog : c₁.resolved = c.resolved := (touches_push env hp).resolvedIn_eq
  obtain ⟨k', hk'⟩ := exists_upto cs (ds ++ [b])
  have hle := h.upto.mono hk' fun a ha => List.mem_append_left _ ha
  have hhead : c.resolved = [] ∨ c.resolved.length < k' := h.head.imp_right fun hlt => by omega
  have hnotgrown : ∀ n, c₁.pool ≠ c.pool.grow n := by
    intro n hgrow
    have hmem := (hfill.mem b).mpr ⟨by simp, hrest⟩
    rw [hgrow, Pool.blocksOf_grow] at hmem
    exact hnew ((h.filling.mem b).mp hmem).1
  rcases Pool.push_cases env hpool with ⟨_, _, n, hgrow⟩ | ⟨_, _, n, hgrow⟩ | ⟨i, prev, acc, rfl, _, _, _, _, _, ha⟩
  · exact absurd hgrow (hnotgrown n)
  · exact absurd hgrow (hnotgrown n)
  · have hpos : c₁.pool.cachePos = some (Pool.searchLongestPos c₁.pool.blockPool) := by rw [ha.pool]
    have hposition : c₁.pool.getLongestBlockPos.1.1 = k' := by
      rw [Pool.getLongestBlockPos, hpos]
      exact hfill.search_height hcont rfl hk' hsteady.near hhead
    refine ⟨?_, ?_, Pool.top_push env hw hpool, fun hall => hlinked fun a ha => hall a (List.mem_of_mem_drop ha), hfresh,
      by rw [hpos]; rfl, k', hle, hsteady, hk', hposition, by rw [hlog]; exact hfill, by rw [hlog]; exact hhead⟩
    · rw [ha.result]
      exact Nat.ne_of_gt (hcs.height_pos hb)
    · rw [ha.result]

/-- Resolving takes blocks off the front of the chain. -/
theorem Placed.procResolved (h : Placed env cs ds c k) (hcs : Chain env cs) (hpos : c.pool.cachePos.isSome) {c' : ChainState}
    (hr : c.procResolvedBlocksIf env = .ok c') :
    Placed env cs ds c' k ∧ Settled cs ds c' ∧ c'.pool.top = c.pool.top := by
  have hcont := continues_initial hcs
  obtain ⟨c'', hr', hsteady⟩ := h.steady.procResolved_returns hcs.toTame
  rw [hr] at hr'
  cases hr'
  obtain ⟨ws, drops, hres, ls, htouch, _, hfold⟩ := procResolved_cases env hr
  have hlog : c'.resolved = c.resolved ++ ws.map (·.block) := by
    rw [resolved, (saving_foldlM env hfold).resolved, htouch.resolvedIn_eq, Storage.logResolved, resolvedIn_append,
      resolvedIn_resolved]
    rfl
  obtain ⟨more, hsplit, hfill, hstop⟩ := h.filling.resolves hcont hres
  have hmore : more = cs.drop c'.resolved.length := by
    rw [hfill.split, hlog, List.drop_left']
    rfl
  rw [← hlog, hmore] at hfill
  rw [hmore] at hstop
  refine ⟨⟨hsteady, h.upto, ?_, hfill, ?_⟩, hstop, hres.top h.steady.sane.ok⟩
  · obtain ⟨pos, hpos⟩ := Option.isSome_iff_exists.mp hpos
    have hold := h.position
    rw [Pool.getLongestBlockPos, hpos] at hold
    rw [Pool.getLongestBlockPos, hres.cachePos, hpos]
    exact hold
  · rw [hlog]
    exact h.filling.resolves_head hcont h.upto hres h.head

theorem Placed.congr (h : Placed env cs ds c k) {ds' : List Block} (hsame : ∀ b, b ∈ ds ↔ b ∈ ds') :
    Placed env cs ds' c k := by
  have hfill := h.filling
  refine ⟨h.steady, ⟨h.upto.le, fun b hb => (hsame b).mp (h.upto.arrived b hb), fun b hb hin =>
    h.upto.missing b hb ((hsame b).mpr hin)⟩, h.position, ?_, h.head⟩
  exact ⟨hfill.split, hfill.ok, hfill.tip, hfill.time, fun b => by rw [hfill.mem b, hsame b],
    fun b hb => (hsame b).mp (hfill.arrived b hb), hfill.count, fun b hb => hfill.top b ((hsame b).mpr hb), hfill.room,
    hfill.top_le⟩

variable (env cs) in
theorem Placed.initial : Placed env cs [] (ChainState.initial env) 0 where
  steady := .initial env cs
  upto := ⟨Nat.zero_le _, by simp, by simp⟩
  position := rfl
  filling := by
    refine ⟨rfl, trivial, rfl, rfl, fun b => ?_, by simp [resolved, ChainState.initial, Storage.empty, resolvedIn], ?_, by simp,
      le_rfl, by omega⟩
    · simp [ChainState.initial, Pool.setPool, Pool.fresh, Pool.blocksOf]
    · simp [resolved, ChainState.initial, Storage.empty, resolvedIn]
  head := Or.inl rfl

end ChainState
end GruutMerger
