import GruutMerger.BlockProcessor
import GruutMerger.Cache
import GruutMerger.Rises

/-!
# The longest chain of the pool

Three queries of the pool are answered from the end of a longest chain on top of
the last block: the ids of that chain, the link to build on, and the block to
ask for next. With nothing on top of the last block the search ends at height 0,
which stands for the last block only while that has height 0 itself.
-/
namespace GruutMerger

open ByteText Forest Fallible

variable (env : Env)

namespace Pool

variable {env}

theorem Near.push {p p' : Pool} {now : Nat} {block : Block} {r : PushResult} {a : Option Accepted}
    (h : p.Near) (hw : p.NoWrap now block.height) (hp : p.push env now block = .ok (r, p', a)) : p'.Near := by
  intro b hb
  rw [(sameLast_push env hp).2.2.1]
  rcases push_cases env hp with ⟨_, _, n, rfl⟩ | ⟨_, _, n, rfl⟩ | ⟨i, prev, acc, _, hlt, hearly, _⟩
  · exact h b (by rwa [blocksOf_grow] at hb)
  · exact h b (by rwa [blocksOf_grow] at hb)
  · rcases mem_blocksOf_push env hp hb with rfl | hb
    · exact ⟨hw.2.2.1, hw.lt_of_not_early hlt hearly⟩
    · exact h b hb

theorem Near.resolves {p p' : Pool} {ws : List UnresolvedBlock} {ds : List Bytes} (h : p.Near) (hok : p.Ok)
    (hr : Resolves env p ws ds p') : p'.Near := by
  intro b hb
  obtain ⟨hlinked, htip⟩ := hr.linked hok
  have hlast : p'.lastHeight = (tipOf p.tip (ws.map (·.block))).height := congrArg Tip.height htip
  rw [hlinked.height_tipOf] at hlast
  have hold := h b (hr.mem_blocksOf (Or.inr hb))
  have htip : p.tip.height = p.lastHeight := rfl
  omega

end Pool

variable {env} in
theorem ChainState.Reachable.near {c : ChainState} (h : Reachable env c) : c.pool.Near := by
  have hboth : c.pool.Ok ∧ c.pool.Near := by
    refine h.invariant (P := fun p => p.Ok ∧ p.Near) (fun hp hw hpush => ?_) (fun _ _ _ _ _ _ => ?_) (fun hp => ?_)
      fun hp hq => ?_
    · exact ⟨hp.1.push env hw hpush, hp.2.push hw hpush⟩
    · exact ⟨trivial, fun b hb => by cases hb⟩
    · have hr := Pool.resolves_resolve env
      exact ⟨(hr _).ok hp.1, hp.2.resolves hp.1 (hr _)⟩
    · refine ⟨hp.1.queried env hq, ?_⟩
      obtain ⟨link, layer, pos, rfl⟩ := hq.eq env
      exact hp.2
  exact hboth.2

namespace Pool

/-- No chain on top of the last block is longer. -/
def Longest (p : Pool) (bs : List Block) : Prop := p.Rises bs ∧ ∀ bs', p.Rises bs' → bs'.length ≤ bs.length

theorem Ok.length_of_rises {p : Pool} (h : p.Ok) {n : Nat} (hd : p.DepthLt n) {bs : List Block} (hr : p.Rises bs) :
    bs.length ≤ n := by
  rcases List.eq_nil_or_concat bs with rfl | ⟨init, b, rfl⟩
  · exact Nat.zero_le n
  · rw [List.concat_eq_append] at hr ⊢
    obtain ⟨d, j, e, hc, rfl⟩ := h.rooted_iff.mp ⟨init, hr⟩
    have hdepth := hd d j e hc
    have hheight := h.height_of_connected hc
    rw [hr.height] at hheight
    rw [List.length_append, List.length_singleton]
    omega

/-- What the search finds: nothing on top of the last block, or the end of a longest chain. -/
theorem Ok.longest {p : Pool} (h : p.Ok) (hn : p.Near) {pos : BlockPosOnMap}
    (hpos : Pool.searchLongestPos p.blockPool = pos) :
    (pos = (0, 0) ∧ p.Longest []) ∨
      ∃ bs d e, p.Longest (bs ++ [e.block]) ∧ node p.blockPool d pos.2 = some e ∧ e.block.height = pos.1 ∧
        p.lastHeight < pos.1 ∧ binIdx p.lastHeight pos.1 = d ∧
        ∃ path, ascend UnresolvedBlock.prevVectorIdx p.blockPool d pos.2 = some path ∧
          path.map (·.block) = (bs ++ [e.block]).reverse := by
  subst hpos
  rcases h.searchLongestPos hn with ⟨hzero, hd⟩ | ⟨d, e, hc, hd, hheight, hidx⟩
  · exact Or.inl ⟨hzero, ⟨by simp, trivial⟩, fun bs' hr => h.length_of_rises hd hr⟩
  · obtain ⟨bs, hlen, hr, hpath⟩ := h.rises_of_connected hc
    refine Or.inr ⟨bs, d, e, ⟨hr, fun bs' hr' => ?_⟩, hc.node_eq, hheight, ?_, hidx, hpath⟩
    · rw [List.length_append, List.length_singleton, hlen]
      exact h.length_of_rises hd hr'
    · have := h.height_of_connected hc
      omega

theorem Longest.length_eq {p : Pool} {as bs : List Block} (ha : p.Longest as) (hb : p.Longest bs) :
    as.length = bs.length := Nat.le_antisymm (hb.2 as ha.1) (ha.2 bs hb.1)

theorem Longest.height_eq {p : Pool} {as bs : List Block} (ha : p.Longest as) (hb : p.Longest bs) :
    (tipOf p.tip as).height = (tipOf p.tip bs).height := by
  rw [ha.1.2.height_tipOf, hb.1.2.height_tipOf, ha.length_eq hb]

end Pool

/-- With the caches cleared, the layer query is answered within the bins and lists the ids
of a longest chain, its end first, exactly when something is on top of the last block or the
last height is no negative int. -/
theorem ChainState.longest_chain_found {c : ChainState} (h : Reachable env c) (h64 : c.pool.lastHeight < 2 ^ 64) :
    (∃ bs p', c.pool.Longest bs ∧ c.pool.invalidateCaches.getMostPossibleBlockLayer env =
      .ok ((bs.map (·.getBlockIdB64 env)).reverse, p')) ↔
    (c.pool.Longest [] → c.pool.lastHeight % 2 ^ 32 < 2 ^ 31) := by
  have hclear : c.pool.invalidateCaches.Fresh env := Pool.fresh_invalidateCaches c.pool
  have hlayer (ids : List Bytes) : (∃ p', c.pool.invalidateCaches.getMostPossibleBlockLayer env = .ok (ids, p')) ↔
      Pool.layerAt env c.pool.blockPool c.pool.lastHeight (Pool.searchLongestPos c.pool.blockPool) = .ok ids := by
    have heq : (c.pool.invalidateCaches.getMostPossibleBlockLayer env).map Prod.fst =
        Pool.layerAt env c.pool.blockPool c.pool.lastHeight (Pool.searchLongestPos c.pool.blockPool) :=
      hclear.getMostPossibleBlockLayer
    rw [← heq, map_eq_ok]
    simp
  simp only [exists_and_left, hlayer]
  generalize hpos : Pool.searchLongestPos c.pool.blockPool = pos
  rw [← Pool.binIdx_zero h64, Pool.layerAt]
  rcases h.ok.longest h.near hpos with ⟨rfl, hnone⟩ | ⟨bs, d, e, hbs, _, _, _, hidx, path, hpath, hblocks⟩
  · simp only [hnone, true_imp_iff]
    constructor
    · rintro ⟨bs, hbs, hids⟩
      obtain rfl : bs = [] := List.length_eq_zero_iff.mp (hbs.length_eq hnone)
      -- going up from a bin lists one id at least
      split at hids
      · cases hids
      · rename_i hmin
        refine ⟨not_lt.mp hmin, by_contra fun hneg => ?_⟩
        rw [if_neg hneg] at hids
        split at hids
        · rename_i path hpath
          have hpath' : path ≠ [] := Forest.ascend_ne_nil hpath
          simp [hpath'] at hids
        · cases hids
    · intro hneg
      exact ⟨[], hnone, by rw [if_neg hneg.1.not_gt, if_pos hneg.2]; rfl⟩
  · refine iff_of_true ⟨bs ++ [e.block], hbs, ?_⟩ fun hnone => ?_
    · rw [hidx, if_neg (by omega), if_neg (by omega), Int.toNat_natCast, hpath, ← List.map_reverse, ← hblocks, List.map_map]
      rfl
    · have := hnone.length_eq hbs
      simp at this

/-- Two branches of different length. -/
theorem ChainState.longest_chain_found_twoBranches : ∃ c bs p',
    Reachable (Sample.world Sample.twoBranches) c ∧ c.pool.lastHeight = 0 ∧ c.pool.Longest bs ∧ bs.length = 3 ∧
    c.pool.invalidateCaches.getMostPossibleBlockLayer (Sample.world Sample.twoBranches) =
      .ok ((bs.map (·.getBlockIdB64 (Sample.world Sample.twoBranches))).reverse, p') := by
  have hrun : okAnd (fun c : ChainState => decide (c.pool.lastHeight = 0) &&
      okAnd (fun x => decide (x.1.length = 3))
        (c.pool.invalidateCaches.getMostPossibleBlockLayer (Sample.world Sample.twoBranches)))
      (Sample.pushAll Sample.twoBranches 1000 [0, 1, 2, 3, 4] Sample.initial.chain) = true := by decide +kernel
  obtain ⟨c, hc, htest⟩ := okAnd_eq_true.mp hrun
  simp only [Bool.and_eq_true, decide_eq_true_eq] at htest
  have hreach := Sample.reachable_pushAll (by decide +kernel) (by decide) (by decide)
    (.setPool ⟨Storage.empty, [], []⟩ _ [] _ _ _ _) hc
  obtain ⟨bs, p', hbs, hget⟩ := (ChainState.longest_chain_found _ hreach (by omega)).mpr fun _ => by omega
  obtain ⟨x, hx, hlen⟩ := okAnd_eq_true.mp htest.2
  rw [hget] at hx
  cases hx
  exact ⟨c, bs, p', hreach, htest.1, hbs, by simpa using hlen, hget⟩

/-- A chain of more than 2^31 blocks, and none in the pool: the bin of height 0 comes out
as a positive int. -/
theorem ChainState.layer_out_of_range : ∃ c, Reachable Sample.base c ∧ c.pool.Longest [] ∧
    c.pool.invalidateCaches.getMostPossibleBlockLayer Sample.base = .error .undefined := by
  refine ⟨_, .setPool ⟨Storage.empty, [], []⟩ [1] [] [1] [] (2 ^ 31 + 1) 0, ⟨⟨by simp, trivial⟩, fun bs hr => ?_⟩, ?_⟩
  · cases bs with
    | nil => exact Nat.le_refl 0
    | cons b bs => exact absurd (hr.1 b (by simp)) (by simp [Pool.setPool, Pool.fresh, Pool.blocksOf])
  · rfl

namespace Pool

/-- Some block stands higher than the longest chains. -/
def Ahead (p : Pool) : Prop := ∃ b ∈ blocksOf p.blockPool, ∀ bs, p.Longest bs → (tipOf p.tip bs).height < b.height

/-- A remembered position is still what the search finds. -/
def Positioned (p : Pool) : Prop := ∀ x, p.cachePos = some x → x = searchLongestPos p.blockPool

/-- The search has a chain to find, or height 0 is the last height. -/
def Seen (p : Pool) : Prop := p.lastHeight = 0 ∨ ¬ p.Longest []

theorem Positioned.getLongestBlockPos {p : Pool} (h : p.Positioned) :
    p.getLongestBlockPos.1 = searchLongestPos p.blockPool := by
  unfold Pool.getLongestBlockPos
  split
  · rename_i x hx
    exact h x hx
  · rfl

/-- Longest chains end at the height that the search finds. -/
theorem Ok.height_of_longest {p : Pool} (h : p.Ok) (hn : p.Near) {bs : List Block} (hbs : p.Longest bs) :
    (tipOf p.tip bs).height = max p.lastHeight (Pool.searchLongestPos p.blockPool).1 := by
  generalize hpos : Pool.searchLongestPos p.blockPool = pos
  rcases h.longest hn hpos with ⟨rfl, hnone⟩ | ⟨init, d, e, hfound, _, hkey, hlast, _⟩
  · rw [hbs.height_eq hnone]
    exact (Nat.max_zero _).symm
  · rw [hbs.height_eq hfound, tipOf, Trail.finish_concat, Nat.max_eq_right hlast.le]
    exact hkey

theorem Ok.longest_nil {p : Pool} (h : p.Ok) (hn : p.Near) (hpos : (Pool.searchLongestPos p.blockPool).1 = 0) :
    p.Longest [] := by
  rcases h.longest hn rfl with ⟨_, hnone⟩ | ⟨_, _, _, _, _, _, hlast, _⟩
  · exact hnone
  · omega

/-- The link to ask for is the one after a longest chain if the search can see it, and none
otherwise. -/
theorem Ok.lowest_link {p : Pool} (h : p.Ok) (hn : p.Near) (hp : p.Positioned) (ha : p.Ahead) :
    (p.Seen ∧ ∃ bs p', p.Longest bs ∧
      p.getUnresolvedLowestLink = .ok (((tipOf p.tip bs).height + 1, (tipOf p.tip bs).hash), p')) ∨
    (¬ p.Seen ∧ ∃ p', p.getUnresolvedLowestLink = .ok ((0, []), p')) := by
  obtain ⟨b, hb, habove⟩ := ha
  obtain ⟨i, eb, heb, rfl⟩ := mem_blocksOf.mp hb
  have hheight := WellLinked.height_of_mem h heb
  have hlen : i < p.blockPool.length := by
    by_contra hge
    rw [List.getD_eq_getElem?_getD, List.getElem?_eq_none (Nat.le_of_not_lt hge)] at heb
    cases heb
  obtain ⟨cached, hsnd⟩ := p.getLongestBlockPos_snd
  have hget := hp.getLongestBlockPos
  generalize hpos : Pool.searchLongestPos p.blockPool = pos at hget
  simp only [getUnresolvedLowestLink, hget, hsnd]
  rcases h.longest hn hpos with ⟨rfl, hnone⟩ | ⟨bs, d, e, hbs, hnode, hkey, hlast, hidx, _⟩
  · by_cases hzero : p.lastHeight = 0
    · refine Or.inl ⟨Or.inl hzero, [], { p with cachePos := cached }, hnone, ?_⟩
      rw [if_pos ⟨by omega, by simp only; omega⟩, if_pos hzero.symm]
      rfl
    · refine Or.inr ⟨fun hseen => hseen.elim hzero fun hsome => hsome hnone, { p with cachePos := cached }, ?_⟩
      rw [if_neg (by simp only; omega)]
  · have htip : tipOf p.tip (bs ++ [e.block]) = e.block.tip := Trail.finish_concat _ _ _ _
    have htop : pos.1 < eb.block.height := by
      have hlt := habove _ hbs
      rw [htip] at hlt
      exact hkey ▸ hlt
    refine Or.inl ⟨Or.inr fun hnone => ?_, bs ++ [e.block], { p with cachePos := cached }, hbs, ?_⟩
    · have := hnone.length_eq hbs
      simp at this
    · rw [if_pos ⟨by omega, by omega⟩, if_neg (by omega), hidx, if_pos (by omega), Int.toNat_natCast, hnode, htip]
      rfl

end Pool

/-- A link with a height is asked for, by a new request or by one from before. -/
theorem Merger.request_of_link {m : Merger} {height : Nat} {prevHash : Bytes} {p : Pool} (hne : height ≠ 0)
    (h : m.chain.pool.getUnresolvedLowestLink = .ok ((height, prevHash), p)) :
    ∃ m', m.tryResolveUnresolvedBlocksIf env = .ok m' ∧
      ∃ r ∈ m'.requestList, r.height = height ∧ r.prevHashB64 = env.base64.encode prevHash := by
  simp only [tryResolveUnresolvedBlocksIf, h, bind, Except.bind, hne, false_or]
  split
  · rename_i hany
    obtain ⟨r, hr, heq⟩ := List.any_eq_true.mp hany
    simp only [Bool.and_eq_true, decide_eq_true_eq] at heq
    exact ⟨_, rfl, r, hr, heq⟩
  · exact ⟨_, rfl, _, List.mem_append_right _ (List.mem_singleton.mpr rfl), rfl, rfl⟩

/-- With a block above every longest chain, the pool names the block after a longest chain
exactly when the search can see it, and then there is a request for that block. -/
theorem Merger.missing_block_requested {m : Merger} (h : ChainState.Reachable env m.chain)
    (hp : m.chain.pool.Positioned) (ha : m.chain.pool.Ahead) :
    (m.chain.pool.Seen ↔ ∃ bs p', m.chain.pool.Longest bs ∧ m.chain.pool.getUnresolvedLowestLink =
      .ok (((tipOf m.chain.pool.tip bs).height + 1, (tipOf m.chain.pool.tip bs).hash), p')) ∧
    (m.chain.pool.Seen → ∃ bs m', m.chain.pool.Longest bs ∧ m.tryResolveUnresolvedBlocksIf env = .ok m' ∧
      ∃ r ∈ m'.requestList, r.height = (tipOf m.chain.pool.tip bs).height + 1 ∧
        r.prevHashB64 = env.base64.encode (tipOf m.chain.pool.tip bs).hash) := by
  rcases h.ok.lowest_link h.near hp ha with ⟨hseen, bs, p', hbs, hget⟩ | ⟨hnot, p', hget⟩
  · refine ⟨⟨fun _ => ⟨bs, p', hbs, hget⟩, fun _ => hseen⟩, fun _ => ?_⟩
    obtain ⟨m', hm', hrequest⟩ := Merger.request_of_link env (Nat.succ_ne_zero _) hget
    exact ⟨bs, m', hbs, hm', hrequest⟩
  · refine ⟨⟨fun hseen => absurd hseen hnot, ?_⟩, fun hseen => absurd hseen hnot⟩
    rintro ⟨bs, q, _, hother⟩
    rw [hget] at hother
    have hheight := congrArg (fun x : (Nat × Bytes) × Pool => x.1.1) (Except.ok.inj hother)
    exact absurd hheight (Nat.succ_ne_zero _).symm

variable {env} in
/-- Whether a block stands higher than the longest chains, by evaluation. -/
theorem ChainState.Reachable.ahead {c : ChainState} (h : Reachable env c)
    (hb : (Pool.blocksOf c.pool.blockPool).any (fun b =>
      decide (max c.pool.lastHeight (Pool.searchLongestPos c.pool.blockPool).1 < b.height)) = true) :
    c.pool.Ahead := by
  obtain ⟨b, hmem, hlt⟩ := List.any_eq_true.mp hb
  refine ⟨b, hmem, fun bs hbs => ?_⟩
  rw [h.ok.height_of_longest h.near hbs]
  exact of_decide_eq_true hlt

/-- The first and the third block of a chain: the second is asked for. -/
theorem Merger.missing_block_requested_second : ∃ m m' : Merger,
    ChainState.Reachable (Sample.world Sample.chainRows) m.chain ∧ m.requestList = [] ∧ m.chain.pool.Ahead ∧
    m.tryResolveUnresolvedBlocksIf (Sample.world Sample.chainRows) = .ok m' ∧ ∃ r ∈ m'.requestList, r.height = 2 := by
  have hrun : okAnd (fun c : ChainState => decide (c.pool.lastHeight = 0) &&
      decide ((Pool.searchLongestPos c.pool.blockPool).1 = 1) &&
      decide (c.pool.cachePos = some (Pool.searchLongestPos c.pool.blockPool)) &&
      (Pool.blocksOf c.pool.blockPool).any fun b =>
        decide (max c.pool.lastHeight (Pool.searchLongestPos c.pool.blockPool).1 < b.height))
      (Sample.pushAll Sample.chainRows 1000 [0, 2] Sample.initial.chain) = true := by decide +kernel
  obtain ⟨c, hc, htest⟩ := okAnd_eq_true.mp hrun
  simp only [Bool.and_eq_true, decide_eq_true_eq] at htest
  obtain ⟨⟨⟨hlast, htop⟩, hcached⟩, hahead⟩ := htest
  have hreach := Sample.reachable_pushAll (by decide +kernel) (by decide) (by decide)
    (.setPool ⟨Storage.empty, [], []⟩ _ [] _ _ _ _) hc
  obtain ⟨bs, m', hbs, hm', r, hr, hheight, _⟩ :=
    (Merger.missing_block_requested _ (m := ⟨c, [], [], [], []⟩) hreach
      (fun x hx => Option.some.inj (hx.symm.trans hcached)) (hreach.ahead hahead)).2 (Or.inl hlast)
  refine ⟨⟨c, [], [], [], []⟩, m', hreach, rfl, hreach.ahead hahead, hm', r, hr, ?_⟩
  rw [hheight, hreach.ok.height_of_longest hreach.near hbs, htop, hlast]
  rfl

/-- A block stands higher than the longest chains, and nothing is asked for. -/
def Sample.unasked (env : Env) (c : ChainState) : Bool :=
  okAnd (fun m : Merger => m.requestList.isEmpty) (Merger.tryResolveUnresolvedBlocksIf env ⟨c, [], [], [], []⟩) &&
  (Pool.blocksOf c.pool.blockPool).any fun b =>
    decide (max c.pool.lastHeight (Pool.searchLongestPos c.pool.blockPool).1 < b.height)

theorem Sample.unasked_cases {c : ChainState} (h : ChainState.Reachable env c) (hu : unasked env c = true) :
    c.pool.Ahead ∧ ∃ m', Merger.tryResolveUnresolvedBlocksIf env ⟨c, [], [], [], []⟩ = .ok m' ∧
      m'.requestList = [] := by
  obtain ⟨hnone, hahead⟩ := Bool.and_eq_true_iff.mp hu
  obtain ⟨m', hm', hempty⟩ := okAnd_eq_true.mp hnone
  exact ⟨h.ahead hahead, m', hm', List.isEmpty_iff.mp hempty⟩

/-- Nothing is asked for on a merger whose last block has height 1 and whose pool has
block 3 only. Nor after a branch was resolved against the longer one, whose end is still
what is remembered. -/
theorem Merger.missing_block_not_requested :
    (∃ m m' : Merger, ChainState.Reachable (Sample.world Sample.chainRows) m.chain ∧ m.chain.pool.Ahead ∧
      m.chain.pool.Longest [] ∧ m.chain.pool.lastHeight = 1 ∧
      m.tryResolveUnresolvedBlocksIf (Sample.world Sample.chainRows) = .ok m' ∧ m'.requestList = []) ∧
    (∃ m m' : Merger, ChainState.Reachable (Sample.world Sample.twoBranches) m.chain ∧ m.chain.pool.Ahead ∧
      m.chain.pool.Seen ∧
      m.tryResolveUnresolvedBlocksIf (Sample.world Sample.twoBranches) = .ok m' ∧ m'.requestList = []) := by
  constructor
  · have hrun : okAnd (fun c : ChainState => decide (c.pool.lastHeight = 1) &&
        decide ((Pool.searchLongestPos c.pool.blockPool).1 = 0) && Sample.unasked (Sample.world Sample.chainRows) c)
        (Sample.pushAll Sample.chainRows 1000 [2]
          ⟨Pool.fresh.setPool [1] [] (Sample.hashOf 0) [] 1 0, ⟨Storage.empty, [], []⟩⟩) = true := by decide +kernel
    obtain ⟨c, hc, htest⟩ := okAnd_eq_true.mp hrun
    simp only [Bool.and_eq_true, decide_eq_true_eq] at htest
    have hreach := Sample.reachable_pushAll (by decide +kernel) (by decide) (by decide)
      (.setPool ⟨Storage.empty, [], []⟩ _ [] _ _ _ _) hc
    obtain ⟨hahead, m', hm', hempty⟩ := Sample.unasked_cases _ hreach htest.2
    exact ⟨⟨c, [], [], [], []⟩, m', hreach, hahead, hreach.ok.longest_nil hreach.near htest.1.2, htest.1.1, hm', hempty⟩
  · have hrun : okAnd (fun c : ChainState =>
        let c' := (c.getResolvedBlocks (Sample.world Sample.twoBranches)).2.2
        decide (c'.pool.lastHeight < (Pool.searchLongestPos c'.pool.blockPool).1) &&
          Sample.unasked (Sample.world Sample.twoBranches) c')
        (Sample.pushAll Sample.twoBranches 1000 [0, 1, 2, 3, 4] Sample.initial.chain) = true := by decide +kernel
    obtain ⟨c, hc, htest⟩ := okAnd_eq_true.mp hrun
    simp only [Bool.and_eq_true, decide_eq_true_eq] at htest
    have hreach := (Sample.reachable_pushAll (by decide +kernel) (by decide) (by decide)
      (.setPool ⟨Storage.empty, [], []⟩ _ [] _ _ _ _) hc).getResolvedBlocks
    obtain ⟨hahead, m', hm', hempty⟩ := Sample.unasked_cases _ hreach htest.2
    refine ⟨⟨_, [], [], [], []⟩, m', hreach, hahead, Or.inr fun hnone => ?_, hm', hempty⟩
    have hheight := hreach.ok.height_of_longest hreach.near hnone
    rw [Nat.max_eq_right htest.1.le] at hheight
    exact absurd hheight htest.1.ne

end GruutMerger
