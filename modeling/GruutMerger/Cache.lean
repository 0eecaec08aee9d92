import GruutMerger.Connected
import GruutMerger.PoolRun

/-!
# The caches of the pool

Position, link and layer of the longest chain are remembered until the next
accepted push. Resolving moves the last block without forgetting them, so from
then on they belong to the pool as it was before.
-/
namespace GruutMerger

open ByteText Forest Fallible

variable (env : Env)

namespace Pool

/-- What the link query computes when nothing is cached. -/
def freshLink (p : Pool) : Except Failure NthLink :=
  if p.blockPool.isEmpty then .ok p.lastLink else linkAt p.blockPool p.lastLink (searchLongestPos p.blockPool)

/-- What the layer query computes when nothing is cached. -/
def freshLayer (p : Pool) : Except Failure (List Bytes) :=
  layerAt env p.blockPool p.lastHeight (searchLongestPos p.blockPool)

/-- The three queries answer as they would with all caches cleared. -/
def Coherent (p : Pool) : Prop :=
  p.getLongestBlockPos.1 = p.invalidateCaches.getLongestBlockPos.1 ∧
    p.getMostPossibleLink.map Prod.fst = p.invalidateCaches.getMostPossibleLink.map Prod.fst ∧
    (p.getMostPossibleBlockLayer env).map Prod.fst =
      (p.invalidateCaches.getMostPossibleBlockLayer env).map Prod.fst

/-- Whatever is cached is what would be computed. -/
structure Fresh (p : Pool) : Prop where
  pos : ∀ x, p.cachePos = some x → x = searchLongestPos p.blockPool
  link : ∀ x, p.cacheLink = some x → p.freshLink = .ok x
  layer : ∀ x, p.cacheBlockLayer = some x → p.freshLayer env = .ok x

variable {env}

theorem Fresh.getLongestBlockPos {p : Pool} (h : p.Fresh env) :
    p.getLongestBlockPos.1 = searchLongestPos p.blockPool := by
  unfold Pool.getLongestBlockPos
  split
  · rename_i x hx
    exact h.pos x hx
  · rfl

theorem Fresh.getMostPossibleLink {p : Pool} (h : p.Fresh env) :
    p.getMostPossibleLink.map Prod.fst = p.freshLink := by
  unfold Pool.getMostPossibleLink
  split
  · rename_i x hx
    exact (h.link x hx).symm
  · unfold freshLink
    split
    · rfl
    · have hpool : p.getLongestBlockPos.2.blockPool = p.blockPool ∧
          p.getLongestBlockPos.2.lastLink = p.lastLink := by
        unfold Pool.getLongestBlockPos
        split <;> exact ⟨rfl, rfl⟩
      simp only [h.getLongestBlockPos, hpool.1, hpool.2]
      cases linkAt p.blockPool p.lastLink (searchLongestPos p.blockPool) <;> rfl

theorem Fresh.getMostPossibleBlockLayer {p : Pool} (h : p.Fresh env) :
    (p.getMostPossibleBlockLayer env).map Prod.fst = p.freshLayer env := by
  unfold Pool.getMostPossibleBlockLayer
  split
  · rename_i x hx
    exact (h.layer x hx).symm
  · unfold freshLayer
    have hpool : p.getLongestBlockPos.2.blockPool = p.blockPool ∧
        p.getLongestBlockPos.2.lastHeight = p.lastHeight := by
      unfold Pool.getLongestBlockPos
      split <;> exact ⟨rfl, rfl⟩
    simp only [h.getLongestBlockPos, hpool.1, hpool.2]
    cases layerAt env p.blockPool p.lastHeight (searchLongestPos p.blockPool) <;> rfl

theorem fresh_invalidateCaches (p : Pool) : p.invalidateCaches.Fresh env :=
  ⟨fun _ h => (Option.some_ne_none _ h.symm).elim, fun _ h => (Option.some_ne_none _ h.symm).elim,
    fun _ h => (Option.some_ne_none _ h.symm).elim⟩

theorem Fresh.coherent {p : Pool} (h : p.Fresh env) : p.Coherent env := by
  have hc : p.invalidateCaches.Fresh env := fresh_invalidateCaches p
  refine ⟨?_, ?_, ?_⟩
  · rw [h.getLongestBlockPos, hc.getLongestBlockPos]
    rfl
  · rw [h.getMostPossibleLink, hc.getMostPossibleLink]
    rfl
  · rw [h.getMostPossibleBlockLayer, hc.getMostPossibleBlockLayer]
    rfl

theorem searchLongestPos_skeleton (bins : List Bin) : searchLongestPos bins =
    dfs Prod.fst (relax fun s : Int × Block => s.2.height) (skeleton bins) 0 (0, 0) := by
  have h : ∀ e : UnresolvedBlock, Prod.fst (skel e) = e.prevVectorIdx := fun _ => rfl
  exact (dfs_map h (relax fun s : Int × Block => s.2.height) bins 0 (0, 0)).symm

theorem searchLongestPos_congr {a b : List Bin} (h : skeleton a = skeleton b) :
    searchLongestPos a = searchLongestPos b := by
  rw [searchLongestPos_skeleton, searchLongestPos_skeleton, h]

theorem linkAt_congr {a b : List Bin} (h : skeleton a = skeleton b) (last : NthLink) (pos : BlockPosOnMap) :
    linkAt a last pos = linkAt b last pos := by
  have hnode := map_node_of_skeleton h (binIdx last.height pos.1).toNat pos.2
  unfold linkAt
  split
  · cases ha : node a (binIdx last.height pos.1).toNat pos.2 with
    | none =>
      rw [ha] at hnode
      rw [Option.map_eq_none_iff.mp hnode.symm]
    | some e =>
      rw [ha] at hnode
      obtain ⟨e', he', hskel⟩ := Option.map_eq_some_iff.mp hnode.symm
      have hblock : e'.block = e.block := congrArg Prod.snd hskel
      simp [he', entryLink, hblock]
  · rfl

theorem layerAt_congr {a b : List Bin} (h : skeleton a = skeleton b) (last : Nat) (pos : BlockPosOnMap) :
    layerAt env a last pos = layerAt env b last pos := by
  have hpath : (ascend UnresolvedBlock.prevVectorIdx a (binIdx last pos.1).toNat pos.2).map (List.map skel) =
      (ascend UnresolvedBlock.prevVectorIdx b (binIdx last pos.1).toNat pos.2).map (List.map skel) := by
    have hmap : ∀ bins : List Bin, (ascend UnresolvedBlock.prevVectorIdx bins (binIdx last pos.1).toNat
        pos.2).map (List.map skel) = ascend Prod.fst (skeleton bins) (binIdx last pos.1).toNat pos.2 := by
      intro bins
      have h : ∀ e : UnresolvedBlock, Prod.fst (skel e) = e.prevVectorIdx := fun _ => rfl
      exact (ascend_map h bins _ _).symm
    rw [hmap, hmap, h]
  have hids : ∀ path : List UnresolvedBlock, path.map (fun e => e.block.getBlockIdB64 env) =
      (path.map skel).map fun s => s.2.getBlockIdB64 env := by
    intro path
    rw [List.map_map]
    rfl
  unfold layerAt
  split
  · rfl
  split
  · rfl
  · cases ha : ascend UnresolvedBlock.prevVectorIdx a (binIdx last pos.1).toNat pos.2 with
    | none =>
      rw [ha] at hpath
      rw [Option.map_eq_none_iff.mp hpath.symm]
    | some path =>
      rw [ha] at hpath
      obtain ⟨path', hp', hskel⟩ := Option.map_eq_some_iff.mp hpath.symm
      simp only [hp', hids path, hids path', hskel]

/-- Empty bins at the end are never reached. -/
theorem node_grow (p : Pool) (n i j : Nat) : node (p.grow n).blockPool i j = node p.blockPool i j :=
  node_append_empty _ _ _ _

theorem searchLongestPos_grow (p : Pool) (n : Nat) :
    searchLongestPos (p.grow n).blockPool = searchLongestPos p.blockPool :=
  dfs_append_empty _ _ _ _ _

theorem freshLink_grow (p : Pool) (n : Nat) : (p.grow n).freshLink = p.freshLink := by
  have hlink : ∀ pos, linkAt (p.grow n).blockPool p.lastLink pos = linkAt p.blockPool p.lastLink pos := by
    intro pos
    unfold linkAt
    rw [node_grow]
  unfold freshLink
  rw [searchLongestPos_grow, show (p.grow n).lastLink = p.lastLink from rfl, hlink]
  by_cases he : p.blockPool = []
  · -- without bins the search ends at height 0, where the link is the last block's
    have hlast : linkAt p.blockPool p.lastLink (searchLongestPos p.blockPool) = .ok p.lastLink := by
      rw [he]
      exact if_neg (by simp [searchLongestPos, dfs])
    rw [hlast, he]
    simp
  · have hgrow : (p.grow n).blockPool ≠ [] := by simp [grow, he]
    simp [he, hgrow]

theorem freshLayer_grow (p : Pool) (n : Nat) : (p.grow n).freshLayer env = p.freshLayer env := by
  unfold freshLayer layerAt
  rw [searchLongestPos_grow, ascend_congr (node_grow p n)]
  rfl

theorem Fresh.grow {p : Pool} (h : p.Fresh env) (n : Nat) : (p.grow n).Fresh env where
  pos x hx := (h.pos x hx).trans (searchLongestPos_grow p n).symm
  link x hx := (freshLink_grow p n).trans (h.link x hx)
  layer x hx := (freshLayer_grow p n).trans (h.layer x hx)

/-- Counting support moves nothing. -/
theorem Fresh.counted {p : Pool} (h : p.Fresh env) : p.counted.Fresh env := by
  have hskel : skeleton p.counted.blockPool = skeleton p.blockPool := skeleton_updateConfirmLevel _
  have hpos := searchLongestPos_congr hskel
  refine ⟨fun x hx => (h.pos x hx).trans hpos.symm, fun x hx => ?_, fun x hx => ?_⟩
  · rw [← h.link x hx, freshLink, hpos, linkAt_congr hskel]
    have hempty : p.counted.blockPool.isEmpty = p.blockPool.isEmpty := by
      rw [Bool.eq_iff_iff, List.isEmpty_iff_length_eq_zero, List.isEmpty_iff_length_eq_zero]
      exact Iff.of_eq (congrArg (· = 0) (length_updateConfirmLevel p.blockPool))
    rw [hempty]
    rfl
  · rw [← h.layer x hx, freshLayer, hpos, layerAt_congr hskel]
    rfl

/-- An accepted block clears the caches and fills two of them again. -/
theorem Accepts.fresh {p p' : Pool} {i : Nat} {prev : Int} {block : Block} {r : PushResult}
    {a : Accepted} (h : Accepts env p i prev block r p' a) : p'.Fresh env := by
  have hpool := h.pool
  refine ⟨fun x hx => ?_, fun x hx => ?_, fun x hx => ?_⟩
  · rw [hpool] at hx
    exact (Option.some.inj hx).symm
  · rw [hpool] at hx
    cases hx
  · have hlayer : a.layer = x := by
      rw [hpool] at hx
      exact Option.some.inj hx
    have hlast : p'.lastHeight = p.lastHeight := by rw [hpool]
    rw [freshLayer, hlast, ← hlayer]
    exact h.most

theorem Fresh.withPos {p : Pool} (h : p.Fresh env) : p.getLongestBlockPos.2.Fresh env := by
  unfold Pool.getLongestBlockPos
  split
  · exact h
  · exact ⟨fun x hx => (Option.some.inj hx).symm, h.link, h.layer⟩

theorem Fresh.queried {p p' : Pool} (h : p.Fresh env) (hq : p.Queried env p') : p'.Fresh env := by
  have hpos := h.withPos
  obtain ⟨pos, hsnd⟩ := p.getLongestBlockPos_snd
  rcases hq.cases env with rfl | rfl | ⟨_, link, hlink, rfl | rfl⟩ | ⟨_, ids, hids, rfl⟩
  · exact h
  · exact hpos
  · rw [h.getMostPossibleLink] at hlink
    exact ⟨h.pos, fun x hx => Option.some.inj hx ▸ hlink, h.layer⟩
  · rw [h.getMostPossibleLink] at hlink
    rw [hsnd] at hpos ⊢
    exact ⟨hpos.pos, fun x hx => Option.some.inj hx ▸ hlink, hpos.layer⟩
  · rw [h.getMostPossibleBlockLayer] at hids
    rw [hsnd] at hpos ⊢
    exact ⟨hpos.pos, hpos.link, fun x hx => Option.some.inj hx ▸ hids⟩

variable (env)

/-- A run of the pool whose pushes are all `allowed`. The flag is raised when blocks
are resolved and lowered when a block is accepted. -/
inductive CacheRun (allowed : Pool → Nat → Block → Prop) : Pool → Bool → Prop where
  | setPool (id prevId hash prevHash : Bytes) (height time : Nat) :
      CacheRun allowed (Pool.fresh.setPool id prevId hash prevHash height time) false
  | push {p p' : Pool} {stale : Bool} {now : Nat} {block : Block} {r : PushResult} {a : Option Accepted}
      (h : CacheRun allowed p stale) (hw : allowed p now block)
      (hp : p.push env now block = .ok (r, p', a)) : CacheRun allowed p' (stale && a.isNone)
  | getResolvedBlocks {p : Pool} {stale : Bool} (h : CacheRun allowed p stale) :
      CacheRun allowed (p.resolve env).2.2 (stale || !(p.resolve env).1.isEmpty)
  | query {p p' : Pool} {stale : Bool} (h : CacheRun allowed p stale) (hq : p.Queried env p') :
      CacheRun allowed p' stale

variable {env}

theorem CacheRun.fresh {allowed : Pool → Nat → Block → Prop} {p : Pool} {stale : Bool}
    (h : CacheRun env allowed p stale) (hs : stale = false) : p.Fresh env := by
  induction h with
  | setPool id prevId hash prevHash height time =>
    exact fresh_invalidateCaches (Pool.fresh.setPool id prevId hash prevHash height time)
  | push _ _ hp ih =>
    rcases push_cases env hp with ⟨rfl, _, n, rfl⟩ | ⟨rfl, _, n, rfl⟩ | ⟨_, _, acc, rfl, _, _, _, _, _, ha⟩
    · exact (ih (by simpa using hs)).grow n
    · exact (ih (by simpa using hs)).grow n
    · exact ha.fresh
  | @getResolvedBlocks p stale _ ih =>
    obtain ⟨hstale, hnone⟩ := Bool.or_eq_false_iff.mp hs
    have hr := resolves_resolve env p
    have hempty : (p.resolve env).1 = [] := List.isEmpty_iff.mp (by simpa using hnone)
    rw [hempty] at hr
    rw [hr.eq_counted]
    exact (ih hstale).counted
  | query _ hq ih => exact (ih hs).queried hq

/-- Heights of the pool are 64-bit values, and their distance to the last block fits in
an int. -/
def Near (p : Pool) : Prop :=
  ∀ b ∈ blocksOf p.blockPool, b.height < 2 ^ 64 ∧ b.height - p.lastHeight < 2 ^ 31

/-- No height in the pool is out of an int's range. -/
def Small (p : Pool) : Prop := ∀ b ∈ blocksOf p.blockPool, b.height < 2 ^ 31

theorem Small.near {p : Pool} (h : p.Small) : p.Near := by
  intro b hb
  have := h b hb
  omega

/-- What the search for the longest chain finds: a deepest connected entry, or
height 0 when nothing is connected. -/
theorem Ok.searchLongestPos {p : Pool} (h : p.Ok) (hs : p.Near) :
    (searchLongestPos p.blockPool = (0, 0) ∧ p.DepthLt 0) ∨
      ∃ d e, p.Connected d (searchLongestPos p.blockPool).2 e ∧ p.DepthLt (d + 1) ∧
        e.block.height = (searchLongestPos p.blockPool).1 ∧
        binIdx p.lastHeight (searchLongestPos p.blockPool).1 = d := by
  obtain ⟨hmax, hfound⟩ : (∀ d j e, p.Connected d j e →
        e.block.height ≤ (Pool.searchLongestPos p.blockPool).1) ∧
      (Pool.searchLongestPos p.blockPool = (0, 0) ∨
        ∃ d e, p.Connected d (Pool.searchLongestPos p.blockPool).2 e ∧
          e.block.height = (Pool.searchLongestPos p.blockPool).1) :=
    dfs_relax_spec (fun e : UnresolvedBlock => e.block.height) p.blockPool 0
  rcases hfound with hzero | ⟨d, e, hc, hkey⟩
  · refine Or.inl ⟨hzero, fun d j e hc => ?_⟩
    have := hmax d j e hc
    rw [hzero, h.height_of_connected hc] at this
    omega
  · have hheight := h.height_of_connected hc
    refine Or.inr ⟨d, e, hc, fun d' j e' hc' => ?_, hkey, ?_⟩
    · have := hmax d' j e' hc'
      rw [← hkey, hheight, h.height_of_connected hc'] at this
      omega
    · have hlt := hs e.block (mem_blocksOf.mpr ⟨d, e, mem_bin_of_node hc.node_eq, rfl⟩)
      rw [← hkey, binIdx_of_lt (by omega) (by omega) (by omega)]
      omega

/-- The bin of height 0 is below the first one while the last height fits in an int. -/
theorem binIdx_zero {last : Nat} (h : last < 2 ^ 64) :
    (-2 ^ 31 ≤ binIdx last 0 ∧ binIdx last 0 < 0) ↔ last % 2 ^ 32 < 2 ^ 31 := by
  unfold binIdx toInt32 sub64
  omega

/-- The layer of the longest chain has an id for each block on it. -/
theorem Ok.length_freshLayer {p : Pool} (h : p.Ok) (hs : p.Near) {ids : List Bytes}
    (hl : p.freshLayer env = .ok ids) :
    p.DepthLt ids.length ∧ (p.lastHeight < 2 ^ 31 → ∀ n, p.DepthLt n → ids.length ≤ n) := by
  unfold freshLayer layerAt at hl
  rcases h.searchLongestPos hs with ⟨hzero, hd⟩ | ⟨d, e, hc, hd, _, hidx⟩
  · refine ⟨fun d j e hc => absurd (hd d j e hc) (by omega), fun hlast n _ => ?_⟩
    -- below 2^31 the bin of height 0 is negative
    have hneg := binIdx_zero (hlast.trans (by decide)) |>.mpr (by omega)
    rw [hzero, if_neg hneg.1.not_gt, if_pos hneg.2] at hl
    cases hl
    exact Nat.zero_le n
  · obtain ⟨bs, hbs, _, _, path, hpath, hblocks⟩ := h.linked_of_connected hc
    have hlen := congrArg List.length hblocks
    simp only [List.length_map, List.length_reverse, List.length_append, List.length_singleton, hbs] at hlen
    rw [hidx, if_neg (by omega), if_neg (by omega), Int.toNat_natCast, hpath] at hl
    cases hl
    rw [List.length_map, hlen]
    exact ⟨hd, fun _ n hn => hn d _ e hc⟩

/-- The link computed afresh is the end of a chain of pool blocks from the last block. -/
theorem Ok.freshLink {p : Pool} (h : p.Ok) (hs : p.Near) : ∃ link bs, p.freshLink = .ok link ∧
    (∀ b ∈ bs, b ∈ blocksOf p.blockPool) ∧ Linked p.tip bs ∧
    tipOf p.tip bs = ⟨link.id, link.hash, link.height⟩ := by
  unfold Pool.freshLink
  split
  · exact ⟨p.lastLink, [], rfl, by simp, trivial, rfl⟩
  rcases h.searchLongestPos hs with ⟨hzero, _⟩ | ⟨d, e, hc, _, hkey, hidx⟩
  · rw [hzero]
    exact ⟨p.lastLink, [], if_neg (fun hn => Nat.not_lt_zero _ hn.1), by simp, trivial, rfl⟩
  · obtain ⟨bs, _, hin, hlinked, _⟩ := h.linked_of_connected hc
    have hheight := h.height_of_connected hc
    refine ⟨entryLink e, bs ++ [e.block], ?_, ?_, hlinked, Trail.finish_concat _ _ _ _⟩
    · have hidx' : binIdx p.lastLink.height (Pool.searchLongestPos p.blockPool).1 = d := hidx
      have hlt : p.lastLink.height < (Pool.searchLongestPos p.blockPool).1 := by
        rw [← hkey, hheight]
        simp only [lastLink]
        omega
      rw [linkAt, hidx', if_pos ⟨hlt, by omega⟩, Int.toNat_natCast, hc.node_eq]
    · intro b hb
      rcases List.mem_append.mp hb with hb | hb
      · exact hin b hb
      · rw [List.mem_singleton.mp hb]
        exact mem_blocksOf.mpr ⟨d, e, mem_bin_of_node hc.node_eq, rfl⟩

theorem Resolves.cacheBlockLayer {p p' : Pool} {ws : List UnresolvedBlock} {ds : List Bytes}
    (hr : Resolves env p ws ds p') : p'.cacheBlockLayer = p.cacheBlockLayer := by
  induction hr with
  | stop _ => rfl
  | step _ _ ih => exact ih

theorem Resolves.lastHeight_lt {p p' : Pool} {ws : List UnresolvedBlock} {ds : List Bytes}
    (hr : Resolves env p ws ds p') (h : p.Ok) (hs : p.Small) (hlast : ws = [] → p.lastHeight < 2 ^ 31) :
    p'.lastHeight < 2 ^ 31 := by
  have htip := congrArg Tip.height (hr.linked h).2
  replace htip : p'.lastHeight = (tipOf p.tip (ws.map (·.block))).height := htip
  rcases List.eq_nil_or_concat ws with rfl | ⟨init, w, rfl⟩
  · rw [htip]
    exact hlast rfl
  · rw [htip, List.concat_eq_append, List.map_append, List.map_singleton, tipOf, Trail.finish_concat]
    exact hs w.block (hr.mem_blocksOf (Or.inl (by simp)))

theorem DepthLt.mono {p : Pool} {m n : Nat} (h : p.DepthLt m) (hmn : m ≤ n) : p.DepthLt n :=
  fun d j e hc => Nat.lt_of_lt_of_le (h d j e hc) hmn

theorem DepthLt.grow {p : Pool} {m : Nat} (h : p.DepthLt m) (n : Nat) : (p.grow n).DepthLt m :=
  fun d j e hc => h d j e (hc.mono fun i j a ha => by rwa [node_grow] at ha)

/-- The cached layer is longer than any chain left in the pool. -/
def Outgrown (p : Pool) : Prop :=
  p.lastHeight < 2 ^ 31 ∧ ∃ ids, p.cacheBlockLayer = some ids ∧ 0 < ids.length ∧ p.DepthLt (ids.length - 1)

theorem Outgrown.not_coherent {p : Pool} (h : p.Outgrown) (hok : p.Ok) (hs : p.Small) :
    ¬ p.Coherent env := by
  obtain ⟨hlast, ids, hids, hpos, hd⟩ := h
  rintro ⟨_, _, hlayer⟩
  rw [(fresh_invalidateCaches p).getMostPossibleBlockLayer, getMostPossibleBlockLayer, hids] at hlayer
  have hfresh : p.freshLayer env = .ok ids := hlayer.symm
  have := (hok.length_freshLayer hs.near hfresh).2 hlast _ hd
  omega

theorem Outgrown.resolves {p p' : Pool} {ws : List UnresolvedBlock} {ds : List Bytes} (h : p.Outgrown)
    (hok : p.Ok) (hs : p.Small) (hr : Resolves env p ws ds p') : p'.Outgrown := by
  obtain ⟨hlast, ids, hids, hpos, hd⟩ := h
  exact ⟨hr.lastHeight_lt hok hs fun _ => hlast, ids, hr.cacheBlockLayer.trans hids, hpos,
    (hr.depthLt hok hd).2.mono (Nat.sub_le _ _)⟩

/-- Resolving outgrows a layer that was right before. -/
theorem Fresh.outgrown {p p' : Pool} {ws : List UnresolvedBlock} {ds : List Bytes} (h : p.Fresh env)
    (hok : p.Ok) (hs : p.Small) (hnone : p.cacheBlockLayer = none → p.DepthLt 0)
    (hr : Resolves env p ws ds p') (hws : ws ≠ []) : p'.Outgrown := by
  have hpos := List.length_pos_of_ne_nil hws
  cases hids : p.cacheBlockLayer with
  | none =>
    have := (hr.depthLt hok (hnone hids)).1
    omega
  | some ids =>
    obtain ⟨hlen, hd⟩ := hr.depthLt hok (hok.length_freshLayer hs.near (h.layer ids hids)).1
    exact ⟨hr.lastHeight_lt hok hs fun hn => absurd hn hws, ids, hr.cacheBlockLayer.trans hids, by omega,
      hd.mono (by omega)⟩

/-- The clock and the heights are such that no conversion of the pool wraps. -/
def NoConversionWraps (p : Pool) (now : Nat) (block : Block) : Prop :=
  p.NoWrap now block.height ∧ block.height < 2 ^ 31

theorem Small.push {p p' : Pool} {now : Nat} {block : Block} {r : PushResult} {a : Option Accepted}
    (h : p.Small) (hb : block.height < 2 ^ 31) (hp : p.push env now block = .ok (r, p', a)) : p'.Small := by
  intro b hb'
  rcases mem_blocksOf_push env hp hb' with rfl | hb'
  · exact hb
  · exact h b hb'

/-- What a run without wraps keeps besides fresh caches. -/
structure Tracked (p : Pool) (stale : Bool) : Prop where
  ok : p.Ok
  small : p.Small
  outgrown : stale = true → p.Outgrown
  unfilled : stale = false → p.cacheBlockLayer = none → p.DepthLt 0

theorem Tracked.grow {p : Pool} {stale : Bool} (h : p.Tracked stale) (n : Nat) :
    (p.grow n).Tracked stale where
  ok := h.ok.grow n
  small b hb := h.small b (by rwa [blocksOf_grow] at hb)
  outgrown hs :=
    have ⟨hlast, ids, hids, hpos, hd⟩ := h.outgrown hs
    ⟨hlast, ids, hids, hpos, hd.grow n⟩
  unfilled hs hn := (h.unfilled hs hn).grow n

theorem Tracked.queried {p p' : Pool} {stale : Bool} (h : p.Tracked stale) (hq : p.Queried env p') :
    p'.Tracked stale := by
  obtain ⟨pos, hsnd⟩ := p.getLongestBlockPos_snd
  have hkeep : p'.blockPool = p.blockPool ∧ p'.lastHeight = p.lastHeight ∧
      (p.cacheBlockLayer = none ∨ p'.cacheBlockLayer = p.cacheBlockLayer) ∧
      (p'.cacheBlockLayer = none → p.cacheBlockLayer = none) := by
    rcases hq.cases env with rfl | rfl | ⟨_, _, _, rfl | rfl⟩ | ⟨hnone, _, _, rfl⟩
    all_goals simp_all
  obtain ⟨hbins, hlast, hlayer, hnone⟩ := hkeep
  have hd : ∀ n, p.DepthLt n → p'.DepthLt n := by
    intro n hd
    unfold DepthLt Connected
    rwa [hbins]
  refine ⟨h.ok.queried env hq, fun b hb => h.small b (by rwa [hbins] at hb), fun hs => ?_, fun hs hn => ?_⟩
  · obtain ⟨hlt, ids, hids, hpos, hdepth⟩ := h.outgrown hs
    rcases hlayer with hn | hlayer
    · rw [hn] at hids
      cases hids
    · exact ⟨hlast ▸ hlt, ids, hlayer.trans hids, hpos, hd _ hdepth⟩
  · exact hd 0 (h.unfilled hs (hnone hn))

theorem CacheRun.tracked {allowed : Pool → Nat → Block → Prop} {p : Pool} {stale : Bool}
    (h : CacheRun env allowed p stale)
    (hall : ∀ p now block, allowed p now block → NoConversionWraps p now block) : p.Tracked stale := by
  induction h with
  | setPool id prevId hash prevHash height time =>
    refine ⟨trivial, fun b hb => ?_, fun h => Bool.noConfusion h, fun _ _ d j e hc => ?_⟩
    · cases hb
    · have hnode : node [] d j = some e := hc.node_eq
      simp at hnode
  | @push p p' stale now block r a _ hw hp ih =>
    obtain ⟨hwrap, hsmall⟩ := hall p now block hw
    rcases push_cases env hp with ⟨rfl, _, n, rfl⟩ | ⟨rfl, _, n, rfl⟩ | ⟨_, _, acc, rfl, _, _, _, _, _, ha⟩
    · simpa using ih.grow n
    · simpa using ih.grow n
    · refine ⟨ih.ok.push env hwrap hp, ih.small.push hsmall hp, fun hs => ?_, fun _ hn => ?_⟩
      · simp at hs
      · rw [ha.pool] at hn
        cases hn
  | @getResolvedBlocks p stale hrun ih =>
    have hr := resolves_resolve env p
    refine ⟨hr.ok ih.ok, fun b hb => ih.small b (hr.mem_blocksOf (Or.inr hb)), fun hs => ?_, fun hs hn => ?_⟩
    · cases stale with
      | true => exact (ih.outgrown rfl).resolves ih.ok ih.small hr
      | false =>
        refine (hrun.fresh rfl).outgrown ih.ok ih.small (ih.unfilled rfl) hr fun hnil => ?_
        simp [hnil] at hs
    · obtain ⟨hstale, _⟩ := Bool.or_eq_false_iff.mp hs
      exact (hr.depthLt ih.ok (ih.unfilled hstale (hr.cacheBlockLayer ▸ hn))).2.mono (Nat.zero_sub _).le
  | query _ hq ih => exact ih.queried hq

/-- The caches agree with the pool while no block was resolved since the last
accepted one. Then the link to build on ends a chain of pool blocks from the last
block. Once a block was resolved, the cached layer is wrong until a block is
accepted. -/
theorem cache_coherence {allowed : Pool → Nat → Block → Prop} {p : Pool} {stale : Bool}
    (h : CacheRun env allowed p stale) :
    (stale = false → p.Coherent env) ∧
    ((∀ p now block, allowed p now block → NoConversionWraps p now block) →
      (p.Coherent env ↔ stale = false) ∧
      (stale = false → ∃ link p' bs, p.getMostPossibleLink = .ok (link, p') ∧
        (∀ b ∈ bs, b ∈ blocksOf p.blockPool) ∧ Linked p.tip bs ∧
        tipOf p.tip bs = ⟨link.id, link.hash, link.height⟩)) := by
  refine ⟨fun hs => (h.fresh hs).coherent, fun hall => ⟨⟨fun hc => ?_, fun hs => (h.fresh hs).coherent⟩,
    fun hs => ?_⟩⟩
  · have ht := h.tracked hall
    cases stale with
    | false => rfl
    | true => exact absurd hc ((ht.outgrown rfl).not_coherent ht.ok ht.small)
  · have ht := h.tracked hall
    obtain ⟨link, bs, hlink, hbs⟩ := ht.ok.freshLink ht.small.near
    rw [← (h.fresh hs).getMostPossibleLink] at hlink
    obtain ⟨⟨link', p'⟩, hget, rfl⟩ := map_eq_ok.mp hlink
    exact ⟨link', p', bs, hget, hbs⟩

end Pool

/-- Push the blocks of some rows. -/
def Sample.pushPool (rows : List Sample.Row) (now : Nat) (order : List Nat) (p : Pool) : Except Failure Pool :=
  order.foldlM (fun p row => match rows[row]? with
    | none => .ok p
    | some r => (p.push (Sample.world rows) now (r.block row)).map (·.2.1)) p

theorem Sample.cacheRun_pushPool {rows : List Sample.Row} {now : Nat} {order : List Nat} {p p' : Pool}
    (hg : Sample.Good rows) (hn : now < 2 ^ 64) (ht : p.lastTime ≤ now)
    (hc : Pool.CacheRun (Sample.world rows) Pool.NoConversionWraps p false)
    (h : Sample.pushPool rows now order p = .ok p') :
    Pool.CacheRun (Sample.world rows) Pool.NoConversionWraps p' false := by
  refine (foldlM_invariant (P := fun s : Pool =>
    Pool.CacheRun (Sample.world rows) Pool.NoConversionWraps s false ∧ s.lastTime ≤ now) ?_ ⟨hc, ht⟩ h).1
  rintro s row t _ ⟨hs, htime⟩ hd
  split at hd
  · cases hd
    exact ⟨hs, htime⟩
  rename_i r hr
  obtain ⟨⟨res, t', a⟩, hp, rfl⟩ := map_eq_ok.mp hd
  have hsmall : (r.block row).height < 2 ^ 31 := by
    simpa only [Sample.Row.block, Sample.block] using (hg.2 r (List.mem_of_getElem? hr)).2.1
  refine ⟨.push hs ⟨Sample.noWrap_row hg hr hn htime, hsmall⟩ hp, ?_⟩
  rw [(Pool.sameLast_push _ hp).2.2.2]
  exact htime

/-- The pool of a merger on empty storage. -/
def Sample.emptyPool : Pool :=
  Pool.fresh.setPool (genesisBlockPrevId Sample.base) [] (genesisBlockPrevHash Sample.base) [] 0 0

/-- A long branch of three blocks with little support, and a short one of two
with more. -/
def Sample.twoBranches : List Sample.Row :=
  [⟨[1], genesisBlockPrevId Sample.base, genesisBlockPrevHash Sample.base, 1, [Sample.good 1], [Sample.digestTx]⟩,
   ⟨[2], [1], Sample.hashOf 0, 2, [Sample.good 1], [Sample.digestTx]⟩,
   ⟨[3], [2], Sample.hashOf 1, 3, [Sample.good 1], [Sample.digestTx]⟩,
   ⟨[4], genesisBlockPrevId Sample.base, genesisBlockPrevHash Sample.base, 1,
      [Sample.good 1, Sample.good 2, Sample.good 3], [Sample.digestTx]⟩,
   ⟨[5], [4], Sample.hashOf 3, 2, [Sample.good 1], [Sample.digestTx]⟩]

/-- Before resolving, the link to build on ends the long branch. -/
theorem Pool.cache_coherence_twoBranches : ∃ p, Pool.CacheRun (Sample.world Sample.twoBranches)
    Pool.NoConversionWraps p false ∧ p.lastHeight = 0 ∧ p.Coherent (Sample.world Sample.twoBranches) ∧
    ∃ link p' bs, p.getMostPossibleLink = .ok (link, p') ∧ (∀ b ∈ bs, b ∈ Pool.blocksOf p.blockPool) ∧
      Linked p.tip bs ∧ tipOf p.tip bs = ⟨link.id, link.hash, link.height⟩ ∧ bs.length = 3 := by
  have hpushed : okAnd (fun p : Pool => decide (p.lastHeight = 0) &&
      okAnd (fun x => decide (x.1.height = 3)) p.getMostPossibleLink)
      (Sample.pushPool Sample.twoBranches 1000 [0, 1, 2, 3, 4] Sample.emptyPool) = true := by decide +kernel
  obtain ⟨p, hp, htest⟩ := okAnd_eq_true.mp hpushed
  simp only [Bool.and_eq_true, decide_eq_true_eq] at htest
  obtain ⟨⟨link, q⟩, hget, hheight⟩ := okAnd_eq_true.mp htest.2
  have hrun := Sample.cacheRun_pushPool (by decide +kernel) (by decide) (by decide) (.setPool _ [] _ _ _ _) hp
  obtain ⟨_, hrest⟩ := Pool.cache_coherence hrun
  obtain ⟨hiff, hparent⟩ := hrest fun _ _ _ h => h
  obtain ⟨link', p', bs, hget', hin, hlinked, htip⟩ := hparent rfl
  refine ⟨p, hrun, htest.1, hiff.mpr rfl, link', p', bs, hget', hin, hlinked, htip, ?_⟩
  have hlen := hlinked.height_tipOf
  rw [htip] at hlen
  rw [hget'] at hget
  cases hget
  have hlink : link.height = 3 := by simpa using hheight
  have hlast : p.tip.height = 0 := htest.1
  simp only at hlen
  omega

/-- After the short branch won, the link to build on still ends the long one. -/
theorem Pool.stale_parent : ∃ p, Pool.CacheRun (Sample.world Sample.twoBranches) Pool.NoConversionWraps p true ∧
    ¬ p.Coherent (Sample.world Sample.twoBranches) ∧
    ∃ link p', p.getMostPossibleLink = .ok (link, p') ∧ ∀ bs, (∀ b ∈ bs, b ∈ Pool.blocksOf p.blockPool) →
      Linked p.tip bs → tipOf p.tip bs ≠ ⟨link.id, link.hash, link.height⟩ := by
  have hpushed : okAnd (fun p : Pool =>
      let q := (p.resolve (Sample.world Sample.twoBranches)).2.2
      decide ((p.resolve (Sample.world Sample.twoBranches)).1.length = 1) && decide (q.lastHeight = 1) &&
      okAnd (fun x => decide (x.1.height = 3)) q.getMostPossibleLink &&
      (Pool.blocksOf q.blockPool).all fun a => (Pool.blocksOf q.blockPool).all fun b =>
        !(q.namesLast a && Pool.namesPrev b a))
      (Sample.pushPool Sample.twoBranches 1000 [0, 1, 2, 3, 4] Sample.emptyPool) = true := by decide +kernel
  obtain ⟨p, hp, htest⟩ := okAnd_eq_true.mp hpushed
  simp only [Bool.and_eq_true, decide_eq_true_eq, List.all_eq_true, Bool.not_eq_true'] at htest
  obtain ⟨⟨⟨hone, hlast⟩, hlink⟩, hchildless⟩ := htest
  obtain ⟨⟨link, p'⟩, hget, hheight⟩ := okAnd_eq_true.mp hlink
  replace hheight : link.height = 3 := by simpa using hheight
  have hrun := (Sample.cacheRun_pushPool (by decide +kernel) (by decide) (by decide)
    (.setPool _ [] _ _ _ _) hp).getResolvedBlocks
  have hflag : (false || !(p.resolve (Sample.world Sample.twoBranches)).1.isEmpty) = true := by
    rw [Bool.false_or, Bool.not_eq_true', List.isEmpty_eq_false_iff]
    exact List.ne_nil_of_length_pos (by omega)
  rw [hflag] at hrun
  have htracked := hrun.tracked fun _ _ _ h => h
  refine ⟨_, hrun, (htracked.outgrown rfl).not_coherent htracked.ok htracked.small, link, p', hget, ?_⟩
  intro bs hin hlinked htip
  -- a chain up to that height has two blocks, and no block of the pool sits on a root
  have hlen := hlinked.height_tipOf
  rw [htip] at hlen
  have htipHeight : (p.resolve (Sample.world Sample.twoBranches)).2.2.tip.height = 1 := hlast
  simp only [htipHeight, hheight] at hlen
  obtain ⟨a, b, rfl⟩ := List.length_eq_two.mp (show bs.length = 2 by omega)
  obtain ⟨⟨ha, ha', _⟩, ⟨hb, hb', _⟩, _⟩ := hlinked
  have hnone := hchildless a (hin a (by simp)) b (hin b (by simp))
  simp only [Pool.tip, Block.tip] at ha ha' hb hb'
  simp [Pool.namesLast, Pool.namesPrev, ha, ha', hb, hb'] at hnone

end GruutMerger
