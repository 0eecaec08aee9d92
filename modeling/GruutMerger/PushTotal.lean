import GruutMerger.LongestChain
import GruutMerger.PushLinks

/-!
# Pushes return

A push onto a well-linked pool reads no entry that is not there: the way up from
the block it finds again goes through indices of the pool, and so does the way
up from the end of a longest chain. While the last height fits in an int it
comes back with an answer.
-/
namespace GruutMerger

open ByteText Forest Fallible

variable (env : Env)

namespace Pool

/-- Parent indices lead to entries. -/
def Closed (bins : List Bin) : Prop :=
  ∀ d j e, node bins (d + 1) j = some e → 0 ≤ e.prevVectorIdx → ∃ a, node bins d e.prevVectorIdx.toNat = some a

theorem Closed.layerUp {bins : List Bin} (h : Closed bins) (own : Bytes) {i : Nat} {q : Int} {e : UnresolvedBlock}
    (hn : node bins i q.toNat = some e) : ∃ r, layerUp env bins own i q = .ok r := by
  induction i generalizing q e with
  | zero =>
    rw [Pool.layerUp, hn]
    simp only
    split
    · exact ⟨_, rfl⟩
    · exact ⟨_, rfl⟩
  | succ i ih =>
    rw [Pool.layerUp, hn]
    simp only
    split
    · exact ⟨_, rfl⟩
    · rename_i hneg
      obtain ⟨a, ha⟩ := h i _ e hn (by omega)
      obtain ⟨r, hr⟩ := ih ha
      rw [hr]
      exact ⟨_, rfl⟩

theorem node_of_findBlock {bins : List Bin} {id : Bytes} {pos : Nat × Nat} (h : findBlock env id bins = some pos) :
    ∃ e, node bins pos.1 pos.2 = some e := by
  induction bins generalizing pos with
  | nil => cases h
  | cons bin rest ih =>
    unfold findBlock at h
    split at h
    · rename_i j hj
      cases h
      obtain ⟨hlt, _⟩ := List.findIdx?_eq_some_iff_getElem.mp hj
      exact ⟨bin[j], by simp [node, hlt]⟩
    · obtain ⟨pos', hpos', rfl⟩ := Option.map_eq_some_iff.mp h
      obtain ⟨e, he⟩ := ih hpos'
      exact ⟨e, by simpa [node] using he⟩

theorem Closed.getBlockLayer {bins : List Bin} (h : Closed bins) (id : Bytes) :
    ∃ ids, getBlockLayer env bins id = .ok ids := by
  unfold Pool.getBlockLayer
  split
  · exact ⟨_, rfl⟩
  split
  · exact ⟨_, rfl⟩
  · rename_i pos hpos
    obtain ⟨e, he⟩ := node_of_findBlock env hpos
    obtain ⟨r, hr⟩ := h.layerUp env id (q := (pos.2 : Int)) (by simpa using he)
    rw [hr]
    exact ⟨_, rfl⟩

variable {env}

theorem Ok.closed {p : Pool} (h : p.Ok) : Closed p.blockPool := by
  intro d j e hn hpos
  have hlink := WellLinked.link_of_mem h (mem_bin_of_node hn)
  rcases linkIndex_nonneg_or (p.blockPool.getD d []) e.block with ⟨k, hk⟩ | hneg
  · rw [hlink, hk, Int.toNat_natCast]
    obtain ⟨a, ha, _⟩ := (linkIndex_eq_natCast (WellLinked.nodup_hash h d)).mp hk
    exact ⟨a, ha⟩
  · omega

theorem mem_emplaced {bins : List Bin} {i j : Nat} {x e : UnresolvedBlock}
    (h : node (bins.modify i (· ++ [x])) i j = some e) : node bins i j = some e ∨ e = x := by
  by_cases hi : i < bins.length
  · have hget : bins[i]? = some bins[i] := List.getElem?_eq_getElem hi
    simp only [node, List.getD_eq_getElem?_getD, List.getElem?_modify_eq, hget, Option.map_eq_map,
      Option.map_some, Option.getD_some] at h ⊢
    rcases lt_or_ge j bins[i].length with hj | hj
    · rw [List.getElem?_append_left hj] at h
      exact Or.inl h
    · rw [List.getElem?_append_right hj] at h
      exact Or.inr (List.mem_singleton.mp (List.mem_of_getElem? h))
  · rw [List.modify_eq_self (by omega)] at h
    exact Or.inl h

/-- The bins with a new entry whose children do not know it yet. -/
theorem Ok.closed_emplaced {p : Pool} (h : p.Ok) {i : Nat} {x : UnresolvedBlock}
    (hprev : p.prevQueueIdx i x.block = some x.prevVectorIdx) : Closed (p.blockPool.modify i (· ++ [x])) := by
  intro d j e hn hpos
  by_cases hd : d + 1 = i
  · subst hd
    rcases mem_emplaced hn with hn | rfl
    · obtain ⟨a, ha⟩ := h.closed d j e hn hpos
      exact ⟨a, node_emplaced_mono ha x⟩
    · have hlink : linkIndex (p.bin d) e.block = e.prevVectorIdx := Option.some.inj hprev
      obtain ⟨k, hk⟩ : ∃ k : Nat, e.prevVectorIdx = k := ⟨_, (Int.toNat_of_nonneg hpos).symm⟩
      rw [hk] at hlink
      obtain ⟨a, ha, _⟩ := (linkIndex_eq_natCast (WellLinked.nodup_hash h d)).mp hlink
      exact ⟨a, node_emplaced_mono (by rw [hk, Int.toNat_natCast]; exact ha) _⟩
  · rw [node_modify_other _ _ hd] at hn
    obtain ⟨a, ha⟩ := h.closed d j e hn hpos
    exact ⟨a, node_emplaced_mono ha x⟩

variable (env)

/-- The ids of a longest chain, or none. -/
theorem Ok.layerAt_longest {p : Pool} (h : p.Ok) (hn : p.Near) (hlast : p.lastHeight < 2 ^ 31) :
    ∃ ids, layerAt env p.blockPool p.lastHeight (Pool.searchLongestPos p.blockPool) = .ok ids := by
  unfold layerAt
  rcases h.longest hn rfl with ⟨hzero, _⟩ | ⟨bs, d, e, _, _, _, _, hidx, path, hpath, _⟩
  · have hneg := (binIdx_zero (hlast.trans (by decide))).mpr (by omega)
    rw [hzero, if_neg hneg.1.not_gt, if_pos hneg.2]
    exact ⟨_, rfl⟩
  · rw [hidx, if_neg (by omega), if_neg (by omega), Int.toNat_natCast, hpath]
    exact ⟨_, rfl⟩

/-- The bins after a push, whatever layers it has set. -/
theorem Ok.emplaced {p q : Pool} (h : p.Ok) (hn : p.Near) {i : Nat} {e : UnresolvedBlock} {fs : List Forward}
    (hi : i < p.blockPool.length) (hheight : e.block.height = p.lastHeight + 1 + i)
    (hnear : e.block.height < 2 ^ 64 ∧ e.block.height - p.lastHeight < 2 ^ 31)
    (hnew : ∀ a ∈ p.bin i, a.block.same e.block = false) (hprev : p.prevQueueIdx i e.block = some e.prevVectorIdx)
    (hbins : q.blockPool = setLayers (patchNext (p.blockPool.modify i (· ++ [e])) i (p.bin i).length e.block) fs)
    (hq : q.rootIndex = p.rootIndex ∧ q.lastHeight = p.lastHeight) : q.Ok ∧ q.Near := by
  constructor
  · rw [Ok, hq.1, hq.2, hbins]
    exact (h.insert hi hheight hnew hprev).congr (skeleton_setLayers _ fs).symm
  · intro b hb
    rw [hbins, blocksOf_of_skeleton (skeleton_setLayers _ fs), blocksOf_patchNext] at hb
    rw [hq.2]
    rcases List.mem_cons.mp ((perm_blocksOf_modify hi e).mem_iff.mp hb) with rfl | hb
    · exact hnear
    · exact hn b hb

/-- A block that passed all checks is taken in. -/
theorem Ok.accept_returns {p : Pool} (h : p.Ok) (hn : p.Near) (hlast : p.lastHeight < 2 ^ 31) {i : Nat} {prev : Int}
    {block : Block} (hi : i < p.blockPool.length) (hheight : block.height = p.lastHeight + 1 + i)
    (hnear : block.height < 2 ^ 64 ∧ block.height - p.lastHeight < 2 ^ 31)
    (hnew : ∀ e ∈ p.bin i, e.block.same block = false) (hprev : p.prevQueueIdx i block = some prev) :
    ∃ r, p.accept env i prev block = .ok r := by
  have hlayer : ∃ layer,
      Pool.layerOf env (p.blockPool.modify i (· ++ [⟨prev, false, 0, [], block⟩])) i block = .ok layer := by
    unfold Pool.layerOf
    split
    · exact ⟨_, rfl⟩
    · exact (h.closed_emplaced (x := ⟨prev, false, 0, [], block⟩) hprev).getBlockLayer env _
  obtain ⟨layer, hlayer⟩ := hlayer
  have hstored := modifyEntry_emplaced p.blockPool i ⟨prev, false, 0, [], block⟩
    ⟨prev, decide (i = 0) || !layer.isEmpty, 0, layer, block⟩
  -- the pool that the last query is put to
  have hquery : ∀ (fs : List Forward) (top : Nat), ∃ r, ({ p with
      blockPool := setLayers (patchNext (p.blockPool.modify i
        (· ++ [⟨prev, decide (i = 0) || !layer.isEmpty, 0, layer, block⟩])) i (p.bin i).length block) fs
      heightRangeMax := top } : Pool).invalidateCaches.getMostPossibleBlockLayer env = .ok r := by
    intro fs top
    obtain ⟨hok, hqn⟩ := h.emplaced (q := { p with
      blockPool := setLayers (patchNext (p.blockPool.modify i
        (· ++ [⟨prev, decide (i = 0) || !layer.isEmpty, 0, layer, block⟩])) i (p.bin i).length block) fs
      heightRangeMax := top }) hn hi hheight hnear hnew hprev rfl ⟨rfl, rfl⟩
    obtain ⟨ids, hids⟩ := hok.layerAt_longest env hqn hlast
    simp only [getMostPossibleBlockLayer, invalidateCaches, getLongestBlockPos, bind, Except.bind, pure, Except.pure]
    simp only at hids
    rw [hids]
    exact ⟨_, rfl⟩
  unfold accept
  simp only [hlayer, bind, Except.bind, pure, Except.pure]
  rw [show modifyEntry (p.blockPool.modify i (· ++ [⟨prev, false, 0, [], block⟩])) i (p.bin i).length
    (fun _ => ⟨prev, decide (i = 0) || !layer.isEmpty, 0, layer, block⟩) = _ from hstored]
  obtain ⟨⟨ids, q⟩, hr⟩ := hquery (if decide (i = 0) || !layer.isEmpty then forwardsFrom env
    (patchNext (p.blockPool.modify i (· ++ [⟨prev, decide (i = 0) || !layer.isEmpty, 0, layer, block⟩])) i
      (p.bin i).length block) i (p.bin i).length ⟨prev, decide (i = 0) || !layer.isEmpty, 0, layer, block⟩ else [])
    (if p.heightRangeMax < block.height then block.height else p.heightRangeMax)
  rw [hr]
  exact ⟨_, rfl⟩

/-- A push of a block that is low, early, or neither comes back. -/
theorem Ok.push_returns {p : Pool} (h : p.Ok) (hn : p.Near) (hlast : p.lastHeight < 2 ^ 31) {now : Nat} {block : Block}
    (hw : p.NoWrap now block.height) : ∃ r, p.push env now block = .ok r := by
  unfold Pool.push prepareBins
  by_cases hlow : p.lastHeight ≥ block.height
  · simp only [if_pos hlow]
    exact ⟨_, rfl⟩
  by_cases hearly : p.tooEarly now block.height = true
  · simp only [if_neg hlow, if_pos hearly]
    exact ⟨_, rfl⟩
  have hlt : block.height - p.lastHeight < 2 ^ 31 := hw.lt_of_not_early (by omega) (by simpa using hearly)
  have hidx : binIdx p.lastHeight block.height = (block.height - p.lastHeight - 1 : Nat) :=
    binIdx_of_lt (by omega) hw.2.2.1 hlt
  obtain ⟨i, hi⟩ : ∃ i, block.height - p.lastHeight - 1 = i := ⟨_, rfl⟩
  rw [hi] at hidx
  have hpos : ¬ (i : Int) + 1 < 0 := by omega
  have hpos' : ¬ (i : Int) < 0 := by omega
  have htoNat : ((i : Int) + 1).toNat = i + 1 := by omega
  simp only [if_neg hlow, if_neg hearly, hidx, if_neg hpos, htoNat, bind, Except.bind, Bool.not_true,
    Bool.false_eq_true, if_false, if_neg hpos', Int.toNat_natCast]
  split
  · exact ⟨_, rfl⟩
  rename_i hsame
  split
  · exact ⟨_, rfl⟩
  rename_i prev hprev
  have hgrown : (p.grow (i + 1)).Near := by
    intro b hb
    rw [blocksOf_grow] at hb
    exact hn b hb
  obtain ⟨r, hr⟩ := (h.grow (i + 1)).accept_returns env hgrown hlast (length_grow p (i + 1))
    (show block.height = p.lastHeight + 1 + i by omega) ⟨hw.2.2.1, hlt⟩ (by simpa using hsame) hprev
  rw [hr]
  exact ⟨_, rfl⟩

end Pool
end GruutMerger
