import GruutMerger.Layer

/-!
# Chains of pool blocks

The blocks of the pool that are a chain on top of the last block, told by ids,
hashes and heights alone. Following parent indices finds exactly these.
-/
namespace GruutMerger

open ByteText Forest

namespace Pool

/-- A chain of pool blocks on top of the last block. -/
def Rises (p : Pool) (bs : List Block) : Prop := (∀ b ∈ bs, b ∈ blocksOf p.blockPool) ∧ Linked p.tip bs

/-- The end of such a chain. -/
def Rooted (p : Pool) (b : Block) : Prop := ∃ bs, p.Rises (bs ++ [b])

theorem Rises.init {p : Pool} {bs : List Block} {b : Block} (h : p.Rises (bs ++ [b])) : p.Rises bs :=
  ⟨fun a ha => h.1 a (List.mem_append_left _ ha), (Trail.valid_append.mp h.2).1⟩

theorem Rises.follows {p : Pool} {bs : List Block} {b : Block} (h : p.Rises (bs ++ [b])) :
    Follows (tipOf p.tip bs) b := (Trail.valid_append.mp h.2).2.1

theorem Rises.concat {p : Pool} {bs : List Block} {b : Block} (h : p.Rises bs) (hb : b ∈ blocksOf p.blockPool)
    (hf : Follows (tipOf p.tip bs) b) : p.Rises (bs ++ [b]) := by
  refine ⟨fun a ha => ?_, Trail.valid_append.mpr ⟨h.2, hf, trivial⟩⟩
  rcases List.mem_append.mp ha with ha | ha
  · exact h.1 a ha
  · rw [List.mem_singleton.mp ha]
    exact hb

theorem Rises.height {p : Pool} {bs : List Block} {b : Block} (h : p.Rises (bs ++ [b])) :
    b.height = p.lastHeight + 1 + bs.length := by
  have hb := h.follows.2.2
  rw [h.init.2.height_tipOf] at hb
  simp only [tip] at hb
  omega

/-- The bin of a block of the pool. -/
theorem Ok.node_of_mem {p : Pool} (h : p.Ok) {b : Block} (hb : b ∈ blocksOf p.blockPool) :
    ∃ d j e, node p.blockPool d j = some e ∧ e.block = b ∧ b.height = p.lastHeight + 1 + d := by
  obtain ⟨d, e, he, rfl⟩ := mem_blocksOf.mp hb
  obtain ⟨j, hj⟩ := List.getElem?_of_mem he
  exact ⟨d, j, e, hj, rfl, WellLinked.height_of_mem h he⟩

/-- Height and hash tell a place of the pool. -/
theorem Ok.place {p : Pool} (h : p.Ok) {d d' j k : Nat} {e e' : UnresolvedBlock}
    (hn : node p.blockPool d j = some e) (hn' : node p.blockPool d' k = some e')
    (hheight : e.block.height = e'.block.height) (hhash : e.block.blockHash = e'.block.blockHash) : d = d' ∧ j = k := by
  have hd := WellLinked.height_of_mem h (mem_bin_of_node hn)
  have hd' := WellLinked.height_of_mem h (mem_bin_of_node hn')
  obtain rfl : d = d' := by omega
  have hnodup := WellLinked.nodup_hash h d
  have hlt : j < ((p.blockPool.getD d []).map (·.block.blockHash)).length := by
    simpa using (List.getElem?_eq_some_iff.mp hn).1
  have hget : ((p.blockPool.getD d []).map (·.block.blockHash))[j]? =
      ((p.blockPool.getD d []).map (·.block.blockHash))[k]? := by
    rw [List.getElem?_map, List.getElem?_map, show (p.blockPool.getD d [])[j]? = some e from hn,
      show (p.blockPool.getD d [])[k]? = some e' from hn']
    simpa using hhash
  exact ⟨rfl, (List.getElem?_inj hlt hnodup).mp hget⟩

/-- Height and hash tell a block of the pool. -/
theorem Ok.eq_of_hash {p : Pool} (h : p.Ok) {a b : Block} (ha : a ∈ blocksOf p.blockPool)
    (hb : b ∈ blocksOf p.blockPool) (hheight : a.height = b.height) (hhash : a.blockHash = b.blockHash) : a = b := by
  obtain ⟨d, j, e, hn, rfl, _⟩ := h.node_of_mem ha
  obtain ⟨d', k, e', hn', rfl, _⟩ := h.node_of_mem hb
  obtain ⟨rfl, rfl⟩ := h.place hn hn' hheight hhash
  rw [hn] at hn'
  cases hn'
  rfl

/-- Whatever hangs on a place is listed once. -/
theorem Ok.nodup_below {p : Pool} (h : p.Ok) (i j : Nat) :
    ((preorder UnresolvedBlock.prevVectorIdx (p.blockPool.drop (i + 1)) j).map fun t => t.2.2.block).Nodup := by
  have hplaces : ((preorder UnresolvedBlock.prevVectorIdx (p.blockPool.drop (i + 1)) j).map
    fun t => (t.1, t.2.1)).Nodup := nodup_preorder _ _
  refine List.Nodup.map_on (fun s hs t ht heq => ?_) hplaces.of_map
  have hns := (mem_preorder.mp hs).node_eq
  have hnt := (mem_preorder.mp ht).node_eq
  rw [node_drop] at hns hnt
  obtain ⟨hlevel, hidx⟩ := h.place hns hnt (congrArg Block.height heq) (congrArg Block.blockHash heq)
  exact List.inj_on_of_nodup_map hplaces hs ht (Prod.ext (by simpa using hlevel) hidx)

/-- There is one chain that a block is on top of. -/
theorem Ok.rises_unique {p : Pool} (h : p.Ok) {as bs : List Block} {b : Block} (ha : p.Rises as)
    (hfa : Follows (tipOf p.tip as) b) (hb : p.Rises bs) (hfb : Follows (tipOf p.tip bs) b) : as = bs := by
  have hlen : as.length = bs.length := by
    have hheight := hfa.2.2
    rw [hfb.2.2, ha.2.height_tipOf, hb.2.height_tipOf] at hheight
    omega
  induction as using List.reverseRecOn generalizing bs b with
  | nil => exact (List.length_eq_zero_iff.mp hlen.symm).symm
  | append_singleton as a ih =>
    rcases List.eq_nil_or_concat bs with rfl | ⟨bs, c, rfl⟩
    · simp at hlen
    rw [List.concat_eq_append] at hb hfb hlen ⊢
    rw [tipOf, Trail.finish_concat] at hfa hfb
    obtain rfl : a = c := h.eq_of_hash (ha.1 a (by simp)) (hb.1 c (by simp))
      (Nat.succ.inj (hfa.2.2.symm.trans hfb.2.2)) (hfa.2.1.symm.trans hfb.2.1)
    rw [ih ha.init ha.follows hb.init hb.follows (by simpa using hlen)]

theorem Follows.namesLast {p : Pool} {b : Block} (h : Follows p.tip b) : p.namesLast b = true := by
  simp only [Pool.namesLast, Bool.and_eq_true, decide_eq_true_eq]
  exact ⟨h.1, h.2.1⟩

/-- An entry has the parent index that its block would get. -/
theorem Ok.prevQueueIdx_of_node {p : Pool} (h : p.Ok) {d j : Nat} {e : UnresolvedBlock}
    (hn : node p.blockPool d j = some e) (hroot : d = 0 → p.namesLast e.block = true) :
    p.prevQueueIdx d e.block = some e.prevVectorIdx := by
  cases d with
  | zero =>
    have hlast := hroot rfl
    rw [WellLinked.root_of_mem h (mem_bin_of_node hn), rootIndex, prevQueueIdx, if_pos hlast, if_pos hlast]
  | succ d =>
    rw [WellLinked.link_of_mem h (mem_bin_of_node hn)]
    rfl

/-- The index that a block gets is that of the entry it names. -/
theorem Ok.linkIndex_iff {p : Pool} (h : p.Ok) {d j : Nat} {a : UnresolvedBlock} (ha : node p.blockPool d j = some a)
    {b : Block} :
    linkIndex (p.bin d) b = j ↔ b.prevBlockId = a.block.blockId ∧ b.prevBlockHash = a.block.blockHash := by
  rw [bin, linkIndex_eq_natCast (WellLinked.nodup_hash h d)]
  simp only [namesPrev, Bool.and_eq_true, decide_eq_true_eq]
  constructor
  · rintro ⟨a', ha', hid, hhash⟩
    obtain rfl : a = a' := Option.some.inj (ha.symm.trans ha')
    exact ⟨hid.symm, hhash.symm⟩
  · rintro ⟨hid, hhash⟩
    exact ⟨a, ha, hid.symm, hhash.symm⟩

/-- A block on top of a chain of the pool, new or not, stands one bin higher and finds its
parent by index. -/
theorem Ok.hung_of_rises {p : Pool} (h : p.Ok) {bs : List Block} (hr : p.Rises bs) {b : Block}
    (hf : Follows (tipOf p.tip bs) b) {q : Int} (hq : p.prevQueueIdx bs.length b = some q) :
    ∃ anc, p.Hung bs.length q anc ∧ anc.map (·.block) = bs.reverse := by
  induction bs using List.reverseRecOn generalizing b q with
  | nil =>
    refine ⟨[], ⟨?_, rfl⟩, rfl⟩
    simpa [prevQueueIdx, Follows.namesLast hf] using hq.symm
  | append_singleton bs a ih =>
    rw [tipOf, Trail.finish_concat] at hf
    obtain ⟨d, j, e, hn, rfl, hheight⟩ := h.node_of_mem (hr.1 a (by simp))
    obtain rfl : d = bs.length := by
      have := hr.height
      omega
    have hindex := h.prevQueueIdx_of_node hn fun hzero => by
      obtain rfl := List.length_eq_zero_iff.mp hzero
      exact Follows.namesLast hr.follows
    obtain ⟨anc, hanc, hblocks⟩ := ih hr.init hr.follows hindex
    have hlink : q = j := by
      rw [List.length_append, List.length_singleton] at hq
      have hq' : linkIndex (p.bin bs.length) b = q := Option.some.inj hq
      rw [← hq', h.linkIndex_iff hn]
      exact ⟨hf.1, hf.2.1⟩
    rw [List.length_append, List.length_singleton]
    exact ⟨e :: anc, ⟨j, e, anc, hlink, hn, rfl, hanc⟩, by simp [hblocks]⟩

theorem Ok.rises_of_connected {p : Pool} (h : p.Ok) {d j : Nat} {e : UnresolvedBlock} (hc : p.Connected d j e) :
    ∃ bs, bs.length = d ∧ p.Rises (bs ++ [e.block]) ∧
      ∃ path, ascend UnresolvedBlock.prevVectorIdx p.blockPool d j = some path ∧
        path.map (·.block) = (bs ++ [e.block]).reverse := by
  obtain ⟨bs, hlen, hin, hlinked, hpath⟩ := h.linked_of_connected hc
  refine ⟨bs, hlen, ⟨fun b hb => ?_, hlinked⟩, hpath⟩
  rcases List.mem_append.mp hb with hb | hb
  · exact hin b hb
  · rw [List.mem_singleton.mp hb]
    exact mem_blocksOf_of_node hc.node_eq

/-- The ancestors that an index leads to are such a chain, and the block with that index
is on top of it. -/
theorem Ok.rises_of_hung {p : Pool} (h : p.Ok) {i : Nat} {q : Int} {anc : List UnresolvedBlock} {b : Block}
    (hq : p.prevQueueIdx i b = some q) (ha : p.Hung i q anc) (hb : b.height = p.lastHeight + 1 + i) :
    p.Rises (anc.map (·.block)).reverse ∧ Follows (tipOf p.tip (anc.map (·.block)).reverse) b := by
  cases i with
  | zero =>
    obtain ⟨rfl, rfl⟩ := ha
    have hlast : p.namesLast b = true := by
      by_contra hn
      simp [prevQueueIdx, hn] at hq
    simp only [namesLast, Bool.and_eq_true, decide_eq_true_eq] at hlast
    exact ⟨⟨by simp, trivial⟩, hlast.1, hlast.2, hb⟩
  | succ i =>
    obtain ⟨j, a, up, rfl, hn, rfl, hup⟩ := ha
    obtain ⟨bs, _, hr, path, hpath, hblocks⟩ := h.rises_of_connected (chain_iff_hangs.mpr ⟨hn, up, hup⟩)
    rw [hup.ascend hn, Option.some.injEq] at hpath
    subst hpath
    rw [hblocks, List.reverse_reverse]
    refine ⟨hr, ?_⟩
    obtain ⟨hid, hhash⟩ := (h.linkIndex_iff hn).mp (Option.some.inj hq)
    have hheight := WellLinked.height_of_mem h (mem_bin_of_node hn)
    rw [tipOf, Trail.finish_concat]
    exact ⟨hid, hhash, by simp only [Block.tip]; omega⟩

/-- The connected entries are those of such chains. -/
theorem Ok.rooted_iff {p : Pool} (h : p.Ok) {b : Block} :
    p.Rooted b ↔ ∃ d j e, p.Connected d j e ∧ e.block = b := by
  constructor
  · rintro ⟨bs, hr⟩
    obtain ⟨d, j, e, hn, rfl, hheight⟩ := h.node_of_mem (hr.1 b (by simp))
    obtain rfl : d = bs.length := by
      have := hr.height
      omega
    have hindex := h.prevQueueIdx_of_node hn fun hzero => by
      obtain rfl := List.length_eq_zero_iff.mp hzero
      exact Follows.namesLast hr.follows
    obtain ⟨anc, hanc, _⟩ := h.hung_of_rises hr.init hr.follows hindex
    exact ⟨_, j, e, chain_iff_hangs.mpr ⟨hn, anc, hanc⟩, rfl⟩
  · rintro ⟨d, j, e, hc, rfl⟩
    obtain ⟨bs, _, hr, _⟩ := h.rises_of_connected hc
    exact ⟨bs, hr⟩

/-- The parent that an index leads to. -/
theorem Ok.follows_of_index {p : Pool} (h : p.Ok) {d j k : Nat} {a e : UnresolvedBlock}
    (ha : node p.blockPool d j = some a) (hn : node p.blockPool (d + 1) k = some e) :
    e.prevVectorIdx = j ↔ Follows a.block.tip e.block := by
  rw [WellLinked.link_of_mem h (mem_bin_of_node hn)]
  refine (h.linkIndex_iff ha).trans ⟨fun hnames => ⟨hnames.1, hnames.2, ?_⟩, fun hf => ⟨hf.1, hf.2.1⟩⟩
  have hheight := WellLinked.height_of_mem h (mem_bin_of_node ha)
  have hheight' := WellLinked.height_of_mem h (mem_bin_of_node hn)
  simp only [Block.tip]
  omega

/-- A chain of the pool goes on with what hangs on its last block. -/
theorem Ok.rises_child {p : Pool} (h : p.Ok) {bs : List Block} {d j k : Nat} {a e : UnresolvedBlock}
    (hbs : p.Rises (bs ++ [a.block])) (ha : node p.blockPool d j = some a) (hn : node p.blockPool (d + 1) k = some e)
    (hp : e.prevVectorIdx = j) : p.Rises (bs ++ [a.block] ++ [e.block]) := by
  refine hbs.concat (mem_blocksOf_of_node hn) ?_
  rw [tipOf, Trail.finish_concat]
  exact (h.follows_of_index ha hn).mp hp

/-- A block on top of an entry hangs on it. -/
theorem Ok.child_of_follows {p : Pool} (h : p.Ok) {d j : Nat} {a : UnresolvedBlock} (ha : node p.blockPool d j = some a)
    {b : Block} (hb : b ∈ blocksOf p.blockPool) (hf : Follows a.block.tip b) :
    ∃ k e, node p.blockPool (d + 1) k = some e ∧ e.prevVectorIdx = j ∧ e.block = b := by
  obtain ⟨i, k, e, hn, rfl, hheight⟩ := h.node_of_mem hb
  have hheight' := WellLinked.height_of_mem h (mem_bin_of_node ha)
  obtain rfl : i = d + 1 := by
    have htop := hf.2.2
    simp only [Block.tip] at htop
    omega
  exact ⟨k, e, hn, (h.follows_of_index ha hn).mpr hf, rfl⟩

/-- What hangs on an entry of such a chain, by indices and by blocks. -/
theorem Ok.below_iff {p : Pool} (h : p.Ok) {i j : Nat} {x : UnresolvedBlock} (hx : node p.blockPool i j = some x)
    (hr : p.Rooted x.block) {b : Block} :
    (b = x.block ∨ ∃ d k e, Chain UnresolvedBlock.prevVectorIdx (p.blockPool.drop (i + 1)) j d k e ∧ e.block = b) ↔
      ∃ bs, p.Rises (bs ++ [b]) ∧ x.block ∈ bs ++ [b] := by
  constructor
  · rintro (rfl | ⟨d, k, e, hc, rfl⟩)
    · obtain ⟨bs, hbs⟩ := hr
      exact ⟨bs, hbs, by simp⟩
    · induction hc with
      | @top k e hn hp =>
        obtain ⟨bs, hbs⟩ := hr
        rw [node_drop] at hn
        exact ⟨bs ++ [x.block], h.rises_child hbs hx hn hp, by simp⟩
      | @step d q k a e hca hn hp ih =>
        obtain ⟨bs, hbs, hmem⟩ := ih
        have ha := hca.node_eq
        rw [node_drop] at hn ha
        exact ⟨bs ++ [a.block], h.rises_child hbs ha hn hp, List.mem_append_left _ hmem⟩
  · rintro ⟨bs, hbs, hmem⟩
    induction bs using List.reverseRecOn generalizing b with
    | nil =>
      rw [List.nil_append, List.mem_singleton] at hmem
      exact Or.inl hmem.symm
    | append_singleton bs a ih =>
      rcases List.mem_append.mp hmem with hbelow | hb
      · have hf := hbs.follows
        rw [tipOf, Trail.finish_concat] at hf
        have hb := hbs.1 b (by simp)
        rcases ih hbs.init hbelow with rfl | ⟨d, k, e, hc, rfl⟩
        · obtain ⟨k, e, hn, hp, rfl⟩ := h.child_of_follows hx hb hf
          exact Or.inr ⟨0, k, e, .top (by rwa [node_drop]) hp, rfl⟩
        · have hn := hc.node_eq
          rw [node_drop] at hn
          obtain ⟨k', e', hn', hp, rfl⟩ := h.child_of_follows hn hb hf
          exact Or.inr ⟨d + 1, k', e', .step hc (by rwa [node_drop]) hp, rfl⟩
      · exact Or.inl (List.mem_singleton.mp hb).symm

end Pool
end GruutMerger
