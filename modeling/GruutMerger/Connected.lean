import GruutMerger.Resolve

/-!
# Blocks connected to the last block

Following parent indices down to the first bin reaches a block on top of the
last one, so the blocks on the way are a chain from it. Resolving takes the
lowest block of such chains away.
-/
namespace GruutMerger

open ByteText Forest

namespace Pool

/-- An entry at depth `d` and index `j` whose parent indices lead to the last block. -/
abbrev Connected (p : Pool) (d j : Nat) (e : UnresolvedBlock) : Prop :=
  Chain UnresolvedBlock.prevVectorIdx p.blockPool 0 d j e

theorem chain_skeleton {a b : List Bin} (h : skeleton a = skeleton b) {k d j : Nat} {e : UnresolvedBlock}
    (hc : Chain UnresolvedBlock.prevVectorIdx a k d j e) :
    ∃ e', skel e' = skel e ∧ Chain UnresolvedBlock.prevVectorIdx b k d j e' := by
  have hskel : Chain Prod.fst (skeleton a) k d j (skel e) := (chain_map (fun _ => rfl)).mpr ⟨e, rfl, hc⟩
  rw [h] at hskel
  exact (chain_map (fun _ => rfl)).mp hskel

theorem mem_bin_of_node {bins : List Bin} {i j : Nat} {e : UnresolvedBlock} (h : node bins i j = some e) :
    e ∈ bins.getD i [] := List.mem_of_getElem? h

theorem Ok.height_of_connected {p : Pool} (h : p.Ok) {d j : Nat} {e : UnresolvedBlock}
    (hc : p.Connected d j e) : e.block.height = p.lastHeight + 1 + d :=
  WellLinked.height_of_mem h (mem_bin_of_node hc.node_eq)

/-- The blocks on the way are a chain from the last block, and what going up from the
entry meets. -/
theorem Ok.linked_of_connected {p : Pool} (h : p.Ok) {d j : Nat} {e : UnresolvedBlock}
    (hc : p.Connected d j e) : ∃ bs : List Block, bs.length = d ∧
      (∀ b ∈ bs, b ∈ blocksOf p.blockPool) ∧ Linked p.tip (bs ++ [e.block]) ∧
      ∃ path, ascend UnresolvedBlock.prevVectorIdx p.blockPool d j = some path ∧
        path.map (·.block) = (bs ++ [e.block]).reverse := by
  induction hc with
  | @top j e hn hp =>
    have hmem := mem_bin_of_node hn
    have hindex := WellLinked.root_of_mem h hmem
    rw [hp, rootIndex] at hindex
    refine ⟨[], rfl, by simp, ⟨?_, trivial⟩, [e], by simp [ascend, hn], rfl⟩
    split at hindex
    · rename_i hlast
      simp only [namesLast, Bool.and_eq_true, decide_eq_true_eq] at hlast
      exact ⟨hlast.1, hlast.2, WellLinked.height_of_mem h hmem⟩
    · exact absurd hindex (by decide)
  | @step d i j a e hc hn hp ih =>
    obtain ⟨bs, hlen, hin, hlinked, path, hpath, hblocks⟩ := ih
    have hmem := mem_bin_of_node hn
    have hindex := WellLinked.link_of_mem h hmem
    rw [hp] at hindex
    obtain ⟨parent, hparent, hnames⟩ := (linkIndex_eq_natCast (WellLinked.nodup_hash h d)).mp hindex.symm
    -- the entry found by the index is the one on the chain
    have ha : node p.blockPool d i = some a := hc.node_eq
    obtain rfl : parent = a := Option.some.inj (hparent.symm.trans ha)
    simp only [namesPrev, Bool.and_eq_true, decide_eq_true_eq] at hnames
    have hfollows : Follows parent.block.tip e.block := by
      refine ⟨hnames.1.symm, hnames.2.symm, ?_⟩
      have h₁ := WellLinked.height_of_mem h hmem
      have h₂ := WellLinked.height_of_mem h (mem_bin_of_node ha)
      simp only [Block.tip]
      omega
    refine ⟨bs ++ [parent.block], by simp [hlen], ?_, ?_, e :: path, ?_, by simp [hblocks]⟩
    · intro b hb
      rcases List.mem_append.mp hb with hb | hb
      · exact hin b hb
      · rw [List.mem_singleton.mp hb]
        exact mem_blocksOf.mpr ⟨d, parent, mem_bin_of_node ha, rfl⟩
    · refine Trail.valid_append.mpr ⟨hlinked, ?_, trivial⟩
      rw [Trail.finish_concat]
      exact hfollows
    · simp [ascend, hn, hp, hpath]

theorem getElem?_rebase (q : Pool) (bin : Bin) (j : Nat) : (q.rebase bin)[j]? =
    bin[j]?.map fun e => { e with prevVectorIdx := if q.namesLast e.block then 0 else -1 } :=
  List.getElem?_map

/-- After rebasing, the roots are the entries that hung on the resolved one. -/
theorem chain_rebase {q : Pool} {next : Bin} {rest : List Bin} {idx : Nat}
    (hroot : ∀ e ∈ next, q.namesLast e.block = true ↔ e.prevVectorIdx = idx) {d j : Nat} {b : Block} :
    (∃ e, e.block = b ∧ Chain UnresolvedBlock.prevVectorIdx (q.rebase next :: rest) 0 d j e) ↔
      ∃ e, e.block = b ∧ Chain UnresolvedBlock.prevVectorIdx (next :: rest) idx d j e := by
  -- the two forests differ in the first level, and there in the parent index only
  have hentry : ∀ (i : Nat) (a : UnresolvedBlock), (q.rebase next)[i]? = some a → a.prevVectorIdx = 0 →
      ∃ a', next[i]? = some a' ∧ a'.prevVectorIdx = idx ∧ a'.block = a.block := by
    intro i a ha hzero
    rw [getElem?_rebase, Option.map_eq_some_iff] at ha
    obtain ⟨a', ha', rfl⟩ := ha
    refine ⟨a', ha', (hroot a' (List.mem_of_getElem? ha')).mp ?_, rfl⟩
    by_contra hn
    simp [hn] at hzero
  have hentry' : ∀ (i : Nat) (a : UnresolvedBlock), next[i]? = some a → a.prevVectorIdx = idx →
      ∃ a', (q.rebase next)[i]? = some a' ∧ a'.prevVectorIdx = 0 ∧ a'.block = a.block := by
    intro i a ha hidx
    have hn := (hroot a (List.mem_of_getElem? ha)).mpr hidx
    exact ⟨{ a with prevVectorIdx := 0 }, by simp [getElem?_rebase, ha, hn], rfl, rfl⟩
  cases d with
  | zero =>
    constructor
    · rintro ⟨e, rfl, ⟨hn, hp⟩⟩
      obtain ⟨a', ha', hidx, hb⟩ := hentry j e (by simpa using hn) (by simpa using hp)
      exact ⟨a', hb, .top (by simpa using ha') hidx⟩
    · rintro ⟨e, rfl, ⟨hn, hp⟩⟩
      obtain ⟨a', ha', hidx, hb⟩ := hentry' j e (by simpa using hn) hp
      exact ⟨a', hb, .top (by simpa using ha') (by simpa using hidx)⟩
  | succ d =>
    constructor
    · rintro ⟨e, rfl, hc⟩
      obtain ⟨i, a, ha, hp, hc⟩ := chain_cons.mp hc
      obtain ⟨a', ha', hidx, _⟩ := hentry i a ha (by simpa using hp)
      exact ⟨e, rfl, chain_cons.mpr ⟨i, a', ha', hidx, hc⟩⟩
    · rintro ⟨e, rfl, hc⟩
      obtain ⟨i, a, ha, hp, hc⟩ := chain_cons.mp hc
      obtain ⟨a', ha', hidx, _⟩ := hentry' i a ha hp
      exact ⟨e, rfl, chain_cons.mpr ⟨i, a', ha', by simpa using hidx, hc⟩⟩

/-- The bins of a pool with a resolvable entry, and what becomes of them. -/
theorem Ok.advance_bins {p : Pool} {w : UnresolvedBlock} (h : p.Ok) (hw : resolvable p.blockPool = some w) :
    ∃ bin next rest, ∃ idx : Nat, p.blockPool = bin :: next :: rest ∧ bin[idx]? = some w ∧
      w.prevVectorIdx = 0 ∧ (p.advance w).blockPool = (p.advance w).rebase next :: rest ∧
      ∀ e ∈ next, (p.advance w).namesLast e.block = true ↔ e.prevVectorIdx = idx := by
  obtain ⟨bin, next, rest, idx, hbins, hat, hroot, _⟩ := resolvable_some hw
  refine ⟨bin, next, rest, idx, hbins, hat, hroot, ?_, fun e he => ?_⟩
  · simp only [Pool.advance, hbins, List.tail_cons]
    rfl
  · unfold Ok at h
    rw [hbins] at h
    obtain ⟨_, hhash, hnext, _⟩ := h
    rw [(hnext e he).2, linkIndex_eq_natCast hhash]
    constructor
    · intro hl
      refine ⟨w, hat, ?_⟩
      simp only [namesLast, Pool.advance, Bool.and_eq_true] at hl
      simp [namesPrev, of_decide_eq_true hl.1, of_decide_eq_true hl.2]
    · rintro ⟨a, ha, hn⟩
      obtain rfl : w = a := Option.some.inj (hat.symm.trans ha)
      simp only [namesPrev, Bool.and_eq_true, decide_eq_true_eq] at hn
      simp [namesLast, Pool.advance, hn.1, hn.2]

/-- What is connected after a turn was connected through the resolved block. -/
theorem Ok.connected_of_advance {p : Pool} {w : UnresolvedBlock} (h : p.Ok)
    (hw : resolvable p.blockPool = some w) {d j : Nat} {e : UnresolvedBlock}
    (hc : (p.advance w).Connected d j e) : ∃ e', e'.block = e.block ∧ p.Connected (d + 1) j e' := by
  obtain ⟨bin, next, rest, idx, hbins, hat, hroot, hnew, hnames⟩ := h.advance_bins hw
  unfold Connected at hc
  rw [hnew] at hc
  obtain ⟨e', he', hc'⟩ := (chain_rebase hnames).mp ⟨e, rfl, hc⟩
  refine ⟨e', he', ?_⟩
  unfold Connected
  rw [hbins]
  exact chain_cons.mpr ⟨idx, w, hat, hroot, hc'⟩

/-- No connected entry is deeper than `n`. -/
def DepthLt (p : Pool) (n : Nat) : Prop := ∀ d j e, p.Connected d j e → d < n

theorem DepthLt.counted {p : Pool} {n : Nat} (h : p.DepthLt n) : p.counted.DepthLt n := by
  intro d j e hc
  obtain ⟨e', _, hc'⟩ := chain_skeleton (skeleton_updateConfirmLevel p.blockPool) hc
  exact h d j e' hc'

variable {env : Env}

/-- Each resolved block takes one level away. -/
theorem Resolves.depthLt {p p' : Pool} {ws : List UnresolvedBlock} {ds : List Bytes}
    (hr : Resolves env p ws ds p') (h : p.Ok) {n : Nat} (hd : p.DepthLt n) :
    ws.length ≤ n ∧ p'.DepthLt (n - ws.length) := by
  induction hr generalizing n with
  | stop _ => exact ⟨Nat.zero_le n, hd.counted⟩
  | @step p p' w ws ds hw _ ih =>
    have hpos : 0 < n := by
      obtain ⟨bin, next, rest, idx, hbins, hat, hroot, _⟩ := h.counted.advance_bins hw
      exact hd.counted 0 idx w (.top (by rw [hbins]; simpa using hat) hroot)
    have hnext : (p.counted.advance w).DepthLt (n - 1) := by
      intro d j e hc
      obtain ⟨e', _, hc'⟩ := h.counted.connected_of_advance hw hc
      have := hd.counted (d + 1) j e' hc'
      omega
    obtain ⟨hlen, hrest⟩ := ih (h.counted.advance hw) hnext
    rw [List.length_cons]
    exact ⟨by omega, by rwa [show n - (ws.length + 1) = n - 1 - ws.length by omega]⟩

end Pool
end GruutMerger
