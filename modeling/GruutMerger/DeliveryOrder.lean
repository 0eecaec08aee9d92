import GruutMerger.LedgerCalls
import GruutMerger.Resolution
import GruutMerger.Restore

/-!
# Order of delivery

The blocks of one chain may reach the pool in any order. While no other block is in the
pool, every order resolves the same blocks, one after the other, and leaves the same blocks
with the same links: how far the chain is resolved depends on its signatures alone.
-/
namespace GruutMerger

open ByteText Forest Fallible

variable (env : Env)

namespace Pool

/-- A block is pushed, and a linked one is followed by a look at what can be resolved. -/
def deliver (now : Nat) (p : Pool) (block : Block) : Except Failure (List Block × Pool) := do
  let (result, p, _) ← p.push env now block
  if result.linked then
    let (resolved, _, p) := p.resolve env
    return (resolved.map (·.block), p)
  return ([], p)

/-- Deliveries with their times, and all that they resolve. -/
def deliverAll (p : Pool) : List (Nat × Block) → Except Failure (List Block × Pool)
  | [] => .ok ([], p)
  | x :: rest => do
    let (resolved, p) ← p.deliver env x.1 x.2
    let (more, p) ← p.deliverAll rest
    return (resolved ++ more, p)

/-- How many blocks of a chain have enough signatures, their own and those above them, and a
block on top, each after the one below. -/
def resolvedCount : List Block → Nat
  | b :: next :: rest =>
    if blockConfirmLevel ≤ ((b :: next :: rest).map Block.getNumSSigs).sum then resolvedCount (next :: rest) + 1 else 0
  | _ => 0

/-- A chain on top of the last block, with ids to tell the blocks by. -/
structure Continues (p : Pool) (cs : List Block) : Prop where
  linked : Linked p.tip cs
  ids : (cs.map Block.blockId).Nodup
  named : ∀ b ∈ cs, b.blockId ≠ []
  fits : p.lastHeight + cs.length < 2 ^ 31

/-- The clock is late enough for the bins of a chain. -/
def LateFor (p : Pool) (cs : List Block) (now : Nat) : Prop :=
  p.lastTime ≤ now ∧ now < 2 ^ 64 ∧ ∀ b ∈ cs, (b.height - p.lastHeight - 1) * bpInterval ≤ now - p.lastTime

/-- Bins with one block each, and empty ones above. -/
def chainBins (bs : List Block) (n : Nat) : List (List (Int × Block)) :=
  bs.map (fun b => [(0, b)]) ++ List.replicate n []

theorem skel_singleton {bin : Bin} {b : Block} (h : bin.map skel = [(0, b)]) :
    ∃ e, bin = [e] ∧ e.prevVectorIdx = 0 ∧ e.block = b := by
  obtain ⟨e, rfl, he⟩ := List.map_eq_singleton_iff.mp h
  exact ⟨e, rfl, congrArg Prod.fst he, congrArg Prod.snd he⟩

theorem skeleton_chainBins_cons {bins : List Bin} {b : Block} {bs : List Block} {n : Nat}
    (h : skeleton bins = chainBins (b :: bs) n) :
    ∃ e rest, bins = [e] :: rest ∧ e.prevVectorIdx = 0 ∧ e.block = b ∧ skeleton rest = chainBins bs n := by
  cases bins with
  | nil => cases h
  | cons bin rest =>
    obtain ⟨hbin, hrest⟩ := List.cons.inj h
    obtain ⟨e, rfl, hidx, hblock⟩ := skel_singleton hbin
    exact ⟨e, rest, rfl, hidx, hblock, hrest⟩

theorem weight_chainBins {bins : List Bin} {bs : List Block} {n : Nat} (h : skeleton bins = chainBins bs n) :
    weight UnresolvedBlock.prevVectorIdx own bins 0 = (bs.map Block.getNumSSigs).sum := by
  induction bs generalizing bins with
  | nil =>
    have hempty : bins = [] ++ List.replicate n [] := by
      refine List.eq_replicate_iff.mpr ⟨?_, fun bin hbin => ?_⟩
      · simpa [skeleton, chainBins] using congrArg List.length h
      · have hmem : bin.map skel ∈ skeleton bins := List.mem_map_of_mem hbin
        rw [h] at hmem
        simpa using List.eq_of_mem_replicate (by simpa [chainBins] using hmem)
    rw [hempty, weight, preorder_append_empty]
    rfl
  | cons b bs ih =>
    obtain ⟨e, rest, rfl, hidx, rfl, hrest⟩ := skeleton_chainBins_cons h
    rw [weight_cons, List.map_cons, List.sum_cons, ← ih hrest]
    simp [carried, hidx, own]

theorem resolvable_alone {x c : UnresolvedBlock} {more : List Bin} (hx : x.prevVectorIdx = 0)
    (hc : c.prevVectorIdx = 0) (hlevel : blockConfirmLevel ≤ x.confirmLevel) :
    resolvable ([x] :: [c] :: more) = some x := by
  have hpos : 0 < x.confirmLevel := Nat.lt_of_lt_of_le (by decide) hlevel
  have hbest : bestConfirmed [x] = (x.confirmLevel, 0) := by
    simp [bestConfirmed, relax, hx, hpos]
  simp [resolvable, hbest, hc, Nat.not_lt.mpr hlevel]

/-- Where a chain stands alone, nothing of it is left to resolve once the loop stops. -/
theorem resolvedCount_of_stop {p : Pool} {bs : List Block} {n : Nat} (h : skeleton p.blockPool = chainBins bs n)
    (hstop : resolvable p.counted.blockPool = none) : resolvedCount bs = 0 := by
  match bs, h with
  | [], _ => rfl
  | [_], _ => rfl
  | b :: next :: bs, h =>
    rw [resolvedCount, if_neg]
    intro hlevel
    obtain ⟨e, rest, hbins, hidx, rfl, hrest⟩ := skeleton_chainBins_cons h
    have hweight : own e + weight UnresolvedBlock.prevVectorIdx own rest 0 =
        ((e.block :: next :: bs).map Block.getNumSSigs).sum := by
      rw [weight_chainBins hrest]
      rfl
    obtain ⟨e', rest', rfl, hidx', _, _⟩ := skeleton_chainBins_cons hrest
    -- both bins keep their one entry, the first with all signatures of the chain
    have hcounted : p.counted.blockPool =
        [withLevel (e, own e + weight UnresolvedBlock.prevVectorIdx own ([e'] :: rest') 0)] ::
          [withLevel (e', own e' + weight UnresolvedBlock.prevVectorIdx own rest' 0)] :: updateConfirmLevel rest' := by
      rw [counted, hbins, updateConfirmLevel_cons, updateConfirmLevel_cons]
      rfl
    rw [← hweight] at hlevel
    rw [hcounted, resolvable_alone (by exact hidx) (by exact hidx') (by exact hlevel)] at hstop
    cases hstop

/-- The signatures counted for a block are among those of any list that holds the pool. -/
theorem Ok.countedFor_le {p : Pool} (h : p.Ok) {j : Nat} {e : UnresolvedBlock} (he : (p.bin 0)[j]? = some e)
    {bs : List Block} (hin : ∀ b ∈ blocksOf p.blockPool, b ∈ bs) :
    (countedFor p.blockPool j e).length ≤ (bs.map Block.getNumSSigs).sum := by
  have hn : node p.blockPool 0 j = some e := he
  have habove : ∀ t ∈ preorder UnresolvedBlock.prevVectorIdx (p.blockPool.drop 1) j,
      node p.blockPool (1 + t.1) t.2.1 = some t.2.2 := by
    intro t ht
    rw [← node_drop]
    exact (mem_preorder.mp ht).node_eq
  have hsum : (countedFor p.blockPool j e).length = ((e.block ::
      (preorder UnresolvedBlock.prevVectorIdx (p.blockPool.drop 1) j).map fun t => t.2.2.block).map
        Block.getNumSSigs).sum := by
    simp [length_countedFor, weight, own, Function.comp_def]
  rw [hsum]
  refine sum_map_le_of_subset (List.nodup_cons.mpr ⟨fun hmem => ?_, h.nodup_below 0 j⟩) fun b hb => hin b ?_
  · -- what is above it stands in higher bins
    obtain ⟨t, ht, heq⟩ := List.mem_map.mp hmem
    have hplace := (h.place (habove t ht) hn (congrArg Block.height heq) (congrArg Block.blockHash heq)).1
    omega
  · rcases List.mem_cons.mp hb with rfl | hb
    · exact mem_blocksOf_of_node hn
    · obtain ⟨t, ht, rfl⟩ := List.mem_map.mp hb
      exact mem_blocksOf_of_node (habove t ht)

theorem skeleton_of_empty {bins : List Bin} (h : ∀ b, b ∉ blocksOf bins) :
    skeleton bins = List.replicate bins.length [] := by
  refine List.eq_replicate_iff.mpr ⟨by simp [skeleton], fun bin hbin => ?_⟩
  obtain ⟨bin', hbin', rfl⟩ := List.mem_map.mp hbin
  rw [List.map_eq_nil_iff, List.eq_nil_iff_forall_not_mem]
  intro e he
  exact h e.block (List.mem_map_of_mem (List.mem_flatten.mpr ⟨bin', hbin', he⟩))

/-- Where bins hold a chain and nothing else, its first block is alone in the first bin. -/
theorem WellLinked.first_bin {height : Nat} {parent : Block → Int} {bin : Bin} {bins : List Bin} {t : Tip} {b : Block}
    {bs : List Block} (h : WellLinked height parent (bin :: bins)) (hlinked : Linked t (b :: bs))
    (ht : height = t.height + 1) (hmem : ∀ c, c ∈ blocksOf (bin :: bins) ↔ c ∈ b :: bs) :
    (∃ e, bin = [e] ∧ e.block = b) ∧ ∀ c, c ∈ blocksOf bins ↔ c ∈ bs := by
  obtain ⟨hbin, hhash, hrest⟩ := h
  have hb : b.height = t.height + 1 := hlinked.1.2.2
  have hblocks (c : Block) : c ∈ blocksOf (bin :: bins) ↔ (∃ e ∈ bin, e.block = c) ∨ c ∈ blocksOf bins := by
    simp [blocksOf]
  -- heights tell the first bin from those above, as they tell the first block from the others
  have hhigher : ∀ c ∈ blocksOf bins, t.height + 1 < c.height := by
    intro c hc
    obtain ⟨i, e, he, rfl⟩ := mem_blocksOf.mp hc
    have hheight := WellLinked.height_of_mem hrest he
    omega
  have hfirst : ∀ e ∈ bin, e.block = b := by
    intro e he
    rcases List.mem_cons.mp ((hmem _).mp ((hblocks _).mpr (Or.inl ⟨e, he, rfl⟩))) with heq | hin
    · exact heq
    · have habove := (hlinked.mem_tail_iff.mp hin).2
      have hheight := (hbin e he).1
      omega
  constructor
  · have hfound : ∃ e ∈ bin, e.block = b := by
      refine ((hblocks b).mp ((hmem b).mpr (by simp))).resolve_right fun hin => ?_
      have habove := hhigher b hin
      omega
    rcases bin with _ | ⟨e, _ | ⟨e', more⟩⟩
    · obtain ⟨_, he, _⟩ := hfound
      cases he
    · exact ⟨e, rfl, hfirst e (by simp)⟩
    · have heq : e.block = e'.block := (hfirst e (by simp)).trans (hfirst e' (by simp)).symm
      simp [heq] at hhash
  · intro c
    rw [hlinked.mem_tail_iff, ← hmem, hblocks]
    constructor
    · exact fun hc => ⟨Or.inr hc, hhigher c hc⟩
    · rintro ⟨⟨e, he, rfl⟩ | hc, habove⟩
      · have hheight := (hbin e he).1
        omega
      · exact hc

/-- Bins that hold a chain and nothing else hold its blocks one by one. -/
theorem WellLinked.skeleton_chain {height n : Nat} {parent : Block → Int} {bins : List Bin} {t : Tip} {bs : List Block}
    (h : WellLinked height parent bins) (hlinked : Linked t bs) (ht : height = t.height + 1)
    (hparent : ∀ b, Follows t b → parent b = 0) (hlen : bins.length = bs.length + n)
    (hmem : ∀ b, b ∈ blocksOf bins ↔ b ∈ bs) : skeleton bins = chainBins bs n := by
  induction bs generalizing height parent bins t with
  | nil =>
    rw [skeleton_of_empty fun b hb => by simpa using (hmem b).mp hb, hlen, List.length_nil, Nat.zero_add]
    rfl
  | cons b bs ih =>
    cases bins with
    | nil =>
      rw [List.length_nil, List.length_cons] at hlen
      omega
    | cons bin bins =>
      obtain ⟨⟨e, rfl, rfl⟩, htail⟩ := h.first_bin hlinked ht hmem
      obtain ⟨hbin, _, hrest⟩ := h
      obtain ⟨hb, hbs⟩ := hlinked
      obtain ⟨hheight, hidx⟩ := hbin e (by simp)
      have hroot : e.prevVectorIdx = 0 := hidx.trans (hparent e.block hb)
      have habove : skeleton bins = chainBins bs n := by
        refine ih hrest hbs (by rw [← hheight]; rfl) (fun c hc => ?_) (by simpa [Nat.add_right_comm] using hlen) htail
        simp [linkIndex, namesPrev, hc.1, hc.2.1, Block.tip]
      simp only [skeleton, List.map_cons, List.map_nil, skel, hroot, chainBins, List.cons_append] at habove ⊢
      rw [habove]

/-- A block that is taken in makes the pool as high as itself. -/
theorem top_push {p p' : Pool} {now : Nat} {block : Block} {r : PushResult} {a : Accepted}
    (hw : p.NoWrap now block.height) (hp : p.push env now block = .ok (r, p', some a)) :
    p'.lastHeight + p'.blockPool.length = max (p.lastHeight + p.blockPool.length) block.height := by
  obtain ⟨i, prev, hheight, _, _, ha⟩ := push_accepted hw hp
  have hskel := congrArg List.length ha.inserted.1
  simp only [skeleton, List.length_map, inserted, grow] at hskel
  have hlast : p'.lastHeight = p.lastHeight := (sameLast_push env hp).2.2.1
  simp at hskel
  omega

/-- A turn of the loop takes the first bin off and sets the last height to it. -/
theorem Ok.top_advance {p : Pool} (h : p.Ok) {w : UnresolvedBlock} (hw : resolvable p.counted.blockPool = some w) :
    (p.counted.advance w).lastHeight + (p.counted.advance w).blockPool.length = p.lastHeight + p.blockPool.length := by
  obtain ⟨_, _, _, _, hbins, _⟩ := resolvable_some hw
  have hpool : p.counted.blockPool.length = p.blockPool.length := length_updateConfirmLevel _
  have hlast : (p.counted.advance w).lastHeight = p.lastHeight + 1 := (h.counted.follows hw).2.2
  rw [hlast, length_advance, ← hpool, hbins, List.length_cons]
  omega

/-- A turn of the loop leaves what is above the first bin. -/
theorem Ok.mem_advance {p : Pool} (h : p.Ok) {w : UnresolvedBlock} (hw : resolvable p.counted.blockPool = some w)
    {c : Block} : c ∈ blocksOf (p.counted.advance w).blockPool ↔ c ∈ blocksOf p.blockPool ∧ p.lastHeight + 1 < c.height := by
  obtain ⟨_, hblocks⟩ := blocksOf_advance hw
  rw [blocksOf_counted] at hblocks
  rw [hblocks, List.mem_append]
  constructor
  · intro hc
    obtain ⟨d, _, _, _, _, hheight⟩ := (h.counted.advance hw).node_of_mem hc
    have hlast : (p.counted.advance w).lastHeight = p.lastHeight + 1 := (h.counted.follows hw).2.2
    exact ⟨Or.inr hc, by omega⟩
  · rintro ⟨hbin | hc, habove⟩
    · obtain ⟨e, he, rfl⟩ := List.mem_map.mp hbin
      have hheight : e.block.height = p.lastHeight + 1 := WellLinked.height_of_mem h.counted he
      omega
    · exact hc

/-- A chain on its way into the pool: `ds` are the blocks delivered so far, `done` those
resolved and `rest` the others of the chain. -/
structure Filling (start : Pool) (cs ds done rest : List Block) (p : Pool) : Prop where
  split : cs = done ++ rest
  ok : p.Ok
  tip : p.tip = tipOf start.tip done
  time : p.lastTime = start.lastTime
  mem : ∀ b, b ∈ blocksOf p.blockPool ↔ b ∈ ds ∧ b ∈ rest
  arrived : ∀ b ∈ done, b ∈ ds
  count : resolvedCount cs = done.length + resolvedCount rest
  top : ∀ b ∈ ds, b.height ≤ p.lastHeight + p.blockPool.length
  room : start.lastHeight + start.blockPool.length ≤ p.lastHeight + p.blockPool.length
  top_le : p.lastHeight + p.blockPool.length ≤ start.lastHeight + max start.blockPool.length cs.length

section Chain

variable {env} {start : Pool} {cs : List Block} (hcs : start.Continues cs)
include hcs

theorem Filling.linked {ds done rest : List Block} {p : Pool} (h : Filling start cs ds done rest p) :
    Linked p.tip rest := by
  have hall := hcs.linked
  rw [h.split] at hall
  rw [h.tip]
  exact (Trail.valid_append.mp hall).2

theorem Filling.height {ds done rest : List Block} {p : Pool} (h : Filling start cs ds done rest p) :
    p.lastHeight = start.lastHeight + done.length := by
  have hall := hcs.linked
  rw [h.split] at hall
  have hlast := congrArg Tip.height h.tip
  rw [Linked.height_tipOf (Trail.valid_append.mp hall).1] at hlast
  exact hlast

theorem Continues.eq_of_height {a b : Block} (ha : a ∈ cs) (hb : b ∈ cs) (heq : a.height = b.height) : a = b :=
  List.inj_on_of_nodup_map hcs.linked.nodup_height ha hb heq

omit hcs in
theorem Filling.mem_chain {ds done rest : List Block} {p : Pool} (h : Filling start cs ds done rest p) {b : Block}
    (hb : b ∈ rest) : b ∈ cs := by
  rw [h.split]
  exact List.mem_append_right _ hb

/-- Where a block of the chain belongs. -/
theorem Filling.height_bounds {ds done rest : List Block} {p : Pool} (h : Filling start cs ds done rest p) {b : Block}
    (hb : b ∈ rest) : p.lastHeight < b.height ∧ b.height ≤ start.lastHeight + cs.length := by
  obtain ⟨k, hk⟩ := List.getElem?_of_mem hb
  have hat := (h.linked hcs).height_at hk
  have hlt := (List.getElem?_eq_some_iff.mp hk).1
  have hlast := h.height hcs
  have hlen := congrArg List.length h.split
  rw [List.length_append] at hlen
  have htip : p.tip.height = p.lastHeight := rfl
  omega

omit hcs in
/-- A block that was not delivered is still to come. -/
theorem Filling.mem_rest {ds done rest : List Block} {p : Pool} (h : Filling start cs ds done rest p) {b : Block}
    (hb : b ∈ cs) (hnew : b ∉ ds) : b ∈ rest := by
  rw [h.split] at hb
  exact (List.mem_append.mp hb).resolve_left fun hdone => hnew (h.arrived b hdone)

/-- The clock is late enough for what is left: resolved blocks only make a block less early. -/
theorem Filling.admits {ds done rest : List Block} {p : Pool} (h : Filling start cs ds done rest p) {now : Nat}
    {b : Block} (hb : b ∈ rest) (hlate : start.LateFor cs now) :
    p.NoWrap now b.height ∧ p.tooEarly now b.height = false := by
  obtain ⟨hlow, hhigh⟩ := h.height_bounds hcs hb
  obtain ⟨htime, hclock, hadmit⟩ := hlate
  have hadmit := hadmit b (h.mem_chain hb)
  have hfits := hcs.fits
  have hlast := h.height hcs
  have hinterval : (b.height - p.lastHeight - 1) * bpInterval ≤ (b.height - start.lastHeight - 1) * bpInterval :=
    Nat.mul_le_mul_right _ (by omega)
  have hw : p.NoWrap now b.height := by
    unfold NoWrap
    rw [h.time]
    exact ⟨htime, hclock, by omega, by omega, Or.inr (by omega)⟩
  refine ⟨hw, ?_⟩
  by_contra hearly
  rw [Bool.not_eq_false, hw.tooEarly_iff hlow, h.time] at hearly
  omega

/-- The one block of the chain at the first height is on top of the last block. -/
theorem Filling.not_barred {ds done rest : List Block} {p : Pool} (h : Filling start cs ds done rest p) {b : Block}
    (hb : b ∈ rest) : ¬ p.Barred b := by
  rintro (hle | ⟨hfirst, hnot⟩)
  · have hlow := (h.height_bounds hcs hb).1
    omega
  · cases hr : rest with
    | nil => simp [hr] at hb
    | cons c more =>
      have hc := h.linked hcs
      rw [hr] at hc
      have heq : c = b := hcs.eq_of_height (h.mem_chain (by simp [hr])) (h.mem_chain hb)
        (hc.1.2.2.trans hfirst.symm)
      rw [← heq, Follows.namesLast hc.1] at hnot
      cases hnot

/-- Once the rest of the chain is there, it is there from the last block up to each block of it. -/
theorem Filling.rooted {ds done rest : List Block} {p : Pool} (h : Filling start cs ds done rest p) {b : Block}
    (hb : b ∈ rest) (hfull : ∀ c ∈ rest, c ∈ ds) : p.Rooted b := by
  obtain ⟨l₁, l₂, hsplit⟩ := List.append_of_mem hb
  have hlinked := h.linked hcs
  rw [hsplit, List.append_cons] at hlinked
  refine ⟨l₁, fun c hc => ?_, (Trail.valid_append.mp hlinked).1⟩
  have hc' : c ∈ rest := by
    rw [hsplit, List.append_cons]
    exact List.mem_append_left _ hc
  exact (h.mem c).mpr ⟨hfull c hc', hc'⟩

variable (env) in
/-- A block of the chain is taken in, and is linked when it is the last one missing. -/
theorem Filling.push {ds done rest : List Block} {p : Pool} (h : Filling start cs ds done rest p) {now : Nat}
    {b : Block} (hb : b ∈ cs) (hnew : b ∉ ds) (hlate : start.LateFor cs now) :
    ∃ r p' a, p.push env now b = .ok (r, p', a) ∧ Filling start cs (ds ++ [b]) done rest p' ∧
      ((∀ c ∈ rest, c ∈ ds ++ [b]) → r.linked = true) := by
  have hrest := h.mem_rest hb hnew
  obtain ⟨hlow, hhigh⟩ := h.height_bounds hcs hrest
  obtain ⟨hw, hearly⟩ := h.admits hcs hrest hlate
  have hfits := hcs.fits
  have hnear : p.Near := by
    intro c hc
    have := (h.height_bounds hcs ((h.mem c).mp hc).2).2
    omega
  have hsame : ∀ c ∈ blocksOf p.blockPool, c ≠ b := by
    rintro c hc rfl
    exact hnew ((h.mem c).mp hc).1
  obtain ⟨⟨r, p', a⟩, hp⟩ := h.ok.push_returns env hnear (by omega) hw
  have hacc : a.isSome := by
    rcases push_outcome hw hlow hearly hp with ⟨c, hc, hheight, _⟩ | hbarred | hacc
    · exact absurd (hcs.eq_of_height (h.mem_chain ((h.mem c).mp hc).2) hb hheight) (hsame c hc)
    · exact absurd hbarred (h.not_barred hcs hrest)
    · exact hacc
  obtain ⟨a, rfl⟩ := Option.isSome_iff_exists.mp hacc
  have hid : p.NewId b := by
    refine ⟨hcs.named b hb, fun c hc heq => hsame c hc ?_⟩
    exact List.inj_on_of_nodup_map hcs.ids (h.mem_chain ((h.mem c).mp hc).2) hb heq
  obtain ⟨hok, htip, hperm, hresult⟩ := h.ok.push_calls hw hp hid
  have hlength := top_push env hw hp
  have htop := h.top_le
  have hafter : Filling start cs (ds ++ [b]) done rest p' := by
    refine ⟨h.split, hok, htip.trans h.tip, ?_, fun c => ?_, ?_, h.count, ?_, ?_, ?_⟩
    · exact (sameLast_push env hp).2.2.2.trans h.time
    · rw [hperm.mem_iff, List.mem_cons, h.mem c, List.mem_append, List.mem_singleton]
      constructor
      · rintro (rfl | ⟨hc, hc'⟩)
        · exact ⟨Or.inr rfl, hrest⟩
        · exact ⟨Or.inl hc, hc'⟩
      · rintro ⟨hc | rfl, hc'⟩
        · exact Or.inr ⟨hc, hc'⟩
        · exact Or.inl rfl
    · exact fun c hc => List.mem_append_left _ (h.arrived c hc)
    · intro c hc
      rw [hlength]
      rcases List.mem_append.mp hc with hc | hc
      · exact le_trans (h.top c hc) (le_max_left _ _)
      · rw [List.mem_singleton.mp hc]
        exact le_max_right _ _
    · rw [hlength]
      exact le_trans h.room (le_max_left _ _)
    · rw [hlength]
      omega
  refine ⟨r, p', some a, hp, hafter, fun hfull => ?_⟩
  rcases hresult with ⟨hl, _⟩ | ⟨_, _, hnot⟩
  · exact hl
  · exact absurd (hafter.rooted hcs hrest hfull) hnot

/-- The block that a turn of the loop resolves is the first of two or more that are left, and
it has the signatures for it. -/
theorem Filling.resolvable_first {ds done rest : List Block} {p : Pool} (h : Filling start cs ds done rest p)
    {w : UnresolvedBlock} (hw : resolvable p.counted.blockPool = some w) :
    w.block ∈ ds ∧ ∃ next more, rest = w.block :: next :: more ∧
      blockConfirmLevel ≤ ((w.block :: next :: more).map Block.getNumSSigs).sum := by
  have hfollows : Follows p.tip w.block := h.ok.counted.follows hw
  have hlinked := h.linked hcs
  obtain ⟨j, e, he, heq, hlevel, hconfirm, child, hchild, _⟩ := resolvable_counted hw
  have hin : ∀ c ∈ blocksOf p.blockPool, c ∈ rest := fun c hc => ((h.mem c).mp hc).2
  have hwin : w.block ∈ blocksOf p.blockPool := mem_blocksOf.mpr ⟨0, e, List.mem_of_getElem? he, heq⟩
  have hchildIn : child.block ∈ rest := hin _ (mem_blocksOf.mpr ⟨1, child, hchild, rfl⟩)
  have hchildHeight := WellLinked.height_of_mem h.ok hchild
  have hsum := h.ok.countedFor_le he hin
  refine ⟨((h.mem _).mp hwin).1, ?_⟩
  match rest, h, hlinked with
  | [b], h, hlinked =>
    -- the child would be a second block
    have hchild := List.mem_singleton.mp hchildIn
    have hb : b.height = p.lastHeight + 1 := hlinked.1.2.2
    rw [hchild] at hchildHeight
    omega
  | b :: next :: more, h, hlinked =>
    obtain rfl : b = w.block := hcs.eq_of_height (h.mem_chain (by simp)) (h.mem_chain (hin _ hwin))
      (hlinked.1.2.2.trans hfollows.2.2.symm)
    exact ⟨next, more, rfl, by omega⟩

/-- A turn of the loop takes the first block of what is left. -/
theorem Filling.turn {ds done rest : List Block} {p : Pool} (h : Filling start cs ds done rest p)
    {w : UnresolvedBlock} (hw : resolvable p.counted.blockPool = some w) :
    ∃ more, rest = w.block :: more ∧ Filling start cs ds (done ++ [w.block]) more (p.counted.advance w) := by
  obtain ⟨hds, next, more, rfl, hlevel⟩ := h.resolvable_first hcs hw
  have hlinked : Linked p.tip (w.block :: next :: more) := h.linked hcs
  have hlength := h.ok.top_advance hw
  refine ⟨next :: more, rfl, ?_, h.ok.counted.advance hw, ?_, h.time, fun c => ?_, ?_, ?_, ?_, ?_, ?_⟩
  · rw [List.append_assoc]
    exact h.split
  · rw [tipOf, Trail.finish_concat]
    rfl
  · rw [h.ok.mem_advance hw, h.mem, and_assoc, hlinked.mem_tail_iff]
    rfl
  · intro c hc
    rcases List.mem_append.mp hc with hc | hc
    · exact h.arrived c hc
    · rw [List.mem_singleton.mp hc]
      exact hds
  · have hcount := h.count
    rw [resolvedCount, if_pos hlevel] at hcount
    rw [hcount, List.length_append, List.length_singleton]
    omega
  · intro c hc
    rw [hlength]
    exact h.top c hc
  · rw [hlength]
    exact h.room
  · rw [hlength]
    exact h.top_le

omit hcs in
theorem Filling.counted {ds done rest : List Block} {p : Pool} (h : Filling start cs ds done rest p) :
    Filling start cs ds done rest p.counted := by
  have hlen : p.counted.blockPool.length = p.blockPool.length := length_updateConfirmLevel _
  refine ⟨h.split, h.ok.counted, h.tip, h.time, fun b => ?_, h.arrived, h.count, ?_, ?_, ?_⟩
  · rw [blocksOf_counted]
    exact h.mem b
  · rw [hlen]
    exact h.top
  · rw [hlen]
    exact h.room
  · rw [hlen]
    exact h.top_le

/-- Once all blocks are there, the bins are those of the chain. -/
theorem Filling.skeleton_full {ds done rest : List Block} {p : Pool} (h : Filling start cs ds done rest p)
    (hall : ∀ b ∈ cs, b ∈ ds) :
    skeleton p.blockPool = chainBins rest (start.blockPool.length - cs.length) := by
  have hlinked := h.linked hcs
  have hlast := h.height hcs
  have hlen := congrArg List.length h.split
  rw [List.length_append] at hlen
  have htop : start.lastHeight + cs.length ≤ p.lastHeight + p.blockPool.length := by
    rcases List.eq_nil_or_concat cs with hnil | ⟨cs', c, hc⟩
    · have := h.room
      rw [hnil, List.length_nil]
      omega
    · have hmem : c ∈ cs := by simp [hc]
      have hat := hcs.linked.height_at (k := cs'.length) (b := c) (by simp [hc])
      have hle := h.top c (hall c hmem)
      have htip : start.tip.height = start.lastHeight := rfl
      rw [hc, List.length_concat]
      omega
  have hroom := h.room
  have htople := h.top_le
  refine WellLinked.skeleton_chain h.ok hlinked rfl (fun b hb => ?_) (by omega) fun b => ?_
  · rw [rootIndex, if_pos (Follows.namesLast hb)]
  · rw [h.mem b]
    exact ⟨And.right, fun hb => ⟨hall b (h.mem_chain hb), hb⟩⟩

/-- What the loop resolves are the next blocks of the chain, and with the whole chain there
it stops where the signatures do. -/
theorem Filling.resolves {ds done rest : List Block} {p p' : Pool} {ws : List UnresolvedBlock} {drops : List Bytes}
    (h : Filling start cs ds done rest p) (hr : Resolves env p ws drops p') :
    ∃ more, rest = ws.map (·.block) ++ more ∧ Filling start cs ds (done ++ ws.map (·.block)) more p' ∧
      ((∀ b ∈ cs, b ∈ ds) → resolvedCount more = 0) := by
  induction hr generalizing done rest with
  | @stop p hstop =>
    refine ⟨rest, rfl, ?_, fun hall => ?_⟩
    · rw [List.map_nil, List.append_nil]
      exact h.counted
    · exact resolvedCount_of_stop (h.skeleton_full hcs hall) hstop
  | @step p p' w ws drops hw _ ih =>
    obtain ⟨more, rfl, hturn⟩ := h.turn hcs hw
    obtain ⟨last, rfl, hfill, hstop⟩ := ih hturn
    refine ⟨last, rfl, ?_, hstop⟩
    rw [List.append_assoc] at hfill
    exact hfill

variable (env) in
/-- One delivery. -/
theorem Filling.deliver {ds done rest : List Block} {p : Pool} (h : Filling start cs ds done rest p) {now : Nat}
    {b : Block} (hb : b ∈ cs) (hnew : b ∉ ds) (hlate : start.LateFor cs now) :
    ∃ resolved more p', p.deliver env now b = .ok (resolved, p') ∧
      Filling start cs (ds ++ [b]) (done ++ resolved) more p' ∧
      ((∀ c ∈ cs, c ∈ ds ++ [b]) → resolvedCount more = 0) := by
  obtain ⟨r, q, a, hp, hfill, hlinked⟩ := h.push env hcs hb hnew hlate
  by_cases hl : r.linked = true
  · obtain ⟨more, _, hfill', hstop⟩ := hfill.resolves hcs (resolves_resolve env q)
    exact ⟨_, more, _, by simp [Pool.deliver, hp, hl, bind, Except.bind, pure, Except.pure], hfill', hstop⟩
  · refine ⟨[], rest, q, by simp [Pool.deliver, hp, hl, bind, Except.bind, pure, Except.pure], by simpa using hfill, ?_⟩
    intro hall
    exact absurd (hlinked fun c hc => hall c (h.mem_chain hc)) hl

variable (env) in
/-- All deliveries, in whatever order they come. -/
theorem Filling.deliverAll {ds done rest : List Block} {p : Pool} (h : Filling start cs ds done rest p)
    (hstop : (∀ c ∈ cs, c ∈ ds) → resolvedCount rest = 0) {xs : List (Nat × Block)}
    (hin : ∀ x ∈ xs, x.2 ∈ cs ∧ x.2 ∉ ds ∧ start.LateFor cs x.1) (hnd : (xs.map Prod.snd).Nodup)
    (hall : ∀ c ∈ cs, c ∈ ds ++ xs.map Prod.snd) :
    ∃ resolved more p', p.deliverAll env xs = .ok (resolved, p') ∧ resolvedCount more = 0 ∧
      Filling start cs (ds ++ xs.map Prod.snd) (done ++ resolved) more p' := by
  induction xs generalizing ds done rest p with
  | nil =>
    rw [List.map_nil, List.append_nil] at hall ⊢
    refine ⟨[], rest, p, rfl, hstop hall, ?_⟩
    rw [List.append_nil]
    exact h
  | cons x xs ih =>
    obtain ⟨hx, hnew, hlate⟩ := hin x (by simp)
    rw [List.map_cons, List.nodup_cons] at hnd
    obtain ⟨resolved, more, q, hd, hfill, hstop'⟩ := h.deliver env hcs hx hnew hlate
    have hin' : ∀ y ∈ xs, y.2 ∈ cs ∧ y.2 ∉ ds ++ [x.2] ∧ start.LateFor cs y.1 := by
      intro y hy
      obtain ⟨hycs, hynew, hylate⟩ := hin y (by simp [hy])
      refine ⟨hycs, fun hmem => ?_, hylate⟩
      rcases List.mem_append.mp hmem with hmem | hmem
      · exact hynew hmem
      · exact hnd.1 (List.mem_singleton.mp hmem ▸ List.mem_map_of_mem hy)
    obtain ⟨resolved', last, p', hrun, hcount, hfill'⟩ := ih hfill hstop' hin' hnd.2 (by simpa using hall)
    refine ⟨resolved ++ resolved', last, p', ?_, hcount, ?_⟩
    · simp [Pool.deliverAll, hd, hrun, bind, Except.bind, pure, Except.pure]
    · simpa using hfill'

end Chain

theorem WellLinked.of_empty {height : Nat} {parent : Block → Int} {bins : List Bin} (h : blocksOf bins = []) :
    WellLinked height parent bins := by
  have hempty : bins = [] ++ List.replicate bins.length [] := by
    refine List.eq_replicate_iff.mpr ⟨rfl, fun bin hbin => ?_⟩
    rw [blocksOf, List.map_eq_nil_iff, List.flatten_eq_nil_iff] at h
    exact h bin hbin
  rw [hempty]
  exact WellLinked.append_empty _ trivial

/-- A pool without blocks may get the blocks of a chain in any order: they are resolved as far
as their signatures go, and the others stay, each on top of the one before. -/
theorem delivery_order {start : Pool} (hempty : blocksOf start.blockPool = []) {cs : List Block}
    (hcs : start.Continues cs) {xs : List (Nat × Block)} (hperm : (xs.map Prod.snd).Perm cs)
    (hlate : ∀ x ∈ xs, start.LateFor cs x.1) :
    ∃ p, start.deliverAll env xs = .ok (cs.take (resolvedCount cs), p) ∧
      p.tip = tipOf start.tip (cs.take (resolvedCount cs)) ∧
      skeleton p.blockPool = chainBins (cs.drop (resolvedCount cs)) (start.blockPool.length - cs.length) := by
  have hstart : Filling start cs [] [] cs start := by
    refine ⟨rfl, WellLinked.of_empty hempty, rfl, rfl, fun b => ?_, by simp, by simp, by simp, le_refl _, by omega⟩
    simp [hempty]
  have hnd : (xs.map Prod.snd).Nodup := hperm.nodup_iff.mpr hcs.linked.nodup_height.of_map
  have hall : ∀ c ∈ cs, c ∈ [] ++ xs.map Prod.snd := fun c hc => hperm.mem_iff.mpr hc
  have hin : ∀ x ∈ xs, x.2 ∈ cs ∧ x.2 ∉ ([] : List Block) ∧ start.LateFor cs x.1 := fun x hx =>
    ⟨hperm.mem_iff.mp (List.mem_map_of_mem hx), by simp, hlate x hx⟩
  have hnone : (∀ c ∈ cs, c ∈ ([] : List Block)) → resolvedCount cs = 0 := by
    intro hc
    have hnil : cs = [] := List.eq_nil_iff_forall_not_mem.mpr fun c hmem => by simpa using hc c hmem
    rw [hnil]
    rfl
  obtain ⟨resolved, more, p, hrun, hzero, hfill⟩ := hstart.deliverAll env hcs hnone hin hnd hall
  have hcount : resolvedCount cs = resolved.length := by
    have := hfill.count
    rw [hzero] at this
    simpa using this
  have hsplit : cs = resolved ++ more := hfill.split
  have htake : cs.take (resolvedCount cs) = resolved := by
    rw [hcount]
    exact hsplit ▸ List.take_left' rfl
  have hdrop : cs.drop (resolvedCount cs) = more := by
    rw [hcount]
    exact hsplit ▸ List.drop_left' rfl
  rw [htake, hdrop]
  exact ⟨p, hrun, hfill.tip, hfill.skeleton_full hcs hall⟩

/-- Two orders in which the blocks are delivered do not end alike. -/
def OrderMatters (start : Pool) (cs : List Block) : Prop :=
  ∃ xs ys r r' p p', (xs.map Prod.snd).Perm cs ∧ (ys.map Prod.snd).Perm cs ∧
    (∀ x ∈ xs ++ ys, start.LateFor cs x.1) ∧ start.deliverAll env xs = .ok (r, p) ∧
    start.deliverAll env ys = .ok (r', p') ∧ (r ≠ r' ∨ blocksOf p.blockPool ≠ blocksOf p'.blockPool)

instance (p : Pool) (cs : List Block) (now : Nat) : Decidable (p.LateFor cs now) :=
  inferInstanceAs (Decidable (_ ∧ _ ∧ _))

end Pool

namespace Sample

/-- Blocks of the table, by row. -/
def chosenBlocks (rows : List Row) (order : List Nat) : List Block := order.filterMap fun k => (tableOf rows)[k]?

/-- Their deliveries, all at time 1000. -/
def deliveries (rows : List Row) (order : List Nat) : List (Nat × Block) :=
  (chosenBlocks rows order).map fun b => (1000, b)

theorem perm_deliveries (rows : List Row) {order order' : List Nat} (h : order.Perm order') :
    ((deliveries rows order).map Prod.snd).Perm (chosenBlocks rows order') := by
  have hsnd : (deliveries rows order).map Prod.snd = chosenBlocks rows order := by
    simp [deliveries, Function.comp_def]
  rw [hsnd]
  exact h.filterMap _

theorem late_deliveries {rows : List Row} {p : Pool} {cs : List Block} (h : p.LateFor cs 1000) (order : List Nat) :
    ∀ x ∈ deliveries rows order, p.LateFor cs x.1 := by
  intro x hx
  obtain ⟨b, _, rfl⟩ := List.mem_map.mp hx
  exact h

/-- A second block without an id. -/
def unnamedRows : List Row :=
  [⟨[1], genesisBlockPrevId base, genesisBlockPrevHash base, 1, [good 1, good 2, good 3], [digestTx]⟩,
   ⟨[], [1], hashOf 0, 2, [good 1], [digestTx]⟩]

/-- A third block that stands as high as the second, which it names. -/
def levelRows : List Row :=
  [⟨[1], genesisBlockPrevId base, genesisBlockPrevHash base, 1, [good 1, good 2, good 3], [digestTx]⟩,
   ⟨[2], [1], hashOf 0, 2, [good 1], [digestTx]⟩, ⟨[3], [2], hashOf 1, 2, [good 1], [digestTx]⟩]

/-- Four blocks in a row, and two others on top of the second. -/
def branchRows : List Row :=
  [⟨[1], genesisBlockPrevId base, genesisBlockPrevHash base, 1, [good 1], [digestTx]⟩,
   ⟨[2], [1], hashOf 0, 2, [good 1], [digestTx]⟩,
   ⟨[3], [2], hashOf 1, 3, [good 1, good 2, good 3], [digestTx]⟩,
   ⟨[4], [3], hashOf 2, 4, [good 1], [digestTx]⟩,
   ⟨[5], [2], hashOf 1, 3, [good 1, good 2], [digestTx]⟩,
   ⟨[6], [5], hashOf 4, 4, [good 1], [digestTx]⟩]

/-- The ids that a delivery resolves, and those of the pool it leaves. -/
def outcome (s : List Block × Pool) : List Bytes × List Bytes :=
  (s.1.map Block.blockId, (Pool.blocksOf s.2.blockPool).map Block.blockId)

/-- Orders are told apart by the ids they end with. -/
theorem orderMatters_of_outcome {rows : List Row} {start : Pool} {order : List Nat} (xs ys : List Nat)
    (u v : List Bytes × List Bytes) (hx : xs.Perm order) (hy : ys.Perm order)
    (hlate : start.LateFor (chosenBlocks rows order) 1000)
    (hu : Fallible.okAnd (fun s => decide (outcome s = u)) (start.deliverAll (world rows) (deliveries rows xs)) = true)
    (hv : Fallible.okAnd (fun s => decide (outcome s = v)) (start.deliverAll (world rows) (deliveries rows ys)) = true)
    (hne : u ≠ v) : start.OrderMatters (world rows) (chosenBlocks rows order) := by
  obtain ⟨⟨r, p⟩, hr, hru⟩ := Fallible.okAnd_eq_true.mp hu
  obtain ⟨⟨r', p'⟩, hr', hrv⟩ := Fallible.okAnd_eq_true.mp hv
  rw [decide_eq_true_eq] at hru hrv
  refine ⟨_, _, r, r', p, p', perm_deliveries rows hx, perm_deliveries rows hy, fun x hmem => ?_, hr, hr', ?_⟩
  · rcases List.mem_append.mp hmem with hmem | hmem
    · exact late_deliveries hlate _ x hmem
    · exact late_deliveries hlate _ x hmem
  · by_contra hsame
    rw [not_or, not_not, not_not] at hsame
    refine hne ?_
    rw [← hru, ← hrv, outcome, outcome, hsame.1, hsame.2]

end Sample

open Sample

/-- The first three of four blocks are resolved, whatever the order. -/
theorem Pool.delivery_order_chain : ∃ p, initial.chain.pool.Continues (chosenBlocks chainRows [0, 1, 2, 3]) ∧
    initial.chain.pool.deliverAll (world chainRows) (deliveries chainRows [2, 0, 3, 1]) =
      .ok ((chosenBlocks chainRows [0, 1, 2, 3]).take 3, p) ∧
    p.tip = tipOf initial.chain.pool.tip ((chosenBlocks chainRows [0, 1, 2, 3]).take 3) := by
  have hcs : initial.chain.pool.Continues (chosenBlocks chainRows [0, 1, 2, 3]) := by
    refine ⟨⟨⟨?_, ?_, ?_⟩, ⟨?_, ?_, ?_⟩, ⟨?_, ?_, ?_⟩, ⟨?_, ?_, ?_⟩, trivial⟩, ?_, ?_, ?_⟩ <;> decide +kernel
  have hcount : resolvedCount (chosenBlocks chainRows [0, 1, 2, 3]) = 3 := by decide +kernel
  obtain ⟨p, hrun, htip, _⟩ := Pool.delivery_order (world chainRows) rfl hcs
    (perm_deliveries chainRows (by decide : [2, 0, 3, 1].Perm [0, 1, 2, 3])) (late_deliveries (by decide +kernel) _)
  rw [hcount] at hrun htip
  exact ⟨p, hcs, hrun, htip⟩

/-- The order shows when a block has no id, when a block is not higher than the one it names, and
when blocks of another branch wait in the pool. -/
theorem Pool.delivery_order_matters :
    (∃ cs, Pool.blocksOf initial.chain.pool.blockPool = [] ∧ Linked initial.chain.pool.tip cs ∧
      (cs.map Block.blockId).Nodup ∧ initial.chain.pool.OrderMatters (world unnamedRows) cs) ∧
    (∃ a cs, Pool.blocksOf initial.chain.pool.blockPool = [] ∧ Follows initial.chain.pool.tip a ∧
      (a :: cs).IsChain (fun b c => Pool.namesPrev c b = true) ∧ ((a :: cs).map Block.blockId).Nodup ∧
      (∀ b ∈ a :: cs, b.blockId ≠ []) ∧ initial.chain.pool.OrderMatters (world levelRows) (a :: cs)) ∧
    ∃ r start cs, initial.chain.pool.deliverAll (world branchRows) (deliveries branchRows [4, 5]) = .ok (r, start) ∧
      start.Continues cs ∧ start.OrderMatters (world branchRows) cs := by
  refine ⟨⟨chosenBlocks unnamedRows [0, 1], rfl, ?_, by decide +kernel, ?_⟩,
    ⟨(levelRows[0]).block 0, chosenBlocks levelRows [1, 2], rfl, ?_, ?_, by decide +kernel, by decide +kernel, ?_⟩, ?_⟩
  · refine ⟨⟨?_, ?_, ?_⟩, ⟨?_, ?_, ?_⟩, trivial⟩ <;> decide +kernel
  · exact orderMatters_of_outcome [0, 1] [1, 0] ([], [[1], []]) ([[1]], [[]])
      (by decide) (by decide) (by decide +kernel) (by decide +kernel) (by decide +kernel) (by decide)
  · refine ⟨?_, ?_, ?_⟩ <;> decide +kernel
  · refine .cons_cons ?_ (.cons_cons ?_ (.singleton _)) <;> decide +kernel
  · change initial.chain.pool.OrderMatters (world levelRows) (chosenBlocks levelRows [0, 1, 2])
    exact orderMatters_of_outcome [0, 1, 2] [0, 2, 1] ([[1]], [[2]]) ([[1]], [[3], [2]])
      (by decide) (by decide) (by decide +kernel) (by decide +kernel) (by decide +kernel) (by decide)
  · have hrun : Fallible.okAnd (fun s : List Block × Pool => decide (s.2.tip = initial.chain.pool.tip) &&
        decide (s.2.LateFor (chosenBlocks branchRows [0, 1, 2, 3]) 1000) &&
        Fallible.okAnd (fun t => decide (outcome t = ([[1], [2], [5]], [[6]])))
          (s.2.deliverAll (world branchRows) (deliveries branchRows [0, 1, 2, 3])) &&
        Fallible.okAnd (fun t => decide (outcome t = ([[1], [2], [3]], [[6], [4]])))
          (s.2.deliverAll (world branchRows) (deliveries branchRows [3, 2, 1, 0])))
      (initial.chain.pool.deliverAll (world branchRows) (deliveries branchRows [4, 5])) = true := by decide +kernel
    obtain ⟨⟨r, start⟩, hstart, htest⟩ := Fallible.okAnd_eq_true.mp hrun
    simp only [Bool.and_eq_true, decide_eq_true_eq] at htest
    obtain ⟨⟨⟨htip, hlate⟩, hup⟩, hdown⟩ := htest
    refine ⟨r, start, chosenBlocks branchRows [0, 1, 2, 3], hstart, ⟨?_, by decide +kernel, by decide +kernel, ?_⟩,
      orderMatters_of_outcome _ _ _ _ (by decide) (by decide) hlate hup hdown (by decide)⟩
    · rw [htip]
      refine ⟨⟨?_, ?_, ?_⟩, ⟨?_, ?_, ?_⟩, ⟨?_, ?_, ?_⟩, ⟨?_, ?_, ?_⟩, trivial⟩ <;> decide +kernel
    · have hheight : start.lastHeight = 0 := congrArg Tip.height htip
      rw [hheight]
      decide +kernel

end GruutMerger
