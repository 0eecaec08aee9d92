import GruutMerger.ChainState
import GruutMerger.Lib.Fallible

/-!
# Representation of the pool

Heights, hashes and parent indices of the pool entries, as every operation keeps
them. `WellLinked` goes down the bins: the parent index of an entry is the one
that the source's own search finds in the bin below, and for the first bin it
says whether the entry hangs on the last block.
-/
namespace GruutMerger

open ByteText Forest Fallible

variable (env : Env)

namespace Pool

/-- What an entry is to the representation: its parent index and its block. -/
def skel (e : UnresolvedBlock) : Int × Block := (e.prevVectorIdx, e.block)

def skeleton (bins : List Bin) : List (List (Int × Block)) := bins.map (·.map skel)

theorem linkIndex_congr {a b : Bin} (h : a.map (·.block) = b.map (·.block)) :
    linkIndex a = linkIndex b := by
  have hfind : ∀ (bin : Bin) (block : Block), (bin.findIdx? fun e => namesPrev block e.block) =
      (bin.map (·.block)).findIdx? (namesPrev block) := by
    intro bin block
    rw [List.findIdx?_map]
    rfl
  funext block
  simp only [linkIndex, hfind, h]

theorem blocks_of_skel {a b : Bin} (h : a.map skel = b.map skel) : a.map (·.block) = b.map (·.block) := by
  have h' := congrArg (List.map Prod.snd) h
  simpa [skel, Function.comp_def] using h'

/-- A new entry is found by exactly those that found none before. -/
theorem linkIndex_append (bin : Bin) (e : UnresolvedBlock) (block : Block) :
    linkIndex (bin ++ [e]) block =
      if linkIndex bin block < 0 ∧ namesPrev block e.block then (bin.length : Int)
      else linkIndex bin block := by
  rcases Option.eq_none_or_eq_some (bin.findIdx? fun e => namesPrev block e.block) with h | ⟨k, h⟩
  · by_cases hn : namesPrev block e.block = true
    · simp [linkIndex, List.findIdx?_append, h, hn]
    · simp [linkIndex, List.findIdx?_append, h, hn]
  · have hk : ¬ (k : Int) < 0 := by omega
    simp [linkIndex, List.findIdx?_append, h, hk]

theorem linkIndex_nonneg_or (bin : Bin) (block : Block) :
    (∃ k : Nat, linkIndex bin block = k) ∨ linkIndex bin block = -1 := by
  unfold linkIndex
  cases bin.findIdx? fun e => namesPrev block e.block with
  | some k => exact Or.inl ⟨k, rfl⟩
  | none => exact Or.inr rfl

theorem linkIndex_eq_neg_one {bin : Bin} {block : Block} :
    linkIndex bin block = -1 ↔ ∀ e ∈ bin, namesPrev block e.block = false := by
  unfold linkIndex
  cases h : bin.findIdx? fun e => namesPrev block e.block with
  | some k =>
    have hne : (k : Int) ≠ -1 := by omega
    simp only [hne, false_iff]
    intro hall
    rw [List.findIdx?_eq_none_iff.mpr hall] at h
    cases h
  | none => simpa using h

/-- With different hashes, at most one entry is named as the previous block. -/
theorem linkIndex_eq_natCast {bin : Bin} (hd : (bin.map (·.block.blockHash)).Nodup) {block : Block}
    {k : Nat} : linkIndex bin block = k ↔ ∃ e, bin[k]? = some e ∧ namesPrev block e.block = true := by
  unfold linkIndex
  cases h : bin.findIdx? fun e => namesPrev block e.block with
  | none =>
    have hne : ¬ (-1 : Int) = k := by omega
    simp only [hne, false_iff, not_exists, not_and]
    intro e he
    have := List.findIdx?_eq_none_iff.mp h e (List.mem_of_getElem? he)
    simp [this]
  | some j =>
    obtain ⟨hlt, hj, _⟩ := List.findIdx?_eq_some_iff_getElem.mp h
    constructor
    · intro hjk
      obtain rfl : j = k := Int.ofNat.inj hjk
      exact ⟨bin[j], by simp, hj⟩
    · rintro ⟨e, he, hn⟩
      simp only [namesPrev, Bool.and_eq_true, decide_eq_true_eq] at hj hn
      -- both entries carry the hash that the block names
      have hhash : (bin.map (·.block.blockHash))[j]? = (bin.map (·.block.blockHash))[k]? := by
        simp [he, hj.2, hn.2, hlt]
      rw [(List.getElem?_inj (by simpa using hlt) hd).mp hhash]

def WellLinked (height : Nat) (parent : Block → Int) : List Bin → Prop
  | [] => True
  | bin :: rest =>
    (∀ e ∈ bin, e.block.height = height ∧ e.prevVectorIdx = parent e.block) ∧
      (bin.map (·.block.blockHash)).Nodup ∧ WellLinked (height + 1) (linkIndex bin) rest

/-- Parent index of a block of the first bin. -/
def rootIndex (p : Pool) (block : Block) : Int := if p.namesLast block then 0 else -1

def Ok (p : Pool) : Prop := WellLinked (p.lastHeight + 1) p.rootIndex p.blockPool

theorem forall_skel {bin : Bin} {Q : Int × Block → Prop} :
    (∀ e ∈ bin, Q (skel e)) ↔ ∀ s ∈ bin.map skel, Q s := by simp

/-- The invariant only looks at parent indices and blocks. -/
theorem WellLinked.congr {height : Nat} {parent : Block → Int} {a b : List Bin}
    (h : skeleton a = skeleton b) (ha : WellLinked height parent a) : WellLinked height parent b := by
  induction a generalizing b height parent with
  | nil =>
    cases b with
    | nil => trivial
    | cons bin rest => cases h
  | cons bin rest ih =>
    cases b with
    | nil => cases h
    | cons bin' rest' =>
      obtain ⟨hbin, hrest⟩ := List.cons.inj h
      obtain ⟨hentry, hhash, hlink⟩ := ha
      replace hbin : bin.map skel = bin'.map skel := hbin
      have hblocks := blocks_of_skel hbin
      refine ⟨?_, ?_, ?_⟩
      · have hs := forall_skel (Q := fun s => s.2.height = height ∧ s.1 = parent s.2) |>.mp hentry
        rw [hbin] at hs
        exact forall_skel.mpr hs
      · have hm := congrArg (List.map Block.blockHash) hblocks
        simp only [List.map_map] at hm
        exact hm ▸ hhash
      · rw [← linkIndex_congr hblocks]
        exact ih hrest hlink

theorem WellLinked.append_empty {height : Nat} {parent : Block → Int} {bins : List Bin} (n : Nat)
    (h : WellLinked height parent bins) : WellLinked height parent (bins ++ List.replicate n []) := by
  induction bins generalizing height parent with
  | nil =>
    induction n generalizing height parent with
    | zero => trivial
    | succ n ih => exact ⟨by simp, by simp, ih h⟩
  | cons bin rest ih => exact ⟨h.1, h.2.1, ih h.2.2⟩

/-- Every entry that waited for a block of the bin below finds it there. -/
def patchBin (queueIdx : Nat) (block : Block) (bin : Bin) : Bin :=
  bin.map fun e =>
    if namesPrev e.block block && decide (e.prevVectorIdx < 0) then { e with prevVectorIdx := queueIdx }
    else e

theorem blocks_patchBin (q : Nat) (block : Block) (bin : Bin) :
    (patchBin q block bin).map (·.block) = bin.map (·.block) := by
  simp only [patchBin, List.map_map]
  congr 1
  funext e
  simp only [Function.comp_apply]
  split <;> rfl

theorem WellLinked.patch {height : Nat} {bin : Bin} {e : UnresolvedBlock} {rest : List Bin}
    (h : WellLinked height (linkIndex bin) rest) :
    WellLinked height (linkIndex (bin ++ [e])) (rest.modify 0 (patchBin bin.length e.block)) := by
  cases rest with
  | nil => trivial
  | cons next rest =>
    obtain ⟨hentry, hhash, hlink⟩ := h
    rw [List.modify_zero_cons]
    refine ⟨?_, ?_, ?_⟩
    · intro e' he'
      obtain ⟨a, ha, rfl⟩ := List.mem_map.mp he'
      obtain ⟨hh, hp⟩ := hentry a ha
      rw [linkIndex_append]
      by_cases hc : linkIndex bin a.block < 0 ∧ namesPrev a.block e.block = true
      · simp [hp, hc, hh]
      · have hc' : ¬ (namesPrev a.block e.block = true ∧ linkIndex bin a.block < 0) :=
          fun hn => hc ⟨hn.2, hn.1⟩
        simp [hp, hc, hc', hh]
    · have hb := congrArg (List.map Block.blockHash) (blocks_patchBin bin.length e.block next)
      simp only [List.map_map] at hb
      exact hb ▸ hhash
    · rw [linkIndex_congr (blocks_patchBin bin.length e.block next)]
      exact hlink

/-- The parent index that the search gives a block of bin `i`. -/
def parentIndex (parent : Block → Int) (bins : List Bin) (i : Nat) (block : Block) : Int :=
  match i with
  | 0 => parent block
  | i + 1 => linkIndex (bins.getD i []) block

/-- A new entry with that parent index at the end of bin `i`. -/
theorem WellLinked.insert {height i : Nat} {parent : Block → Int} {bins : List Bin}
    {e : UnresolvedBlock} (h : WellLinked height parent bins) (hi : i < bins.length)
    (hheight : e.block.height = height + i)
    (hnew : ∀ a ∈ bins.getD i [], a.block.blockHash ≠ e.block.blockHash)
    (hprev : e.prevVectorIdx = parentIndex parent bins i e.block) :
    WellLinked height parent ((bins.modify i (· ++ [e])).modify (i + 1)
      (patchBin (bins.getD i []).length e.block)) := by
  induction i generalizing bins height parent with
  | zero =>
    cases bins with
    | nil => simp at hi
    | cons bin rest =>
      obtain ⟨hentry, hhash, hlink⟩ := h
      refine ⟨?_, ?_, hlink.patch⟩
      · intro a ha
        rcases List.mem_append.mp ha with ha | ha
        · exact hentry a ha
        · rw [List.mem_singleton.mp ha]
          exact ⟨hheight, hprev⟩
      · rw [List.map_append, List.nodup_append]
        refine ⟨hhash, by simp, ?_⟩
        intro x hx y hy
        obtain ⟨a, ha, rfl⟩ := List.mem_map.mp hx
        simp only [List.map_cons, List.map_nil, List.mem_singleton] at hy
        exact hy ▸ hnew a ha
  | succ i ih =>
    cases bins with
    | nil => simp at hi
    | cons bin rest =>
      obtain ⟨hentry, hhash, hlink⟩ := h
      refine ⟨hentry, hhash, ?_⟩
      refine ih hlink (by simpa using hi) (by omega) hnew ?_
      cases i with
      | zero => exact hprev
      | succ i => exact hprev

theorem map_modify_of {α β : Type} {f : α → α} {g : α → β} (h : ∀ x, g (f x) = g x) (xs : List α)
    (i : Nat) : (xs.modify i f).map g = xs.map g := by
  induction xs generalizing i with
  | nil => simp
  | cons x xs ih =>
    cases i with
    | zero => simp [h]
    | succ i => simp [ih]

theorem skeleton_modifyEntry {f : UnresolvedBlock → UnresolvedBlock} (h : ∀ e, skel (f e) = skel e)
    (bins : List Bin) (i j : Nat) : skeleton (modifyEntry bins i j f) = skeleton bins :=
  map_modify_of (fun bin => map_modify_of h bin j) bins i

theorem skeleton_setLayers (bins : List Bin) (fs : List Forward) :
    skeleton (setLayers bins fs) = skeleton bins := by
  unfold setLayers
  induction fs generalizing bins with
  | nil => rfl
  | cons f fs ih =>
    rw [List.foldl_cons, ih]
    apply skeleton_modifyEntry
    intro e
    rfl

theorem skel_credit (bin : Bin) (child : UnresolvedBlock) : (credit bin child).map skel = bin.map skel := by
  unfold credit
  split
  · apply map_modify_of
    intro e
    rfl
  · rfl

theorem skel_credits (children bin : Bin) : (children.foldl credit bin).map skel = bin.map skel := by
  induction children generalizing bin with
  | nil => rfl
  | cons child children ih => rw [List.foldl_cons, ih, skel_credit]

theorem skeleton_updateConfirmLevel (bins : List Bin) :
    skeleton (updateConfirmLevel bins) = skeleton bins := by
  induction bins with
  | nil => rfl
  | cons bin rest ih =>
    have hreset : (resetConfirm bin).map skel = bin.map skel := by
      simp [resetConfirm, skel, Function.comp_def]
    unfold skeleton at ih ⊢
    rw [updateConfirmLevel, List.map_cons, List.map_cons, skel_credits, hreset, ih]

theorem modify_length_append {α : Type} (xs : List α) (a : α) (f : α → α) :
    (xs ++ [a]).modify xs.length f = xs ++ [f a] := by
  induction xs with
  | nil => rfl
  | cons x xs ih => simp [ih]

/-- Emplacing an entry and then filling in its fields is emplacing it filled in. -/
theorem modifyEntry_emplaced (bins : List Bin) (i : Nat) (a e : UnresolvedBlock) :
    modifyEntry (bins.modify i (· ++ [a])) i (bins.getD i []).length (fun _ => e) =
      bins.modify i (· ++ [e]) := by
  induction bins generalizing i with
  | nil => simp [modifyEntry]
  | cons bin rest ih =>
    cases i with
    | zero =>
      simp only [modifyEntry, List.modify_zero_cons, List.getD_cons_zero]
      rw [modify_length_append]
    | succ i =>
      have h := ih i
      simp only [modifyEntry, List.modify_succ_cons, List.getD_cons_succ] at h ⊢
      rw [h]

/-- Everything that `accept` sets. -/
structure Accepts (p : Pool) (i : Nat) (prev : Int) (block : Block) (r : PushResult) (p' : Pool)
    (a : Accepted) : Prop where
  layer : layerOf env (p.blockPool.modify i (· ++ [⟨prev, false, 0, [], block⟩])) i block =
    .ok r.blockLayer
  result : r = ⟨decide (i = 0) || !r.blockLayer.isEmpty, false, block.height, r.blockLayer⟩
  stored : a.stored = p.blockPool.modify i (· ++ [⟨prev, r.linked, 0, r.blockLayer, block⟩])
  forwards : a.forwards = if r.linked then
    forwardsFrom env (patchNext a.stored i (p.bin i).length block) i (p.bin i).length
      ⟨prev, r.linked, 0, r.blockLayer, block⟩ else []
  bins : p'.blockPool = setLayers (patchNext a.stored i (p.bin i).length block) a.forwards
  pool : p' = { p with
    blockPool := p'.blockPool
    heightRangeMax := if p.heightRangeMax < block.height then block.height else p.heightRangeMax
    cacheLink := none
    cachePos := some (searchLongestPos p'.blockPool)
    cacheBlockLayer := some a.layer }
  most : layerAt env p'.blockPool p.lastHeight (searchLongestPos p'.blockPool) = .ok a.layer

/-- The layer query once no layer and no position is cached. -/
theorem layer_of_cleared {p p' : Pool} {ids : List Bytes} (hl : p.cacheBlockLayer = none)
    (hp : p.cachePos = none) (h : p.getMostPossibleBlockLayer env = .ok (ids, p')) :
    layerAt env p.blockPool p.lastHeight (searchLongestPos p.blockPool) = .ok ids ∧
      p' = { p with
        cachePos := some (searchLongestPos p.blockPool)
        cacheBlockLayer := some ids } := by
  simp only [getMostPossibleBlockLayer, hl, getLongestBlockPos, hp, bind_eq_ok, pure_eq_ok] at h
  obtain ⟨ids', hids, he⟩ := h
  cases he
  exact ⟨hids, rfl⟩

theorem accepts_of_accept {p : Pool} {i : Nat} {prev : Int} {block : Block} {r : PushResult} {p' : Pool}
    {a : Accepted} (h : p.accept env i prev block = .ok (r, p', a)) :
    Accepts env p i prev block r p' a := by
  unfold accept at h
  obtain ⟨layer, hlayer, h⟩ := bind_eq_ok.mp h
  obtain ⟨⟨ids, q⟩, hids, h⟩ := bind_eq_ok.mp h
  obtain ⟨hat, hq⟩ := layer_of_cleared env rfl rfl hids
  cases h
  subst hq
  have hstored := modifyEntry_emplaced p.blockPool i ⟨prev, false, 0, [], block⟩
    ⟨prev, decide (i = 0) || !layer.isEmpty, 0, layer, block⟩
  exact ⟨hlayer, rfl, hstored, rfl, rfl, rfl, hat⟩

theorem bin_grow (p : Pool) (n i : Nat) : (p.grow n).bin i = p.bin i := by
  simp only [bin, grow, List.getD_eq_getElem?_getD, List.getElem?_append, List.getElem?_replicate]
  split
  · rfl
  · rename_i h
    rw [List.getElem?_eq_none (by omega)]
    split <;> rfl

theorem prevQueueIdx_grow (p : Pool) (n i : Nat) (block : Block) :
    (p.grow n).prevQueueIdx i block = p.prevQueueIdx i block := by
  cases i with
  | zero => rfl
  | succ i =>
    simp only [prevQueueIdx, bin_grow]

/-- How a push goes: the height is turned away; or there is a bin for it, and the block is in
it already, or names no block that it could follow, or is accepted. -/
theorem push_steps {now : Nat} {p p' : Pool} {block : Block} {r : PushResult} {a : Option Accepted}
    (h : p.push env now block = .ok (r, p', a)) :
    (a = none ∧ r = rejected ∧ p' = p ∧ (block.height ≤ p.lastHeight ∨ p.tooEarly now block.height = true)) ∨
    ∃ i : Nat, p.lastHeight < block.height ∧ p.tooEarly now block.height = false ∧
      binIdx p.lastHeight block.height = i ∧
      ((a = none ∧ r = ⟨false, true, block.height, []⟩ ∧ p' = p.grow (i + 1) ∧ ∃ e ∈ p.bin i, e.block.same block = true) ∨
        (∀ e ∈ p.bin i, e.block.same block = false) ∧
          ((a = none ∧ r = rejected ∧ p' = p.grow (i + 1) ∧ p.prevQueueIdx i block = none) ∨
            ∃ prev acc, a = some acc ∧ p.prevQueueIdx i block = some prev ∧
              Accepts env (p.grow (i + 1)) i prev block r p' acc)) := by
  unfold push at h
  obtain ⟨⟨prepared, q⟩, hprep, h⟩ := bind_eq_ok.mp h
  simp only [prepareBins] at hprep
  split at hprep
  · rename_i hlow
    cases hprep
    cases h
    exact Or.inl ⟨rfl, rfl, rfl, Or.inl hlow⟩
  rename_i hlow
  split at hprep
  · rename_i hearly
    cases hprep
    cases h
    exact Or.inl ⟨rfl, rfl, rfl, Or.inr hearly⟩
  rename_i hearly
  split at hprep
  · cases hprep
  cases hprep
  simp only [Bool.not_true, Bool.false_eq_true, if_false] at h
  split at h
  · cases h
  obtain ⟨i, hi⟩ : ∃ i : Nat, binIdx p.lastHeight block.height = i :=
    ⟨_, (Int.toNat_of_nonneg (by omega)).symm⟩
  have hgrow : (binIdx p.lastHeight block.height + 1).toNat = i + 1 := by omega
  rw [hgrow, hi, Int.toNat_natCast, bin_grow, prevQueueIdx_grow] at h
  refine Or.inr ⟨i, Nat.not_le.mp hlow, by simpa using hearly, hi, ?_⟩
  split at h
  · rename_i hdup
    cases h
    exact Or.inl ⟨rfl, rfl, rfl, List.any_eq_true.mp hdup⟩
  rename_i hnew
  refine Or.inr ⟨by simpa using hnew, ?_⟩
  split at h
  · rename_i hprev
    cases h
    exact Or.inl ⟨rfl, rfl, rfl, hprev⟩
  · rename_i prev hprev
    obtain ⟨⟨r', p'', acc⟩, hacc, h⟩ := bind_eq_ok.mp h
    cases h
    exact Or.inr ⟨prev, acc, rfl, hprev, accepts_of_accept env hacc⟩

/-- The three ways a push can end: not admitted, already there, or accepted. -/
theorem push_cases {now : Nat} {p p' : Pool} {block : Block} {r : PushResult} {a : Option Accepted}
    (h : p.push env now block = .ok (r, p', a)) :
    (a = none ∧ r = rejected ∧ ∃ n, p' = p.grow n) ∨
    (a = none ∧ r = ⟨false, true, block.height, []⟩ ∧ ∃ n, p' = p.grow n) ∨
    (∃ i : Nat, ∃ prev acc, a = some acc ∧ p.lastHeight < block.height ∧
      p.tooEarly now block.height = false ∧ binIdx p.lastHeight block.height = i ∧
      (∀ e ∈ p.bin i, e.block.same block = false) ∧ p.prevQueueIdx i block = some prev ∧
      Accepts env (p.grow (i + 1)) i prev block r p' acc) := by
  rcases push_steps env h with ⟨ha, hr, rfl, _⟩ | ⟨i, hlow, hearly, hi, hbin⟩
  · exact Or.inl ⟨ha, hr, 0, by simp [grow]⟩
  rcases hbin with ⟨ha, hr, hp, _⟩ | ⟨hnew, ⟨ha, hr, hp, _⟩ | ⟨prev, acc, ha, hprev, hacc⟩⟩
  · exact Or.inr (Or.inl ⟨ha, hr, i + 1, hp⟩)
  · exact Or.inl ⟨ha, hr, i + 1, hp⟩
  · exact Or.inr (Or.inr ⟨i, prev, acc, ha, hlow, hearly, hi, hnew, hprev, hacc⟩)

theorem WellLinked.height_of_mem {height i : Nat} {parent : Block → Int} {bins : List Bin}
    (h : WellLinked height parent bins) {e : UnresolvedBlock} (he : e ∈ bins.getD i []) :
    e.block.height = height + i := by
  induction i generalizing height parent bins with
  | zero =>
    cases bins with
    | nil => simp at he
    | cons bin rest => exact (h.1 e he).1
  | succ i ih =>
    cases bins with
    | nil => simp at he
    | cons bin rest =>
      have := ih h.2.2 he
      omega

theorem WellLinked.nodup_hash {height : Nat} {parent : Block → Int} {bins : List Bin}
    (h : WellLinked height parent bins) (i : Nat) : ((bins.getD i []).map (·.block.blockHash)).Nodup := by
  induction i generalizing height parent bins with
  | zero =>
    cases bins with
    | nil => simp
    | cons bin rest => exact h.2.1
  | succ i ih =>
    cases bins with
    | nil => simp
    | cons bin rest => exact ih h.2.2

theorem WellLinked.root_of_mem {height : Nat} {parent : Block → Int} {bins : List Bin}
    (h : WellLinked height parent bins) {e : UnresolvedBlock} (he : e ∈ bins.getD 0 []) :
    e.prevVectorIdx = parent e.block := by
  cases bins with
  | nil => simp at he
  | cons bin rest => exact (h.1 e he).2

theorem WellLinked.link_of_mem {height i : Nat} {parent : Block → Int} {bins : List Bin}
    (h : WellLinked height parent bins) {e : UnresolvedBlock} (he : e ∈ bins.getD (i + 1) []) :
    e.prevVectorIdx = linkIndex (bins.getD i []) e.block := by
  induction i generalizing height parent bins with
  | zero =>
    cases bins with
    | nil => simp at he
    | cons bin rest => exact h.2.2.root_of_mem he
  | succ i ih =>
    cases bins with
    | nil => simp at he
    | cons bin rest => exact ih h.2.2 he

/-- No conversion of `prepareBins` and `push` wraps: times and heights are 64-bit
values, the clock is not behind the last block, the product fits, and a height
that is not turned away as too early is less than 2^31 above the last one. -/
def NoWrap (p : Pool) (now height : Nat) : Prop :=
  p.lastTime ≤ now ∧ now < 2 ^ 64 ∧ height < 2 ^ 64 ∧
    (height - p.lastHeight - 1) * bpInterval < 2 ^ 64 ∧
    (now - p.lastTime < (height - p.lastHeight - 1) * bpInterval ∨ height - p.lastHeight < 2 ^ 31)

theorem binIdx_of_lt {last height : Nat} (hl : last < height) (hh : height < 2 ^ 64)
    (hd : height - last < 2 ^ 31) : binIdx last height = (height - last - 1 : Nat) := by
  rw [binIdx, sub64_of_le (by omega) hh, toInt32_of_lt hd]
  omega

theorem tooEarly_iff_mod {p : Pool} {now height : Nat} (ht : p.lastTime ≤ now) (hn : now < 2 ^ 64)
    (hh : height < 2 ^ 64) (hl : p.lastHeight < height) : p.tooEarly now height = true ↔
      now - p.lastTime < (height - p.lastHeight - 1) * bpInterval % 2 ^ 64 := by
  have h1 : sub64 now p.lastTime = now - p.lastTime := sub64_of_le ht hn
  have h2 : sub64 height p.lastHeight = height - p.lastHeight := sub64_of_le (by omega) hh
  have h3 : sub64 (height - p.lastHeight) 1 = height - p.lastHeight - 1 := sub64_of_le (by omega) (by omega)
  rw [tooEarly, h1, h2, h3, mul64, decide_eq_true_iff]

theorem NoWrap.tooEarly_iff {p : Pool} {now height : Nat} (h : p.NoWrap now height)
    (hl : p.lastHeight < height) : p.tooEarly now height = true ↔
      now - p.lastTime < (height - p.lastHeight - 1) * bpInterval := by
  obtain ⟨ht, hn, hh, hm, _⟩ := h
  rw [tooEarly_iff_mod ht hn hh hl, Nat.mod_eq_of_lt hm]

theorem NoWrap.lt_of_not_early {p : Pool} {now height : Nat} (h : p.NoWrap now height)
    (hl : p.lastHeight < height) (he : p.tooEarly now height = false) :
    height - p.lastHeight < 2 ^ 31 := by
  rcases h.2.2.2.2 with hlt | hlt
  · rw [(h.tooEarly_iff hl).mpr hlt] at he
    cases he
  · exact hlt

theorem Ok.grow {p : Pool} (h : p.Ok) (n : Nat) : (p.grow n).Ok := WellLinked.append_empty _ h

/-- A new block at the end of bin `i`, with the parent index that a push gives it. -/
theorem Ok.insert {p : Pool} {i : Nat} {e : UnresolvedBlock} (h : p.Ok) (hi : i < p.blockPool.length)
    (hheight : e.block.height = p.lastHeight + 1 + i) (hnew : ∀ a ∈ p.bin i, a.block.same e.block = false)
    (hprev : p.prevQueueIdx i e.block = some e.prevVectorIdx) :
    WellLinked (p.lastHeight + 1) p.rootIndex ((p.blockPool.modify i (· ++ [e])).modify (i + 1)
      (patchBin (p.bin i).length e.block)) := by
  have hhash : ∀ a ∈ p.bin i, a.block.blockHash ≠ e.block.blockHash := by
    intro a ha heq
    have hh := h.height_of_mem ha
    have hsame := hnew a ha
    simp [Block.same, heq, hh, hheight] at hsame
  refine WellLinked.insert h hi hheight hhash ?_
  cases i with
  | zero =>
    simp only [prevQueueIdx] at hprev
    split at hprev
    · rename_i hn
      simp only [parentIndex, rootIndex, hn, if_true]
      exact (Option.some.inj hprev).symm
    · cases hprev
  | succ i => exact (Option.some.inj hprev).symm

theorem Ok.accepts {p p' : Pool} {i : Nat} {prev : Int} {block : Block} {r : PushResult} {a : Accepted}
    (h : p.Ok) (hi : i < p.blockPool.length) (hheight : block.height = p.lastHeight + 1 + i)
    (hnew : ∀ e ∈ p.bin i, e.block.same block = false) (hprev : p.prevQueueIdx i block = some prev)
    (ha : Accepts env p i prev block r p' a) : p'.Ok := by
  have hinsert := h.insert (e := ⟨prev, r.linked, 0, r.blockLayer, block⟩) hi hheight hnew hprev
  have hskel : skeleton p'.blockPool = skeleton ((p.blockPool.modify i
      (· ++ [⟨prev, r.linked, 0, r.blockLayer, block⟩])).modify (i + 1)
        (patchBin (p.bin i).length block)) := by
    rw [ha.bins, skeleton_setLayers, ha.stored]
    rfl
  have hroot : p'.rootIndex = p.rootIndex := by rw [ha.pool]; rfl
  have hlast : p'.lastHeight = p.lastHeight := by rw [ha.pool]
  rw [Ok, hroot, hlast]
  exact hinsert.congr hskel.symm

theorem Ok.push {p p' : Pool} {now : Nat} {block : Block} {r : PushResult} {a : Option Accepted}
    (h : p.Ok) (hw : p.NoWrap now block.height) (hp : p.push env now block = .ok (r, p', a)) : p'.Ok := by
  rcases push_cases env hp with ⟨_, _, n, rfl⟩ | ⟨_, _, n, rfl⟩ |
    ⟨i, prev, acc, _, hlow, hearly, hidx, hnew, hprev, ha⟩
  · exact h.grow n
  · exact h.grow n
  · have hi : i = block.height - p.lastHeight - 1 := by
      rw [binIdx_of_lt hlow hw.2.2.1 (hw.lt_of_not_early hlow hearly)] at hidx
      omega
    rw [← bin_grow p (i + 1)] at hnew
    rw [← prevQueueIdx_grow p (i + 1)] at hprev
    refine (h.grow (i + 1)).accepts env ?_ ?_ hnew hprev ha
    · simp [Pool.grow]
      omega
    · simp [Pool.grow]
      omega

/-- All blocks, lowest bin first. -/
def blocksOf (bins : List Bin) : List Block := bins.flatten.map (·.block)

theorem blocksOf_eq (bins : List Bin) : blocksOf bins = (bins.map (·.map (·.block))).flatten := by
  rw [blocksOf, List.map_flatten]

theorem blocksOf_of_skeleton {a b : List Bin} (h : skeleton a = skeleton b) : blocksOf a = blocksOf b := by
  have hsnd : ∀ bins : List Bin, (skeleton bins).map (·.map Prod.snd) = bins.map (·.map (·.block)) := by
    intro bins
    simp [skeleton, skel, Function.comp_def]
  rw [blocksOf_eq, blocksOf_eq, ← hsnd a, ← hsnd b, h]

theorem map_node_of_skeleton {a b : List Bin} (h : skeleton a = skeleton b) (i j : Nat) :
    (node a i j).map skel = (node b i j).map skel := by
  rw [← node_map, ← node_map]
  exact congrArg (fun s => node s i j) h

theorem node_of_skeleton {a b : List Bin} (h : skeleton a = skeleton b) {i j : Nat} {e : UnresolvedBlock}
    (hn : node b i j = some e) : ∃ e', node a i j = some e' ∧ skel e' = skel e := by
  have hmap := map_node_of_skeleton h i j
  rw [hn] at hmap
  exact Option.map_eq_some_iff.mp hmap

theorem blocksOf_grow (p : Pool) (n : Nat) : blocksOf (p.grow n).blockPool = blocksOf p.blockPool := by
  simp [blocksOf, grow]

theorem blocksOf_patchNext (bins : List Bin) (i q : Nat) (block : Block) :
    blocksOf (patchNext bins i q block) = blocksOf bins := by
  rw [blocksOf_eq, blocksOf_eq, patchNext, map_modify_of]
  exact fun bin => blocks_patchBin q block bin

theorem mem_blocksOf {bins : List Bin} {b : Block} :
    b ∈ blocksOf bins ↔ ∃ i, ∃ e ∈ bins.getD i [], e.block = b := by
  simp only [blocksOf, List.mem_map, List.mem_flatten]
  constructor
  · rintro ⟨e, ⟨bin, hbin, he⟩, rfl⟩
    obtain ⟨i, hi⟩ := List.getElem?_of_mem hbin
    exact ⟨i, e, by simpa [List.getD_eq_getElem?_getD, hi] using he, rfl⟩
  · rintro ⟨i, e, he, rfl⟩
    rw [List.getD_eq_getElem?_getD] at he
    cases hi : bins[i]? with
    | none => simp [hi] at he
    | some bin => exact ⟨e, ⟨bin, List.mem_of_getElem? hi, by simpa [hi] using he⟩, rfl⟩

theorem perm_blocksOf_modify {bins : List Bin} {i : Nat} (hi : i < bins.length) (e : UnresolvedBlock) :
    (blocksOf (bins.modify i (· ++ [e]))).Perm (e.block :: blocksOf bins) := by
  induction bins generalizing i with
  | nil => simp at hi
  | cons bin rest ih =>
    cases i with
    | zero =>
      simp only [blocksOf, List.modify_zero_cons, List.flatten_cons, List.map_append, List.map_cons,
        List.append_assoc, List.singleton_append]
      exact List.perm_middle
    | succ i =>
      have h := (ih (by simpa using hi)).append_left (bin.map (·.block))
      simp only [blocksOf, List.modify_succ_cons, List.flatten_cons, List.map_append] at h ⊢
      exact h.trans List.perm_middle

/-- An accepted block joins the others. -/
theorem Accepts.perm_blocks {p p' : Pool} {i : Nat} {prev : Int} {block : Block} {r : PushResult}
    {a : Accepted} (h : Accepts env p i prev block r p' a) (hi : i < p.blockPool.length) :
    (blocksOf p'.blockPool).Perm (block :: blocksOf p.blockPool) := by
  rw [h.bins, blocksOf_of_skeleton (skeleton_setLayers _ _), blocksOf_patchNext, h.stored]
  exact perm_blocksOf_modify hi _

theorem length_grow (p : Pool) (n : Nat) : n ≤ (p.grow n).blockPool.length := by
  simp [grow]
  omega

/-- A push takes the block in or leaves the blocks as they were. -/
theorem blocksOf_push {p p' : Pool} {now : Nat} {block : Block} {r : PushResult} {a : Option Accepted}
    (h : p.push env now block = .ok (r, p', a)) :
    (a = none ∧ blocksOf p'.blockPool = blocksOf p.blockPool) ∨
      (a.isSome ∧ (blocksOf p'.blockPool).Perm (block :: blocksOf p.blockPool)) := by
  rcases push_cases env h with ⟨rfl, _, n, rfl⟩ | ⟨rfl, _, n, rfl⟩ | ⟨i, prev, acc, rfl, _, _, _, _, _, ha⟩
  · exact Or.inl ⟨rfl, blocksOf_grow p n⟩
  · exact Or.inl ⟨rfl, blocksOf_grow p n⟩
  · have hperm := ha.perm_blocks env (length_grow p (i + 1))
    rw [blocksOf_grow] at hperm
    exact Or.inr ⟨rfl, hperm⟩

/-- A push adds at most the block pushed. -/
theorem mem_blocksOf_push {p p' : Pool} {now : Nat} {block : Block} {r : PushResult} {a : Option Accepted}
    (h : p.push env now block = .ok (r, p', a)) {b : Block} (hb : b ∈ blocksOf p'.blockPool) :
    b = block ∨ b ∈ blocksOf p.blockPool := by
  rcases blocksOf_push env h with ⟨_, hsame⟩ | ⟨_, hperm⟩
  · rw [hsame] at hb
    exact Or.inr hb
  · exact List.mem_cons.mp (hperm.mem_iff.mp hb)

theorem mem_blocksOf_of_push {p p' : Pool} {now : Nat} {block : Block} {r : PushResult} {a : Option Accepted}
    (h : p.push env now block = .ok (r, p', a)) {b : Block} (hb : b ∈ blocksOf p.blockPool) :
    b ∈ blocksOf p'.blockPool := by
  rcases blocksOf_push env h with ⟨_, hsame⟩ | ⟨_, hperm⟩
  · rw [hsame]
    exact hb
  · exact hperm.mem_iff.mpr (List.mem_cons_of_mem _ hb)

end Pool
end GruutMerger
