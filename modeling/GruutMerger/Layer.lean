import GruutMerger.Connected

/-!
# Layers of new blocks

`getBlockLayer` finds a block by its id and lists the ids on the way down to the
last block. For a block that was just put into the pool under an id of its own
this is the list of its ancestors, and empty when it does not hang on the last
block.
-/
namespace GruutMerger

open ByteText Forest Fallible

variable (env : Env)

namespace Pool

/-- An entry of bin `i` with parent index `q` hangs on the last block, through these
ancestors. -/
abbrev Hung (p : Pool) (i : Nat) (q : Int) (anc : List UnresolvedBlock) : Prop :=
  Hangs UnresolvedBlock.prevVectorIdx p.blockPool 0 i q anc

def idsOf (es : List UnresolvedBlock) : List Bytes := es.map fun e => e.block.getBlockIdB64 env

@[simp] theorem idsOf_nil : idsOf env [] = [] := rfl

@[simp] theorem idsOf_cons (e : UnresolvedBlock) (es : List UnresolvedBlock) :
    idsOf env (e :: es) = e.block.getBlockIdB64 env :: idsOf env es := rfl

theorem mem_idsOf {e : UnresolvedBlock} {es : List UnresolvedBlock} (h : e ∈ es) :
    e.block.getBlockIdB64 env ∈ idsOf env es :=
  List.mem_map_of_mem (f := fun e : UnresolvedBlock => e.block.getBlockIdB64 env) h

theorem layerUp_congr {a b : List Bin} (own : Bytes) {i : Nat} {q : Int}
    (h : ∀ d ≤ i, ∀ j, node b d j = node a d j) : layerUp env b own i q = layerUp env a own i q := by
  induction i generalizing q with
  | zero =>
    rw [layerUp, layerUp, h 0 (by omega)]
  | succ i ih =>
    rw [layerUp, layerUp, h (i + 1) (by omega)]
    simp only [ih fun d hd => h d (by omega)]

/-- The way up from an entry of the pool. -/
theorem Ok.layerUp {p : Pool} (h : p.Ok) (own : Bytes) {i k : Nat} {e : UnresolvedBlock}
    (hn : node p.blockPool i k = some e) :
    (∃ anc, p.Hung i e.prevVectorIdx anc ∧
      Pool.layerUp env p.blockPool own i k = .ok (some ((idsOf env (e :: anc)).filter (· ≠ own)))) ∨
    ((¬ ∃ anc, p.Hung i e.prevVectorIdx anc) ∧ Pool.layerUp env p.blockPool own i k = .ok none) := by
  have hmem := mem_bin_of_node hn
  induction i generalizing k e with
  | zero =>
    have hroot := WellLinked.root_of_mem h hmem
    rw [Pool.layerUp, Int.toNat_natCast, hn]
    by_cases hlast : p.namesLast e.block = true
    · left
      have hp : e.prevVectorIdx = 0 := by rw [hroot, rootIndex, if_pos hlast]
      refine ⟨[], ⟨hp, rfl⟩, ?_⟩
      by_cases hown : e.block.getBlockIdB64 env = own <;> simp [hp, idsOf, hown]
    · right
      have hp : e.prevVectorIdx = -1 := by rw [hroot, rootIndex, if_neg hlast]
      refine ⟨?_, by simp [hp]⟩
      rintro ⟨anc, hq, _⟩
      omega
  | succ i ih =>
    have hlink := WellLinked.link_of_mem h hmem
    rw [Pool.layerUp, Int.toNat_natCast, hn]
    rcases linkIndex_nonneg_or (p.blockPool.getD i []) e.block with ⟨k', hk'⟩ | hneg
    · rw [hk'] at hlink
      obtain ⟨a, ha, _⟩ := (linkIndex_eq_natCast (WellLinked.nodup_hash h i)).mp hk'
      replace ha : node p.blockPool i k' = some a := ha
      have hpos : ¬ (k' : Int) < 0 := by omega
      simp only [hlink, if_neg hpos]
      rcases ih ha (mem_bin_of_node ha) with ⟨anc, hanc, hup⟩ | ⟨hnone, hup⟩
      · left
        refine ⟨a :: anc, ⟨k', a, anc, rfl, ha, rfl, hanc⟩, ?_⟩
        rw [hup]
        by_cases hown : e.block.getBlockIdB64 env = own <;> simp [Except.map, idsOf, hown]
      · right
        refine ⟨?_, by rw [hup]; rfl⟩
        rintro ⟨anc, j, a', up, hj, ha', rfl, hup'⟩
        obtain rfl : k' = j := Int.ofNat.inj hj
        obtain rfl : a = a' := Option.some.inj (ha.symm.trans ha')
        exact hnone ⟨up, hup'⟩
    · right
      rw [hneg] at hlink
      refine ⟨?_, by simp [hlink]⟩
      rintro ⟨anc, j, a, up, hj, _⟩
      omega

theorem findIdx?_append_new {bin : Bin} {x : UnresolvedBlock}
    (h : ∀ e ∈ bin, e.block.getBlockIdB64 env ≠ x.block.getBlockIdB64 env) :
    (bin ++ [x]).findIdx? (fun e => decide (e.block.getBlockIdB64 env = x.block.getBlockIdB64 env)) =
      some bin.length := by
  have hnone : bin.findIdx? (fun e => decide (e.block.getBlockIdB64 env = x.block.getBlockIdB64 env)) = none :=
    List.findIdx?_eq_none_iff.mpr fun e he => by simp [h e he]
  simp [List.findIdx?_append, hnone]

/-- A block is found where it was just put, if no block up to its bin has its id. -/
theorem findBlock_new {bins : List Bin} {x : UnresolvedBlock} {i : Nat} (hi : i < bins.length)
    (h : ∀ d ≤ i, ∀ e ∈ bins.getD d [], e.block.getBlockIdB64 env ≠ x.block.getBlockIdB64 env) :
    findBlock env (x.block.getBlockIdB64 env) (bins.modify i (· ++ [x])) =
      some (i, (bins.getD i []).length) := by
  induction bins generalizing i with
  | nil => simp at hi
  | cons bin rest ih =>
    have hbin : ∀ e ∈ bin, e.block.getBlockIdB64 env ≠ x.block.getBlockIdB64 env := h 0 (Nat.zero_le i)
    cases i with
    | zero => simp only [List.modify_zero_cons, findBlock, findIdx?_append_new env hbin, List.getD_cons_zero]
    | succ i =>
      have hnone : bin.findIdx? (fun e => decide (e.block.getBlockIdB64 env = x.block.getBlockIdB64 env)) =
          none := List.findIdx?_eq_none_iff.mpr fun e he => by simp [hbin e he]
      have hrest : ∀ d ≤ i, ∀ e ∈ rest.getD d [], e.block.getBlockIdB64 env ≠ x.block.getBlockIdB64 env :=
        fun d hd e he => h (d + 1) (by omega) e (by simpa using he)
      simp only [List.modify_succ_cons, findBlock, hnone, ih (by simpa using hi) hrest, List.getD_cons_succ,
        Option.map_some]

variable {env}

theorem node_emplaced (bins : List Bin) (x : UnresolvedBlock) {i : Nat} (hi : i < bins.length) :
    node (bins.modify i (· ++ [x])) i (bins.getD i []).length = some x := by
  have hget : bins[i]? = some bins[i] := List.getElem?_eq_getElem hi
  simp [node, List.getD_eq_getElem?_getD, hget]

theorem node_emplaced_old {bins : List Bin} {i j : Nat} {e : UnresolvedBlock} (h : node bins i j = some e)
    (x : UnresolvedBlock) : node (bins.modify i (· ++ [x])) i j = some e := by
  have hlt : i < bins.length := by
    by_contra hn
    simp [node, List.getD_eq_getElem?_getD, List.getElem?_eq_none (Nat.le_of_not_lt hn)] at h
  have hget : bins[i]? = some bins[i] := List.getElem?_eq_getElem hlt
  simp only [node, List.getD_eq_getElem?_getD, List.getElem?_modify_eq, hget, Option.map_eq_map,
    Option.map_some, Option.getD_some] at h ⊢
  rw [List.getElem?_append_left (List.getElem?_eq_some_iff.mp h).1, h]

theorem node_modify_other (bins : List Bin) (f : Bin → Bin) {i d : Nat} (hd : d ≠ i) (j : Nat) :
    node (bins.modify i f) d j = node bins d j := by
  simp only [node, List.getD_eq_getElem?_getD, List.getElem?_modify_ne _ _ (Ne.symm hd)]

/-- A new entry leaves the others in their places. -/
theorem node_emplaced_mono {bins : List Bin} {i d j : Nat} {e : UnresolvedBlock} (he : node bins d j = some e)
    (x : UnresolvedBlock) : node (bins.modify i (· ++ [x])) d j = some e := by
  by_cases hd : d = i
  · subst hd
    exact node_emplaced_old he _
  · rw [node_modify_other _ _ hd, he]

/-- A new entry at the end of bin `i`, found by those that waited for it. -/
def inserted (bins : List Bin) (i : Nat) (x : UnresolvedBlock) : List Bin :=
  (bins.modify i (· ++ [x])).modify (i + 1) (patchBin (bins.getD i []).length x.block)

theorem node_inserted_self {bins : List Bin} {i : Nat} (hi : i < bins.length) (x : UnresolvedBlock) :
    node (inserted bins i x) i (bins.getD i []).length = some x := by
  rw [inserted, node_modify_other _ _ (by omega), node_emplaced bins x hi]

theorem node_inserted_next (bins : List Bin) (i j : Nat) (x : UnresolvedBlock) :
    node (inserted bins i x) (i + 1) j = (node bins (i + 1) j).map fun e =>
      if namesPrev e.block x.block && decide (e.prevVectorIdx < 0) then
        { e with prevVectorIdx := ((bins.getD i []).length : Int) } else e := by
  have hget : (bins.modify i (· ++ [x]))[i + 1]? = bins[i + 1]? := List.getElem?_modify_ne _ _ (by omega)
  simp only [node, inserted, List.getD_eq_getElem?_getD, List.getElem?_modify_eq, hget]
  cases bins[i + 1]? with
  | none => simp
  | some bin => simp [patchBin]

theorem node_inserted_other {bins : List Bin} {i d : Nat} (hd : d ≠ i) (hd' : d ≠ i + 1) (j : Nat)
    (x : UnresolvedBlock) : node (inserted bins i x) d j = node bins d j := by
  rw [inserted, node_modify_other _ _ hd', node_modify_other _ _ hd]

theorem node_inserted_old {bins : List Bin} {i j : Nat} {e : UnresolvedBlock} (h : node bins i j = some e)
    (x : UnresolvedBlock) : node (inserted bins i x) i j = some e := by
  rw [inserted, node_modify_other _ _ (by omega)]
  exact node_emplaced_old h x

/-- Entries that can be an ancestor are where they were. -/
theorem node_inserted_kept {bins : List Bin} {i d j : Nat} {e : UnresolvedBlock} (h : node bins d j = some e)
    (hpos : d = 0 ∨ 0 ≤ e.prevVectorIdx) (x : UnresolvedBlock) : node (inserted bins i x) d j = some e := by
  by_cases hi : d = i
  · subst hi
    exact node_inserted_old h x
  by_cases hnext : d = i + 1
  · subst hnext
    have hneg : ¬ e.prevVectorIdx < 0 := by omega
    rw [node_inserted_next, h]
    simp [hneg]
  · rw [node_inserted_other hi hnext, h]

theorem Accepts.inserted {p p' : Pool} {i : Nat} {prev : Int} {block : Block} {r : PushResult} {a : Accepted}
    (ha : Accepts env p i prev block r p' a) :
    skeleton p'.blockPool = skeleton (inserted p.blockPool i ⟨prev, r.linked, 0, r.blockLayer, block⟩) ∧
      a.forwards = if r.linked then forwardsFrom env
        (Pool.inserted p.blockPool i ⟨prev, r.linked, 0, r.blockLayer, block⟩) i (p.bin i).length
        ⟨prev, r.linked, 0, r.blockLayer, block⟩ else [] := by
  have hpatched : patchNext a.stored i (p.bin i).length block =
      Pool.inserted p.blockPool i ⟨prev, r.linked, 0, r.blockLayer, block⟩ := by
    rw [ha.stored]
    rfl
  constructor
  · rw [ha.bins, skeleton_setLayers, hpatched]
  · rw [ha.forwards, hpatched]

/-- An id that no block of the pool has. -/
def NewId (p : Pool) (block : Block) : Prop :=
  block.blockId ≠ [] ∧ ∀ b ∈ blocksOf p.blockPool, b.blockId ≠ block.blockId

theorem NewId.ne {p : Pool} {block : Block} (h : p.NewId block) {b : Block} (hb : b ∈ blocksOf p.blockPool) :
    b.getBlockIdB64 env ≠ block.getBlockIdB64 env :=
  fun he => h.2 b hb (env.base64.encode_injective he)

/-- An id that no block up to bin `i` has. -/
def FirstId (p : Pool) (i : Nat) (block : Block) : Prop :=
  block.blockId ≠ [] ∧ ∀ d ≤ i, ∀ e ∈ p.bin d, e.block.blockId ≠ block.blockId

theorem NewId.first {p : Pool} {block : Block} (h : p.NewId block) (i : Nat) : p.FirstId i block :=
  ⟨h.1, fun d _ e he => h.2 e.block (mem_blocksOf.mpr ⟨d, e, he, rfl⟩)⟩

theorem FirstId.ne {p : Pool} {i : Nat} {block : Block} (h : p.FirstId i block) {d : Nat} (hd : d ≤ i)
    {e : UnresolvedBlock} (he : e ∈ p.blockPool.getD d []) :
    e.block.getBlockIdB64 env ≠ block.getBlockIdB64 env :=
  fun heq => h.2 d hd e he (env.base64.encode_injective heq)

theorem node_of_hung {bins : List Bin} {k i : Nat} {q : Int} {anc : List UnresolvedBlock}
    (h : Hangs UnresolvedBlock.prevVectorIdx bins k i q anc) :
    ∀ a ∈ anc, ∃ d < i, ∃ j, node bins d j = some a := by
  induction i generalizing q anc with
  | zero =>
    obtain ⟨_, rfl⟩ := h
    simp
  | succ i ih =>
    obtain ⟨j, a, up, _, ha, rfl, hup⟩ := h
    intro b hb
    rcases List.mem_cons.mp hb with rfl | hb
    · exact ⟨i, by omega, j, ha⟩
    · obtain ⟨d, hd, j', hj'⟩ := ih hup b hb
      exact ⟨d, by omega, j', hj'⟩

theorem mem_blocksOf_of_node {bins : List Bin} {d j : Nat} {e : UnresolvedBlock} (h : node bins d j = some e) :
    e.block ∈ blocksOf bins := mem_blocksOf.mpr ⟨d, e, mem_bin_of_node h, rfl⟩

/-- The layer of an entry that was just put into its bin is read off the bins as they were. -/
theorem layerOf_emplaced {p : Pool} {i : Nat} {prev : Int} {block : Block} (hi : i + 1 < p.blockPool.length)
    (hnew : p.FirstId (i + 1) block) :
    Pool.layerOf env (p.blockPool.modify (i + 1) (· ++ [⟨prev, false, 0, [], block⟩])) (i + 1) block =
      if prev < 0 then .ok []
      else (Pool.layerUp env p.blockPool (block.getBlockIdB64 env) i prev).map fun r => r.getD [] := by
  have hid : block.getBlockIdB64 env ≠ [] := Block.getBlockIdB64_ne env hnew.1
  have hfind := findBlock_new env (x := ⟨prev, false, 0, [], block⟩) hi fun d hd e he => hnew.ne hd he
  have hnode := node_emplaced p.blockPool ⟨prev, false, 0, [], block⟩ hi
  have hbelow : ∀ d ≤ i, ∀ j, node (p.blockPool.modify (i + 1) (· ++ [⟨prev, false, 0, [], block⟩])) d j =
      node p.blockPool d j := fun d hd j => node_modify_other _ _ (by omega) j
  rw [Pool.layerOf, if_neg (Nat.succ_ne_zero i), getBlockLayer, if_neg hid, hfind]
  simp only
  rw [Pool.layerUp, Int.toNat_natCast, hnode]
  simp only [if_true, layerUp_congr env _ hbelow]
  split
  · rfl
  · cases Pool.layerUp env p.blockPool (block.getBlockIdB64 env) i prev with
    | error e => rfl
    | ok r => cases r <;> rfl

/-- The ancestors of a new entry have other ids. -/
theorem FirstId.filter_idsOf {p : Pool} {i : Nat} {block : Block} (h : p.FirstId i block) {q : Int}
    {anc : List UnresolvedBlock} (hanc : p.Hung i q anc) :
    (idsOf env anc).filter (· ≠ block.getBlockIdB64 env) = idsOf env anc := by
  refine List.filter_eq_self.mpr fun x hx => decide_eq_true ?_
  obtain ⟨e, he, rfl⟩ := List.mem_map.mp hx
  obtain ⟨d, hd, j, hn⟩ := node_of_hung hanc e he
  exact h.ne hd.le (mem_bin_of_node hn)

/-- The layer of a new block: its ancestors if it hangs on the last block, nothing
if it does not. -/
theorem Ok.layerOf {p : Pool} (h : p.Ok) {i : Nat} {prev : Int} {block : Block} {ids : List Bytes}
    (hi : i < p.blockPool.length) (hprev : p.prevQueueIdx i block = some prev) (hnew : i ≠ 0 → p.FirstId i block)
    (hl : Pool.layerOf env (p.blockPool.modify i (· ++ [⟨prev, false, 0, [], block⟩])) i block = .ok ids) :
    (∃ anc, p.Hung i prev anc ∧ ids = idsOf env anc) ∨ ((¬ ∃ anc, p.Hung i prev anc) ∧ ids = [] ∧ i ≠ 0) := by
  cases i with
  | zero =>
    simp only [prevQueueIdx] at hprev
    split at hprev
    · cases hprev
      cases hl
      exact Or.inl ⟨[], ⟨rfl, rfl⟩, rfl⟩
    · cases hprev
  | succ i =>
    replace hnew := hnew (Nat.succ_ne_zero i)
    replace hprev : linkIndex (p.bin i) block = prev := Option.some.inj hprev
    rw [layerOf_emplaced hi hnew] at hl
    rcases linkIndex_nonneg_or (p.bin i) block with ⟨k, hk⟩ | hneg
    · obtain rfl : prev = k := hprev.symm.trans hk
      obtain ⟨a, ha, _⟩ := (linkIndex_eq_natCast (WellLinked.nodup_hash h i)).mp hk
      replace ha : node p.blockPool i k = some a := ha
      rw [if_neg (by omega)] at hl
      rcases h.layerUp env (block.getBlockIdB64 env) ha with ⟨anc, hanc, hup⟩ | ⟨hnone, hup⟩
      · have hhung : p.Hung (i + 1) k (a :: anc) := ⟨k, a, anc, rfl, ha, rfl, hanc⟩
        rw [hup, hnew.filter_idsOf hhung] at hl
        exact Or.inl ⟨a :: anc, hhung, (Except.ok.inj hl).symm⟩
      · rw [hup] at hl
        refine Or.inr ⟨?_, (Except.ok.inj hl).symm, Nat.succ_ne_zero i⟩
        rintro ⟨anc, j, a', up, hj, ha', rfl, hup'⟩
        obtain rfl : k = j := Int.ofNat.inj hj
        obtain rfl : a = a' := Option.some.inj (ha.symm.trans ha')
        exact hnone ⟨up, hup'⟩
    · obtain rfl : prev = -1 := hprev.symm.trans hneg
      refine Or.inr ⟨?_, (Except.ok.inj hl).symm, Nat.succ_ne_zero i⟩
      rintro ⟨anc, j, a, up, hj, _⟩
      omega

/-- A push reports a block as linked exactly when it hangs on the last block, with
its ancestors as layer. -/
theorem Ok.linked_of_accepts {p p' : Pool} (h : p.Ok) {i : Nat} {prev : Int} {block : Block}
    {r : PushResult} {a : Accepted} (hi : i < p.blockPool.length)
    (hprev : p.prevQueueIdx i block = some prev) (hnew : i ≠ 0 → p.FirstId i block)
    (ha : Accepts env p i prev block r p' a) :
    (r.linked = true ∧ ∃ anc, p.Hung i prev anc ∧ r.blockLayer = idsOf env anc) ∨
      (r.linked = false ∧ r.blockLayer = [] ∧ ¬ ∃ anc, p.Hung i prev anc) := by
  have hresult : r.linked = (decide (i = 0) || !r.blockLayer.isEmpty) := by
    rw [ha.result]
  rcases h.layerOf hi hprev hnew ha.layer with ⟨anc, hanc, hids⟩ | ⟨hnone, hids, hi0⟩
  · left
    refine ⟨?_, anc, hanc, hids⟩
    cases i with
    | zero => simp [hresult]
    | succ i =>
      obtain ⟨j, a', up, _, _, rfl, _⟩ := hanc
      simp [hresult, hids, idsOf]
  · right
    exact ⟨by simp [hresult, hids, hi0], hids, hnone⟩

end Pool
end GruutMerger
