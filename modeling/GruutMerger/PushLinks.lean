import GruutMerger.Forwards
import GruutMerger.PoolRun
import GruutMerger.Rises

/-!
# What a push reports

A push finds the new block again by its id and walks up from there. If no block
up to its bin has the same id, the answer is the chain of its ancestors. The
blocks that were waiting for it are handed to the ledger with layers that leave
the new block out.
-/
namespace GruutMerger

open ByteText Forest Fallible

variable (env : Env)

/-- A block names another as the previous one, at whatever height. -/
def Names (t : Tip) (b : Block) : Prop := b.prevBlockId = t.id ∧ b.prevBlockHash = t.hash

namespace Pool

/-- Going from a block to the block it names leads through these blocks of the pool to the
last one. -/
def Leads (p : Pool) (bs : List Block) (b : Block) : Prop :=
  (∀ a ∈ bs, a ∈ blocksOf p.blockPool) ∧ Trail.Valid Block.tip Names p.tip (bs ++ [b])

/-- The block and those of the pool name blocks of the height below only. -/
def Stacked (p : Pool) (block : Block) : Prop :=
  ∀ b, b = block ∨ b ∈ blocksOf p.blockPool →
    (Names p.tip b → b.height = p.lastHeight + 1) ∧
      ∀ a ∈ blocksOf p.blockPool, Names a.tip b → b.height = a.height + 1

theorem linked_of_named {p : Pool} {block : Block} (hs : p.Stacked block) {t : Tip} {bs : List Block}
    (ht : ∀ b, b = block ∨ b ∈ blocksOf p.blockPool → Names t b → b.height = t.height + 1)
    (hin : ∀ a ∈ bs, a ∈ blocksOf p.blockPool) (h : Trail.Valid Block.tip Names t (bs ++ [block])) :
    Linked t (bs ++ [block]) := by
  induction bs generalizing t with
  | nil => exact ⟨⟨h.1.1, h.1.2, ht block (Or.inl rfl) h.1⟩, trivial⟩
  | cons a bs ih =>
    have ha := hin a (by simp)
    exact ⟨⟨h.1.1, h.1.2, ht a (Or.inr ha) h.1⟩,
      ih (fun b hb hn => (hs b hb).2 a ha hn) (fun c hc => hin c (by simp [hc])) h.2⟩

/-- With such heights these are the chains of the pool. -/
theorem Stacked.leads_iff {p : Pool} {block : Block} (hs : p.Stacked block) {bs : List Block} :
    p.Leads bs block ↔ p.Rises bs ∧ Follows (tipOf p.tip bs) block := by
  constructor
  · rintro ⟨hin, h⟩
    obtain ⟨hlinked, hfollows, _⟩ :=
      Trail.valid_append.mp (linked_of_named hs (fun b hb => (hs b hb).1) hin h)
    exact ⟨⟨hin, hlinked⟩, hfollows⟩
  · rintro ⟨hr, hf⟩
    refine ⟨hr.1, ?_⟩
    have hlinked : Linked p.tip (bs ++ [block]) := Trail.valid_append.mpr ⟨hr.2, hf, trivial⟩
    exact hlinked.mono fun t b h => ⟨h.1, h.2.1⟩

variable {env}

/-- An accepted block, its bin and its parent index. -/
theorem push_accepted {p p' : Pool} {now : Nat} {block : Block} {r : PushResult} {a : Accepted}
    (hw : p.NoWrap now block.height) (h : p.push env now block = .ok (r, p', some a)) :
    ∃ i prev, block.height = p.lastHeight + 1 + i ∧ (∀ e ∈ p.bin i, e.block.same block = false) ∧
      p.prevQueueIdx i block = some prev ∧ Accepts env (p.grow (i + 1)) i prev block r p' a := by
  rcases push_cases env h with ⟨hnone, _⟩ | ⟨hnone, _⟩ | ⟨i, prev, acc, hacc, hlt, hearly, hidx, hsame, hprev, ha⟩
  · cases hnone
  · cases hnone
  · obtain rfl := Option.some.inj hacc
    have hheight := hw.2.2.1
    rw [binIdx_of_lt hlt hheight (hw.lt_of_not_early hlt hearly)] at hidx
    exact ⟨i, prev, by omega, hsame, hprev, ha⟩

theorem rises_grow {p : Pool} {n : Nat} {bs : List Block} : (p.grow n).Rises bs ↔ p.Rises bs := by
  rw [Rises, Rises, blocksOf_grow]
  rfl

/-- A push reports a block as linked exactly when it is on top of a chain of the pool, with
the ids of that chain as layer. -/
theorem Ok.push_linked {p p' : Pool} {i : Nat} {prev : Int} {block : Block} {r : PushResult} {a : Accepted}
    (h : p.Ok) (hheight : block.height = p.lastHeight + 1 + i) (hprev : p.prevQueueIdx i block = some prev)
    (hid : i ≠ 0 → p.FirstId i block) (ha : Accepts env (p.grow (i + 1)) i prev block r p' a) :
    (r.linked = true ∧ ∃ bs, p.Rises bs ∧ Follows (tipOf p.tip bs) block ∧
      r.blockLayer = (bs.map (·.getBlockIdB64 env)).reverse) ∨
    (r.linked = false ∧ ¬ ∃ bs, p.Rises bs ∧ Follows (tipOf p.tip bs) block) := by
  have hgrown := h.grow (i + 1)
  rw [← prevQueueIdx_grow p (i + 1)] at hprev
  have hfirst : i ≠ 0 → (p.grow (i + 1)).FirstId i block := by
    intro hi
    refine ⟨(hid hi).1, fun d hd e he => ?_⟩
    rw [bin_grow] at he
    exact (hid hi).2 d hd e he
  rcases hgrown.linked_of_accepts (length_grow p (i + 1)) hprev hfirst ha with ⟨hl, anc, hanc, hids⟩ | ⟨hl, _, hnone⟩
  · obtain ⟨hr, hf⟩ := hgrown.rises_of_hung hprev hanc hheight
    refine Or.inl ⟨hl, _, rises_grow.mp hr, hf, ?_⟩
    rw [hids, idsOf, List.map_reverse, List.reverse_reverse, List.map_map]
    rfl
  · refine Or.inr ⟨hl, ?_⟩
    rintro ⟨bs, hr, hf⟩
    obtain rfl : i = bs.length := by
      have hb := hf.2.2
      rw [hr.2.height_tipOf, hheight] at hb
      simp only [tip] at hb
      omega
    obtain ⟨anc, hanc, _⟩ := hgrown.hung_of_rises (rises_grow.mpr hr) hf hprev
    exact hnone ⟨anc, hanc⟩

end Pool

namespace Pool

/-- The first block of the pool that has the id of a new one, up to its height. -/
def firstWithId (p : Pool) (block : Block) : Option Block :=
  (blocksOf p.blockPool).find? fun b => decide (b.blockId = block.blockId ∧ b.height ≤ block.height)

/-- What a push goes by: the chain below the first block with the id of the new one, one height
after the other. A block right above the last one is not looked up, and one without an id is not
found. -/
def Shows (p : Pool) (bs : List Block) (block : Block) : Prop :=
  if block.height = p.lastHeight + 1 then bs = []
  else block.blockId ≠ [] ∧ bs ≠ [] ∧ p.Rises bs ∧ Follows (tipOf p.tip bs) ((p.firstWithId block).getD block)

variable {env}

theorem firstId_of_none {p : Pool} (h : p.Ok) {i : Nat} {block : Block} (hheight : block.height = p.lastHeight + 1 + i)
    (hid : block.blockId ≠ []) (hx : p.firstWithId block = none) : p.FirstId i block := by
  refine ⟨hid, fun d hd e he heq => ?_⟩
  have hnot := List.find?_eq_none.mp hx e.block (mem_blocksOf.mpr ⟨d, e, he, rfl⟩)
  have hle := h.height_of_mem he
  exact hnot (decide_eq_true ⟨heq, by omega⟩)

/-- In a bin of the heights up to a block's, the id decides. -/
theorem find?_bin (env : Env) {bin : Bin} {block : Block} (hle : ∀ e ∈ bin, e.block.height ≤ block.height) :
    (bin.map (·.block)).find? (fun b => decide (b.blockId = block.blockId ∧ b.height ≤ block.height)) =
      (bin.find? fun e => decide (e.block.getBlockIdB64 env = block.getBlockIdB64 env)).map (·.block) := by
  induction bin with
  | nil => rfl
  | cons e bin ih =>
    have hid : e.block.getBlockIdB64 env = block.getBlockIdB64 env ↔ e.block.blockId = block.blockId :=
      env.base64.encode_injective.eq_iff
    have hhead : decide (e.block.blockId = block.blockId ∧ e.block.height ≤ block.height) =
        decide (e.block.getBlockIdB64 env = block.getBlockIdB64 env) := by simp [hid, hle e]
    rw [List.map_cons, List.find?_cons, List.find?_cons, hhead, ih fun a ha => hle a (List.mem_cons_of_mem _ ha)]
    split <;> rfl

/-- A new entry is looked up as the first block with its id, if there is one up to its bin. -/
theorem findBlock_first (env : Env) {bins : List Bin} {x : UnresolvedBlock} {base i : Nat} (hi : i < bins.length)
    (hbins : ∀ d, ∀ e ∈ bins.getD d [], e.block.height = base + d) (hx : x.block.height = base + i) {b : Block}
    (hb : (blocksOf bins).find? (fun b => decide (b.blockId = x.block.blockId ∧ b.height ≤ x.block.height)) = some b) :
    ∃ d j e, findBlock env (x.block.getBlockIdB64 env) (bins.modify i (· ++ [x])) = some (d, j) ∧ d ≤ i ∧
      node bins d j = some e ∧ e.block = b ∧ ∀ d' < d, ∀ a ∈ bins.getD d' [], a.block.blockId ≠ x.block.blockId := by
  induction bins generalizing base i with
  | nil => simp at hi
  | cons bin rest ih =>
    have hbin : ∀ e ∈ bin, e.block.height = base := hbins 0
    have hrest : ∀ d, ∀ e ∈ rest.getD d [], e.block.height = base + 1 + d := fun d e he => by
      rw [hbins (d + 1) e he]
      omega
    rw [blocksOf_eq, List.map_cons, List.flatten_cons, ← blocksOf_eq, List.find?_append,
      find?_bin env fun e he => by rw [hbin e he]; omega] at hb
    cases hfind : bin.findIdx? fun e => decide (e.block.getBlockIdB64 env = x.block.getBlockIdB64 env) with
    | some j =>
      obtain ⟨hj, hat, hbefore⟩ := List.findIdx?_eq_some_iff_getElem.mp hfind
      have hsome : bin.find? (fun e => decide (e.block.getBlockIdB64 env = x.block.getBlockIdB64 env)) = some bin[j] :=
        List.find?_eq_some_iff_getElem.mpr ⟨hat, j, hj, rfl, fun k hk => by simpa using hbefore k hk⟩
      rw [hsome, Option.map_some, Option.some_or] at hb
      refine ⟨0, j, bin[j], ?_, Nat.zero_le i, List.getElem?_eq_getElem hj, Option.some.inj hb, by simp⟩
      cases i with
      | zero => simp only [List.modify_zero_cons, findBlock, List.findIdx?_append, hfind, Option.some_or]
      | succ i => simp only [List.modify_succ_cons, findBlock, hfind]
    | none =>
      have hnone := List.findIdx?_eq_none_iff.mp hfind
      rw [List.find?_eq_none.mpr fun e he => by simpa using hnone e he, Option.map_none, Option.none_or] at hb
      cases i with
      | zero =>
        -- what comes after the bin is higher
        obtain ⟨d, e, he, rfl⟩ := mem_blocksOf.mp (List.mem_of_find?_eq_some hb)
        have hfound := List.find?_some hb
        have hle := (of_decide_eq_true hfound).2
        rw [hrest d e he] at hle
        omega
      | succ i =>
        obtain ⟨d, j, e, hfound, hd, hn, he, hfirst⟩ := ih (by simpa using hi) hrest (by omega) hb
        refine ⟨d + 1, j, e, ?_, by omega, hn, he, fun d' hd' a ha => ?_⟩
        · simp only [List.modify_succ_cons, findBlock, hfind, hfound, Option.map_some]
        · cases d' with
          | zero => exact fun heq => by simpa [Block.getBlockIdB64, heq] using hnone a ha
          | succ d' => exact hfirst d' (by omega) a ha

/-- A way up is the same where the bins have more. -/
theorem layerUp_mono {a b : List Bin} {own : Bytes} {i : Nat} {q : Int} {r : Option (List Bytes)}
    (h : ∀ d j e, node a d j = some e → node b d j = some e) (ha : Pool.layerUp env a own i q = .ok r) :
    Pool.layerUp env b own i q = .ok r := by
  induction i generalizing q r with
  | zero =>
    rw [Pool.layerUp] at ha ⊢
    cases hn : node a 0 q.toNat with
    | none => simp [hn] at ha
    | some e =>
      rw [hn] at ha
      rw [h _ _ _ hn]
      exact ha
  | succ i ih =>
    rw [Pool.layerUp] at ha ⊢
    cases hn : node a (i + 1) q.toNat with
    | none => simp [hn] at ha
    | some e =>
      rw [hn] at ha
      rw [h _ _ _ hn]
      simp only at ha ⊢
      by_cases hneg : e.prevVectorIdx < 0
      · rw [if_pos hneg] at ha ⊢
        exact ha
      · rw [if_neg hneg] at ha ⊢
        obtain ⟨up, hup, rfl⟩ := map_eq_ok.mp ha
        rw [ih hup]
        rfl

/-- The ids below the first block that has one are others. -/
theorem idsOf_of_first (env : Env) {p : Pool} {anc : List UnresolvedBlock} {d : Nat} {q : Int} {block : Block}
    (hanc : p.Hung d q anc) (hfirst : ∀ d' < d, ∀ a ∈ p.blockPool.getD d' [], a.block.blockId ≠ block.blockId) :
    (idsOf env anc).filter (· ≠ block.getBlockIdB64 env) = idsOf env anc := by
  refine List.filter_eq_self.mpr fun id hmem => decide_eq_true ?_
  obtain ⟨a, ha, rfl⟩ := List.mem_map.mp hmem
  obtain ⟨d', hd', j', hn'⟩ := node_of_hung hanc a ha
  exact fun heq => hfirst d' hd' a (mem_bin_of_node hn') (env.base64.encode_injective heq)

/-- The layer of a new block that is taken for an older one: the ancestors of that one. -/
theorem Ok.layerOf_first {p : Pool} (h : p.Ok) {i : Nat} {prev : Int} {block b : Block} (hi : i < p.blockPool.length)
    (hi0 : i ≠ 0) (hheight : block.height = p.lastHeight + 1 + i) (hid : block.blockId ≠ [])
    (hb : p.firstWithId block = some b) {ids : List Bytes}
    (hl : Pool.layerOf env (p.blockPool.modify i (· ++ [⟨prev, false, 0, [], block⟩])) i block = .ok ids) :
    (∃ bs, p.Rises bs ∧ Follows (tipOf p.tip bs) b ∧ ids = (bs.map (·.getBlockIdB64 env)).reverse) ∨
      (ids = [] ∧ ¬∃ bs, p.Rises bs ∧ Follows (tipOf p.tip bs) b) := by
  obtain ⟨d, j, e, hfound, _, hn, rfl, hfirst⟩ := findBlock_first env (x := ⟨prev, false, 0, [], block⟩) hi
    (fun d e he => h.height_of_mem he) hheight hb
  have hown : e.block.getBlockIdB64 env = block.getBlockIdB64 env := by
    have hfound := List.find?_some hb
    exact congrArg env.base64.encode (of_decide_eq_true hfound).1
  have hheight' := h.height_of_mem (mem_bin_of_node hn)
  rw [Pool.layerOf, if_neg hi0, getBlockLayer, if_neg (Block.getBlockIdB64_ne env hid), hfound] at hl
  simp only at hl
  rcases h.layerUp env (block.getBlockIdB64 env) hn with ⟨anc, hanc, hup⟩ | ⟨hnone, hup⟩
  · have hindex := h.prevQueueIdx_of_node hn fun hzero => by
      subst hzero
      have hroot := WellLinked.root_of_mem h (mem_bin_of_node hn)
      by_contra hlast
      rw [rootIndex, if_neg hlast] at hroot
      have hzero := hanc.1
      omega
    obtain ⟨hr, hf⟩ := h.rises_of_hung hindex hanc hheight'
    refine Or.inl ⟨_, hr, hf, ?_⟩
    rw [layerUp_mono (fun _ _ _ ha => node_emplaced_mono ha _) hup] at hl
    rw [idsOf_cons, List.filter_cons_of_neg (by simp [hown]), idsOf_of_first env hanc hfirst] at hl
    rw [← Except.ok.inj hl, List.map_reverse, List.reverse_reverse, List.map_map]
    rfl
  · rw [layerUp_mono (fun _ _ _ ha => node_emplaced_mono ha _) hup] at hl
    refine Or.inr ⟨(Except.ok.inj hl).symm, ?_⟩
    rintro ⟨bs, hr, hf⟩
    obtain rfl : d = bs.length := by
      have htop := hf.2.2
      rw [hr.2.height_tipOf] at htop
      simp only [tip] at htop
      omega
    obtain ⟨anc, hanc, _⟩ := h.hung_of_rises hr hf (h.prevQueueIdx_of_node hn fun hzero => by
      obtain rfl := List.length_eq_zero_iff.mp hzero
      exact Follows.namesLast hf)
    exact hnone ⟨anc, hanc⟩

/-- A push reports what it goes by. -/
theorem Ok.push_shows {p p' : Pool} {i : Nat} {prev : Int} {block : Block} {r : PushResult} {a : Accepted}
    (h : p.Ok) (hheight : block.height = p.lastHeight + 1 + i) (hprev : p.prevQueueIdx i block = some prev)
    (ha : Accepts env (p.grow (i + 1)) i prev block r p' a) :
    (r.linked = true ∧ ∃ bs, p.Shows bs block ∧ r.blockLayer = (bs.map (·.getBlockIdB64 env)).reverse) ∨
      (r.linked = false ∧ ¬∃ bs, p.Shows bs block) := by
  have hresult : r.linked = (decide (i = 0) || !r.blockLayer.isEmpty) := by rw [ha.result]
  by_cases hi0 : i = 0
  · subst hi0
    exact Or.inl ⟨by simp [hresult], [], by rw [Shows, if_pos hheight], (Except.ok.inj ha.layer).symm⟩
  have hshows (bs : List Block) : p.Shows bs block ↔ block.blockId ≠ [] ∧ bs ≠ [] ∧ p.Rises bs ∧
      Follows (tipOf p.tip bs) ((p.firstWithId block).getD block) := by rw [Shows, if_neg (by omega)]
  simp only [hshows]
  by_cases hid : block.blockId = []
  · have hlayer : r.blockLayer = [] := by
      have hl := ha.layer
      have hempty : block.getBlockIdB64 env = [] := (env.base64.encode_eq_nil _).mpr hid
      rw [Pool.layerOf, if_neg hi0, getBlockLayer, if_pos hempty] at hl
      exact (Except.ok.inj hl).symm
    exact Or.inr ⟨by simp [hresult, hi0, hlayer], by simp [hid]⟩
  cases hx : p.firstWithId block with
  | none =>
    rcases h.push_linked hheight hprev (fun _ => firstId_of_none h hheight hid hx) ha with
      ⟨hl, bs, hr, hf, hlayer⟩ | ⟨hl, hnone⟩
    · refine Or.inl ⟨hl, bs, ⟨hid, ?_, hr, hf⟩, hlayer⟩
      rintro rfl
      have htop : block.height = p.lastHeight + 1 := hf.2.2
      omega
    · refine Or.inr ⟨hl, ?_⟩
      rintro ⟨bs, _, _, hr, hf⟩
      exact hnone ⟨bs, hr, hf⟩
  | some b =>
    have hgrown := h.grow (i + 1)
    rcases hgrown.layerOf_first (length_grow p (i + 1)) hi0 hheight hid
      (by rw [firstWithId, blocksOf_grow]; exact hx) ha.layer with ⟨bs, hr, hf, hlayer⟩ | ⟨hlayer, hnone⟩
    · by_cases hbs : bs = []
      · refine Or.inr ⟨by simp [hresult, hi0, hlayer, hbs], ?_⟩
        rintro ⟨bs', _, hne, hr', hf'⟩
        exact hne (h.rises_unique hr' hf' (rises_grow.mp hr) hf ▸ hbs)
      · exact Or.inl ⟨by simp [hresult, hlayer, hbs], bs, ⟨hid, hbs, rises_grow.mp hr, hf⟩, hlayer⟩
    · refine Or.inr ⟨by simp [hresult, hi0, hlayer], ?_⟩
      rintro ⟨bs, _, _, hr, hf⟩
      exact hnone ⟨bs, rises_grow.mpr hr, hf⟩

theorem Ok.shows_unique {p : Pool} (h : p.Ok) {as bs : List Block} {block : Block} (ha : p.Shows as block)
    (hb : p.Shows bs block) : as = bs := by
  unfold Shows at ha hb
  split at ha
  · rename_i hheight
    rw [if_pos hheight] at hb
    rw [ha, hb]
  · rename_i hheight
    rw [if_neg hheight] at hb
    exact h.rises_unique ha.2.2.1 ha.2.2.2 hb.2.2.1 hb.2.2.2

/-- Where no other block has the id, and blocks name blocks of the height below only, a push goes
by the blocks that lead to the last one. -/
theorem Stacked.shows_iff {p : Pool} {block : Block} (hs : p.Stacked block)
    (hlast : block.height = p.lastHeight + 1 → Names p.tip block)
    (hid : block.height ≠ p.lastHeight + 1 → block.blockId ≠ [] ∧ p.firstWithId block = none) {bs : List Block} :
    p.Shows bs block ↔ p.Leads bs block := by
  rw [hs.leads_iff, Shows]
  split
  · rename_i hheight
    constructor
    · rintro rfl
      exact ⟨⟨by simp, trivial⟩, (hlast hheight).1, (hlast hheight).2, hheight⟩
    · rintro ⟨hr, hf⟩
      have htop := hf.2.2
      rw [hr.2.height_tipOf] at htop
      simp only [tip] at htop
      exact List.length_eq_zero_iff.mp (by omega)
  · rename_i hheight
    obtain ⟨hne, hnone⟩ := hid hheight
    rw [hnone]
    refine ⟨fun h => h.2.2, fun h => ⟨hne, ?_, h⟩⟩
    rintro rfl
    exact hheight h.2.2.2

end Pool

/-- A push tells whether the blocks that a block names lead to the last one, and which they are,
exactly when the chain it goes by leads there too, through blocks with the same ids. -/
theorem ChainState.push_reports_linkage {c : ChainState} (h : Reachable env c) {now : Nat} {block : Block}
    {r : PushResult} {p' : Pool} {a : Pool.Accepted} (hw : c.pool.NoWrap now block.height)
    (hp : c.pool.push env now block = .ok (r, p', some a)) :
    ((r.linked = true ↔ ∃ bs, c.pool.Leads bs block) ∧
      ∀ bs, c.pool.Leads bs block → r.blockLayer = (bs.map (·.getBlockIdB64 env)).reverse) ↔
    ((∃ bs, c.pool.Shows bs block) ↔ ∃ bs, c.pool.Leads bs block) ∧
      ∀ as bs, c.pool.Shows as block → c.pool.Leads bs block → as.map (·.blockId) = bs.map (·.blockId) := by
  obtain ⟨i, prev, hheight, _, hprev, ha⟩ := Pool.push_accepted hw hp
  have hids {as bs : List Block} : (as.map (·.getBlockIdB64 env)).reverse = (bs.map (·.getBlockIdB64 env)).reverse ↔
      as.map (·.blockId) = bs.map (·.blockId) := by
    have hencode (cs : List Block) : cs.map (·.getBlockIdB64 env) = (cs.map (·.blockId)).map env.base64.encode := by
      rw [List.map_map]
      rfl
    rw [List.reverse_inj, hencode, hencode, (List.map_injective_iff.mpr env.base64.encode_injective).eq_iff]
  rcases h.ok.push_shows hheight hprev ha with ⟨hl, as, hshows, hlayer⟩ | ⟨hl, hnone⟩
  · have hsome : ∃ bs, c.pool.Shows bs block := ⟨as, hshows⟩
    have hone {as' : List Block} (has' : c.pool.Shows as' block) : as' = as := h.ok.shows_unique has' hshows
    simp only [hl, hlayer, hids, true_iff, hsome]
    refine and_congr_right fun _ => ⟨fun hall as' bs has' hbs => ?_, fun hall bs hbs => hall as bs hshows hbs⟩
    rw [hone has']
    exact hall bs hbs
  · simp only [hl, Bool.false_eq_true, false_iff, hnone]
    refine and_congr_right fun hleads => iff_of_true (fun bs hbs => absurd ⟨bs, hbs⟩ hleads) ?_
    exact fun as _ has => absurd ⟨as, has⟩ hnone

/-- A block that leads to the last one names it or a block of the pool. -/
theorem Pool.Leads.named {p : Pool} {bs : List Block} {b : Block} (h : p.Leads bs b) :
    Names p.tip b ∨ ∃ a ∈ Pool.blocksOf p.blockPool, Names a.tip b := by
  have hb := (Trail.valid_append.mp h.2).2.1
  rcases List.eq_nil_or_concat bs with rfl | ⟨init, a, rfl⟩
  · exact Or.inl hb
  · rw [List.concat_eq_append] at hb h
    rw [Trail.finish_concat] at hb
    exact Or.inr ⟨a, h.1 a (by simp), hb⟩

namespace Sample

instance (t : Tip) (b : Block) : Decidable (Names t b) := inferInstanceAs (Decidable (_ ∧ _))

/-- The push of a row after some others, by evaluation. -/
theorem push_after (rows : List Row) (order : List Nat) (k : Nat) (x : Row)
    (test : ChainState → PushResult → Pool → Pool.Accepted → Bool) (hg : Good rows) (hk : rows[k]? = some x)
    (hrun : okAnd (fun c : ChainState => okAnd (fun y => y.2.2.any (test c y.1 y.2.1))
        (c.pool.push (world rows) 1000 (x.block k)))
      (pushAll rows 1000 order initial.chain) = true) :
    ∃ c r p' a, ChainState.Reachable (world rows) c ∧ c.pool.NoWrap 1000 (x.block k).height ∧
      c.pool.push (world rows) 1000 (x.block k) = .ok (r, p', some a) ∧ test c r p' a = true := by
  obtain ⟨c, hc, hpush⟩ := okAnd_eq_true.mp hrun
  obtain ⟨⟨r, p', accepted⟩, hp, htest⟩ := okAnd_eq_true.mp hpush
  cases accepted with
  | none => cases htest
  | some a =>
    have htime : c.pool.lastTime ≤ 1000 := by
      refine pushAll_invariant (P := fun c => c.pool.lastTime ≤ 1000) hg (by decide) (fun hs _ hp => ?_) (by decide)
        (by decide) hc
      obtain ⟨_, hpool, _⟩ := (ChainState.push_eq_ok _).mp hp
      rwa [(Pool.sameLast_push _ hpool).2.2.2]
    exact ⟨c, r, p', a,
      reachable_pushAll hg (by decide) (by decide) (.setPool ⟨Storage.empty, [], []⟩ _ [] _ _ _ _) hc,
      noWrap_row hg hk (by decide) htime, hp, htest⟩

/-- Two blocks of one height with the same id. The second names a block that is not there. -/
def sameIdRows : List Row :=
  [⟨[1], genesisBlockPrevId base, genesisBlockPrevHash base, 1, [good 1], [digestTx]⟩,
   ⟨[2], [1], hashOf 0, 2, [good 1], [digestTx]⟩,
   ⟨[2], [9], [9], 2, [good 1], [digestTx]⟩]

end Sample

/-- The second block of a chain after the first. -/
theorem ChainState.push_reports_linkage_second : ∃ c block r p' a,
    Reachable (Sample.world Sample.sameIdRows) c ∧ c.pool.NoWrap 1000 block.height ∧
    c.pool.push (Sample.world Sample.sameIdRows) 1000 block = .ok (r, p', some a) ∧ r.linked = true ∧
    ∃ bs, c.pool.Leads bs block ∧
      r.blockLayer = (bs.map (·.getBlockIdB64 (Sample.world Sample.sameIdRows))).reverse := by
  let x : Sample.Row := ⟨[2], [1], Sample.hashOf 0, 2, [Sample.good 1], [Sample.digestTx]⟩
  obtain ⟨c, r, p', a, hreach, hw, hp, htest⟩ := Sample.push_after Sample.sameIdRows [0] 1 x
    (fun c r _ _ => decide (c.pool.lastHeight = 0) && r.linked &&
      ((x.block 1 :: Pool.blocksOf c.pool.blockPool).all fun b =>
        decide (Names c.pool.tip b → b.height = c.pool.lastHeight + 1) &&
        (Pool.blocksOf c.pool.blockPool).all fun a => decide (Names a.tip b → b.height = a.height + 1)) &&
      (Pool.blocksOf c.pool.blockPool).all fun b => decide (b.blockId ≠ (x.block 1).blockId))
    (by decide +kernel) rfl (by decide +kernel)
  simp only [Bool.and_eq_true, List.all_eq_true, decide_eq_true_eq, List.mem_cons] at htest
  obtain ⟨⟨⟨hlast, hlinked⟩, hstack⟩, hids⟩ := htest
  have hshows (bs : List Block) : c.pool.Shows bs (x.block 1) ↔ c.pool.Leads bs (x.block 1) := by
    refine Pool.Stacked.shows_iff (fun b hb => hstack b hb) (fun hheight => ?_) fun _ => ⟨by decide, ?_⟩
    · exact absurd hheight (by rw [hlast]; decide)
    · exact List.find?_eq_none.mpr fun b hb hfound => hids b hb (of_decide_eq_true hfound).1
  obtain ⟨hiff, hlayer⟩ := (ChainState.push_reports_linkage _ hreach hw hp).mpr ⟨by simp only [hshows],
    fun as bs has hbs => by rw [hreach.ok.shows_unique has ((hshows bs).mpr hbs)]⟩
  obtain ⟨bs, hbs⟩ := hiff.mp hlinked
  exact ⟨c, x.block 1, r, p', a, hreach, hw, hp, hlinked, bs, hbs, hlayer bs hbs⟩

/-- A block whose parent is missing is reported as linked, with the ancestors of another
block that has the same id. -/
theorem ChainState.push_reports_other : ∃ c block r p' a,
    Reachable (Sample.world Sample.sameIdRows) c ∧ c.pool.NoWrap 1000 block.height ∧
    c.pool.push (Sample.world Sample.sameIdRows) 1000 block = .ok (r, p', some a) ∧ r.linked = true ∧
    ¬ ∃ bs, c.pool.Leads bs block := by
  let x : Sample.Row := ⟨[2], [9], [9], 2, [Sample.good 1], [Sample.digestTx]⟩
  obtain ⟨c, r, p', a, hreach, hw, hp, htest⟩ := Sample.push_after Sample.sameIdRows [0, 1] 2 x
    (fun c r _ _ => r.linked && !decide (Names c.pool.tip (x.block 2)) &&
      (Pool.blocksOf c.pool.blockPool).all fun a => !decide (Names a.tip (x.block 2)))
    (by decide +kernel) rfl (by decide +kernel)
  simp only [Bool.and_eq_true, List.all_eq_true, Bool.not_eq_true', decide_eq_false_iff_not] at htest
  refine ⟨c, x.block 2, r, p', a, hreach, hw, hp, htest.1.1, ?_⟩
  rintro ⟨bs, hbs⟩
  rcases hbs.named with hn | ⟨b, hb, hn⟩
  · exact htest.1.2 hn
  · exact htest.2 b hb hn

end GruutMerger
