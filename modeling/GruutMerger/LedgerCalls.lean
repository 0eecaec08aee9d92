import GruutMerger.PushLinks

/-!
# The ledger calls of a push, by blocks

A linked block and everything that waited for it goes to the ledger: exactly the
blocks whose chain goes through the new one, in the order of a depth-first walk.
The layers of the waiting blocks leave the new block out.
-/
namespace GruutMerger

open ByteText Forest Fallible

variable (env : Env)

namespace Pool

variable {env}

theorem findBlock_some {bins : List Bin} {id : Bytes} {d j : Nat} (h : findBlock env id bins = some (d, j)) :
    ∃ e, node bins d j = some e ∧ e.block.getBlockIdB64 env = id := by
  induction bins generalizing d with
  | nil => cases h
  | cons bin rest ih =>
    unfold findBlock at h
    split at h
    · rename_i k hk
      obtain ⟨rfl, rfl⟩ := Prod.mk.inj (Option.some.inj h)
      obtain ⟨hlt, hid, _⟩ := List.findIdx?_eq_some_iff_getElem.mp hk
      exact ⟨bin[k], by simp, of_decide_eq_true hid⟩
    · obtain ⟨⟨d', k⟩, hk, heq⟩ := Option.map_eq_some_iff.mp h
      obtain ⟨rfl, rfl⟩ := Prod.mk.inj heq
      obtain ⟨e, he, hid⟩ := ih hk
      exact ⟨e, by simpa using he, hid⟩

theorem findBlock_none {bins : List Bin} {id : Bytes} (h : findBlock env id bins = none) {d j : Nat}
    {e : UnresolvedBlock} (hn : node bins d j = some e) : e.block.getBlockIdB64 env ≠ id := by
  induction bins generalizing d with
  | nil => simp at hn
  | cons bin rest ih =>
    unfold findBlock at h
    split at h
    · cases h
    · rename_i hbin
      cases d with
      | zero =>
        rw [node_cons_zero] at hn
        simpa using List.findIdx?_eq_none_iff.mp hbin e (List.mem_of_getElem? hn)
      | succ d => exact ih (Option.map_eq_none_iff.mp h) (by simpa using hn)

/-- A block is found at its place when ids differ. -/
theorem IdsDiffer.findBlock {bins : List Bin} (h : IdsDiffer bins) {d j : Nat} {e : UnresolvedBlock}
    (hn : node bins d j = some e) : Pool.findBlock env (e.block.getBlockIdB64 env) bins = some (d, j) := by
  cases hf : Pool.findBlock env (e.block.getBlockIdB64 env) bins with
  | none => exact absurd rfl (findBlock_none hf hn)
  | some pos =>
    obtain ⟨d', j'⟩ := pos
    obtain ⟨e', hn', hid⟩ := findBlock_some hf
    obtain ⟨rfl, rfl⟩ := h.place hn' hn (env.base64.encode_injective hid)
    rfl

/-- The layer that `getBlockLayer` computes is the chain below the block. -/
theorem Ok.getBlockLayer {p : Pool} (h : p.Ok) (hids : IdsDiffer p.blockPool) {bs : List Block} {b : Block}
    (hr : p.Rises (bs ++ [b])) (hne : b.blockId ≠ []) :
    Pool.getBlockLayer env p.blockPool (b.getBlockIdB64 env) = .ok (bs.map (·.getBlockIdB64 env)).reverse := by
  obtain ⟨d, j, e, hn, rfl, hheight⟩ := h.node_of_mem (hr.1 b (by simp))
  have hid : e.block.getBlockIdB64 env ≠ [] := Block.getBlockIdB64_ne env hne
  obtain rfl : d = bs.length := by
    have := hr.height
    omega
  have hindex := h.prevQueueIdx_of_node hn fun hzero => by
    obtain rfl := List.length_eq_zero_iff.mp hzero
    exact Follows.namesLast hr.follows
  obtain ⟨anc, hanc, hblocks⟩ := h.hung_of_rises hr.init hr.follows hindex
  rw [Pool.getBlockLayer, if_neg hid, hids.findBlock hn]
  simp only
  rcases h.layerUp env (e.block.getBlockIdB64 env) hn with ⟨anc', hanc', hup⟩ | ⟨hnone, _⟩
  · obtain rfl := hanc.unique hanc'
    have hall : ∀ x ∈ idsOf env anc, x ≠ e.block.getBlockIdB64 env := by
      intro x hx heq
      obtain ⟨a, ha, rfl⟩ := List.mem_map.mp hx
      obtain ⟨d', hlt, j', hn'⟩ := node_of_hung hanc a ha
      obtain ⟨hd, _⟩ := hids.place hn' hn (env.base64.encode_injective heq)
      omega
    have hfilter : (idsOf env (e :: anc)).filter (· ≠ e.block.getBlockIdB64 env) = idsOf env anc := by
      rw [idsOf_cons, List.filter_cons_of_neg (by simp), List.filter_eq_self]
      exact fun x hx => decide_eq_true (hall x hx)
    rw [hup, hfilter, ← List.map_reverse, ← hblocks, List.map_map]
    rfl
  · exact absurd ⟨anc, hanc⟩ hnone

theorem preorder_congr {a b : List Bin} (h : skeleton a = skeleton b) (k : Nat) :
    (preorder UnresolvedBlock.prevVectorIdx a k).map (fun t => (t.1, t.2.1, t.2.2.block)) =
      (preorder UnresolvedBlock.prevVectorIdx b k).map fun t => (t.1, t.2.1, t.2.2.block) := by
  have hskel : ∀ bins : List Bin, (preorder UnresolvedBlock.prevVectorIdx bins k).map
      (fun t => (t.1, t.2.1, t.2.2.block)) =
      (preorder Prod.fst (skeleton bins) k).map fun t => (t.1, t.2.1, t.2.2.2) := by
    intro bins
    have hpar : ∀ e : UnresolvedBlock, Prod.fst (skel e) = e.prevVectorIdx := fun _ => rfl
    rw [skeleton, preorder_map hpar, List.map_map]
    rfl
  rw [hskel, hskel, h]

/-- The ledger calls for a linked block: itself, then what hangs on it, in the order of a
depth-first walk. -/
structure Calls (env : Env) (p : Pool) (block : Block) (layer : List Bytes) (i j : Nat) (rest : List Forward) :
    Prop where
  place : ∃ x, node p.blockPool i j = some x ∧ x.block = block
  grows : Grows env layer [] rest
  order : rest.map Forward.place = (preorder UnresolvedBlock.prevVectorIdx (p.blockPool.drop (i + 1)) j).map
    fun t => (t.1 + (i + 1), t.2.1, t.2.2.block)

theorem Accepts.calls {p p' : Pool} {i : Nat} {prev : Int} {block : Block} {r : PushResult} {a : Accepted}
    (hi : i < p.blockPool.length) (ha : Accepts env p i prev block r p' a) (hl : r.linked = true) :
    ∃ rest, a.forwards = ⟨i, (p.bin i).length, r.blockLayer, block⟩ :: rest ∧
      Calls env p' block r.blockLayer i (p.bin i).length rest := by
  obtain ⟨hskel, hforwards⟩ := ha.inserted
  rw [hl, if_pos rfl] at hforwards
  refine ⟨_, hforwards, ⟨?_, grows_relevel (· + (i + 1)) (grows_forwardRec _ _ _), ?_⟩⟩
  · rw [hl] at hskel
    obtain ⟨e, he, hblock⟩ := node_of_skeleton hskel (node_inserted_self hi _)
    exact ⟨e, he, congrArg Prod.snd hblock⟩
  · have hdrop := congrArg (List.drop (i + 1)) hskel
    simp only [skeleton, ← List.map_drop] at hdrop
    have hplaces := place_forwardRec env ((Pool.inserted p.blockPool i ⟨prev, true, 0, r.blockLayer, block⟩).drop (i + 1))
      (p.bin i).length r.blockLayer
    rw [hl] at hdrop
    rw [← preorder_congr hdrop] at hplaces
    have hlevels := congrArg (List.map fun x : Nat × Nat × Block => (x.1 + (i + 1), x.2)) hplaces
    simp only [List.map_map] at hlevels ⊢
    exact hlevels

/-- The blocks of the calls are those whose chain goes through the new one. -/
theorem Calls.mem_iff {p : Pool} {block : Block} {layer : List Bytes} {i j : Nat} {rest : List Forward}
    (h : Calls env p block layer i j rest) (hok : p.Ok) (hr : p.Rooted block) {b : Block} :
    (b = block ∨ ∃ f ∈ rest, f.block = b) ↔ ∃ bs, p.Rises (bs ++ [b]) ∧ block ∈ bs ++ [b] := by
  obtain ⟨x, hx, rfl⟩ := h.place
  rw [← hok.below_iff hx hr]
  refine or_congr_right ?_
  have hblocks := congrArg (List.map fun x : Nat × Nat × Block => x.2.2) h.order
  simp only [List.map_map, Function.comp_def, Forward.place] at hblocks
  have hmem := congrArg (b ∈ ·) hblocks
  simp only [List.mem_map, eq_iff_iff] at hmem
  rw [hmem]
  constructor
  · rintro ⟨⟨d, k, e⟩, ht, rfl⟩
    exact ⟨d, k, e, mem_preorder.mp ht, rfl⟩
  · rintro ⟨d, k, e, hc, rfl⟩
    exact ⟨(d, k, e), mem_preorder.mpr hc, rfl⟩

/-- The blocks that hang on the new one stand higher. -/
theorem Calls.height_lt {p : Pool} {block : Block} {layer : List Bytes} {i j : Nat} {rest : List Forward}
    (h : Calls env p block layer i j rest) (hok : p.Ok) {f : Forward} (hf : f ∈ rest) :
    f.block ∈ blocksOf p.blockPool ∧ block.height < f.block.height := by
  obtain ⟨x, hx, rfl⟩ := h.place
  have hplace : f.place ∈ rest.map Forward.place := List.mem_map_of_mem hf
  rw [h.order] at hplace
  obtain ⟨⟨d, k, e⟩, ht, heq⟩ := List.mem_map.mp hplace
  have hn := (mem_preorder.mp ht).node_eq
  rw [node_drop] at hn
  have hblock : e.block = f.block := congrArg (fun y : Nat × Nat × Block => y.2.2) heq
  have hx' := WellLinked.height_of_mem hok (mem_bin_of_node hx)
  have he := WellLinked.height_of_mem hok (mem_bin_of_node hn)
  rw [← hblock]
  exact ⟨mem_blocksOf_of_node hn, by omega⟩

/-- Two pools with the same last block have the same chains of blocks that are in both. -/
theorem Rises.transfer {p q : Pool} {bs : List Block} (h : p.Rises bs) (htip : q.tip = p.tip)
    (hin : ∀ b ∈ bs, b ∈ blocksOf p.blockPool → b ∈ blocksOf q.blockPool) : q.Rises bs :=
  ⟨fun b hb => hin b hb (h.1 b hb), htip ▸ h.2⟩

theorem Rises.height_lt {p : Pool} {bs : List Block} {a b : Block} (h : p.Rises (bs ++ [b])) (ha : a ∈ bs) :
    a.height < b.height := by
  have hle := h.init.2.height_le ha
  have hb := h.follows.2.2
  omega

/-- A push of a block with an id of its own, told by blocks. -/
theorem Ok.push_calls {p p' : Pool} {now : Nat} {block : Block} {r : PushResult} {a : Accepted} (h : p.Ok)
    (hw : p.NoWrap now block.height) (hp : p.push env now block = .ok (r, p', some a)) (hnew : p.NewId block) :
    p'.Ok ∧ p'.tip = p.tip ∧ (blocksOf p'.blockPool).Perm (block :: blocksOf p.blockPool) ∧
    ((r.linked = true ∧ ∃ bs i j rest, p.Rises bs ∧ p'.Rises (bs ++ [block]) ∧
        r.blockLayer = (bs.map (·.getBlockIdB64 env)).reverse ∧
        a.forwards = ⟨i, j, r.blockLayer, block⟩ :: rest ∧ Calls env p' block r.blockLayer i j rest) ∨
      (r.linked = false ∧ a.forwards = [] ∧ ¬ p'.Rooted block)) := by
  obtain ⟨i, prev, hheight, _, hprev, ha⟩ := push_accepted hw hp
  have htip : p'.tip = p.tip := (sameLast_push env hp).tip
  have hperm := ha.perm_blocks env (length_grow p (i + 1))
  rw [blocksOf_grow] at hperm
  refine ⟨h.push env hw hp, htip, hperm, ?_⟩
  rcases h.push_linked hheight hprev (fun _ => hnew.first i) ha with ⟨hl, bs, hr, hf, hlayer⟩ | ⟨hl, hnone⟩
  · obtain ⟨rest, hrest, hcalls⟩ := ha.calls (length_grow p (i + 1)) hl
    refine Or.inl ⟨hl, bs, i, _, rest, hr, ?_, hlayer, hrest, hcalls⟩
    refine Rises.concat (hr.transfer htip fun b _ hb => ?_) (hperm.mem_iff.mpr (by simp)) (htip ▸ hf)
    exact hperm.mem_iff.mpr (List.mem_cons_of_mem _ hb)
  · refine Or.inr ⟨hl, by rw [ha.forwards, hl]; rfl, ?_⟩
    rintro ⟨bs, hr⟩
    refine hnone ⟨bs, hr.init.transfer htip.symm fun b hb hmem => ?_, htip ▸ hr.follows⟩
    rcases List.mem_cons.mp (hperm.mem_iff.mp hmem) with rfl | hmem
    · exact absurd (hr.height_lt hb) (Nat.lt_irrefl _)
    · exact hmem

/-- Ids that differ in the new pool make the new id one of its own. -/
theorem newId_of_push {p p' : Pool} {now : Nat} {block : Block} {r : PushResult} {a : Accepted}
    (hw : p.NoWrap now block.height) (hp : p.push env now block = .ok (r, p', some a))
    (hids : IdsDiffer p'.blockPool) (hne : block.blockId ≠ []) : p.NewId block := by
  obtain ⟨i, prev, _, _, _, ha⟩ := push_accepted hw hp
  have hperm := ha.perm_blocks env (length_grow p (i + 1))
  rw [blocksOf_grow] at hperm
  unfold IdsDiffer at hids
  rw [(hperm.map Block.blockId).nodup_iff, List.map_cons, List.nodup_cons] at hids
  exact ⟨hne, fun b hb heq => hids.1 (heq ▸ List.mem_map_of_mem hb)⟩

/-- A block on a chain below another has one of the chain on top of it. -/
theorem Rises.successor {p : Pool} {bs : List Block} {a b : Block} (h : p.Rises (bs ++ [b])) (ha : a ∈ bs) :
    ∃ y ∈ blocksOf p.blockPool, Follows a.tip y := by
  obtain ⟨l₁, l₂, rfl⟩ := List.append_of_mem ha
  obtain ⟨y, l₃, hy⟩ : ∃ y l₃, l₂ ++ [b] = y :: l₃ := List.exists_cons_of_ne_nil (by simp)
  rw [List.append_assoc, List.cons_append, hy] at h
  exact ⟨y, h.1 y (by simp), (Trail.valid_append.mp h.2).2.2.1⟩

theorem Grows.mem_layer {layer before : List Bytes} {fs : List Forward} (h : Grows env layer before fs)
    {f : Forward} (hf : f ∈ fs) {id : Bytes} (hid : id ∈ f.layer) :
    id ∈ layer ∨ id ∈ before ∨ ∃ g ∈ fs, g.id env = id := by
  induction fs generalizing before with
  | nil => cases hf
  | cons g fs ih =>
    obtain ⟨⟨ids, hlayer, hin⟩, hrest⟩ := h
    rcases List.mem_cons.mp hf with rfl | hf
    · rw [hlayer] at hid
      rcases List.mem_append.mp hid with hid | hid
      · exact Or.inr (Or.inl (hin id hid))
      · exact Or.inl hid
    · rcases ih hrest hf with hid | hid | ⟨g', hg', hid⟩
      · exact Or.inl hid
      · rcases List.mem_cons.mp hid with rfl | hid
        · exact Or.inr (Or.inr ⟨g, by simp, rfl⟩)
        · exact Or.inr (Or.inl hid)
      · exact Or.inr (Or.inr ⟨g', by simp [hg'], hid⟩)

/-- No call below the new block has it in its layer. -/
theorem Calls.not_mem_layer {p : Pool} {bs : List Block} {block : Block} {i j : Nat} {rest : List Forward}
    (h : Calls env p block (bs.map (·.getBlockIdB64 env)).reverse i j rest) (hok : p.Ok)
    (hids : IdsDiffer p.blockPool) (hr : p.Rises (bs ++ [block])) {f : Forward} (hf : f ∈ rest) :
    block.getBlockIdB64 env ∉ f.layer := by
  intro hmem
  have hblock := hr.1 block (by simp)
  rcases h.grows.mem_layer hf hmem with hid | hid | ⟨g, hg, hid⟩
  · rw [List.mem_reverse] at hid
    obtain ⟨b, hb, heq⟩ := List.mem_map.mp hid
    have hlt := hr.height_lt hb
    rw [hids.eq_of_id (hr.init.1 b hb) hblock (env.base64.encode_injective heq)] at hlt
    exact absurd hlt (Nat.lt_irrefl _)
  · cases hid
  · obtain ⟨hin, hlt⟩ := h.height_lt hok hg
    rw [hids.eq_of_id hin hblock (env.base64.encode_injective hid)] at hlt
    exact absurd hlt (Nat.lt_irrefl _)

/-- Nothing is called for below the new block exactly when nothing waits for it. -/
theorem Calls.rest_eq_nil {p : Pool} {block : Block} {layer : List Bytes} {i j : Nat} {rest : List Forward}
    (h : Calls env p block layer i j rest) (hok : p.Ok) (hr : p.Rooted block)
    (hnone : ∀ y ∈ blocksOf p.blockPool, ¬ Follows block.tip y) : rest = [] := by
  refine List.eq_nil_iff_forall_not_mem.mpr fun f hf => ?_
  obtain ⟨bs, hbs, hin⟩ := (h.mem_iff hok hr).mp (Or.inr ⟨f, hf, rfl⟩)
  have hlt := (h.height_lt hok hf).2
  rcases List.mem_append.mp hin with hin | hin
  · obtain ⟨y, hy, hfollows⟩ := hbs.successor hin
    exact hnone y hy hfollows
  · rw [← List.mem_singleton.mp hin] at hlt
    exact Nat.lt_irrefl _ hlt

/-- A block that waits for the new one is called for, without the new one in its layer. -/
theorem Calls.waiting {p : Pool} {bs : List Block} {block b : Block} {i j : Nat} {rest : List Forward}
    (h : Calls env p block (bs.map (·.getBlockIdB64 env)).reverse i j rest) (hok : p.Ok)
    (hids : IdsDiffer p.blockPool) (hr : p.Rises (bs ++ [block])) (hb : p.Rises (bs ++ [block] ++ [b])) :
    ∃ f ∈ rest, f.block = b ∧ f.layer ≠ ((bs ++ [block]).map (·.getBlockIdB64 env)).reverse := by
  rcases (h.mem_iff hok ⟨bs, hr⟩).mpr ⟨bs ++ [block], hb, by simp⟩ with rfl | ⟨f, hf, hfb⟩
  · exact absurd (hb.height_lt (by simp)) (Nat.lt_irrefl _)
  · refine ⟨f, hf, hfb, fun heq => h.not_mem_layer hok hids hr hf ?_⟩
    rw [heq]
    simp

end Pool

/-- A push hands every block the layer that `getBlockLayer` finds for it, which is the
chain below it, exactly when no block of the pool waits for the new one. -/
theorem ChainState.late_layers {c : ChainState} (h : Reachable env c) {now : Nat} {block : Block} {r : PushResult}
    {p' : Pool} {a : Pool.Accepted} (hw : c.pool.NoWrap now block.height)
    (hp : c.pool.push env now block = .ok (r, p', some a)) (hl : r.linked = true)
    (hids : Pool.IdsDiffer p'.blockPool) (hne : block.blockId ≠ [] ∧ ∀ b ∈ Pool.blocksOf c.pool.blockPool, b.blockId ≠ []) :
    (∀ f ∈ a.forwards, ∃ bs, p'.Rises (bs ++ [f.block]) ∧
      Pool.getBlockLayer env p'.blockPool (f.id env) = .ok (bs.map (·.getBlockIdB64 env)).reverse) ∧
    ((∀ f ∈ a.forwards, Pool.getBlockLayer env p'.blockPool (f.id env) = .ok f.layer) ↔
      ∀ b ∈ Pool.blocksOf c.pool.blockPool, ¬ Follows block.tip b) := by
  obtain ⟨hok, _, hperm, hcases⟩ := h.ok.push_calls hw hp (Pool.newId_of_push hw hp hids hne.1)
  have hmem : ∀ {b : Block}, b ∈ Pool.blocksOf p'.blockPool → b = block ∨ b ∈ Pool.blocksOf c.pool.blockPool :=
    fun hb => List.mem_cons.mp (hperm.mem_iff.mp hb)
  have hcomputed : ∀ {bs : List Block} {b : Block}, p'.Rises (bs ++ [b]) →
      Pool.getBlockLayer env p'.blockPool (b.getBlockIdB64 env) = .ok (bs.map (·.getBlockIdB64 env)).reverse := by
    intro bs b hb
    refine hok.getBlockLayer hids hb ?_
    rcases hmem (hb.1 b (by simp)) with rfl | hb
    · exact hne.1
    · exact hne.2 b hb
  rcases hcases with ⟨_, bs, i, j, rest, _, hr, hlayer, hforwards, hcalls⟩ | ⟨hfalse, _⟩
  · rw [hlayer] at hcalls
    rw [hforwards]
    refine ⟨fun f hf => ?_, ⟨fun hall b hb hfollows => ?_, fun hnone f hf => ?_⟩⟩
    · obtain ⟨bs', hr', _⟩ := (hcalls.mem_iff hok ⟨bs, hr⟩).mp
        ((List.mem_cons.mp hf).imp (fun heq => congrArg Pool.Forward.block heq) fun hf => ⟨f, hf, rfl⟩)
      exact ⟨bs', hr', hcomputed hr'⟩
    · have hnext : p'.Rises (bs ++ [block] ++ [b]) := by
        refine hr.concat (hperm.mem_iff.mpr (List.mem_cons_of_mem _ hb)) ?_
        rwa [tipOf, Trail.finish_concat]
      obtain ⟨f, hf, rfl, hwrong⟩ := hcalls.waiting hok hids hr hnext
      exact hwrong (Except.ok.inj ((hall f (List.mem_cons_of_mem _ hf)).symm.trans (hcomputed hnext)))
    · have hrest : rest = [] := hcalls.rest_eq_nil hok ⟨bs, hr⟩ fun y hy hfollows => by
        rcases hmem hy with rfl | hy
        · exact absurd hfollows.2.2 (Nat.succ_ne_self _).symm
        · exact hnone y hy hfollows
      rw [hrest, List.mem_singleton] at hf
      rw [hf, hlayer]
      exact hcomputed hr
  · rw [hl] at hfalse
    cases hfalse

/-- The second block of a chain after the first. -/
theorem ChainState.late_layers_in_order : ∃ c block r p' a,
    Reachable (Sample.world Sample.chainRows) c ∧ c.pool.NoWrap 1000 block.height ∧
    c.pool.push (Sample.world Sample.chainRows) 1000 block = .ok (r, p', some a) ∧ a.forwards ≠ [] ∧
    ∀ f ∈ a.forwards, Pool.getBlockLayer (Sample.world Sample.chainRows) p'.blockPool
      (f.id (Sample.world Sample.chainRows)) = .ok f.layer := by
  let x : Sample.Row := ⟨[2], [1], Sample.hashOf 0, 2, [Sample.good 1, Sample.good 2, Sample.good 3], [Sample.digestTx]⟩
  obtain ⟨c, r, p', a, hreach, hw, hp, htest⟩ := Sample.push_after Sample.chainRows [0] 1 x
    (fun c r p' a => r.linked && !a.forwards.isEmpty &&
      decide ((Pool.blocksOf p'.blockPool).map Block.blockId).Nodup &&
      (Pool.blocksOf c.pool.blockPool).all fun b => decide (b.blockId ≠ [] ∧ b.prevBlockId ≠ (x.block 1).blockId))
    (by decide +kernel) rfl (by decide +kernel)
  simp only [Bool.and_eq_true, List.all_eq_true, Bool.not_eq_true', decide_eq_true_eq] at htest
  obtain ⟨⟨⟨hlinked, hsome⟩, hids⟩, hblocks⟩ := htest
  refine ⟨c, x.block 1, r, p', a, hreach, hw, hp, by simpa using hsome, ?_⟩
  refine (ChainState.late_layers _ hreach hw hp hlinked hids ⟨by decide, fun b hb => (hblocks b hb).1⟩).2.mpr ?_
  exact fun b hb hf => (hblocks b hb).2 hf.1

/-- The second block comes first. When the first comes, the second is handed a layer
without it. -/
theorem ChainState.late_layer_misses_block : ∃ c block r p' a,
    Reachable (Sample.world Sample.chainRows) c ∧ c.pool.NoWrap 1000 block.height ∧
    c.pool.push (Sample.world Sample.chainRows) 1000 block = .ok (r, p', some a) ∧ r.linked = true ∧
    Pool.IdsDiffer p'.blockPool ∧ ∃ f ∈ a.forwards, f.layer = [] ∧
      Pool.getBlockLayer (Sample.world Sample.chainRows) p'.blockPool (f.id (Sample.world Sample.chainRows)) =
        .ok [block.getBlockIdB64 (Sample.world Sample.chainRows)] := by
  let x : Sample.Row := ⟨[1], genesisBlockPrevId Sample.base, genesisBlockPrevHash Sample.base, 1,
    [Sample.good 1, Sample.good 2, Sample.good 3], [Sample.digestTx]⟩
  obtain ⟨c, r, p', a, hreach, hw, hp, htest⟩ := Sample.push_after Sample.chainRows [1] 0 x
    (fun c r p' a => r.linked && decide ((Pool.blocksOf p'.blockPool).map Block.blockId).Nodup &&
      a.forwards.any fun f => decide (f.layer = []) &&
        okAnd (fun ids => decide (ids = [(x.block 0).getBlockIdB64 (Sample.world Sample.chainRows)]))
          (Pool.getBlockLayer (Sample.world Sample.chainRows) p'.blockPool (f.id (Sample.world Sample.chainRows))))
    (by decide +kernel) rfl (by decide +kernel)
  simp only [Bool.and_eq_true, List.any_eq_true, decide_eq_true_eq] at htest
  obtain ⟨⟨hlinked, hids⟩, f, hf, hlayer, hcomputed⟩ := htest
  obtain ⟨ids, hget, heq⟩ := okAnd_eq_true.mp hcomputed
  rw [of_decide_eq_true heq] at hget
  exact ⟨c, x.block 0, r, p', a, hreach, hw, hp, hlinked, hids, f, hf, hlayer, hget⟩

end GruutMerger
