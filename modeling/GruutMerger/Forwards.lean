import GruutMerger.LedgerView
import GruutMerger.Layer

/-!
# The ledger calls of a push

A linked block goes to the ledger, and with it everything that was waiting for
it. The calls come in the order of a depth-first walk. The layer of a call is
the new block's own layer with ids of blocks of earlier calls in front.
-/
namespace GruutMerger

open ByteText Forest KeyValue Fallible CertificateLedger

variable (env : Env)

namespace Pool

def Forward.id (f : Forward) : Bytes := f.block.getBlockIdB64 env

/-- Where a call stands and what it forwards. -/
def Forward.place (f : Forward) : Nat × Nat × Block := (f.level, f.idx, f.block)

/-- A turn of the walk over a bin: a child of entry `prev`, and everything below it. -/
def forwardTurn (rest : List Bin) (prev : Nat) (acc : List Bytes × List Forward) (x : UnresolvedBlock × Nat) :
    List Bytes × List Forward :=
  if x.1.prevVectorIdx = (prev : Int) then
    (x.1.block.getBlockIdB64 env :: acc.1, acc.2 ++ ⟨0, x.2, acc.1, x.1.block⟩ ::
      (forwardRec env rest x.2 (x.1.block.getBlockIdB64 env :: acc.1)).map fun f => { f with level := f.level + 1 })
  else acc

theorem forwardRec_cons (bin : Bin) (rest : List Bin) (prev : Nat) (layer : List Bytes) :
    forwardRec env (bin :: rest) prev layer = (bin.zipIdx.foldl (forwardTurn env rest prev) (layer, [])).2 := by
  rw [forwardRec]
  rfl

theorem place_forwardRec (bins : List Bin) (prev : Nat) (layer : List Bytes) :
    (forwardRec env bins prev layer).map Forward.place =
      (preorder UnresolvedBlock.prevVectorIdx bins prev).map fun t => (t.1, t.2.1, t.2.2.block) := by
  induction bins generalizing prev layer with
  | nil => rfl
  | cons bin rest ih =>
    have hdeeper : ∀ k lay, ((forwardRec env rest k lay).map fun f : Forward =>
        { f with level := f.level + 1 }).map Forward.place =
        ((preorder UnresolvedBlock.prevVectorIdx rest k).map fun t => (t.1 + 1, t.2)).map
          fun t => (t.1, t.2.1, t.2.2.block) := by
      intro k lay
      have hmap := congrArg (List.map fun x : Nat × Nat × Block => (x.1 + 1, x.2)) (ih k lay)
      simpa [Function.comp_def, Forward.place] using hmap
    rw [forwardRec_cons, preorder]
    -- the walk over the bin, from any accumulator
    have hloop : ∀ (xs : List (UnresolvedBlock × Nat)) (acc : List Bytes × List Forward),
        (xs.foldl (forwardTurn env rest prev) acc).2.map Forward.place =
        acc.2.map Forward.place ++ (xs.flatMap fun x => if x.1.prevVectorIdx = (prev : Int) then
          (0, x.2, x.1) :: (preorder UnresolvedBlock.prevVectorIdx rest x.2).map fun t => (t.1 + 1, t.2)
          else []).map fun t => (t.1, t.2.1, t.2.2.block) := by
      intro xs
      induction xs with
      | nil => simp
      | cons x xs ihx =>
        intro acc
        rw [List.foldl_cons, ihx, List.flatMap_cons, List.map_append, forwardTurn]
        by_cases hx : x.1.prevVectorIdx = (prev : Int)
        · simp only [hx, if_true, List.map_append, List.map_cons, hdeeper, List.append_assoc]
          rfl
        · simp [hx]
    exact hloop _ (layer, [])

/-- Each layer is `layer` with ids of earlier calls, or of `before`, in front. -/
def Grows (layer : List Bytes) : List Bytes → List Forward → Prop
  | _, [] => True
  | before, f :: fs => (∃ ids, f.layer = ids ++ layer ∧ ∀ x ∈ ids, x ∈ before) ∧
      Grows layer (f.id env :: before) fs

variable {env}

theorem Grows.mono {layer before before' : List Bytes} {fs : List Forward} (h : Grows env layer before fs)
    (hb : ∀ x ∈ before, x ∈ before') : Grows env layer before' fs := by
  induction fs generalizing before before' with
  | nil => trivial
  | cons f fs ih =>
    obtain ⟨⟨ids, hids, hin⟩, hrest⟩ := h
    refine ⟨⟨ids, hids, fun x hx => hb x (hin x hx)⟩, ih hrest fun x hx => ?_⟩
    rcases List.mem_cons.mp hx with rfl | hx
    · simp
    · exact List.mem_cons_of_mem _ (hb x hx)

theorem Grows.append {layer before : List Bytes} {fs gs : List Forward} (h : Grows env layer before fs)
    (hg : Grows env layer (fs.map (·.id env) ++ before) gs) : Grows env layer before (fs ++ gs) := by
  induction fs generalizing before with
  | nil => exact hg
  | cons f fs ih =>
    refine ⟨h.1, ih h.2 (hg.mono fun x hx => ?_)⟩
    simp only [List.map_cons, List.cons_append, List.mem_cons, List.mem_append] at hx ⊢
    tauto

/-- A longer layer made of ids from before. -/
theorem Grows.shorten {ids layer before : List Bytes} {fs : List Forward}
    (h : Grows env (ids ++ layer) before fs) (hids : ∀ x ∈ ids, x ∈ before) : Grows env layer before fs := by
  induction fs generalizing before with
  | nil => trivial
  | cons f fs ih =>
    obtain ⟨⟨front, hf, hin⟩, hrest⟩ := h
    refine ⟨⟨front ++ ids, by rw [hf, List.append_assoc], fun x hx => ?_⟩,
      ih hrest fun x hx => List.mem_cons_of_mem _ (hids x hx)⟩
    rcases List.mem_append.mp hx with hx | hx
    · exact hin x hx
    · exact hids x hx

theorem Grows.suffix {layer before : List Bytes} {fs : List Forward} (h : Grows env layer before fs) :
    ∀ f ∈ fs, ∃ ids, f.layer = ids ++ layer := by
  induction fs generalizing before with
  | nil => simp
  | cons f fs ih =>
    intro g hg
    rcases List.mem_cons.mp hg with rfl | hg
    · obtain ⟨ids, hids, _⟩ := h.1
      exact ⟨ids, hids⟩
    · exact ih h.2 g hg

theorem grows_relevel {layer before : List Bytes} {fs : List Forward} (g : Nat → Nat)
    (h : Grows env layer before fs) :
    Grows env layer before (fs.map fun f => { f with level := g f.level }) := by
  induction fs generalizing before with
  | nil => trivial
  | cons f fs ih => exact ⟨h.1, ih h.2⟩

/-- The walk over a bin, where `ids` are those that it has put in front of the layer. -/
theorem grows_forwardTurns {rest : List Bin} (prev : Nat) {layer : List Bytes}
    (hrest : ∀ k layer, Grows env layer [] (forwardRec env rest k layer)) (xs : List (UnresolvedBlock × Nat))
    (ids : List Bytes) (out : List Forward) (hout : Grows env layer [] out) (hids : ∀ x ∈ ids, x ∈ out.map (·.id env)) :
    Grows env layer [] (xs.foldl (forwardTurn env rest prev) (ids ++ layer, out)).2 := by
  induction xs generalizing ids out with
  | nil => exact hout
  | cons x xs ih =>
    rw [List.foldl_cons, forwardTurn]
    by_cases hx : x.1.prevVectorIdx = (prev : Int)
    · rw [if_pos hx, ← List.cons_append]
      refine ih _ _ (hout.append ⟨⟨ids, rfl, ?_⟩, ?_⟩) ?_
      · intro y hy
        exact List.mem_append_left _ (hids y hy)
      · -- the calls below start from the layer with this block in front
        have hbelow := hrest x.2 ((x.1.block.getBlockIdB64 env :: ids) ++ layer)
        refine ((grows_relevel (· + 1) hbelow).mono (by simp)).shorten fun y hy => ?_
        rcases List.mem_cons.mp hy with rfl | hy
        · exact List.mem_cons_self
        · exact List.mem_cons_of_mem _ (List.mem_append_left _ (hids y hy))
      · intro y hy
        rw [List.map_append]
        rcases List.mem_cons.mp hy with rfl | hy
        · exact List.mem_append_right _ List.mem_cons_self
        · exact List.mem_append_left _ (hids y hy)
    · rw [if_neg hx]
      exact ih ids out hout hids

theorem grows_forwardRec (bins : List Bin) (prev : Nat) (layer : List Bytes) :
    Grows env layer [] (forwardRec env bins prev layer) := by
  induction bins generalizing prev layer with
  | nil => trivial
  | cons bin rest ih =>
    rw [forwardRec_cons]
    exact grows_forwardTurns prev ih bin.zipIdx [] [] trivial (by simp)

/-- The calls for a new entry: the entry itself, and everything below it. -/
theorem grows_forwardsFrom (bins : List Bin) (i j : Nat) (e : UnresolvedBlock) :
    Grows env e.blockLayer [] (forwardsFrom env bins i j e) := by
  refine ⟨⟨[], rfl, by simp⟩, ?_⟩
  exact (grows_relevel (· + (i + 1)) (grows_forwardRec _ _ _)).mono (by simp)

/-- The calls are made for the entry and then in preorder for everything below it. -/
theorem places_forwardsFrom (bins : List Bin) (i j : Nat) (e : UnresolvedBlock) :
    (forwardsFrom env bins i j e).map Forward.place = (i, j, e.block) ::
      (preorder UnresolvedBlock.prevVectorIdx (bins.drop (i + 1)) j).map fun t =>
        (t.1 + (i + 1), t.2.1, t.2.2.block) := by
  have hmap := congrArg (List.map fun x : Nat × Nat × Block => (x.1 + (i + 1), x.2))
    (place_forwardRec env (bins.drop (i + 1)) j e.blockLayer)
  simp only [List.map_map] at hmap
  simp only [forwardsFrom, List.map_cons, List.map_map, Forward.place]
  exact congrArg _ hmap

theorem mem_forwardsFrom {bins : List Bin} {i j : Nat} {e : UnresolvedBlock} {b : Block} :
    (∃ f ∈ forwardsFrom env bins i j e, f.block = b) ↔
      b = e.block ∨ ∃ d k e', Chain UnresolvedBlock.prevVectorIdx (bins.drop (i + 1)) j d k e' ∧ e'.block = b := by
  have hplaces : (∃ f ∈ forwardsFrom env bins i j e, f.block = b) ↔
      ∃ x ∈ (forwardsFrom env bins i j e).map Forward.place, x.2.2 = b := by
    simp [Forward.place]
  rw [hplaces, places_forwardsFrom, List.exists_mem_cons_iff]
  refine or_congr eq_comm ?_
  constructor
  · rintro ⟨x, hx, rfl⟩
    obtain ⟨⟨d, k, e'⟩, ht, rfl⟩ := List.mem_map.mp hx
    exact ⟨d, k, e', mem_preorder.mp ht, rfl⟩
  · rintro ⟨d, k, e', hc, rfl⟩
    exact ⟨_, List.mem_map.mpr ⟨(d, k, e'), mem_preorder.mpr hc, rfl⟩, rfl⟩

/-- No place is forwarded twice. -/
theorem nodup_places_forwardsFrom (bins : List Bin) (i j : Nat) (e : UnresolvedBlock) :
    (((forwardsFrom env bins i j e).map Forward.place).map fun x => (x.1, x.2.1)).Nodup := by
  rw [places_forwardsFrom, List.map_cons, List.nodup_cons]
  constructor
  · simp only [List.mem_map, not_exists, not_and]
    rintro x ⟨t, _, rfl⟩ heq
    have := (Prod.mk.inj heq).1
    omega
  · have hpositions : ((preorder UnresolvedBlock.prevVectorIdx (bins.drop (i + 1)) j).map
        fun t => (t.1, t.2.1)).Nodup := nodup_preorder _ _
    have hpre := hpositions.map (f := fun x : Nat × Nat => (x.1 + (i + 1), x.2))
      (fun a b hab => by simpa [Prod.ext_iff] using hab)
    rw [List.map_map] at hpre ⊢
    exact hpre

/-- Every place holds the block it names. -/
theorem node_of_mem_places {bins : List Bin} {i j : Nat} {e e₀ : UnresolvedBlock} (hn : node bins i j = some e₀)
    (hb : e₀.block = e.block) :
    ∀ x ∈ (forwardsFrom env bins i j e).map Forward.place, ∃ e', node bins x.1 x.2.1 = some e' ∧ e'.block = x.2.2 := by
  rw [places_forwardsFrom]
  intro x hx
  rcases List.mem_cons.mp hx with rfl | hx
  · exact ⟨e₀, hn, hb⟩
  · obtain ⟨⟨d, k, e'⟩, ht, rfl⟩ := List.mem_map.mp hx
    have hchain := (mem_preorder.mp ht).node_eq
    rw [node_drop, Nat.add_comm] at hchain
    exact ⟨e', hchain, rfl⟩

/-- The blocks have different ids. -/
def IdsDiffer (bins : List Bin) : Prop := ((blocksOf bins).map Block.blockId).Nodup

/-- An id is found in one place. -/
theorem IdsDiffer.place {bins : List Bin} (h : IdsDiffer bins) {d d' j j' : Nat} {e e' : UnresolvedBlock}
    (hn : node bins d j = some e) (hn' : node bins d' j' = some e')
    (he : e.block.blockId = e'.block.blockId) : d = d' ∧ j = j' := by
  have hmem : ∀ {bins : List Bin} {i k : Nat} {x : UnresolvedBlock}, node bins i k = some x →
      x.block.blockId ∈ (blocksOf bins).map Block.blockId := fun hx =>
    List.mem_map_of_mem (mem_blocksOf.mpr ⟨_, _, mem_bin_of_node hx, rfl⟩)
  induction bins generalizing d d' with
  | nil => simp at hn
  | cons bin rest ih =>
    simp only [IdsDiffer, blocksOf, List.flatten_cons, List.map_append, List.nodup_append] at h
    obtain ⟨hbin, hrest, hapart⟩ := h
    have hfirst : ∀ {k : Nat} {x : UnresolvedBlock}, bin[k]? = some x →
        x.block.blockId ∈ (bin.map (·.block)).map Block.blockId := fun hx =>
      List.mem_map_of_mem (List.mem_map_of_mem (List.mem_of_getElem? hx))
    cases d with
    | zero =>
      rw [node_cons_zero] at hn
      cases d' with
      | zero =>
        rw [node_cons_zero] at hn'
        have hget : ((bin.map (·.block)).map Block.blockId)[j]? = ((bin.map (·.block)).map Block.blockId)[j']? := by
          simp [hn, hn', he]
        have hlt : j < ((bin.map (·.block)).map Block.blockId).length := by
          simpa using (List.getElem?_eq_some_iff.mp hn).1
        exact ⟨rfl, (List.getElem?_inj hlt hbin).mp hget⟩
      | succ d' =>
        rw [node_cons_succ] at hn'
        exact absurd he (hapart _ (hfirst hn) _ (hmem hn'))
    | succ d =>
      rw [node_cons_succ] at hn
      cases d' with
      | zero =>
        rw [node_cons_zero] at hn'
        exact absurd he.symm (hapart _ (hfirst hn') _ (hmem hn))
      | succ d' =>
        rw [node_cons_succ] at hn'
        obtain ⟨rfl, rfl⟩ := ih hrest hn hn'
        exact ⟨rfl, rfl⟩

theorem IdsDiffer.eq_of_id {bins : List Bin} (h : IdsDiffer bins) {a b : Block} (ha : a ∈ blocksOf bins)
    (hb : b ∈ blocksOf bins) (hid : a.blockId = b.blockId) : a = b := List.inj_on_of_nodup_map h ha hb hid

/-- No block is forwarded twice. -/
theorem nodup_forwardsFrom {bins : List Bin} {i j : Nat} {e e₀ : UnresolvedBlock} (hids : IdsDiffer bins)
    (hn : node bins i j = some e₀) (hb : e₀.block = e.block) :
    ((forwardsFrom env bins i j e).map (·.id env)).Nodup := by
  have hmapped : (forwardsFrom env bins i j e).map (·.id env) =
      ((forwardsFrom env bins i j e).map Forward.place).map fun x => x.2.2.getBlockIdB64 env := by
    rw [List.map_map]
    rfl
  rw [hmapped]
  refine List.Nodup.map_on (fun x hx y hy heq => ?_) (nodup_places_forwardsFrom bins i j e).of_map
  obtain ⟨ex, hex, hbx⟩ := node_of_mem_places hn hb x hx
  obtain ⟨ey, hey, hby⟩ := node_of_mem_places hn hb y hy
  have hid : ex.block.blockId = ey.block.blockId := by
    rw [hbx, hby]
    exact env.base64.encode_injective heq
  obtain ⟨h₁, h₂⟩ := hids.place hex hey hid
  rw [h₁, h₂, hey] at hex
  cases hex
  exact Prod.ext h₁ (Prod.ext h₂ (hbx.symm.trans hby))

end Pool

/-- The calls keep out of each other's way: blocks forwarded by one push register
different users, and a call without a layer finds nothing of its users under the
layer installed before. -/
structure Pool.Apart (ls : LayeredStorage) (fs : List Pool.Forward) : Prop where
  users : ∀ f ∈ fs, ∀ g ∈ fs, f.id env ≠ g.id env → ∀ u ∈ usersOf env f.block, u ∉ usersOf env g.block
  installed : ∀ f ∈ fs, f.layer = [] → ∀ id ∈ ls.blockLayer, (∀ g ∈ fs, id ≠ g.id env) ∧
    ∀ u ∈ usersOf env f.block, getVal ls.memLedger (wrapKey u) id = none

variable {env}

/-- What one ledger call does. -/
theorem ChainState.forwardBlock_eq_ok {ls ls' : LayeredStorage} {f : Pool.Forward} (hid : f.id env ≠ [])
    (hn : f.id env ∉ if f.layer = [] then ls.blockLayer else f.layer)
    (h : ChainState.forwardBlock env ls f = .ok ls') :
    ∃ rs, certRecords env (fun key => ls.readLedgerByKey key f.layer) (registeredBy env f.block) = .ok rs ∧
      ls' = { ls with memLedger := ls.memLedger ++ ownedBy (f.id env) rs } :=
  blockToLedger_eq_ok env hid hn h

variable (env)

/-- Calls still to be done, after those for the ids of `before`, on a storage that
was `ls₀` before the first of them. -/
structure Pool.Pending (ls₀ : LayeredStorage) (layer before : List Bytes) (fs : List Pool.Forward) : Prop where
  grows : Pool.Grows env layer before fs
  nodup : (fs.map (·.id env)).Nodup
  id_ne : ∀ f ∈ fs, f.id env ≠ []
  plain : ∀ f ∈ fs, ∀ u ∈ usersOf env f.block, underscore ∉ u
  fresh : ∀ f ∈ fs, f.id env ∉ before ∧ f.id env ∉ layer ∧ recordsOf ls₀.memLedger (f.id env) = []
  done : ∀ id ∈ before, id ∉ layer
  apart : Pool.Apart env ls₀ fs
  installed : ∀ f ∈ fs, f.layer = [] → ∀ id ∈ ls₀.blockLayer, id ∉ before

/-- The storage between two calls. -/
structure Pool.Midway (ls₀ : LayeredStorage) (before : List Bytes) (fs : List Pool.Forward)
    (ls : LayeredStorage) : Prop where
  storage : ls.storage = ls₀.storage
  blockLayer : ls.blockLayer = ls₀.blockLayer
  same : ∀ id, id ∉ before → recordsOf ls.memLedger id = recordsOf ls₀.memLedger id
  quiet : ∀ id ∈ before, ∀ f ∈ fs, ∀ u ∈ usersOf env f.block,
    firstOf (recordsOf ls.memLedger id) (wrapKey u) = none

variable {env}

namespace Pool

variable {ls₀ ls : LayeredStorage} {layer before : List Bytes} {f : Forward} {fs : List Forward}

theorem Pending.ne (h : Pending env ls₀ layer before (f :: fs)) : ∀ g ∈ fs, g.id env ≠ f.id env := by
  intro g hg he
  have hmem : g.id env ∈ fs.map (·.id env) := List.mem_map_of_mem hg
  rw [he] at hmem
  exact (List.nodup_cons.mp h.nodup).1 hmem

theorem Pending.tail (h : Pending env ls₀ layer before (f :: fs)) :
    Pending env ls₀ layer (f.id env :: before) fs where
  grows := h.grows.2
  nodup := (List.nodup_cons.mp h.nodup).2
  id_ne g hg := h.id_ne g (List.mem_cons_of_mem _ hg)
  plain g hg := h.plain g (List.mem_cons_of_mem _ hg)
  fresh g hg := by
    obtain ⟨hb, hl, hr⟩ := h.fresh g (List.mem_cons_of_mem _ hg)
    refine ⟨fun hmem => ?_, hl, hr⟩
    rcases List.mem_cons.mp hmem with he | hmem
    · exact h.ne g hg he
    · exact hb hmem
  done id hmem := by
    rcases List.mem_cons.mp hmem with rfl | hmem
    · exact (h.fresh f List.mem_cons_self).2.1
    · exact h.done id hmem
  apart :=
    { users := fun g hg g' hg' => h.apart.users g (List.mem_cons_of_mem _ hg) g' (List.mem_cons_of_mem _ hg')
      installed := fun g hg hnil id hmem =>
        have hin := h.apart.installed g (List.mem_cons_of_mem _ hg) hnil id hmem
        ⟨fun g' hg' => hin.1 g' (List.mem_cons_of_mem _ hg'), hin.2⟩ }
  installed g hg hnil id hmem := by
    have hg := List.mem_cons_of_mem f hg
    intro hb
    rcases List.mem_cons.mp hb with he | hb
    · exact (h.apart.installed g hg hnil id hmem).1 f List.mem_cons_self he
    · exact h.installed g hg hnil id hmem hb

/-- The block itself is not among those that the call searches. -/
theorem Pending.not_searched (h : Pending env ls₀ layer before (f :: fs)) (hm : Midway env ls₀ before (f :: fs) ls) :
    f.id env ∉ if f.layer = [] then ls.blockLayer else f.layer := by
  have hf := List.mem_cons_self (a := f) (l := fs)
  split
  · rename_i hnil
    rw [hm.blockLayer]
    exact fun hmem => (h.apart.installed f hf hnil _ hmem).1 f hf rfl
  · obtain ⟨front, hfront, hin⟩ := h.grows.1
    rw [hfront]
    intro hmem
    rcases List.mem_append.mp hmem with hmem | hmem
    · exact (h.fresh f hf).1 (hin _ hmem)
    · exact (h.fresh f hf).2.1 hmem

/-- The counts that a call reads are those behind the layer of the new block. -/
theorem Pending.reads (h : Pending env ls₀ layer before (f :: fs)) (hm : Midway env ls₀ before (f :: fs) ls)
    {u : Bytes} (hu : u ∈ usersOf env f.block) : ls.readLedgerByKey (wrapKey u) f.layer =
      through ls₀.memLedger layer (ls₀.storage.disk .ledger) (wrapKey u) := by
  have hf := List.mem_cons_self (a := f) (l := fs)
  obtain ⟨front, hfront, hin⟩ := h.grows.1
  rw [readLedgerByKey_eq, hm.storage, hm.blockLayer]
  split
  · -- without a layer the installed one is searched, and has nothing
    rename_i hnil
    obtain ⟨_, rfl⟩ := List.append_eq_nil_iff.mp (hfront.symm.trans hnil)
    have hnone : ∀ id ∈ ls₀.blockLayer, firstOf (recordsOf ls.memLedger id) (wrapKey u) = none := by
      intro id hmem
      rw [hm.same id (h.installed f hf hnil id hmem), ← getVal_eq]
      exact (h.apart.installed f hf hnil id hmem).2 u hu
    rw [← List.append_nil ls₀.blockLayer, through_append_none _ _ hnone]
    rfl
  · rw [hfront, through_append_none _ _ fun id hmem => hm.quiet id (hin id hmem) f hf u hu]
    exact through_congr _ _ fun id hmem => hm.same id fun hb => h.done id hb hmem

theorem recordsOf_added {mem : List LedgerRecord} {id id' : Bytes} (hne : id ≠ id') (rs : List (Bytes × Value)) :
    recordsOf (mem ++ ownedBy id' rs) id = recordsOf mem id := by
  rw [recordsOf_append, recordsOf_ownedBy_other hne, List.append_nil]

/-- One call. -/
theorem Pending.step {ls₁ : LayeredStorage} (h : Pending env ls₀ layer before (f :: fs))
    (hm : Midway env ls₀ before (f :: fs) ls) (hf : ChainState.forwardBlock env ls f = .ok ls₁) :
    ∃ rs, certRecords env (through ls₀.memLedger layer (ls₀.storage.disk .ledger)) (registeredBy env f.block) =
        .ok rs ∧ recordsOf ls₁.memLedger (f.id env) = rs ∧
      ls₁.memLedger = ls.memLedger ++ ownedBy (f.id env) rs ∧
      Midway env ls₀ (f.id env :: before) fs ls₁ := by
  have hmem := List.mem_cons_self (a := f) (l := fs)
  obtain ⟨hb, _, hnone⟩ := h.fresh f hmem
  obtain ⟨rs, hrs, rfl⟩ := ChainState.forwardBlock_eq_ok (h.id_ne f hmem) (h.not_searched hm) hf
  rw [certRecords_congr fun u hu => h.reads hm hu] at hrs
  have hown : recordsOf (ls.memLedger ++ ownedBy (f.id env) rs) (f.id env) = rs := by
    rw [recordsOf_append, hm.same _ hb, hnone, recordsOf_ownedBy, List.nil_append]
  refine ⟨rs, hrs, hown, rfl, ⟨hm.storage, hm.blockLayer, fun id hid => ?_, fun id hid g hg u hu => ?_⟩⟩
  · obtain ⟨hne, hid⟩ := not_or.mp fun hor => hid (List.mem_cons.mpr hor)
    exact (recordsOf_added hne rs).trans (hm.same id hid)
  · have hg' := List.mem_cons_of_mem f hg
    rcases List.mem_cons.mp hid with rfl | hid
    · rw [hown]
      exact firstOf_of_notMem hrs (h.plain g hg' u hu) (h.apart.users g hg' f hmem (h.ne g hg) u hu)
    · have hne : id ≠ f.id env := fun he => hb (he ▸ hid)
      rw [recordsOf_added hne rs]
      exact hm.quiet id hid g hg' u hu

/-- All calls: each block gets the records that its users' counts give when they
are read through the layer of the new block, as it was before. -/
theorem Pending.run {ls' : LayeredStorage} (h : Pending env ls₀ layer before fs) (hm : Midway env ls₀ before fs ls)
    (hf : fs.foldlM (ChainState.forwardBlock env) ls = .ok ls') :
    ls'.storage = ls₀.storage ∧
      (∀ id, id ∉ fs.map (·.id env) → recordsOf ls'.memLedger id = recordsOf ls.memLedger id) ∧
      (∀ r ∈ ls'.memLedger, r ∈ ls.memLedger ∨ r.blockIdB64 ∈ fs.map (·.id env)) ∧
      ∀ f ∈ fs, certRecords env (through ls₀.memLedger layer (ls₀.storage.disk .ledger))
        (registeredBy env f.block) = .ok (recordsOf ls'.memLedger (f.id env)) := by
  induction fs generalizing ls before with
  | nil =>
    cases hf
    exact ⟨hm.storage, fun _ _ => rfl, fun r hr => Or.inl hr, fun f hf => absurd hf (by simp)⟩
  | cons f fs ih =>
    obtain ⟨ls₁, h₁, hf⟩ := foldlM_cons_eq_ok.mp hf
    obtain ⟨rs, hrs, hown, hmem, hm₁⟩ := h.step hm h₁
    obtain ⟨hs, hother, howners, hrecords⟩ := ih h.tail hm₁ hf
    refine ⟨hs, fun id hid => ?_, fun r hr => ?_, fun g hg => ?_⟩
    · obtain ⟨hne, hid⟩ := not_or.mp fun hor => hid (List.mem_cons.mpr hor)
      rw [hother id hid, hmem, recordsOf_added hne]
    · rcases howners r hr with hr | hr
      · rw [hmem] at hr
        rcases List.mem_append.mp hr with hr | hr
        · exact Or.inl hr
        · obtain ⟨x, _, rfl⟩ := List.mem_map.mp hr
          exact Or.inr List.mem_cons_self
      · exact Or.inr (List.mem_cons_of_mem _ hr)
    · rcases List.mem_cons.mp hg with rfl | hg
      · rw [hother _ (List.nodup_cons.mp h.nodup).1, hown]
        exact hrs
      · exact hrecords g hg

end Pool
end GruutMerger
