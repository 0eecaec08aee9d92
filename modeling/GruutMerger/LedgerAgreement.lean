import GruutMerger.LedgerRun

/-!
# Agreement of ledgers

Two runs from the same ledger that resolve the same blocks end with the same
ledger, if one of them keeps its ledger calls apart and the other receives its
blocks in order. Out of order, a block can be filed as if its parent had
registered nothing.
-/
namespace GruutMerger

open ByteText Forest KeyValue Fallible CertificateLedger

variable (env : Env)

/-- A merger that has just started: nothing in the pool, in memory or on its way to
the ledger. -/
structure ChainState.Blank (c : ChainState) : Prop where
  bins : c.pool.blockPool = []
  mem : c.layered.memLedger = []
  layer : c.layered.blockLayer = []
  batch : c.layered.storage.batch .ledger = []
  log : c.layered.storage.log = []

/-- The ledger on disk. -/
def Merger.ledger (m : Merger) : Ledger := m.chain.layered.storage.disk .ledger

/-- Blocks resolved since the start. -/
def Merger.resolved (m : Merger) : List Block := resolvedIn m.chain.layered.storage.log

/-- No resolved block failed its late check. -/
def Merger.SavedAll (m : Merger) : Prop := ∀ b, .checked b false ∉ m.chain.layered.storage.log

/-- The block that arrives makes nothing wrap, and is fair to the ledger. -/
def Merger.LedgerFair (m : Merger) (now : Nat) (body : Json) : Prop :=
  ∀ block, Block.initializeBody env body = .ok (some block) →
    m.chain.pool.NoWrap now block.height ∧ m.chain.Fair env now block

variable {env}

namespace ChainState

theorem Blank.ok {c : ChainState} (h : c.Blank) : c.pool.Ok := by
  rw [Pool.Ok, h.bins]
  trivial

theorem Blank.backed {c : ChainState} (h : c.Blank) : c.Backed env := by
  refine ⟨⟨⟨?_, ?_, ?_⟩, ?_, ?_⟩, h.batch⟩
  · simp [Pool.IdsDiffer, h.bins, Pool.blocksOf]
  · simp [h.bins, Pool.blocksOf]
  · simp [h.bins, Pool.blocksOf]
  · rw [h.bins]
    trivial
  · rw [h.mem]
    simp

theorem Blank.commits {c : ChainState} (h : c.Blank) : Commits env (c.layered.storage.disk .ledger) [] c := by
  refine ⟨[], ?_, rfl⟩
  rw [h.log]
  rfl

theorem log_delivers {c c' : ChainState} {now : Nat} {block : Block} {r : PushResult}
    (hd : c.Delivers env now block c' r) : c.layered.storage.log <+: c'.layered.storage.log := by
  cases hd with
  | kept hp _ hc =>
    rw [hc.2]
    exact (touches_push env hp).log_extends
  | resolved hp _ hq hr hc =>
    rw [hc.2]
    refine (touches_push env hp).log_extends.trans ?_
    rw [← hq.2]
    exact log_procResolved env hr

theorem ok_delivers {c c' : ChainState} {now : Nat} {block : Block} {r : PushResult} (h : c.pool.Ok)
    (hw : c.pool.NoWrap now block.height) (hd : c.Delivers env now block c' r) : c'.pool.Ok := by
  have hcache : ∀ {a b : ChainState}, a.Recached b → a.pool.Ok → b.pool.Ok := by
    rintro a b ⟨⟨_, _, _, hp⟩, _⟩ ha
    rw [hp]
    exact ha
  have hpush : ∀ {c₁ : ChainState}, c.push env now block false = .ok (r, c₁) → c₁.pool.Ok := by
    intro c₁ hp
    obtain ⟨a, hpool, _⟩ := (push_eq_ok env).mp hp
    exact h.push env hw hpool
  cases hd with
  | kept hp _ hc => exact hcache hc (hpush hp)
  | resolved hp _ hq hr hc =>
    obtain ⟨_, _, hres, _⟩ := procResolved_cases env hr
    exact hcache hc (hres.ok (hcache hq (hpush hp)))

end ChainState

/-- In a fair run the ledger is the one of the resolved blocks. -/
theorem Merger.Run.commits {m₀ m : Merger} (h₀ : m₀.chain.Blank)
    (h : Merger.Run env (Merger.LedgerFair env) m₀ m) (hv : m.SavedAll) :
    m.chain.pool.Ok ∧ m.chain.Backed env ∧ ChainState.Commits env m₀.ledger [] m.chain := by
  induction h with
  | refl => exact ⟨h₀.ok, h₀.backed, h₀.commits⟩
  | step _ ha hs ih =>
    rcases Merger.handleMsgBlock_cases env hs with ⟨_, rfl⟩ | ⟨block, hb, _, hd⟩
    · exact ih hv
    · obtain ⟨hok, hback, hcom⟩ := ih fun b hmem => hv b ((ChainState.log_delivers hd).subset hmem)
      obtain ⟨hw, hfair⟩ := ha block hb
      obtain ⟨hback', hcom'⟩ := hback.delivers hok hw hfair hcom hd hv
      exact ⟨ChainState.ok_delivers hok hw hd, hback', hcom'⟩

variable (env)

/-- A run that receives blocks one on top of the other. -/
inductive Merger.InOrder (m₀ : Merger) : List Block → Merger → Prop where
  | start : InOrder m₀ [] m₀
  | deliver {m m' : Merger} {bs : List Block} {b : Block} {now : Nat} {body : Json} {r : PushResult}
      (h : InOrder m₀ bs m) (hb : Block.initializeBody env body = .ok (some b))
      (hf : Follows (tipOf m₀.chain.pool.tip bs) b) (hw : m.chain.pool.NoWrap now b.height)
      (hs : m.handleMsgBlock env now body = .ok (r, m')) : InOrder m₀ (bs ++ [b]) m'

/-- Blocks with different ids, none of them empty, and plain users. -/
structure TidyBlocks (bs : List Block) : Prop where
  ids : (bs.map Block.blockId).Nodup
  id_ne : ∀ b ∈ bs, b.blockId ≠ []
  plain : ∀ b ∈ bs, ∀ u ∈ usersOf env b, underscore ∉ u

/-- Pool, resolved blocks and installed layer only know blocks that were delivered. -/
structure ChainState.Knows (c : ChainState) (bs : List Block) : Prop where
  pool : ∀ b ∈ Pool.blocksOf c.pool.blockPool, b ∈ bs
  resolved : ∀ b ∈ resolvedIn c.layered.storage.log, b ∈ bs
  layer : ∀ id ∈ c.layered.blockLayer, ∃ b ∈ bs, b.getBlockIdB64 env = id

variable {env}

theorem TidyBlocks.init {bs : List Block} {b : Block} (h : TidyBlocks env (bs ++ [b])) :
    TidyBlocks env bs ∧ b.blockId ≠ [] ∧ (∀ a ∈ bs, a.blockId ≠ b.blockId) ∧
      ∀ u ∈ usersOf env b, underscore ∉ u := by
  have hids := h.ids
  rw [List.map_append, List.nodup_append] at hids
  refine ⟨⟨hids.1, fun a ha => h.id_ne a (by simp [ha]), fun a ha => h.plain a (by simp [ha])⟩,
    h.id_ne b (by simp), fun a ha heq => ?_, h.plain b (by simp)⟩
  exact hids.2.2 _ (List.mem_map_of_mem ha) b.blockId (by simp) heq

namespace Pool

theorem node_of_ascend {bins : List Bin} {i : Nat} {q : Int} {path : List UnresolvedBlock}
    (h : ascend UnresolvedBlock.prevVectorIdx bins i q = some path) :
    ∀ e ∈ path, ∃ d j, node bins d j = some e := by
  induction i generalizing q path with
  | zero =>
    unfold ascend at h
    split at h
    · cases h
    · obtain ⟨e, he, rfl⟩ := Option.map_eq_some_iff.mp h
      intro a ha
      rw [List.mem_singleton.mp ha]
      exact ⟨0, _, he⟩
  | succ i ih =>
    unfold ascend at h
    split at h
    · cases h
    · obtain ⟨e, he, h⟩ := Option.bind_eq_some_iff.mp h
      obtain ⟨up, hup, rfl⟩ := Option.map_eq_some_iff.mp h
      intro a ha
      rcases List.mem_cons.mp ha with rfl | ha
      · exact ⟨i + 1, _, he⟩
      · exact ih hup a ha

/-- A layer lists blocks of the pool. -/
theorem mem_layerAt {bins : List Bin} {last : Nat} {pos : BlockPosOnMap} {ids : List Bytes}
    (h : layerAt env bins last pos = .ok ids) :
    ∀ id ∈ ids, ∃ b ∈ blocksOf bins, b.getBlockIdB64 env = id := by
  unfold layerAt at h
  split at h
  · cases h
  split at h
  · cases h
    simp
  · split at h
    · rename_i path hpath
      cases h
      intro id hid
      obtain ⟨e, he, rfl⟩ := List.mem_map.mp hid
      obtain ⟨d, j, hn⟩ := node_of_ascend hpath e he
      exact ⟨e.block, mem_blocksOf_of_node hn, rfl⟩
    · cases h

/-- Nothing waits for a block that is higher than everything in the pool. -/
theorem Ok.forwards_of_highest {p : Pool} (hok : p.Ok) {i : Nat} {x : UnresolvedBlock}
    (hheight : x.block.height = p.lastHeight + 1 + i)
    (hlow : ∀ b ∈ blocksOf p.blockPool, b.height < x.block.height) {f : Forward}
    (hf : f ∈ forwardsFrom env (inserted p.blockPool i x) i (p.bin i).length x) : f.block = x.block := by
  rcases place_of_forward hf with hb | ⟨d, k, e, _, hn, _⟩
  · exact hb
  · -- an entry above the new one was in the pool before
    obtain ⟨e₀, hn₀, hblock⟩ : ∃ e₀, node p.blockPool (i + 1 + d) k = some e₀ ∧ e₀.block = e.block := by
      cases d with
      | zero =>
        rw [Nat.add_zero, node_inserted_next, Option.map_eq_some_iff] at hn
        obtain ⟨e₀, hn₀, rfl⟩ := hn
        refine ⟨e₀, hn₀, ?_⟩
        split <;> rfl
      | succ d =>
        rw [node_inserted_other (by omega) (by omega)] at hn
        exact ⟨e, hn, rfl⟩
    have hh := WellLinked.height_of_mem hok (mem_bin_of_node hn₀)
    have := hlow e₀.block (mem_blocksOf_of_node hn₀)
    omega

/-- Without a block above the last height nothing is in memory. -/
theorem Backed.memory_eq_nil {p : Pool} {mem : List LedgerRecord} {v : Ledger} (h : p.Backed env mem v) (hok : p.Ok)
    (hlow : ∀ a ∈ blocksOf p.blockPool, a.height ≤ p.lastHeight) : mem = [] := by
  rw [List.eq_nil_iff_forall_not_mem]
  intro r hr
  obtain ⟨d, j, e, hn, _⟩ := h.owned r hr
  have hheight := WellLinked.height_of_mem hok (mem_bin_of_node hn)
  have hle := hlow _ (mem_blocksOf_of_node hn)
  omega

end Pool

namespace ChainState

theorem Blank.knows {c : ChainState} (h : c.Blank) : c.Knows env [] := by
  refine ⟨?_, ?_, ?_⟩
  · simp [h.bins, Pool.blocksOf]
  · simp [h.log, resolvedIn]
  · simp [h.layer]

theorem Knows.mono {c : ChainState} {bs bs' : List Block} (h : c.Knows env bs) (hsub : ∀ b ∈ bs, b ∈ bs') :
    c.Knows env bs' := by
  refine ⟨fun b hb => hsub b (h.pool b hb), fun b hb => hsub b (h.resolved b hb), fun id hid => ?_⟩
  obtain ⟨a, ha, he⟩ := h.layer id hid
  exact ⟨a, hsub a ha, he⟩

/-- A block on top of everything known is fair. -/
theorem Backed.fair_of_highest {c : ChainState} {bs : List Block} {b : Block} {now : Nat} (h : c.Backed env)
    (hok : c.pool.Ok) (hknows : c.Knows env bs) (htidy : TidyBlocks env (bs ++ [b]))
    (hhigh : ∀ a ∈ bs, a.height < b.height) (hw : c.pool.NoWrap now b.height) : c.Fair env now b := by
  intro r p' acc hpush
  obtain ⟨_, hne, hids, hplain⟩ := htidy.init
  have hnew : c.pool.NewId b := ⟨hne, fun a ha => hids a (hknows.pool a ha)⟩
  refine ⟨hnew, hplain, ?_⟩
  rcases Pool.push_cases env hpush with ⟨hn, _⟩ | ⟨hn, _⟩ | ⟨i, prev, a, ha, hlow, hearly, hidx, _, hprev, hacc⟩
  · cases hn
  · cases hn
  cases ha
  have hheight : b.height = c.pool.lastHeight + 1 + i := by
    rw [Pool.binIdx_of_lt hlow hw.2.2.1 (hw.lt_of_not_early hlow hearly)] at hidx
    omega
  have hnew' : (c.pool.grow (i + 1)).NewId b := ⟨hne, by rw [Pool.blocksOf_grow]; exact hnew.2⟩
  have hlow' : ∀ a ∈ Pool.blocksOf (c.pool.grow (i + 1)).blockPool, a.height < b.height := by
    rw [Pool.blocksOf_grow]
    exact fun a ha => hhigh a (hknows.pool a ha)
  rw [← Pool.prevQueueIdx_grow c.pool (i + 1)] at hprev
  rw [hacc.inserted.2]
  rcases (hok.grow (i + 1)).linked_of_accepts (Pool.length_grow c.pool (i + 1)) hprev (fun _ => hnew'.first _) hacc with
    ⟨hl, anc, hanc, hlayer⟩ | ⟨hl, _, _⟩
  · rw [if_pos hl]
    have honly : ∀ f ∈ Pool.forwardsFrom env (Pool.inserted (c.pool.grow (i + 1)).blockPool i
        ⟨prev, r.linked, 0, r.blockLayer, b⟩) i ((c.pool.grow (i + 1)).bin i).length
        ⟨prev, r.linked, 0, r.blockLayer, b⟩, f.block = b := fun f hf =>
      (hok.grow (i + 1)).forwards_of_highest hheight hlow' hf
    refine ⟨fun f hf g hg hdiff => absurd ?_ hdiff, fun f hf hnil id hid => ?_⟩
    · rw [Pool.Forward.id, Pool.Forward.id, honly f hf, honly g hg]
    · obtain ⟨a, ha, rfl⟩ := hknows.layer id hid
      refine ⟨fun g hg heq => ?_, fun u _ => ?_⟩
      · rw [Pool.Forward.id, honly g hg] at heq
        exact hids a ha (env.base64.encode_injective heq)
      · -- a call without a layer is for a block on the last one, and then the pool is empty
        have hi : i = 0 := by
          obtain ⟨ids, hids⟩ := (Pool.grows_forwardsFrom _ _ _ _).suffix f hf
          have hempty : r.blockLayer = [] := (List.append_eq_nil_iff.mp (hids.symm.trans hnil)).2
          rw [hlayer] at hempty
          cases i with
          | zero => rfl
          | succ i =>
            obtain ⟨_, e, up, _, _, rfl, _⟩ := hanc
            simp at hempty
        have hnone : c.layered.memLedger = [] := h.pool.memory_eq_nil hok fun a ha => by
          have hlt := hhigh a (hknows.pool a ha)
          omega
        rw [hnone]
        rfl
  · rw [hl]
    exact ⟨by simp, by simp⟩

theorem blockLayer_saveResolved {ls ls' : LayeredStorage} {e : UnresolvedBlock}
    (h : saveResolved env ls e = .ok ls') : ls'.blockLayer = ls.blockLayer := by
  rcases saveResolved_cases env h with ⟨_, rfl⟩ | ⟨_, hsave⟩
  · rfl
  · obtain ⟨_, _, _, rfl⟩ := saveChecked_eq_ok env hsave
    rfl

theorem blockLayer_dropLedgers (ls : LayeredStorage) (ids : List Bytes) :
    (ids.foldl LayeredStorage.dropLedger ls).blockLayer = ls.blockLayer := by
  induction ids generalizing ls with
  | nil => rfl
  | cons id ids ih => rw [List.foldl_cons, ih, LayeredStorage.dropLedger]

/-- Resolving leaves the installed layer. -/
theorem blockLayer_procResolved {c c' : ChainState} (h : c.procResolvedBlocksIf env = .ok c') :
    c'.layered.blockLayer = c.layered.blockLayer := by
  obtain ⟨layered, hf, h⟩ := bind_eq_ok.mp h
  cases h
  have hfold := foldlM_invariant (P := fun s : LayeredStorage => s.blockLayer = c.layered.blockLayer)
    (fun s e t _ hs ht => (blockLayer_saveResolved ht).trans hs) (by rw [blockLayer_dropLedgers]; rfl) hf
  exact hfold

/-- A delivery makes at most the delivered block known. -/
theorem Knows.delivers {c c' : ChainState} {bs : List Block} {b : Block} {now : Nat} {r : PushResult}
    (h : c.Knows env bs) (hd : c.Delivers env now b c' r) : c'.Knows env (bs ++ [b]) := by
  have hpush : ∀ {c₁ : ChainState}, c.push env now b false = .ok (r, c₁) → c₁.Knows env (bs ++ [b]) := by
    intro c₁ hp
    obtain ⟨a, hpool, happly⟩ := (push_eq_ok env).mp hp
    have hblocks : ∀ a ∈ Pool.blocksOf c₁.pool.blockPool, a ∈ bs ++ [b] := by
      intro a ha
      rcases Pool.mem_blocksOf_push env hpool ha with rfl | ha
      · simp
      · exact List.mem_append_left _ (h.pool a ha)
    have hresolved : ∀ a ∈ resolvedIn c₁.layered.storage.log, a ∈ bs ++ [b] := by
      rw [(touches_push env hp).resolvedIn_eq]
      exact fun a ha => List.mem_append_left _ (h.resolved a ha)
    refine ⟨hblocks, hresolved, ?_⟩
    rcases Pool.push_cases env hpool with ⟨rfl, _⟩ | ⟨rfl, _⟩ | ⟨i, prev, acc, rfl, _, _, _, _, _, hacc⟩
    · rw [happly]
      exact (h.mono fun a ha => List.mem_append_left _ ha).layer
    · rw [happly]
      exact (h.mono fun a ha => List.mem_append_left _ ha).layer
    · obtain ⟨storage, _, happly⟩ := bind_eq_ok.mp happly
      obtain ⟨forwarded, _, happly⟩ := bind_eq_ok.mp happly
      rw [← Except.ok.inj happly]
      intro id hid
      obtain ⟨a, ha, he⟩ := Pool.mem_layerAt hacc.most id hid
      exact ⟨a, hblocks a ha, he⟩
  have hcache : ∀ {a a' : ChainState}, a.Recached a' → a.Knows env (bs ++ [b]) → a'.Knows env (bs ++ [b]) := by
    rintro a a' ⟨⟨_, _, _, hp⟩, hl⟩ ha
    exact ⟨by rw [hp]; exact ha.pool, by rw [hl]; exact ha.resolved, by rw [hl]; exact ha.layer⟩
  cases hd with
  | kept hp _ hc => exact hcache hc (hpush hp)
  | @resolved c₁ c₂ c₃ hp _ hq hr hc =>
    have hknows := hcache hq (hpush hp)
    obtain ⟨ws, _, hres, ls, ht, _, hf⟩ := procResolved_cases env hr
    refine hcache hc ⟨fun a ha => hknows.pool a (hres.mem_blocksOf (Or.inr ha)), fun a ha => ?_, ?_⟩
    · rw [(saving_foldlM env hf).resolved, ht.resolvedIn_eq, Storage.logResolved, resolvedIn_append,
        resolvedIn_resolved] at ha
      rcases List.mem_append.mp ha with ha | ha
      · exact hknows.resolved a ha
      · exact hknows.pool a (hres.mem_blocksOf (Or.inl ha))
    · rw [blockLayer_procResolved hr]
      exact hknows.layer

end ChainState

/-- In order, the ledger always is the one of the resolved blocks. -/
theorem Merger.InOrder.commits {m₀ m : Merger} {bs : List Block} (h₀ : m₀.chain.Blank)
    (h : Merger.InOrder env m₀ bs m) (htidy : TidyBlocks env bs) (hv : m.SavedAll) :
    Linked m₀.chain.pool.tip bs ∧ m.chain.Knows env bs ∧ m.chain.pool.Ok ∧ m.chain.Backed env ∧
      ChainState.Commits env m₀.ledger [] m.chain := by
  induction h with
  | start => exact ⟨trivial, h₀.knows, h₀.ok, h₀.backed, h₀.commits⟩
  | @deliver m m' bs b now body r hrun hb hf hw hs ih =>
    have hlinked : ∀ {bs : List Block}, Linked m₀.chain.pool.tip bs →
        Follows (tipOf m₀.chain.pool.tip bs) b → Linked m₀.chain.pool.tip (bs ++ [b]) :=
      fun hl hf => Trail.valid_append.mpr ⟨hl, hf, trivial⟩
    rcases Merger.handleMsgBlock_cases env hs with ⟨_, rfl⟩ | ⟨block, hb', _, hd⟩
    · obtain ⟨hl, hknows, hrest⟩ := ih htidy.init.1 hv
      exact ⟨hlinked hl hf, hknows.mono fun a ha => List.mem_append_left _ ha, hrest⟩
    · obtain rfl : b = block := by
        rw [hb] at hb'
        exact Option.some.inj (Except.ok.inj hb')
      obtain ⟨hl, hknows, hok, hback, hcom⟩ :=
        ih htidy.init.1 fun b hmem => hv b ((ChainState.log_delivers hd).subset hmem)
      have hhigh : ∀ a ∈ bs, a.height < b.height := by
        intro a ha
        have := hl.height_le ha
        have := hf.2.2
        omega
      have hfair := hback.fair_of_highest hok hknows htidy hhigh hw
      obtain ⟨hback', hcom'⟩ := hback.delivers hok hw hfair hcom hd hv
      exact ⟨hlinked hl hf, hknows.delivers hd, ChainState.ok_delivers hok hw hd, hback', hcom'⟩

/-- The ledger on disk after a fair run is the one that the same resolved blocks give
when they arrive in order without rivals. -/
theorem Merger.ledger_agreement {m₀ m m₀' m' : Merger} {bs : List Block} (h₀ : m₀.chain.Blank)
    (h : Merger.Run env (Merger.LedgerFair env) m₀ m) (hv : m.SavedAll) (h₀' : m₀'.chain.Blank)
    (hdisk : m₀'.ledger = m₀.ledger) (h' : Merger.InOrder env m₀' bs m') (htidy : TidyBlocks env bs)
    (hv' : m'.SavedAll) (hsame : m'.resolved = m.resolved) :
    commitAll env m₀.ledger m.resolved = .ok m.ledger ∧ m'.ledger = m.ledger := by
  obtain ⟨_, _, bs₁, hlog₁, hcom₁⟩ := h.commits h₀ hv
  obtain ⟨_, _, _, _, bs₂, hlog₂, hcom₂⟩ := h'.commits h₀' htidy hv'
  rw [List.nil_append] at hlog₁ hlog₂
  obtain rfl : m.resolved = bs₁ := hlog₁
  obtain rfl : m'.resolved = bs₂ := hlog₂
  rw [hsame, hdisk] at hcom₂
  exact ⟨hcom₁, Except.ok.inj (hcom₂.symm.trans hcom₁)⟩

namespace Sample

/-- The blocks of the rows with these numbers. -/
def blocksAt (rows : List Row) (order : List Nat) : List Block :=
  order.filterMap fun row => rows[row]?.map fun r => r.block row

theorem mem_blocksAt {rows : List Row} {order : List Nat} {b : Block} :
    b ∈ blocksAt rows order ↔ ∃ row ∈ order, ∃ r, rows[row]? = some r ∧ r.block row = b := by
  simp [blocksAt, List.mem_filterMap, Option.map_eq_some_iff]

theorem blank_initial : initial.chain.Blank := ⟨rfl, rfl, rfl, rfl, rfl⟩

/-- A run knows the blocks of its rows. -/
theorem knows_run {rows : List Row} {now : Nat} {order : List Nat} {m : Merger} (hg : Good rows)
    (hn : now < 2 ^ 64) (h : run rows now order initial = .ok m) :
    m.chain.Knows (world rows) (blocksAt rows order) := by
  refine (foldlM_invariant (P := fun s : Merger => s.chain.Knows (world rows) (blocksAt rows order) ∧
    s.chain.pool.lastTime ≤ now) ?_ ⟨blank_initial.knows.mono (by simp), Nat.zero_le _⟩ h).1
  rintro s row t hmem ⟨hknows, htime⟩ hd
  cases hr : rows[row]? with
  | none =>
    rw [deliver, hr] at hd
    cases hd
    exact ⟨hknows, htime⟩
  | some r =>
    obtain ⟨hinit, _, ⟨res, hmsg⟩, ht⟩ := deliver_eq_ok hg hn htime hr hd
    refine ⟨?_, ht⟩
    rcases Merger.handleMsgBlock_cases _ hmsg with ⟨_, rfl⟩ | ⟨b, hb, _, hdel⟩
    · exact hknows
    · rw [hinit] at hb
      cases hb
      refine (hknows.delivers hdel).mono fun a ha => ?_
      rcases List.mem_append.mp ha with ha | ha
      · exact ha
      · exact mem_blocksAt.mpr ⟨row, hmem, r, hr, (List.mem_singleton.mp ha).symm⟩

theorem eq_of_ids {table bs bs' : List Block} (hids : (table.map Block.blockId).Nodup) (hbs : bs ⊆ table)
    (hbs' : bs' ⊆ table) (h : bs.map Block.blockId = bs'.map Block.blockId) : bs = bs' := by
  induction bs generalizing bs' with
  | nil => exact (List.map_eq_nil_iff.mp h.symm).symm
  | cons b bs ih =>
    obtain ⟨b', bs', rfl, hid, hrest⟩ := List.map_eq_cons_iff.mp h.symm
    rw [List.cons_subset] at hbs hbs'
    rw [List.inj_on_of_nodup_map hids hbs'.1 hbs.1 hid, ih hbs.2 hbs'.2 hrest.symm]

theorem resolved_subset {rows : List Row} {now : Nat} {order : List Nat} {m : Merger} (hg : Good rows)
    (hn : now < 2 ^ 64) (h : run rows now order initial = .ok m) : m.resolved ⊆ tableOf rows := by
  intro b hb
  obtain ⟨row, _, r, hr, rfl⟩ := mem_blocksAt.mp ((knows_run hg hn h).resolved b hb)
  exact List.mem_of_getElem? (tableOf_row hg hr)

/-- Rows that link to each other make a run in order. -/
theorem inOrder_run {rows : List Row} {now : Nat} {order : List Nat} {m : Merger} (hg : Good rows)
    (hn : now < 2 ^ 64) (hrows : ∀ row ∈ order, row < rows.length)
    (hl : Linked initial.chain.pool.tip (blocksAt rows order)) (h : run rows now order initial = .ok m) :
    Merger.InOrder (world rows) initial (blocksAt rows order) m ∧ m.chain.pool.lastTime ≤ now := by
  induction order using List.reverseRecOn generalizing m with
  | nil =>
    cases h
    exact ⟨.start, Nat.zero_le _⟩
  | append_singleton order row ih =>
    obtain ⟨m₁, h₁, h₂⟩ := foldlM_concat_eq_ok.mp h
    obtain ⟨r, hr⟩ : ∃ r, rows[row]? = some r :=
      ⟨_, List.getElem?_eq_getElem (hrows row (by simp))⟩
    have hblocks : blocksAt rows (order ++ [row]) = blocksAt rows order ++ [r.block row] := by
      simp [blocksAt, hr]
    rw [hblocks] at hl ⊢
    obtain ⟨hl₁, hf, _⟩ := Trail.valid_append.mp hl
    obtain ⟨hin, htime⟩ := ih (fun row h => hrows row (by simp [h])) hl₁ h₁
    obtain ⟨hinit, hw, ⟨res, hmsg⟩, ht⟩ := deliver_eq_ok hg hn htime hr h₂
    exact ⟨.deliver hin hinit hf hw hmsg, ht⟩

/-- Every delivery is fair to the ledger. -/
def Fairly (rows : List Row) (now : Nat) : Merger → List Nat → Prop
  | _, [] => True
  | m, row :: order =>
    (∀ r ∈ rows[row]?, m.chain.Fair (world rows) now (r.block row)) ∧
      ∀ m' ∈ (deliver rows now m row).toOption, Fairly rows now m' order

theorem fair_run {rows : List Row} {now : Nat} {order : List Nat} {m₀ m : Merger} (hg : Good rows)
    (hn : now < 2 ^ 64) (ht : m₀.chain.pool.lastTime ≤ now) (hf : Fairly rows now m₀ order)
    (h : run rows now order m₀ = .ok m) :
    Merger.Run (world rows) (Merger.LedgerFair (world rows)) m₀ m := by
  induction order generalizing m₀ with
  | nil =>
    cases h
    exact .refl
  | cons row order ih =>
    obtain ⟨m₁, hd, h⟩ := foldlM_cons_eq_ok.mp h
    have hrest : Fairly rows now m₁ order := hf.2 m₁ (by rw [hd]; rfl)
    cases hr : rows[row]? with
    | none =>
      rw [deliver, hr] at hd
      cases hd
      exact ih ht hrest h
    | some r =>
      obtain ⟨hinit, hw, ⟨res, hmsg⟩, ht'⟩ := deliver_eq_ok hg hn ht hr hd
      refine Merger.Run.trans _ (.step .refl (fun b hb => ?_) hmsg) (ih ht' hrest h)
      rw [hinit] at hb
      cases hb
      exact ⟨hw, hf.1 r hr⟩

instance (env : Env) (c : ChainState) (now : Nat) (block : Block) : Decidable (c.Fair env now block) :=
  match h : c.pool.push env now block with
  | .error _ => isTrue fun _ _ _ heq => by rw [h] at heq; cases heq
  | .ok (_, _, none) => isTrue fun _ _ _ heq => by rw [h] at heq; cases heq
  | .ok (_, _, some a) =>
    decidable_of_iff ((block.blockId ≠ [] ∧ ∀ b ∈ Pool.blocksOf c.pool.blockPool, b.blockId ≠ block.blockId) ∧
      (∀ u ∈ usersOf env block, underscore ∉ u) ∧
      (∀ f ∈ a.forwards, ∀ g ∈ a.forwards, f.id env ≠ g.id env → ∀ u ∈ usersOf env f.block, u ∉ usersOf env g.block) ∧
      ∀ f ∈ a.forwards, f.layer = [] → ∀ id ∈ c.layered.blockLayer, (∀ g ∈ a.forwards, id ≠ g.id env) ∧
        ∀ u ∈ usersOf env f.block, getVal c.layered.memLedger (wrapKey u) id = none) <| by
      constructor
      · rintro ⟨hnew, hplain, hu, hi⟩ r p' a' heq
        rw [h] at heq
        cases heq
        exact ⟨hnew, hplain, hu, hi⟩
      · intro hfair
        obtain ⟨hnew, hplain, hu, hi⟩ := hfair _ _ a h
        exact ⟨hnew, hplain, hu, hi⟩

instance decidableFairly (rows : List Row) (now : Nat) :
    (m : Merger) → (order : List Nat) → Decidable (Fairly rows now m order)
  | _, [] => isTrue trivial
  | m, row :: order =>
    have := fun m' => decidableFairly rows now m' order
    inferInstanceAs (Decidable ((∀ r ∈ rows[row]?, m.chain.Fair (world rows) now (r.block row)) ∧
      ∀ m' ∈ (deliver rows now m row).toOption, Fairly rows now m' order))

instance (env : Env) (bs : List Block) : Decidable (TidyBlocks env bs) :=
  decidable_of_iff ((bs.map Block.blockId).Nodup ∧ (∀ b ∈ bs, b.blockId ≠ []) ∧
    ∀ b ∈ bs, ∀ u ∈ usersOf env b, underscore ∉ u)
    ⟨fun h => ⟨h.1, h.2.1, h.2.2⟩, fun h => ⟨h.ids, h.id_ne, h.plain⟩⟩

instance decidableLinked : (t : Tip) → (bs : List Block) → Decidable (Linked t bs)
  | _, [] => isTrue trivial
  | t, b :: bs =>
    have := decidableLinked b.tip bs
    inferInstanceAs (Decidable ((b.prevBlockId = t.id ∧ b.prevBlockHash = t.hash ∧ b.height = t.height + 1) ∧
      Linked b.tip bs))

/-- A transaction that registers a certificate of a user. -/
def certTx (user : Bytes) : Transaction := tx .certificates [user, [80]]

/-- Four blocks in a row, the first two for the same user. -/
def certRows : List Row :=
  [⟨[1], genesisBlockPrevId base, genesisBlockPrevHash base, 1, [good 1, good 2, good 3], [certTx [65]]⟩,
   ⟨[2], [1], hashOf 0, 2, [good 1, good 2, good 3], [certTx [65]]⟩,
   ⟨[3], [2], hashOf 1, 3, [good 1, good 2, good 3], [digestTx]⟩,
   ⟨[4], [3], hashOf 2, 4, [good 1], [digestTx]⟩]

/-- Four blocks in a row and a rival of the second one; users of neighbours differ. -/
def rivalRows : List Row :=
  [⟨[1], genesisBlockPrevId base, genesisBlockPrevHash base, 1, [good 1, good 2, good 3], [certTx [65]]⟩,
   ⟨[2], [1], hashOf 0, 2, [good 1, good 2, good 3], [certTx [66]]⟩,
   ⟨[3], [2], hashOf 1, 3, [good 1, good 2, good 3], [certTx [65]]⟩,
   ⟨[4], [3], hashOf 2, 4, [good 1], [digestTx]⟩,
   ⟨[5], [1], hashOf 0, 2, [good 1], [certTx [67]]⟩]

end Sample

/-- The count that the ledger on disk holds for a user. -/
def Merger.countOf (m : Merger) (user : Bytes) : Bytes := (m.ledger.read (wrapKey user)).toText

theorem Merger.savedAll_iff {m : Merger} : m.SavedAll ↔
    m.chain.layered.storage.log.all (fun | .checked _ false => false | _ => true) = true := by
  rw [List.all_eq_true]
  constructor
  · intro h e he
    split
    · exact absurd he (h _)
    · rfl
  · intro h b hmem
    exact absurd (h _ hmem) (by simp)

instance (m : Merger) : Decidable m.SavedAll := decidable_of_iff _ Merger.savedAll_iff.symm

/-- A run with the second block and its rival first, and one in order. -/
theorem Merger.ledger_agreement_rival : ∃ m m',
    Merger.Run (Sample.world Sample.rivalRows) (Merger.LedgerFair (Sample.world Sample.rivalRows)) Sample.initial m ∧
    Merger.InOrder (Sample.world Sample.rivalRows) Sample.initial (Sample.blocksAt Sample.rivalRows [0, 1, 2, 3]) m' ∧
    m.resolved.map Block.blockId = [[1], [2], [3]] ∧ m.countOf [65] = ascii "2" ∧
    commitAll (Sample.world Sample.rivalRows) Sample.initial.ledger m.resolved = .ok m.ledger ∧
    m'.ledger = m.ledger := by
  have hrun : okAnd (fun m : Merger => decide (m.resolved.map Block.blockId = [[1], [2], [3]]) &&
      (decide (m.countOf [65] = ascii "2") && decide m.SavedAll))
      (Sample.run Sample.rivalRows 1000 [1, 4, 0, 2, 3] Sample.initial) = true := by decide +kernel
  have hrun' : okAnd (fun m : Merger => decide (m.resolved.map Block.blockId = [[1], [2], [3]]) &&
      decide m.SavedAll) (Sample.run Sample.rivalRows 1000 [0, 1, 2, 3] Sample.initial) = true := by
    decide +kernel
  obtain ⟨m, hm, htest⟩ := okAnd_eq_true.mp hrun
  obtain ⟨m', hm', htest'⟩ := okAnd_eq_true.mp hrun'
  simp only [Bool.and_eq_true, decide_eq_true_eq] at htest htest'
  have hg : Sample.Good Sample.rivalRows := by decide +kernel
  have hfair := Sample.fair_run hg (by decide) (by decide) (by decide +kernel) hm
  have hin := (Sample.inOrder_run hg (by decide) (by decide) (by decide +kernel) hm').1
  have hids : ((Sample.tableOf Sample.rivalRows).map Block.blockId).Nodup := by decide +kernel
  have hsame : m'.resolved = m.resolved :=
    Sample.eq_of_ids hids (Sample.resolved_subset hg (by decide) hm')
      (Sample.resolved_subset hg (by decide) hm) (htest'.1.trans htest.1.symm)
  exact ⟨m, m', hfair, hin, htest.1, htest.2.1, Merger.ledger_agreement Sample.blank_initial hfair htest.2.2
    Sample.blank_initial rfl hin (by decide +kernel) htest'.2 hsame⟩

/-- With the second block first, the user counts once where both blocks register it:
neither the run that receives exactly the resolved blocks nor the one that resolves
exactly them ends with this ledger. -/
theorem Merger.ledger_disagreement : ∃ m m₁ m₂,
    Merger.Run (Sample.world Sample.certRows) (Merger.NoWrap (Sample.world Sample.certRows)) Sample.initial m ∧
    m.resolved = Sample.blocksAt Sample.certRows [0, 1, 2] ∧ m.SavedAll ∧
    TidyBlocks (Sample.world Sample.certRows) (Sample.blocksAt Sample.certRows [0, 1, 2, 3]) ∧
    Merger.InOrder (Sample.world Sample.certRows) Sample.initial m.resolved m₁ ∧
    Merger.InOrder (Sample.world Sample.certRows) Sample.initial (Sample.blocksAt Sample.certRows [0, 1, 2, 3]) m₂ ∧
    m₂.resolved = m.resolved ∧ m.countOf [65] = ascii "1" ∧
    m₁.countOf [65] = ascii "2" ∧ m₂.countOf [65] = ascii "2" ∧ m₁.ledger ≠ m.ledger ∧ m₂.ledger ≠ m.ledger := by
  have hrun : okAnd (fun m : Merger => decide (m.resolved.map Block.blockId = [[1], [2], [3]]) &&
      (decide (m.countOf [65] = ascii "1") && decide m.SavedAll))
      (Sample.run Sample.certRows 1000 [1, 0, 2, 3] Sample.initial) = true := by decide +kernel
  have hrun₁ : okAnd (fun m : Merger => decide (m.countOf [65] = ascii "2"))
      (Sample.run Sample.certRows 1000 [0, 1, 2] Sample.initial) = true := by decide +kernel
  have hrun₂ : okAnd (fun m : Merger => decide (m.resolved.map Block.blockId = [[1], [2], [3]]) &&
      decide (m.countOf [65] = ascii "2")) (Sample.run Sample.certRows 1000 [0, 1, 2, 3] Sample.initial) = true := by
    decide +kernel
  obtain ⟨m, hm, htest⟩ := okAnd_eq_true.mp hrun
  obtain ⟨m₁, hm₁, htest₁⟩ := okAnd_eq_true.mp hrun₁
  obtain ⟨m₂, hm₂, htest₂⟩ := okAnd_eq_true.mp hrun₂
  simp only [Bool.and_eq_true, decide_eq_true_eq] at htest htest₁ htest₂
  have hg : Sample.Good Sample.certRows := by decide +kernel
  have hids : ((Sample.tableOf Sample.certRows).map Block.blockId).Nodup := by decide +kernel
  have hsub := Sample.resolved_subset hg (by decide) hm
  have hres : m.resolved = Sample.blocksAt Sample.certRows [0, 1, 2] := by
    refine Sample.eq_of_ids hids hsub (fun b hb => ?_) (htest.1.trans (by decide +kernel))
    obtain ⟨row, _, r, hr, rfl⟩ := Sample.mem_blocksAt.mp hb
    exact List.mem_of_getElem? (Sample.tableOf_row hg hr)
  have hsame := Sample.eq_of_ids hids (Sample.resolved_subset hg (by decide) hm₂) hsub
    (htest₂.1.trans htest.1.symm)
  have hdiffer : ∀ {a : Merger}, a.countOf [65] = ascii "2" → a.ledger ≠ m.ledger := by
    intro a ha heq
    have hcount : a.countOf [65] = m.countOf [65] := by rw [Merger.countOf, Merger.countOf, heq]
    rw [ha, htest.2.1] at hcount
    exact absurd hcount (by decide)
  refine ⟨m, m₁, m₂, Sample.run_is_run hg (by decide) (by decide) hm, hres, htest.2.2, by decide +kernel, ?_,
    (Sample.inOrder_run hg (by decide) (by decide) (by decide +kernel) hm₂).1, hsame, htest.2.1, htest₁,
    htest₂.2, hdiffer htest₁, hdiffer htest₂.2⟩
  rw [hres]
  exact (Sample.inOrder_run hg (by decide) (by decide) (by decide +kernel) hm₁).1

end GruutMerger
