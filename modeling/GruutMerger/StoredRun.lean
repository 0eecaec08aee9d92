import GruutMerger.MergerRun

/-!
# The stored chain over runs

A run in which every resolved block passes the late check and can be saved
keeps storage a picture of the resolved chain. A block that is resolved and not
saved leaves a gap, since the pool has already moved past it.
-/
namespace GruutMerger

open ByteText KeyValue Fallible

variable (env : Env)

/-- A block that `saveBlock` accepts, under an id that storage can tell from none. -/
structure Block.Savable (b : Block) : Prop where
  ssigs_ne : b.ssigs ≠ []
  txs_ne : b.transactions ≠ []
  id_ne : b.blockId ≠ []
  height_lt : b.height < 2 ^ 63

/-- No late check failed, and the resolved blocks can be saved side by side. -/
structure AllSaved (log : List Event) : Prop where
  valid : ∀ b, .checked b false ∉ log
  savable : ∀ b ∈ resolvedIn log, b.Savable
  nodup : ((resolvedIn log).map Block.blockId).Nodup

instance (b : Block) : Decidable b.Savable :=
  decidable_of_iff (b.ssigs.isEmpty = false ∧ b.transactions.isEmpty = false ∧ b.blockId ≠ [] ∧
    b.height < 2 ^ 63)
    ⟨fun h => ⟨by simpa using h.1, by simpa using h.2.1, h.2.2.1, h.2.2.2⟩,
     fun h => ⟨by simpa using h.1, by simpa using h.2, h.3, h.4⟩⟩

/-- An event that is not a failed check. -/
def Event.passes : Event → Bool
  | .checked _ valid => valid
  | _ => true

instance (log : List Event) : Decidable (AllSaved log) :=
  decidable_of_iff (log.all Event.passes = true ∧ (∀ b ∈ resolvedIn log, b.Savable) ∧
    ((resolvedIn log).map Block.blockId).Nodup)
    ⟨fun h => ⟨fun b hb => absurd (List.all_eq_true.mp h.1 _ hb) (by simp [Event.passes]), h.2.1, h.2.2⟩,
     fun h => ⟨List.all_eq_true.mpr fun e he => by
       cases e with
       | checked b valid =>
         cases valid with
         | true => rfl
         | false => exact absurd he (h.valid b)
       | _ => rfl, h.savable, h.nodup⟩⟩

theorem AllSaved.of_prefix {l l' : List Event} (h : AllSaved l') (hp : l <+: l') : AllSaved l := by
  obtain ⟨t, rfl⟩ := hp
  have hnd := h.nodup
  rw [resolvedIn_append, List.map_append] at hnd
  exact
    { valid := fun b hb => h.valid b (List.mem_append_left _ hb)
      savable := fun b hb => h.savable b (by simp [hb])
      nodup := (List.nodup_append.mp hnd).1 }

namespace Storage

/-- An unreadable latest block makes `saveBlock` throw. -/
theorem saveBlock_latest_error {s : Storage} {b : Block} {e : Failure} (hs : b.ssigs ≠ [])
    (ht : b.transactions ≠ []) (hd : s.disk.getNthBlockLinkInfo env 0 = .error e) (body : Json) :
    (s.saveBlock env b.blockRaw (b.getBlockHeaderJson env) body).1 = .error e := by
  have hputs : (putBlock env s.disk b.blockRaw (b.getBlockHeaderJson env) body).2 = .error e := by
    simp only [putBlock, getStringOf_bID, putBlockHeader_block env hs ht, putLatestBlockHeader, hd,
      putBlockHeight, Puts.and]
  simp only [saveBlock, hputs]

end Storage

namespace ChainState

open Storage

/-- Saving the next block of the chain. -/
theorem represents_saveChecked {ls ls' : LayeredStorage} {b : Block} {bs : List Block}
    (hrep : Represents env ls.storage.disk bs) (hc : ls.storage.Clean)
    (hf : Follows (tipOf (genesisTip env) bs) b) (hs : b.Savable) (hh : b.blockHash = env.sha256 b.blockRaw)
    (hid : b.blockId ∉ bs.map Block.blockId) (h : saveChecked env ls b = .ok ls') :
    Represents env ls'.storage.disk (bs ++ [b]) := by
  obtain ⟨answer, storage, hsave, rfl⟩ := saveChecked_eq_ok env h
  cases hd : ls.storage.disk.getNthBlockLinkInfo env 0 with
  | error e =>
    have herr := saveBlock_latest_error env hs.ssigs_ne hs.txs_ne hd (.object (b.bodyFields env))
    rw [hsave] at herr
    cases herr
  | ok latest =>
    have hlt : latest.height < b.height := by
      have hlen := hrep.latest_height env hd
      have htip := hrep.linked.height_tipOf
      have hb := hf.2.2
      simp only [genesisTip] at htip hb
      omega
    obtain ⟨s', hs', hdisk, _⟩ := saveBlock_block env hc hs.ssigs_ne hs.txs_ne hd hs.height_lt hlt
    rw [hsave] at hs'
    cases hs'
    have hsaved := hrep.save env hf ⟨hh, hs.id_ne, hs.height_lt⟩ hid
    rw [← hdisk] at hsaved
    exact hsaved.congr env ((LayeredStorage.touches_moveToDiskLedger _ _).blocks_eq (by decide))

/-- Saving a chain of resolved blocks, none of which fails. -/
theorem represents_foldlM {ws : List UnresolvedBlock} {ls ls' : LayeredStorage} {bs : List Block}
    (hrep : Represents env ls.storage.disk bs) (hc : ls.storage.Clean)
    (hl : Linked (tipOf (genesisTip env) bs) (ws.map (·.block)))
    (hs : ∀ b ∈ ws.map (·.block), b.Savable ∧ b.blockHash = env.sha256 b.blockRaw)
    (hnd : ((bs ++ ws.map (·.block)).map Block.blockId).Nodup)
    (hv : ∀ b, .checked b false ∉ ls'.storage.log) (h : ws.foldlM (saveResolved env) ls = .ok ls') :
    Represents env ls'.storage.disk (bs ++ ws.map (·.block)) := by
  induction ws generalizing ls bs with
  | nil =>
    obtain rfl : ls = ls' := by simpa using h
    simpa using hrep
  | cons w ws ih =>
    obtain ⟨ls₁, hw, h⟩ := foldlM_cons_eq_ok.mp h
    have hlog := (saving_foldlM env h).log
    have hclean := (saving_saveResolved env hw).clean hc
    rcases saveResolved_cases env hw with ⟨_, rfl⟩ | ⟨_, hsave⟩
    · -- a failed check would be in the log
      exact absurd (hlog.subset (List.mem_append_right _ (by simp))) (hv w.block)
    · have hid : w.block.blockId ∉ bs.map Block.blockId := by
        simp only [List.map_append, List.map_cons, List.nodup_append] at hnd
        exact fun hmem => hnd.2.2 _ hmem _ (by simp) rfl
      obtain ⟨hsav, hhash⟩ := hs w.block (by simp)
      have hrep₁ : Represents env (logEvent ls (.checked w.block true)).storage.disk bs := hrep
      have hrep' := represents_saveChecked env hrep₁ hc hl.1 hsav hhash hid hsave
      have hl' : Linked (tipOf (genesisTip env) (bs ++ [w.block])) (ws.map (·.block)) := by
        rw [tipOf, Trail.finish_concat]
        exact hl.2
      have hres := ih hrep' hclean hl' (fun b hb => hs b (List.mem_cons_of_mem _ hb)) (by simpa using hnd) h
      simpa using hres

/-- Storage holds the resolved chain, as long as every resolved block is saved. -/
theorem represents_procResolved {c c' : ChainState} (hsane : Sane env c)
    (hrep : Represents env c.layered.storage.disk (resolvedIn c.layered.storage.log))
    (hr : c.procResolvedBlocksIf env = .ok c') (hall : AllSaved c'.layered.storage.log) :
    Represents env c'.layered.storage.disk (resolvedIn c'.layered.storage.log) := by
  obtain ⟨ws, ds, hres, ls, ht, _, hf⟩ := procResolved_cases env hr
  have hlinked := (hres.linked hsane.ok).1
  rw [hsane.tip] at hlinked
  have hlog : resolvedIn c'.layered.storage.log =
      resolvedIn c.layered.storage.log ++ ws.map (·.block) := by
    rw [(saving_foldlM env hf).resolved, ht.resolvedIn_eq, Storage.logResolved, resolvedIn_append,
      resolvedIn_resolved]
  have hrep' : Represents env ls.storage.disk (resolvedIn c.layered.storage.log) :=
    hrep.congr env (ht.blocks_eq (by decide))
  have hsound : ∀ b ∈ ws.map (·.block), b.Savable ∧ b.blockHash = env.sha256 b.blockRaw := by
    intro b hb
    refine ⟨hall.savable b ?_, (hsane.received b (hres.mem_blocksOf (Or.inl hb))).blockHash_eq⟩
    rw [hlog]
    exact List.mem_append_right _ hb
  have hnd := hall.nodup
  rw [hlog] at hnd ⊢
  exact represents_foldlM env hrep' (ht.clean (by decide) hsane.clean) hlinked hsound hnd hall.valid hf

theorem log_procResolved {c c' : ChainState} (hr : c.procResolvedBlocksIf env = .ok c') :
    c.layered.storage.log <+: c'.layered.storage.log := by
  obtain ⟨ws, ds, _, ls, ht, _, hf⟩ := procResolved_cases env hr
  have hmark : c.layered.storage.log <+: (c.layered.storage.logResolved (ws.map (·.block))).log :=
    List.prefix_append _ _
  exact (hmark.trans ht.log_extends).trans (saving_foldlM env hf).log

theorem represents_delivers {c c' : ChainState} {now : Nat} {block : Block} {r : PushResult}
    (hsane : Sane env c) (hw : c.pool.NoWrap now block.height) (hb : block.Received env)
    (hrep : AllSaved c.layered.storage.log →
      Represents env c.layered.storage.disk (resolvedIn c.layered.storage.log))
    (hd : c.Delivers env now block c' r) (hall : AllSaved c'.layered.storage.log) :
    Represents env c'.layered.storage.disk (resolvedIn c'.layered.storage.log) := by
  -- a push leaves the block databases and the marks alone
  have hpush : ∀ {c₁ : ChainState}, c.push env now block false = .ok (r, c₁) →
      AllSaved c₁.layered.storage.log →
      Represents env c₁.layered.storage.disk (resolvedIn c₁.layered.storage.log) := by
    intro c₁ hp hall₁
    have ht := touches_push env hp
    rw [ht.resolvedIn_eq]
    exact (hrep (hall₁.of_prefix ht.log_extends)).congr env (ht.blocks_eq (by decide))
  cases hd with
  | kept hp _ hc =>
    rw [hc.2] at hall ⊢
    exact hpush hp hall
  | resolved hp _ hq hr hc =>
    rw [hc.2] at hall ⊢
    have hrep₁ := hpush hp (by
      rw [← hq.2]
      exact hall.of_prefix (log_procResolved env hr))
    rw [← hq.2] at hrep₁
    exact represents_procResolved env ((hsane.push hw hb hp).recached hq) hrep₁ hr hall

end ChainState

/-- Storage is a picture of the resolved chain, in every run that saves what it
resolves. -/
theorem Merger.Run.represents {m₀ m : Merger} (h₀ : m₀.chain = ChainState.initial env)
    (h : Merger.Run env (Merger.NoWrap env) m₀ m) (hall : AllSaved m.chain.layered.storage.log) :
    Storage.Represents env m.chain.layered.storage.disk (resolvedIn m.chain.layered.storage.log) := by
  have hsane₀ : m₀.chain.Sane env := h₀ ▸ ChainState.Sane.initial env
  induction h with
  | refl =>
    rw [h₀]
    exact Storage.Represents.empty env
  | step hrun ha hs ih =>
    rcases Merger.handleMsgBlock_cases env hs with ⟨_, rfl⟩ | ⟨block, hb, _, hd⟩
    · exact ih hall
    · exact ChainState.represents_delivers env (hrun.sane (fun _ _ _ hw => hw) hsane₀) (ha block hb)
        (Block.received_of_body hb) ih hd hall

/-- No gaps in the stored chain, in every run from empty storage in which no
height or time wraps, every resolved block passes the late check and has
signatures, transactions and an id of its own. -/
theorem Merger.stored_chain_noGaps {m₀ m : Merger} (h₀ : m₀.chain = ChainState.initial env)
    (h : Merger.Run env (Merger.NoWrap env) m₀ m) (hall : AllSaved m.chain.layered.storage.log) :
    m.chain.layered.storage.disk.NoGaps env :=
  (h.represents env h₀ hall).noGaps env

/-- A run of four blocks that saves three of them. -/
theorem Merger.stored_chain_noGaps_chain : ∃ m,
    Merger.Run (Sample.world Sample.chainRows) (Merger.NoWrap (Sample.world Sample.chainRows)) Sample.initial m ∧
    AllSaved m.chain.layered.storage.log ∧ m.chain.layered.storage.disk.latestHeight = .ok 3 ∧
    m.chain.layered.storage.disk.NoGaps (Sample.world Sample.chainRows) := by
  have hrun : okAnd (fun m : Merger => decide (AllSaved m.chain.layered.storage.log) &&
      decide (m.chain.layered.storage.disk.latestHeight = .ok 3))
      (Sample.run Sample.chainRows 1000 [0, 1, 2, 3] Sample.initial) = true := by decide +kernel
  obtain ⟨m, hm, htest⟩ := okAnd_eq_true.mp hrun
  simp only [Bool.and_eq_true, decide_eq_true_eq] at htest
  have h := Sample.run_is_run (by decide +kernel) (by decide) (by decide) hm
  exact ⟨m, h, htest.1, htest.2, Merger.stored_chain_noGaps _ (Sample.initial_chain _) h htest.1⟩

/-- The second block of the row with a support signature that does not verify. -/
def Sample.gapRows : List Sample.Row :=
  Sample.chainRows.modify 1 fun r => { r with ssigs := [Sample.bad 1, Sample.good 2, Sample.good 3] }

/-- It is resolved and not saved, and the block on top of it is saved. -/
theorem Merger.stored_chain_gap : ∃ m,
    Merger.Run (Sample.world Sample.gapRows) (Merger.NoWrap (Sample.world Sample.gapRows)) Sample.initial m ∧
    m.chain.layered.storage.disk.latestHeight = .ok 3 ∧
    m.chain.layered.storage.disk.getNthBlockIdB64 2 = [] ∧
    ¬ m.chain.layered.storage.disk.NoGaps (Sample.world Sample.gapRows) := by
  have hrun : okAnd (fun m : Merger => decide (m.chain.layered.storage.disk.latestHeight = .ok 3) &&
      decide (m.chain.layered.storage.disk.getNthBlockIdB64 2 = []))
      (Sample.run Sample.gapRows 1000 [0, 1, 2, 3] Sample.initial) = true := by decide +kernel
  obtain ⟨m, hm, htest⟩ := okAnd_eq_true.mp hrun
  simp only [Bool.and_eq_true, decide_eq_true_eq] at htest
  refine ⟨m, Sample.run_is_run (by decide +kernel) (by decide) (by decide) hm, htest.1, htest.2, ?_⟩
  rintro ⟨n, hn, hheld⟩
  rw [htest.1] at hn
  cases hn
  exact (hheld 2 (by decide) (by decide)).held htest.2

end GruutMerger
