import GruutMerger.LedgerPool
import GruutMerger.Resolution
import GruutMerger.StoredRun

/-!
# The ledger over runs

Resolving a block moves its records to disk and drops those of its rivals. In a
run whose ledger calls keep out of each other's way, the ledger on disk is what
the resolved blocks give when they are registered one after the other.
-/
namespace GruutMerger

open ByteText Forest KeyValue Fallible CertificateLedger

variable {env : Env}

namespace Pool

theorem Backed.counted {p : Pool} {mem : List LedgerRecord} {v : Ledger} (h : p.Backed env mem v) :
    p.counted.Backed env mem v := by
  have hskel : skeleton p.counted.blockPool = skeleton p.blockPool := skeleton_updateConfirmLevel _
  exact ⟨h.toTidy.congr (blocksOf_counted p).symm, h.recorded.congr hskel.symm,
    fun r hr => (h.owned r hr).congr hskel.symm⟩

/-- What stays when a block is resolved. -/
def kept (env : Env) (bin : Bin) (w : UnresolvedBlock) (id : Bytes) : Bool :=
  decide (id ≠ w.block.getBlockIdB64 env) && decide (id ∉ dropped env bin w)

/-- No block that is left has the id of the resolved one or of a dropped one. -/
theorem Tidy.kept_of_rest {bin : Bin} {rest : List Bin} {w : UnresolvedBlock} (h : Tidy env (bin :: rest))
    (hw : w ∈ bin) {b : Block} (hb : b ∈ blocksOf rest) : kept env bin w (b.getBlockIdB64 env) = true := by
  have hids := h.ids
  simp only [IdsDiffer, blocksOf, List.flatten_cons, List.map_append, List.nodup_append] at hids
  have hother : ∀ e ∈ bin, b.getBlockIdB64 env ≠ e.block.getBlockIdB64 env := by
    intro e he heq
    refine hids.2.2 e.block.blockId ?_ b.blockId ?_ (env.base64.encode_injective heq).symm
    · exact List.mem_map_of_mem (List.mem_map_of_mem he)
    · exact List.mem_map_of_mem hb
  rw [kept, Bool.and_eq_true]
  refine ⟨decide_eq_true (hother w hw), decide_eq_true fun hmem => ?_⟩
  obtain ⟨e, he, heq⟩ := mem_of_dropped hmem
  exact hother e he heq.symm

/-- Nothing of the first bin is kept. -/
theorem ne_of_kept {bin : Bin} {w : UnresolvedBlock} (hw : w ∈ bin) {id : Bytes} (h : kept env bin w id = true) :
    ∀ e ∈ bin, e.block.getBlockIdB64 env ≠ id := by
  rw [kept, Bool.and_eq_true, decide_eq_true_eq, decide_eq_true_eq] at h
  rintro e he rfl
  have hne : e.block.blockId ≠ w.block.blockId := fun heq => h.1 (congrArg env.base64.encode heq)
  exact h.2 (mem_dropped hw he hne)

/-- New links of the first bin leave the owners what they are. -/
theorem Owner.rebase {next : Bin} {rest : List Bin} {id : Bytes} (h : Owner env (next :: rest) id) (p : Pool) :
    Owner env (p.rebase next :: rest) id := by
  refine h.mono fun d j a ha _ => ?_
  cases d with
  | zero =>
    rw [node_cons_zero] at ha
    refine ⟨{ a with prevVectorIdx := if p.namesLast a.block then 0 else -1 }, ?_, rfl, Or.inl rfl⟩
    rw [node_cons_zero, getElem?_rebase, ha]
    rfl
  | succ d => exact ⟨a, by simpa using ha, rfl, Or.inr rfl⟩

/-- The entries that hung on index `idx` are the roots of the new first bin. -/
theorem Recorded.rebase {mem : List LedgerRecord} {v : Ledger} {next : Bin} {rest : List Bin} {idx : Nat}
    (h : Recorded env mem v (next :: rest) idx) {p : Pool}
    (hnames : ∀ e ∈ next, p.namesLast e.block = true ↔ e.prevVectorIdx = idx) :
    Recorded env mem v (p.rebase next :: rest) 0 := by
  intro j e he hk
  rw [getElem?_rebase, Option.map_eq_some_iff] at he
  obtain ⟨a, ha, rfl⟩ := he
  have hlast : p.namesLast a.block = true := by
    by_contra hn
    simp [hn] at hk
  exact h j a ha ((hnames a (List.mem_of_getElem? ha)).mp hlast)

/-- Resolving one block: its records are those it gives on the ledger, and the rest of
the pool keeps its own over the ledger after it. -/
theorem Backed.advance {p : Pool} {mem : List LedgerRecord} {v : Ledger} {w : UnresolvedBlock}
    (h : p.Backed env mem v) (hok : p.Ok) (hw : resolvable p.blockPool = some w) :
    commit env v w.block = .ok (v.write ((recordsOf mem (w.block.getBlockIdB64 env)).map ledgerPut)) ∧
      (p.advance w).Backed env (mem.filter fun r => kept env (p.bin 0) w r.blockIdB64)
        (v.write ((recordsOf mem (w.block.getBlockIdB64 env)).map ledgerPut)) ∧
      ∀ b ∈ blocksOf (p.advance w).blockPool, kept env (p.bin 0) w (b.getBlockIdB64 env) = true := by
  obtain ⟨bin, next, rest, idx, hbins, hat, hroot, hnew, hnames⟩ := hok.advance_bins hw
  have hbin : p.bin 0 = bin := by simp [Pool.bin, hbins]
  have htidy := h.toTidy
  have hrecorded := h.recorded
  have howned := h.owned
  rw [hbins] at htidy hrecorded howned
  rw [hbin]
  have hmem := List.mem_of_getElem? hat
  obtain ⟨hown, hbelow⟩ := hrecorded idx w hat hroot
  have hblocks : blocksOf (p.advance w).blockPool = blocksOf (next :: rest) := by
    rw [hnew, blocksOf_eq, blocksOf_eq, List.map_cons, List.map_cons, blocks_rebase]
  have hkept : ∀ b ∈ blocksOf (next :: rest), kept env bin w (b.getBlockIdB64 env) = true :=
    fun b hb => htidy.kept_of_rest hmem hb
  refine ⟨commit_of_records hown, ⟨htidy.sublist ?_, ?_, fun r hr => ?_⟩, by rw [hblocks]; exact hkept⟩
  · rw [hblocks]
    exact (List.sublist_append_right bin _).map _
  · rw [hnew]
    refine Recorded.rebase (hbelow.of_memory fun d j e hc => ?_) hnames
    exact recordsOf_filter _ (hkept _ (mem_blocksOf_of_node hc.node_eq))
  · obtain ⟨hr, hkeep⟩ := List.mem_filter.mp hr
    rw [hnew]
    exact ((howned r hr).tail (ne_of_kept hmem hkeep)).rebase _

/-- The ledger after the records of some entries went to disk. -/
def written (env : Env) (mem : List LedgerRecord) (v : Ledger) (ws : List UnresolvedBlock) : Ledger :=
  ws.foldl (fun v w => v.write ((recordsOf mem (w.block.getBlockIdB64 env)).map ledgerPut)) v

theorem written_congr {mem mem' : List LedgerRecord} {v : Ledger} {ws : List UnresolvedBlock}
    (h : ∀ w ∈ ws, recordsOf mem' (w.block.getBlockIdB64 env) = recordsOf mem (w.block.getBlockIdB64 env)) :
    written env mem' v ws = written env mem v ws := by
  unfold written
  exact List.foldl_ext _ _ v fun v w hw => by rw [h w hw]

/-- Resolving any number of blocks. -/
theorem Resolves.backed {p p' : Pool} {ws : List UnresolvedBlock} {ds : List Bytes}
    (hr : Resolves env p ws ds p') {mem : List LedgerRecord} {v : Ledger} (hok : p.Ok)
    (h : p.Backed env mem v) :
    commitAll env v (ws.map (·.block)) = .ok (written env mem v ws) ∧
      p'.Backed env (mem.filter fun r => decide (r.blockIdB64 ∉ ds) && decide (r.blockIdB64 ∉ idsOf env ws))
        (written env mem v ws) ∧
      (idsOf env ws).Nodup ∧ ∀ id ∈ idsOf env ws, id ∉ ds := by
  induction hr generalizing mem v with
  | stop _ => exact ⟨rfl, by simpa [idsOf, written] using h.counted, by simp [idsOf], by simp [idsOf]⟩
  | @step p p' w ws ds hw hrest ih =>
    obtain ⟨hcommit, hnext, hkept⟩ := h.counted.advance hok.counted hw
    obtain ⟨hall, hback, hnd, hapart⟩ := ih (hok.counted.advance hw) hnext
    have hkeeps : ∀ e ∈ ws, kept env (p.counted.bin 0) w (e.block.getBlockIdB64 env) = true :=
      fun e he => hkept _ (hrest.mem_blocksOf (Or.inl (List.mem_map_of_mem he)))
    have hwritten : written env (mem.filter fun r => kept env (p.counted.bin 0) w r.blockIdB64)
        (v.write ((recordsOf mem (w.block.getBlockIdB64 env)).map ledgerPut)) ws =
        written env mem v (w :: ws) := written_congr fun e he => recordsOf_filter _ (hkeeps e he)
    rw [hwritten] at hall hback
    refine ⟨foldlM_cons_eq_ok.mpr ⟨_, hcommit, hall⟩, ?_, ?_, ?_⟩
    · rw [List.filter_filter] at hback
      convert hback using 2
      funext r
      rw [Bool.eq_iff_iff]
      simp only [kept, idsOf_cons, List.mem_cons, List.mem_append, not_or, Bool.and_eq_true,
        decide_eq_true_eq]
      tauto
    · refine List.nodup_cons.mpr ⟨fun hmem => ?_, hnd⟩
      obtain ⟨e, he, heq⟩ := List.mem_map.mp hmem
      have := hkeeps e he
      simp [kept, heq] at this
    · intro id hid hmem
      rcases List.mem_cons.mp hid with rfl | hid
      · rcases List.mem_append.mp hmem with hmem | hmem
        · exact not_mem_dropped_self hmem
        · obtain ⟨b, hb, heq⟩ := hrest.mem_drops _ hmem
          have := hkept b hb
          simp [kept, heq] at this
      · rcases List.mem_append.mp hmem with hmem | hmem
        · obtain ⟨e, he, rfl⟩ := List.mem_map.mp hid
          have := hkeeps e he
          simp [kept, hmem] at this
        · exact hapart id hid hmem

end Pool

namespace ChainState

/-- Saving a block moves its records to the ledger on disk. -/
theorem ledger_saveChecked {ls ls' : LayeredStorage} {b : Block} (hb : ls.storage.batch .ledger = [])
    (h : saveChecked env ls b = .ok ls') :
    ls'.storage.disk .ledger = Store.write (ls.storage.disk .ledger)
        ((recordsOf ls.memLedger (b.getBlockIdB64 env)).map ledgerPut) ∧
      ls'.storage.batch .ledger = [] ∧
      ls'.memLedger = ls.memLedger.filter fun r => decide (r.blockIdB64 ≠ b.getBlockIdB64 env) := by
  obtain ⟨answer, storage, hsave, rfl⟩ := saveChecked_eq_ok env h
  have hblock := Storage.touches_saveBlock env ls.storage b.blockRaw (b.getBlockHeaderJson env)
    (.object (b.bodyFields env))
  rw [hsave] at hblock
  have hbatch : storage.batch .ledger = [] := (hblock.batch_eq (by decide)).trans hb
  have hdisk : storage.disk .ledger = ls.storage.disk .ledger := hblock.disk_eq (by decide)
  obtain ⟨hd, hb'⟩ := ledger_moveToDiskLedger { ls with storage := storage } (b.getBlockIdB64 env)
  rw [hbatch, hdisk, List.nil_append] at hd
  exact ⟨hd, hb', rfl⟩

/-- Saving some resolved blocks, none of which fails its check. -/
theorem ledger_foldlM {ws : List UnresolvedBlock} {ls ls' : LayeredStorage} (hb : ls.storage.batch .ledger = [])
    (hnd : (Pool.idsOf env ws).Nodup) (hv : ∀ b, .checked b false ∉ ls'.storage.log)
    (h : ws.foldlM (saveResolved env) ls = .ok ls') :
    ls'.storage.disk .ledger = Pool.written env ls.memLedger (ls.storage.disk .ledger) ws ∧
      ls'.storage.batch .ledger = [] ∧
      ls'.memLedger = ls.memLedger.filter fun r => decide (r.blockIdB64 ∉ Pool.idsOf env ws) := by
  induction ws generalizing ls with
  | nil =>
    obtain rfl : ls = ls' := by simpa using h
    exact ⟨rfl, hb, by simp⟩
  | cons w ws ih =>
    obtain ⟨ls₁, hw, h⟩ := foldlM_cons_eq_ok.mp h
    have hlog := (saving_foldlM env h).log
    rcases saveResolved_cases env hw with ⟨_, rfl⟩ | ⟨_, hsave⟩
    · exact absurd (hlog.subset (List.mem_append_right _ (by simp))) (hv w.block)
    · obtain ⟨hnot, hnd⟩ := List.nodup_cons.mp hnd
      obtain ⟨hdisk, hbatch, hmem⟩ := ledger_saveChecked (by exact hb) hsave
      obtain ⟨hdisk', hbatch', hmem'⟩ := ih hbatch hnd h
      refine ⟨?_, hbatch', ?_⟩
      · rw [hdisk', hdisk, hmem]
        refine Pool.written_congr fun e he => ?_
        refine recordsOf_filter (fun id => decide (id ≠ w.block.getBlockIdB64 env))
          (decide_eq_true fun heq => hnot ?_)
        have hmem : e.block.getBlockIdB64 env ∈ Pool.idsOf env ws := Pool.mem_idsOf env he
        rwa [heq] at hmem
      · rw [hmem', hmem, List.filter_filter]
        congr 1
        funext r
        rw [Bool.eq_iff_iff]
        simp only [Pool.idsOf_cons, List.mem_cons, not_or, Bool.and_eq_true, decide_eq_true_eq]
        tauto

/-- Resolving commits the resolved blocks to the ledger, as long as all of them are
saved. -/
theorem Backed.procResolved {c c' : ChainState} (h : c.Backed env) (hok : c.pool.Ok)
    (hr : c.procResolvedBlocksIf env = .ok c') (hv : ∀ b, .checked b false ∉ c'.layered.storage.log) :
    c'.Backed env ∧ ∃ ws : List UnresolvedBlock,
      resolvedIn c'.layered.storage.log = resolvedIn c.layered.storage.log ++ ws.map (·.block) ∧
      commitAll env (c.layered.storage.disk .ledger) (ws.map (·.block)) =
        .ok (c'.layered.storage.disk .ledger) := by
  obtain ⟨ws, ds, hres, ls, ht, hmem, hf⟩ := procResolved_cases env hr
  obtain ⟨hall, hback, hnd, hapart⟩ := hres.backed hok h.pool
  have hbatch : ls.storage.batch .ledger = [] := (ht.batch_eq (by decide)).trans h.batch
  have hledger : ls.storage.disk .ledger = c.layered.storage.disk .ledger := ht.disk_eq (by decide)
  obtain ⟨hdisk, hbatch', hmem'⟩ := ledger_foldlM hbatch hnd hv hf
  have hwritten : Pool.written env ls.memLedger (ls.storage.disk .ledger) ws =
      Pool.written env c.layered.memLedger (c.layered.storage.disk .ledger) ws := by
    rw [hledger, hmem]
    refine Pool.written_congr fun e he => recordsOf_filter (fun id => decide (id ∉ ds)) ?_
    exact decide_eq_true (hapart _ (Pool.mem_idsOf env he))
  rw [hwritten] at hdisk
  refine ⟨⟨?_, hbatch'⟩, ws, ?_, ?_⟩
  · rw [hmem', hmem, List.filter_filter, hdisk]
    convert hback using 2
    funext r
    exact Bool.and_comm _ _
  · rw [(saving_foldlM env hf).resolved, ht.resolvedIn_eq, Storage.logResolved, resolvedIn_append,
      resolvedIn_resolved]
  · rw [hdisk]
    exact hall

theorem Backed.recached {c c' : ChainState} (h : c.Backed env) (hc : c.Recached c') : c'.Backed env := by
  obtain ⟨⟨link, layer, pos, hp⟩, hl⟩ := hc
  have hbins : c'.pool.blockPool = c.pool.blockPool := by rw [hp]
  refine ⟨⟨?_, ?_, ?_⟩, ?_⟩
  · rw [hbins]
    exact h.pool.toTidy
  · rw [hbins, hl]
    exact h.pool.recorded
  · rw [hbins, hl]
    exact h.pool.owned
  · rw [hl]
    exact h.batch

variable (env)

/-- The ledger on disk is the one of the blocks resolved since it was `v`. -/
def Commits (v : Ledger) (old : List Block) (c : ChainState) : Prop :=
  ∃ bs, resolvedIn c.layered.storage.log = old ++ bs ∧ commitAll env v bs = .ok (c.layered.storage.disk .ledger)

variable {env}

theorem Commits.append {v : Ledger} {old : List Block} {c c' : ChainState} (h : Commits env v old c)
    (bs : List Block)
    (hlog : resolvedIn c'.layered.storage.log = resolvedIn c.layered.storage.log ++ bs)
    (hc : commitAll env (c.layered.storage.disk .ledger) bs = .ok (c'.layered.storage.disk .ledger)) :
    Commits env v old c' := by
  obtain ⟨bs₀, hlog₀, hc₀⟩ := h
  refine ⟨bs₀ ++ bs, by rw [hlog, hlog₀, List.append_assoc], ?_⟩
  exact foldlM_append_eq_ok.mpr ⟨_, hc₀, hc⟩

theorem Backed.delivers {c c' : ChainState} {now : Nat} {block : Block} {r : PushResult} {v : Ledger}
    {old : List Block} (h : c.Backed env) (hok : c.pool.Ok) (hw : c.pool.NoWrap now block.height)
    (hfair : c.Fair env now block) (hc : Commits env v old c) (hd : c.Delivers env now block c' r)
    (hv : ∀ b, .checked b false ∉ c'.layered.storage.log) : c'.Backed env ∧ Commits env v old c' := by
  have hpush : ∀ {c₁ : ChainState}, c.push env now block false = .ok (r, c₁) →
      c₁.Backed env ∧ Commits env v old c₁ ∧ c₁.pool.Ok := by
    intro c₁ hp
    obtain ⟨hb, hledger⟩ := h.push hok hfair hp
    obtain ⟨a, hpool, _⟩ := (push_eq_ok env).mp hp
    refine ⟨hb, hc.append [] ?_ ?_, hok.push env hw hpool⟩
    · rw [(touches_push env hp).resolvedIn_eq, List.append_nil]
    · rw [hledger]
      rfl
  cases hd with
  | kept hp _ hq =>
    obtain ⟨hb, hcom, _⟩ := hpush hp
    exact ⟨hb.recached hq, by rw [Commits, hq.2]; exact hcom⟩
  | @resolved c₁ c₂ c₃ hp _ hq hr hq' =>
    obtain ⟨hb, hcom, hok₁⟩ := hpush hp
    have hok₂ : c₂.pool.Ok := by
      obtain ⟨_, _, _, hp₂⟩ := hq.1
      rw [hp₂]
      exact hok₁
    rw [hq'.2] at hv
    obtain ⟨hb₃, ws, hlog, hall⟩ := (hb.recached hq).procResolved hok₂ hr hv
    have hcom₂ : Commits env v old c₂ := by rw [Commits, hq.2]; exact hcom
    have hcom₃ := hcom₂.append _ hlog hall
    exact ⟨hb₃.recached hq', by rw [Commits, hq'.2]; exact hcom₃⟩

end ChainState
end GruutMerger
