import GruutMerger.SaveBlock
import GruutMerger.BlockProcessor
import GruutMerger.PoolRun
import GruutMerger.Lib.Fallible

/-!
# Footprints

Which databases an operation may touch, on disk or in its batches, and that
the log keeps exactly the writes it made.
-/
namespace GruutMerger

open ByteText KeyValue Fallible

variable (env : Env)

namespace Storage

/-- Later storage after operations on the given databases only. -/
def Touches (dbs : List DBType) (s s' : Storage) : Prop :=
  ∃ writes : List DBWrite, s'.log = s.log ++ writes.map .write ∧ s'.disk = s.disk.replay writes ∧
    (∀ w ∈ writes, w.store ∈ dbs) ∧ ∀ what, what ∉ dbs → s'.batch what = s.batch what

variable {dbs dbs' : List DBType} {s s' s'' : Storage}

theorem Touches.refl (dbs : List DBType) (s : Storage) : Touches dbs s s :=
  ⟨[], by simp, rfl, by simp, fun _ _ => rfl⟩

theorem Touches.trans (h : Touches dbs s s') (h' : Touches dbs s' s'') : Touches dbs s s'' := by
  obtain ⟨ws, hlog, hdisk, hmem, hbatch⟩ := h
  obtain ⟨ws', hlog', hdisk', hmem', hbatch'⟩ := h'
  refine ⟨ws ++ ws', by simp [hlog', hlog], by rw [hdisk', hdisk, replay_append], ?_, ?_⟩
  · intro w hw
    rcases List.mem_append.mp hw with hw | hw
    · exact hmem w hw
    · exact hmem' w hw
  · intro what hw
    rw [hbatch' what hw, hbatch what hw]

theorem Touches.mono (h : Touches dbs s s') (hsub : dbs ⊆ dbs') : Touches dbs' s s' := by
  obtain ⟨ws, hlog, hdisk, hmem, hbatch⟩ := h
  exact ⟨ws, hlog, hdisk, fun w hw => hsub (hmem w hw), fun what hw => hbatch what fun hin => hw (hsub hin)⟩

theorem Touches.disk_eq (h : Touches dbs s s') {what : DBType} (hw : what ∉ dbs) :
    s'.disk what = s.disk what := by
  obtain ⟨ws, _, hdisk, hmem, _⟩ := h
  rw [hdisk]
  exact replay_other _ _ _ fun w hm heq => hw (heq ▸ hmem w hm)

/-- Writes elsewhere leave the databases of the blocks alone. -/
theorem Touches.blocks_eq (h : Touches dbs s s') (hd : ∀ what ∈ commitOrder, what ∉ dbs) :
    ∀ what ∈ commitOrder, s'.disk what = s.disk what := fun what hw => h.disk_eq (hd what hw)

theorem Touches.batch_eq (h : Touches dbs s s') {what : DBType} (hw : what ∉ dbs) :
    s'.batch what = s.batch what := by
  obtain ⟨_, _, _, _, hbatch⟩ := h
  exact hbatch what hw

theorem Touches.log_extends (h : Touches dbs s s') : s.log <+: s'.log := by
  obtain ⟨_, hlog, _⟩ := h
  exact ⟨_, hlog.symm⟩

theorem Touches.clean (h : Touches dbs s s') (hd : ∀ what ∈ commitOrder, what ∉ dbs) (hc : s.Clean) :
    s'.Clean := by
  intro what hw
  rw [h.batch_eq (hd what hw)]
  exact hc what hw

theorem touches_addBatch (s : Storage) {es : List Entry} (h : ∀ e ∈ es, e.what ∈ dbs) :
    Touches dbs s (s.addBatch es) := by
  refine ⟨[], by simp [addBatch], rfl, by simp, fun what hw => ?_⟩
  have hnone : es.filter (·.what = what) = [] := by
    rw [List.filter_eq_nil_iff]
    intro e he heq
    have hin := h e he
    rw [of_decide_eq_true heq] at hin
    exact hw hin
  simp [addBatch, hnone]

theorem touches_writeBatch (s : Storage) (what : DBType) : Touches [what] s (s.writeBatch what) :=
  ⟨[⟨what, s.batch what⟩], rfl, rfl, by simp, fun _ _ => rfl⟩

theorem touches_clearBatch (s : Storage) (what : DBType) : Touches [what] s (s.clearBatch what) := by
  refine ⟨[], by simp [clearBatch], rfl, by simp, fun w hw => ?_⟩
  exact Function.update_of_ne (by simpa using hw) _ _

theorem touches_saveLedger (s : Storage) (key : Bytes) (value : Value) :
    Touches [.ledger] s (s.saveLedger key value) :=
  touches_addBatch s (by simp)

theorem touches_flushLedger (s : Storage) : Touches [.ledger] s s.flushLedger :=
  (touches_writeBatch s .ledger).trans (touches_clearBatch _ .ledger)

theorem touches_flushBackup (s : Storage) : Touches [.blockBackup] s s.flushBackup :=
  (touches_writeBatch s .blockBackup).trans (touches_clearBatch _ .blockBackup)

theorem touches_delBackup (s : Storage) (key : Bytes) : Touches [.blockBackup] s (s.delBackup key) := by
  unfold delBackup
  split
  · exact .refl _ s
  · exact ⟨[], by simp, rfl, by simp, fun w hw => Function.update_of_ne (by simpa using hw) _ _⟩

theorem touches_foldl {α : Type} {f : Storage → α → Storage} (h : ∀ s x, Touches dbs s (f s x))
    (s : Storage) (xs : List α) : Touches dbs s (xs.foldl f s) := by
  induction xs generalizing s with
  | nil => exact .refl dbs s
  | cons x xs ih => exact (h s x).trans (ih (f s x))

theorem touches_trimBackup (s : Storage) (resolved drops : List Bytes) :
    Touches [.blockBackup] s (s.trimBackup resolved drops) := by
  unfold trimBackup
  simp only
  split
  · exact .refl _ s
  · have hadd : ∀ ids, Touches [.blockBackup] s (s.addBatch [backupIdsEntry ids]) :=
      fun ids => touches_addBatch s (by simp [backupIdsEntry])
    exact ((hadd _).trans (touches_foldl touches_delBackup _ _)).trans (touches_flushBackup _)

/-- The record a block is backed up in. -/
def backupRecord (b : Block) : Entry :=
  ⟨.blockBackup, b.getBlockIdB64 env,
    .cbor (.object (("blockraw", .string (env.base64.encode b.blockRaw)) :: b.bodyFields env))⟩

/-- The entries of a backup: a record a block, then the list of ids. -/
def backupEntries (blocks : List Block) : List Entry :=
  blocks.map (backupRecord env) ++ [backupIdsEntry (blocks.map (·.getBlockIdB64 env))]

theorem backupPool_eq_ok {bins : List Bin} : s.backupPool env bins = .ok s' ↔
    (∀ b ∈ Pool.blocksOf bins, b.transactions.length ≤ merkleTreeSize) ∧
      s' = (s.addBatch (backupEntries env (Pool.blocksOf bins))).flushBackup := by
  have hentry : ∀ (e : UnresolvedBlock) (y : Entry), backupEntry env e.block = .ok y ↔
      e.block.transactions.length ≤ merkleTreeSize ∧ y = backupRecord env e.block := by
    intro e y
    simp only [backupEntry, map_eq_ok, Block.serialize_eq_ok]
    constructor
    · rintro ⟨v, ⟨hle, rfl⟩, rfl⟩
      exact ⟨hle, rfl⟩
    · rintro ⟨hle, rfl⟩
      exact ⟨_, ⟨hle, rfl⟩, rfl⟩
  simp only [backupPool, bind_eq_ok, pure_eq_ok, mapM_eq_ok_map hentry, Pool.blocksOf, backupEntries,
    List.forall_mem_map, List.map_map]
  constructor
  · rintro ⟨entries, ⟨hle, rfl⟩, rfl⟩
    exact ⟨hle, rfl⟩
  · rintro ⟨hle, rfl⟩
    exact ⟨_, ⟨hle, rfl⟩, rfl⟩

theorem what_backupEntries (blocks : List Block) : ∀ e ∈ backupEntries env blocks, e.what = .blockBackup := by
  intro e he
  rcases List.mem_append.mp he with he | he
  · obtain ⟨b, _, rfl⟩ := List.mem_map.mp he
    rfl
  · rw [List.mem_singleton.mp he]
    rfl

theorem touches_backupPool {bins : List Bin} (h : s.backupPool env bins = .ok s') :
    Touches [.blockBackup] s s' := by
  obtain ⟨_, rfl⟩ := (backupPool_eq_ok env).mp h
  have hadd : Touches [.blockBackup] s (s.addBatch (backupEntries env (Pool.blocksOf bins))) :=
    touches_addBatch s fun e he => by simp [what_backupEntries env _ e he]
  exact hadd.trans (touches_flushBackup _)

theorem touches_clearBatchAll (s : Storage) : Touches commitOrder s s.clearBatchAll := by
  have h : ∀ what ∈ commitOrder, ∀ t, Touches commitOrder t (clearBatch t what) :=
    fun what hw t => (touches_clearBatch t what).mono (by simpa using hw)
  exact ((((h .blockHeader (by decide) s).trans (h .blockHeight (by decide) _)).trans
    (h .blockRaw (by decide) _)).trans (h .blockLatest (by decide) _)).trans (h .transaction (by decide) _)

theorem touches_commitBatchAll (s : Storage) : Touches commitOrder s s.commitBatchAll := by
  have h : ∀ what ∈ commitOrder, ∀ t, Touches commitOrder t (writeBatch t what) :=
    fun what hw t => (touches_writeBatch t what).mono (by simpa using hw)
  exact (((((h .blockHeader (by decide) s).trans (h .blockHeight (by decide) _)).trans
    (h .blockRaw (by decide) _)).trans (h .blockLatest (by decide) _)).trans
    (h .transaction (by decide) _)).trans (touches_clearBatchAll _)

/-- Entries for the databases of blocks only. -/
def BlockPuts (p : Puts) : Prop := ∀ e ∈ p.1, e.what ∈ commitOrder

theorem BlockPuts.and {a b : Puts} (ha : BlockPuts a) (hb : BlockPuts b) : BlockPuts (a.and b) := by
  unfold Puts.and
  split
  · intro e he
    rcases List.mem_append.mp he with he | he
    · exact ha e he
    · exact hb e he
  · exact ha

theorem blockPuts_putHeaderItem (header : Json) (id : Bytes) (item : String × String) :
    BlockPuts (putHeaderItem header id item) := by
  unfold putHeaderItem BlockPuts
  simp only
  repeat' split
  all_goals simp [commitOrder]

theorem blockPuts_putBlockHeader (header : Json) (id : Bytes) : BlockPuts (putBlockHeader header id) := by
  have h : ∀ (items : List (String × String)) (r : Puts), BlockPuts r →
      BlockPuts (items.foldl (fun r item => r.and (putHeaderItem header id item)) r) := by
    intro items
    induction items with
    | nil => exact fun r hr => hr
    | cons item items ih => exact fun r hr => ih _ (hr.and (blockPuts_putHeaderItem header id item))
  exact h _ _ (by simp [BlockPuts])

theorem blockPuts_putTransaction (body : Json) (id : Bytes) : BlockPuts (putTransaction body id) := by
  have htx (txs : List Json) : ∀ e ∈ txs.zipIdx.flatMap (txEntries id), e.what ∈ commitOrder := by
    intro e he
    obtain ⟨x, _, hx⟩ := List.mem_flatMap.mp he
    simp only [txEntries, List.mem_cons, List.not_mem_nil, or_false] at hx
    rcases hx with rfl | rfl | rfl <;> simp [commitOrder]
  unfold putTransaction BlockPuts
  split
  · simp
  · simp only
    split
    · intro e he
      rcases List.mem_append.mp he with he | he
      · exact htx _ e he
      · simp only [List.mem_cons, List.not_mem_nil, or_false] at he
        rcases he with rfl | rfl <;> simp [commitOrder]
    · exact htx _
  · simp

theorem blockPuts_putBlock (d : Records) (raw : Bytes) (header body : Json) :
    BlockPuts (putBlock env d raw header body) := by
  have hheight : BlockPuts (putBlockHeight header (Safe.getStringOf header "bID")) := by
    simp [BlockPuts, putBlockHeight, commitOrder]
  have hlatest : BlockPuts (putLatestBlockHeader env d header) := by
    unfold putLatestBlockHeader BlockPuts
    repeat' split
    all_goals simp [commitOrder]
  have hraw : BlockPuts (putBlockRaw env raw (Safe.getStringOf header "bID")) := by
    simp [BlockPuts, putBlockRaw, commitOrder]
  exact ((((blockPuts_putBlockHeader _ _).and hheight).and hlatest).and (blockPuts_putTransaction _ _)).and hraw

theorem touches_saveBlock (s : Storage) (raw : Bytes) (header body : Json) :
    Touches commitOrder s (s.saveBlock env raw header body).2 := by
  obtain ⟨es, r, hputs⟩ : ∃ es r, putBlock env s.disk raw header body = (es, r) := ⟨_, _, rfl⟩
  have hblock := blockPuts_putBlock env s.disk raw header body
  rw [hputs] at hblock
  have hadd : Touches commitOrder s (s.addBatch es) := touches_addBatch s hblock
  rw [saveBlock_eq env hputs]
  match r with
  | .ok true => exact hadd.trans (touches_commitBatchAll _)
  | .ok false => exact hadd.trans (touches_clearBatchAll _)
  | .error _ => exact hadd

end Storage

namespace LayeredStorage

open Storage

theorem touches_saveLedger (ls : LayeredStorage) (key : Bytes) (value : Value) (id : Bytes) :
    Touches [.ledger] ls.storage (ls.saveLedger key value id).storage := by
  unfold LayeredStorage.saveLedger
  split
  · exact Storage.touches_saveLedger _ _ _
  · exact .refl _ _

theorem touches_moveToDiskLedger (ls : LayeredStorage) (id : Bytes) :
    Touches [.ledger] ls.storage (ls.moveToDiskLedger id).storage :=
  (touches_foldl (fun st (r : LedgerRecord) => Storage.touches_saveLedger st r.key r.value) _ _).trans
    (touches_flushLedger _)

@[simp] theorem storage_dropLedger (ls : LayeredStorage) (id : Bytes) :
    (ls.dropLedger id).storage = ls.storage := rfl

theorem storage_dropLedgers (ls : LayeredStorage) (ids : List Bytes) :
    (ids.foldl dropLedger ls).storage = ls.storage := by
  induction ids generalizing ls with
  | nil => rfl
  | cons id ids ih => rw [List.foldl_cons, ih, storage_dropLedger]

theorem memLedger_dropLedgers (ls : LayeredStorage) (ids : List Bytes) :
    (ids.foldl dropLedger ls).memLedger = ls.memLedger.filter fun r => decide (r.blockIdB64 ∉ ids) := by
  induction ids generalizing ls with
  | nil => simp
  | cons id ids ih =>
    rw [List.foldl_cons, ih, dropLedger, List.filter_filter]
    congr 1
    funext r
    simp [Bool.and_comm]

end LayeredStorage

namespace ChainState

open Storage

theorem touches_registerCert {id : Bytes} {layer : List Bytes} {ls ls' : LayeredStorage}
    {entry : Bytes × Bytes} (h : CertificateLedger.registerCert env id layer ls entry = .ok ls') :
    Touches [.ledger] ls.storage ls'.storage := by
  obtain ⟨⟨count, number⟩, _, h⟩ := bind_eq_ok.mp h
  simp only at h
  split at h
  · cases h
    exact LayeredStorage.touches_saveLedger _ _ _ _
  · cases h
    exact (LayeredStorage.touches_saveLedger _ _ _ _).trans (LayeredStorage.touches_saveLedger _ _ _ _)

theorem touches_forwardBlock {ls ls' : LayeredStorage} {f : Pool.Forward}
    (h : forwardBlock env ls f = .ok ls') : Touches [.ledger] ls.storage ls'.storage :=
  foldlM_invariant (P := fun s => Touches [.ledger] ls.storage s.storage)
    (fun _ _ _ _ hs ht => hs.trans (touches_registerCert env ht)) (.refl _ _) h

theorem touches_applyAccepted {isRestore : Bool} {ls ls' : LayeredStorage} {a : Pool.Accepted}
    (h : applyAccepted env isRestore ls a = .ok ls') :
    Touches [.ledger, .blockBackup] ls.storage ls'.storage := by
  obtain ⟨storage, hs, h⟩ := bind_eq_ok.mp h
  obtain ⟨forwarded, hf, h⟩ := bind_eq_ok.mp h
  cases h
  have hbackup : Touches [.ledger, .blockBackup] ls.storage storage := by
    unfold backupUnless at hs
    split at hs
    · cases hs
      exact .refl _ _
    · exact (touches_backupPool env hs).mono (by simp)
  have hledger : Touches [.ledger, .blockBackup] storage forwarded.storage :=
    foldlM_invariant (P := fun s : LayeredStorage => Touches [.ledger, .blockBackup] storage s.storage)
      (fun s f t _ hs ht => hs.trans ((touches_forwardBlock env ht).mono (by simp))) (.refl _ _) hf
  exact hbackup.trans hledger

/-- A push writes no block records. -/
theorem touches_push {c c' : ChainState} {now : Nat} {block : Block} {isRestore : Bool} {r : PushResult}
    (h : c.push env now block isRestore = .ok (r, c')) :
    Touches [.ledger, .blockBackup] c.layered.storage c'.layered.storage := by
  obtain ⟨a, _, ha⟩ := (push_eq_ok env).mp h
  cases a with
  | none =>
    rw [ha]
    exact .refl _ _
  | some a => exact touches_applyAccepted env ha

end ChainState
end GruutMerger
