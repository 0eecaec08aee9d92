import GruutMerger.BackupStore
import GruutMerger.LedgerFeed
import GruutMerger.StoredRun

/-!
# The backup of the pool

A push that takes a block in writes a record for every block of the pool and the
list of their ids. Resolving takes the resolved ids off the list; the records
stay, since they are deleted under another key than they were written.
-/
namespace GruutMerger

open ByteText KeyValue Fallible

variable (env : Env)

/-- A block is on the backup list, and its record is there. -/
def Records.Keeps (d : Records) (b : Block) : Prop :=
  .string (b.getBlockIdB64 env) ∈ d.readBackupIds ∧
    d.readBackup (b.getBlockIdB64 env) = (Storage.backupRecord env b).value

/-- A block that is read again from its record. -/
structure Block.Restorable (b : Block) : Prop where
  received : b.Received env
  times : ∀ tx ∈ b.transactions, tx.sentTime < 2 ^ 63
  count : b.transactions.length ≤ merkleTreeSize

theorem Block.Restorable.deserialize {b : Block} (h : b.Restorable env) :
    Block.deserialize env (Storage.backupRecord env b).value = .ok (some b) :=
  h.received.deserialize_serialize env h.times ((Block.serialize_eq_ok env).mpr ⟨h.count, rfl⟩)

/-- A block that no push takes in: too low, or right above the last block and not on it. -/
def Pool.Barred (p : Pool) (b : Block) : Prop :=
  b.height ≤ p.lastHeight ∨ (b.height = p.lastHeight + 1 ∧ p.namesLast b = false)

/-- What the backup has of the pool. A block that shares its id with a later one of the pool
has no record of its own, and a resolved id is not on the list. -/
structure Storage.BackedUp (s : Storage) (p : Pool) (resolved : List Block) : Prop where
  pending : s.batch .blockBackup = []
  restorable : ∀ b ∈ Pool.blocksOf p.blockPool, b.Restorable env
  held : ∀ l₁ b l₂, Pool.blocksOf p.blockPool = l₁ ++ b :: l₂ → (∀ a ∈ l₂, a.blockId ≠ b.blockId) →
    b.blockId ≠ [] → b.blockId ∉ resolved.map Block.blockId → s.disk.Keeps env b
  only : ∀ j ∈ s.disk.readBackupIds, Safe.getString j ≠ [] → ∃ a, a.Restorable env ∧
    j = .string (a.getBlockIdB64 env) ∧ s.disk.Keeps env a ∧ (a ∈ Pool.blocksOf p.blockPool ∨ p.Barred a)

theorem Records.readBackupIds_of {d : Records} {ids : List Bytes}
    (h : d .blockBackup (backupKey unresolvedBlockIdsKey) = some (.cbor (.array (ids.map .string)))) :
    d.readBackupIds = ids.map .string := by
  rw [Records.readBackupIds, Records.readBackup_eq, h]
  rfl

theorem readBackupIds_congr {d d' : Records} (h : d' .blockBackup = d .blockBackup) :
    d'.readBackupIds = d.readBackupIds := by
  rw [Records.readBackupIds, Records.readBackupIds, Records.readBackup_eq, Records.readBackup_eq, h]

theorem Records.Keeps.congr {d d' : Records} {b : Block} (hk : d.Keeps env b) (h : d' .blockBackup = d .blockBackup) :
    d'.Keeps env b := by
  rw [Records.Keeps, readBackupIds_congr h, Records.readBackup_eq, h]
  exact hk

/-- No id is the key of the list. -/
theorem encode_ne_idsKey (b : Bytes) : env.base64.encode b ≠ unresolvedBlockIdsKey := by
  intro heq
  have hmem : underscore ∈ unresolvedBlockIdsKey := by decide
  exact env.base64.underscore_notMem b (heq ▸ hmem)

namespace Storage

theorem batch_delBackups (ids : List Bytes) (s : Storage) : (ids.foldl delBackup s).disk = s.disk ∧
    (ids.foldl delBackup s).batch .blockBackup =
      s.batch .blockBackup ++ (ids.filter fun id => decide (id ≠ [])).map .delete := by
  induction ids generalizing s with
  | nil => simp
  | cons id ids ih =>
    obtain ⟨hdisk, hbatch⟩ := ih (s.delBackup id)
    rw [List.foldl_cons, hdisk, hbatch]
    by_cases hid : id = []
    · simp [delBackup, hid]
    · simp [delBackup, hid]

variable {env}

/-- The backup after all blocks of a pool were written. -/
theorem keeps_backup {s s' : Storage} {blocks : List Block} (hp : s.batch .blockBackup = [])
    (hs : s' = (s.addBatch (backupEntries env blocks)).flushBackup) :
    s'.batch .blockBackup = [] ∧ s'.disk.readBackupIds = (blocks.map (·.getBlockIdB64 env)).map .string ∧
      ∀ l₁ b l₂, blocks = l₁ ++ b :: l₂ → (∀ a ∈ l₂, a.blockId ≠ b.blockId) → s'.disk.Keeps env b := by
  subst hs
  obtain ⟨hdisk, hbatch⟩ := flushBackup_eq (s.addBatch (backupEntries env blocks))
  rw [batch_addBatch _ (what_backupEntries env blocks), hp, List.nil_append] at hdisk
  have hids : (s.addBatch (backupEntries env blocks)).flushBackup.disk.readBackupIds =
      (blocks.map (·.getBlockIdB64 env)).map .string := by
    refine Records.readBackupIds_of ?_
    rw [hdisk, backupEntries, List.map_append]
    exact write_last _ _ [] (backupIdsEntry _).put (by simp)
  refine ⟨hbatch, hids, ?_⟩
  rintro l₁ b l₂ rfl hlater
  refine ⟨?_, ?_⟩
  · rw [hids]
    simp
  · have hsplit : (backupEntries env (l₁ ++ b :: l₂)).map Entry.put = (l₁.map (backupRecord env)).map Entry.put ++
        (backupRecord env b).put :: ((l₂.map (backupRecord env)).map Entry.put ++
          [(backupIdsEntry ((l₁ ++ b :: l₂).map (·.getBlockIdB64 env))).put]) := by
      simp [backupEntries]
    have hlast := write_last (s.disk .blockBackup) ((l₁.map (backupRecord env)).map Entry.put)
      ((l₂.map (backupRecord env)).map Entry.put ++ [(backupIdsEntry ((l₁ ++ b :: l₂).map (·.getBlockIdB64 env))).put])
      (backupRecord env b).put ?_
    · have hread : (s.addBatch (backupEntries env (l₁ ++ b :: l₂))).flushBackup.disk .blockBackup
          (backupKey (b.getBlockIdB64 env)) = some (backupRecord env b).value := by
        rw [hdisk, hsplit]
        exact hlast
      rw [Records.readBackup_eq, hread]
      rfl
    · intro o ho heq
      rcases List.mem_append.mp ho with ho | ho
      · simp only [List.map_map, List.mem_map] at ho
        obtain ⟨a, ha, rfl⟩ := ho
        exact hlater a ha (env.base64.encode_injective (backupKey_injective heq))
      · rw [List.mem_singleton.mp ho] at heq
        exact encode_ne_idsKey env _ (backupKey_injective heq).symm

theorem idsKey_ne_encode (b : Bytes) : env.base64.encode b ≠ backupKey unresolvedBlockIdsKey := by
  intro heq
  have hmem : underscore ∈ backupKey unresolvedBlockIdsKey := by decide
  exact env.base64.underscore_notMem b (heq ▸ hmem)

/-- A text with the letter of the database in front is no id, so no record is deleted. -/
theorem trimBackup_spec (hpad : env.base64.Padded) {s : Storage} (hp : s.batch .blockBackup = []) {resolved drops : List Bytes}
    (hids : ∀ id ∈ drops ++ resolved, ∃ b, id = env.base64.encode b) :
    (s.trimBackup resolved drops).batch .blockBackup = [] ∧
      (∀ j, j ∈ (s.trimBackup resolved drops).disk.readBackupIds ↔
        ∃ id, j = .string id ∧ id ≠ [] ∧ id ∉ resolved ∧ ∃ i ∈ s.disk.readBackupIds, Safe.getString i = id) ∧
      ∀ b, (s.trimBackup resolved drops).disk.readBackup (env.base64.encode b) =
        s.disk.readBackup (env.base64.encode b) := by
  unfold trimBackup
  simp only
  split
  · rename_i hempty
    rw [List.isEmpty_iff] at hempty
    exact ⟨hp, by simp [hempty], fun _ => rfl⟩
  · let ids := (s.disk.readBackupIds.map Safe.getString).filter fun id => decide (id ≠ [])
    let kept := ids.filter fun id => decide (id ∉ resolved)
    let gone := ids.filter fun id => decide (id ∈ resolved)
    obtain ⟨hdisk, hbatch⟩ := flushBackup_eq ((drops ++ gone).foldl delBackup (s.addBatch [backupIdsEntry kept]))
    obtain ⟨hsame, hdel⟩ := batch_delBackups (drops ++ gone) (s.addBatch [backupIdsEntry kept])
    rw [hsame, hdel, batch_addBatch _ (by simp [backupIdsEntry]), hp, List.nil_append] at hdisk
    have hdeleted : ∀ o ∈ ((drops ++ gone).filter fun id => decide (id ≠ [])).map (Op.delete (V := Value)),
        ∃ b, o.key = env.base64.encode b := by
      intro o ho
      obtain ⟨id, hid, rfl⟩ := List.mem_map.mp ho
      refine hids id ?_
      rcases List.mem_append.mp (List.mem_filter.mp hid).1 with hid | hid
      · exact List.mem_append_left _ hid
      · exact List.mem_append_right _ (of_decide_eq_true (List.mem_filter.mp hid).2)
    refine ⟨hbatch, ?_, ?_⟩
    · have hlist : ((drops ++ gone).foldl delBackup (s.addBatch [backupIdsEntry kept])).flushBackup.disk.readBackupIds =
          kept.map .string := by
        refine Records.readBackupIds_of ?_
        rw [hdisk]
        refine write_last _ [] _ (backupIdsEntry kept).put fun o ho heq => ?_
        obtain ⟨b, hb⟩ := hdeleted o ho
        exact idsKey_ne_encode b (hb ▸ heq)
      intro j
      rw [hlist]
      simp only [kept, ids, List.mem_map, List.mem_filter, decide_eq_true_eq]
      constructor
      · rintro ⟨id, ⟨⟨⟨i, hi, rfl⟩, hne⟩, hres⟩, rfl⟩
        exact ⟨_, rfl, hne, hres, i, hi, rfl⟩
      · rintro ⟨id, rfl, hne, hres, i, hi, rfl⟩
        exact ⟨_, ⟨⟨⟨i, hi, rfl⟩, hne⟩, hres⟩, rfl⟩
    · intro b
      rw [Records.readBackup_eq, Records.readBackup_eq, hdisk]
      refine congrArg (fun v : Option Value => v.getD (.text [])) (write_other _ _ _ fun o ho heq => ?_)
      rcases List.mem_append.mp ho with ho | ho
      · rw [List.map_singleton, List.mem_singleton] at ho
        rw [ho] at heq
        exact encode_ne_idsKey env b (backupKey_injective heq).symm
      · obtain ⟨a, ha⟩ := hdeleted o ho
        exact hpad.encode_ne_cons a b 83 (ha ▸ heq)

theorem BackedUp.initial : BackedUp env Storage.empty (ChainState.initial env).pool [] where
  pending := rfl
  restorable := by simp [ChainState.initial, Pool.setPool, Pool.fresh, Pool.blocksOf]
  held := by simp [ChainState.initial, Pool.setPool, Pool.fresh, Pool.blocksOf]
  only := by simp [Records.readBackupIds, Records.readBackup, Records.getValueByKey, Storage.empty]

/-- Only the backup database and the blocks and last block of the pool matter. -/
theorem BackedUp.congr {s s' : Storage} {p p' : Pool} {resolved : List Block} (h : s.BackedUp env p resolved)
    (hbatch : s'.batch .blockBackup = s.batch .blockBackup) (hdisk : s'.disk .blockBackup = s.disk .blockBackup)
    (hblocks : Pool.blocksOf p'.blockPool = Pool.blocksOf p.blockPool) (hbarred : ∀ b, p.Barred b → p'.Barred b) :
    s'.BackedUp env p' resolved where
  pending := hbatch.trans h.pending
  restorable := by
    rw [hblocks]
    exact h.restorable
  held l₁ b l₂ hsplit hlater hne hres := (h.held l₁ b l₂ (hblocks ▸ hsplit) hlater hne hres).congr env hdisk
  only j hj hne := by
    rw [readBackupIds_congr hdisk] at hj
    obtain ⟨a, hr, heq, hk, hin⟩ := h.only j hj hne
    refine ⟨a, hr, heq, hk.congr env hdisk, ?_⟩
    rw [hblocks]
    exact hin.imp_right (hbarred a)

end Storage

variable {env}

namespace Storage

/-- A new backup of all blocks. -/
theorem BackedUp.of_backup {s s' : Storage} {p : Pool} {resolved : List Block} (hp : s.batch .blockBackup = [])
    (hr : ∀ b ∈ Pool.blocksOf p.blockPool, b.Restorable env)
    (hs : s' = (s.addBatch (backupEntries env (Pool.blocksOf p.blockPool))).flushBackup) : s'.BackedUp env p resolved := by
  obtain ⟨hbatch, hids, hkeeps⟩ := keeps_backup hp hs
  refine ⟨hbatch, hr, fun l₁ b l₂ hsplit hlater _ _ => hkeeps l₁ b l₂ hsplit hlater, fun j hj _ => ?_⟩
  rw [hids, List.map_map, List.mem_map] at hj
  obtain ⟨b, hb, rfl⟩ := hj
  obtain ⟨l₁, a, l₂, hsplit, hid, hlater⟩ :=
    exists_last (p := fun a : Block => a.blockId = b.blockId) ⟨b, hb, rfl⟩
  have ha : a ∈ Pool.blocksOf p.blockPool := by simp [hsplit]
  refine ⟨a, hr a ha, ?_, hkeeps l₁ a l₂ hsplit (fun x hx => by rw [hid]; exact hlater x hx), Or.inl ha⟩
  simp only [Function.comp_apply, Block.getBlockIdB64, hid]

end Storage

namespace Pool

theorem barred_of_tip {p q : Pool} (h : q.tip = p.tip) {b : Block} : q.Barred b ↔ p.Barred b := by
  obtain ⟨hid, hhash, hheight⟩ := Tip.mk.inj h
  rw [Barred, Barred, namesLast, namesLast, hid, hhash, hheight]

/-- The blocks left after resolving are the last ones of those before. -/
theorem Resolves.blocksOf_append {p p' : Pool} {ws : List UnresolvedBlock} {ds : List Bytes}
    (hr : Resolves env p ws ds p') : ∃ l, blocksOf p.blockPool = l ++ blocksOf p'.blockPool := by
  induction hr with
  | @stop p _ => exact ⟨[], by rw [blocksOf_counted, List.nil_append]⟩
  | @step p p' w ws ds hw _ ih =>
    obtain ⟨l, hl⟩ := ih
    refine ⟨(p.counted.bin 0).map (·.block) ++ l, ?_⟩
    rw [← blocksOf_counted p, (blocksOf_advance hw).2, hl, List.append_assoc]

theorem Resolves.barred {p p' : Pool} {ws : List UnresolvedBlock} {ds : List Bytes} (hr : Resolves env p ws ds p')
    (h : p.Ok) {b : Block} (hb : p.Barred b) : p'.Barred b := by
  obtain ⟨hlinked, htip⟩ := hr.linked h
  have hheight : p'.lastHeight = p.lastHeight + (ws.map (·.block)).length := by
    have := congrArg Tip.height htip
    rwa [hlinked.height_tipOf] at this
  cases ws with
  | nil =>
    rw [hr.eq_counted]
    exact hb
  | cons w ws =>
    rw [List.map_cons, List.length_cons] at hheight
    refine Or.inl ?_
    rcases hb with hb | ⟨hb, _⟩ <;> omega

end Pool

namespace ChainState

open Storage

theorem applyAccepted_backup {ls ls' : LayeredStorage} {a : Pool.Accepted} (h : applyAccepted env false ls a = .ok ls') :
    ∃ s, ls.storage.backupPool env a.stored = .ok s ∧ Touches [.ledger] s ls'.storage := by
  obtain ⟨s, hs, h⟩ := bind_eq_ok.mp h
  obtain ⟨forwarded, hf, h⟩ := bind_eq_ok.mp h
  cases h
  have hledger : Touches [.ledger] s forwarded.storage :=
    foldlM_invariant (P := fun ls : LayeredStorage => Touches [.ledger] s ls.storage)
      (fun _ _ _ _ hs ht => hs.trans (touches_forwardBlock env ht)) (.refl _ _) hf
  exact ⟨s, hs, hledger⟩

theorem backed_push {c c' : ChainState} {now : Nat} {block : Block} {r : PushResult} {resolved : List Block}
    (h : c.layered.storage.BackedUp env c.pool resolved) (hb : block.Received env)
    (ht : ∀ tx ∈ block.transactions, tx.sentTime < 2 ^ 63) (hp : c.push env now block false = .ok (r, c')) :
    c'.layered.storage.BackedUp env c'.pool resolved := by
  obtain ⟨a, hpool, ha⟩ := (push_eq_ok env).mp hp
  have hlast := Pool.sameLast_push env hpool
  -- a push that takes nothing in only makes room
  have hgrow : ∀ n, c'.layered = c.layered → c'.pool = c.pool.grow n →
      c'.layered.storage.BackedUp env c'.pool resolved := by
    intro n hls hgrown
    refine h.congr (by rw [hls]) (by rw [hls]) ?_ fun b => (Pool.barred_of_tip hlast.tip).mpr
    rw [hgrown, Pool.blocksOf_grow]
  rcases Pool.push_cases env hpool with ⟨rfl, _, n, hn⟩ | ⟨rfl, _, n, hn⟩ | ⟨i, prev, acc, rfl, _, _, _, _, _, hacc⟩
  · exact hgrow n ha hn
  · exact hgrow n ha hn
  · obtain ⟨s, hs, htouch⟩ := applyAccepted_backup ha
    obtain ⟨hcount, hs⟩ := (backupPool_eq_ok env).mp hs
    have hblocks : Pool.blocksOf c'.pool.blockPool = Pool.blocksOf acc.stored := by
      rw [hacc.bins, Pool.blocksOf_of_skeleton (Pool.skeleton_setLayers _ _), Pool.blocksOf_patchNext]
    rw [← hblocks] at hs hcount
    have hrest : ∀ b ∈ Pool.blocksOf c'.pool.blockPool, b.Restorable env := by
      intro b hmem
      rcases Pool.mem_blocksOf_push env hpool hmem with rfl | hold
      · exact ⟨hb, ht, hcount _ hmem⟩
      · exact h.restorable b hold
    exact (BackedUp.of_backup h.pending hrest hs).congr (htouch.batch_eq (by decide)) (htouch.disk_eq (by decide)) rfl
      fun _ hbarred => hbarred

theorem backed_trim (hpad : env.base64.Padded) {s : Storage} {p p' : Pool} {ws : List UnresolvedBlock} {ds : List Bytes}
    {resolved : List Block} (h : s.BackedUp env p resolved) (hok : p.Ok) (hr : p.Resolves env ws ds p') :
    (s.trimBackup (ws.map (·.block.getBlockIdB64 env)) ds).BackedUp env p' (resolved ++ ws.map (·.block)) := by
  have hids : ∀ id ∈ ds ++ ws.map (·.block.getBlockIdB64 env), ∃ b, id = env.base64.encode b := by
    intro id hid
    rcases List.mem_append.mp hid with hid | hid
    · obtain ⟨b, _, rfl⟩ := hr.mem_drops id hid
      exact ⟨b.blockId, rfl⟩
    · obtain ⟨w, _, rfl⟩ := List.mem_map.mp hid
      exact ⟨w.block.blockId, rfl⟩
  obtain ⟨hbatch, hlist, hrecord⟩ := trimBackup_spec hpad h.pending hids
  -- an id that was not resolved stays on the list with its record
  have hkeeps : ∀ b : Block, s.disk.Keeps env b → b.blockId ≠ [] →
      b.getBlockIdB64 env ∉ ws.map (·.block.getBlockIdB64 env) →
      (s.trimBackup (ws.map (·.block.getBlockIdB64 env)) ds).disk.Keeps env b := by
    intro b hk hne hnot
    refine ⟨(hlist _).mpr ⟨_, rfl, ?_, hnot, _, hk.1, rfl⟩, (hrecord b.blockId).trans hk.2⟩
    exact Block.getBlockIdB64_ne env hne
  obtain ⟨l, hl⟩ := hr.blocksOf_append
  refine ⟨hbatch, fun b hb => h.restorable b (hr.mem_blocksOf (Or.inr hb)), ?_, ?_⟩
  · intro l₁ b l₂ hsplit hlater hne hres
    rw [List.map_append, List.mem_append, not_or] at hres
    refine hkeeps b (h.held (l ++ l₁) b l₂ (by rw [hl, hsplit, List.append_assoc]) hlater hne hres.1) hne ?_
    intro hmem
    obtain ⟨w, hw, heq⟩ := List.mem_map.mp hmem
    refine hres.2 (List.mem_map.mpr ⟨w.block, List.mem_map_of_mem hw, env.base64.encode_injective heq⟩)
  · intro j hj hne
    obtain ⟨id, rfl, _, hnot, i, hi, rfl⟩ := (hlist j).mp hj
    obtain ⟨a, hrest, rfl, hk, hin⟩ := h.only i hi hne
    have hid : a.blockId ≠ [] := by
      intro hnil
      exact hne (by simp [Safe.getString, Block.getBlockIdB64, hnil])
    refine ⟨a, hrest, rfl, hkeeps a hk hid hnot, ?_⟩
    rcases hin with hin | hbar
    · rcases hr.held hok hin with hin | hle
      · exact Or.inl hin
      · exact Or.inr (Or.inl hle)
    · exact Or.inr (hr.barred hok hbar)

/-- Saving leaves the backup alone. -/
theorem saveResolved_backup {ls ls' : LayeredStorage} {e : UnresolvedBlock} (h : saveResolved env ls e = .ok ls') :
    ls'.storage.disk .blockBackup = ls.storage.disk .blockBackup ∧
      ls'.storage.batch .blockBackup = ls.storage.batch .blockBackup := by
  rcases saveResolved_cases env h with ⟨_, rfl⟩ | ⟨_, hsave⟩
  · exact ⟨rfl, rfl⟩
  · have ht := touches_saveChecked env hsave
    exact ⟨ht.disk_eq (by decide), ht.batch_eq (by decide)⟩

/-- `procResolvedBlocksIf` trims the backup and then saves. -/
theorem procResolved_trim {c c' : ChainState} (h : c.procResolvedBlocksIf env = .ok c') :
    ∃ ws ds ls, c.pool.Resolves env ws ds c'.pool ∧
      ls.storage = (c.layered.storage.logResolved (ws.map (·.block))).trimBackup
        (ws.map (·.block.getBlockIdB64 env)) ds ∧
      ws.foldlM (saveResolved env) ls = .ok c'.layered := by
  obtain ⟨layered, hf, h⟩ := bind_eq_ok.mp h
  cases h
  exact ⟨_, _, _, Pool.resolves_resolve env c.pool, LayeredStorage.storage_dropLedgers _ _, hf⟩

theorem backed_procResolved (hpad : env.base64.Padded) {c c' : ChainState} (hok : c.pool.Ok)
    (h : c.layered.storage.BackedUp env c.pool (resolvedIn c.layered.storage.log))
    (hr : c.procResolvedBlocksIf env = .ok c') :
    c'.layered.storage.BackedUp env c'.pool (resolvedIn c'.layered.storage.log) := by
  obtain ⟨ws, ds, ls, hres, hls, hf⟩ := procResolved_trim hr
  have hlogged : (c.layered.storage.logResolved (ws.map (·.block))).BackedUp env c.pool
      (resolvedIn c.layered.storage.log) := h.congr rfl rfl rfl fun _ hb => hb
  have htrim := backed_trim hpad hlogged hok hres
  rw [← hls] at htrim
  have hlog : resolvedIn c'.layered.storage.log = resolvedIn c.layered.storage.log ++ ws.map (·.block) := by
    rw [(saving_foldlM env hf).resolved, hls, (touches_trimBackup _ _ _).resolvedIn_eq, Storage.logResolved,
      resolvedIn_append, resolvedIn_resolved]
  have hsaved : c'.layered.storage.disk .blockBackup = ls.storage.disk .blockBackup ∧
      c'.layered.storage.batch .blockBackup = ls.storage.batch .blockBackup :=
    foldlM_invariant (P := fun s : LayeredStorage => s.storage.disk .blockBackup = ls.storage.disk .blockBackup ∧
        s.storage.batch .blockBackup = ls.storage.batch .blockBackup)
      (fun s e t _ hs ht => ⟨(saveResolved_backup ht).1.trans hs.1, (saveResolved_backup ht).2.trans hs.2⟩)
      ⟨rfl, rfl⟩ hf
  rw [hlog]
  exact htrim.congr hsaved.2 hsaved.1 rfl fun _ hb => hb

theorem Recached.backed {c c' : ChainState} {resolved : List Block} (hc : c.Recached c')
    (h : c.layered.storage.BackedUp env c.pool resolved) : c'.layered.storage.BackedUp env c'.pool resolved := by
  obtain ⟨⟨link, layer, pos, hp⟩, hl⟩ := hc
  rw [hl, hp]
  exact h.congr rfl rfl rfl fun _ hb => hb

/-- The backup over the delivery of a block. -/
theorem backed_delivers (hpad : env.base64.Padded) {c c' : ChainState} {now : Nat} {block : Block} {r : PushResult}
    (hsane : Sane env c) (hw : c.pool.NoWrap now block.height) (hb : block.Received env)
    (ht : ∀ tx ∈ block.transactions, tx.sentTime < 2 ^ 63)
    (h : c.layered.storage.BackedUp env c.pool (resolvedIn c.layered.storage.log))
    (hd : c.Delivers env now block c' r) :
    c'.layered.storage.BackedUp env c'.pool (resolvedIn c'.layered.storage.log) := by
  have hpush : ∀ {c₁ : ChainState}, c.push env now block false = .ok (r, c₁) →
      c₁.layered.storage.BackedUp env c₁.pool (resolvedIn c₁.layered.storage.log) := by
    intro c₁ hp
    rw [(touches_push env hp).resolvedIn_eq]
    exact backed_push h hb ht hp
  cases hd with
  | kept hp _ hc =>
    rw [hc.2]
    have hkept := hc.backed (hpush hp)
    rwa [hc.2] at hkept
  | resolved hp _ hq hr hc =>
    have hbefore := hq.backed (hpush hp)
    rw [← hq.2] at hbefore
    have hafter := hc.backed (backed_procResolved hpad ((hsane.push hw hb hp).recached hq).ok hbefore hr)
    rw [hc.2] at hafter ⊢
    exact hafter

end ChainState
end GruutMerger
