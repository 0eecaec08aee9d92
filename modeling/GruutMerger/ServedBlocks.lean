import GruutMerger.LatestBlock
import GruutMerger.StoredRun

/-!
# Which blocks are served

In every run the block databases are those of a sequence of saves of resolved
blocks. As long as these can be told apart and read back, a request for a height
is answered with a block of this height that passes the filters, whenever the
pool or the storage has one.
-/
namespace GruutMerger

open ByteText KeyValue Fallible

variable {env : Env}

/-- The same contents in the databases of the blocks. -/
def Records.Agree (d d' : Records) : Prop := ∀ what ∈ Storage.commitOrder, d what = d' what

namespace Records.Agree

variable {d d' : Records} (h : d.Agree d')

include h

theorem getValueByKey (what : DBType) (hw : what ∈ Storage.commitOrder) (key : Bytes) :
    d.getValueByKey what key = d'.getValueByKey what key := by
  rw [Records.getValueByKey, Records.getValueByKey, h what hw]

theorem getText (what : DBType) (hw : what ∈ Storage.commitOrder) (key : Bytes) :
    d.getText what key = d'.getText what key := congrArg Value.toText (h.getValueByKey what hw key)

theorem getNthBlockIdB64 (height : Nat) : d.getNthBlockIdB64 height = d'.getNthBlockIdB64 height := by
  rw [Records.getNthBlockIdB64, Records.getNthBlockIdB64, h.getText .blockLatest (by decide),
    h.getText .blockHeight (by decide)]

theorem getNthBlockLinkInfo (height : Nat) : d.getNthBlockLinkInfo env height = d'.getNthBlockLinkInfo env height := by
  simp only [Records.getNthBlockLinkInfo, h.getNthBlockIdB64, h.getText .blockHeader (by decide),
    h.getText .blockRaw (by decide)]

theorem readTxs (txids : List Json) : d.readTxs txids = d'.readTxs txids := by
  induction txids with
  | nil => rfl
  | cons txid rest ih => simp only [Records.readTxs, ih, h.getValueByKey .transaction (by decide)]

theorem readBlock (height : Nat) : d.readBlock env height = d'.readBlock env height := by
  simp only [Records.readBlock, h.getNthBlockIdB64, h.getNthBlockLinkInfo, h.readTxs,
    h.getText .blockLatest (by decide), h.getText .blockRaw (by decide),
    h.getValueByKey .blockHeader (by decide)]

end Records.Agree

namespace Storage

theorem putBlock_congr (env : Env) {d d' : Records} (h : d.Agree d') (raw : Bytes) (header body : Json) :
    putBlock env d raw header body = putBlock env d' raw header body := by
  simp only [putBlock, putLatestBlockHeader, h.getNthBlockLinkInfo]

/-- The block databases are those after some saves. -/
def SavedAs (env : Env) (d : Records) (saved : List Block) : Prop :=
  ∃ s', SaveRun env Storage.empty saved s' ∧ d.Agree s'.disk

theorem SavedAs.congr {d d' : Records} {saved : List Block} (h : SavedAs env d saved) (hd : d'.Agree d) :
    SavedAs env d' saved := by
  obtain ⟨s', run, hagree⟩ := h
  exact ⟨s', run, fun what hw => (hd what hw).trans (hagree what hw)⟩

theorem SavedAs.save {s s' : Storage} {saved : List Block} {b : Block} {body : Json} (h : SavedAs env s.disk saved)
    (hc : s.Clean) (hbody : b.getBlockBodyJson env = .ok body)
    (hsave : s.saveBlock env b.blockRaw (b.getBlockHeaderJson env) body = (.ok true, s')) :
    SavedAs env s'.disk (saved ++ [b]) := by
  obtain ⟨t, run, hagree⟩ := h
  have hclean := (run.disk_write env fun _ _ => rfl).1
  obtain ⟨es, hputs, rfl⟩ := saveBlock_cases env hsave
  rw [putBlock_congr env hagree] at hputs
  refine ⟨t.finishSave es (.ok true), .save run hbody (saveBlock_eq env hputs), fun what hw => ?_⟩
  change (s.addBatch es).commitBatchAll.disk what = (t.addBatch es).commitBatchAll.disk what
  rw [disk_commitBatchAll, disk_commitBatchAll, if_pos hw, if_pos hw]
  change (s.disk what).write (s.batch what ++ _) = (t.disk what).write (t.batch what ++ _)
  rw [hc what hw, hclean what hw, hagree what hw]

theorem saveBlock_disk_of_false {s s' : Storage} {raw : Bytes} {header body : Json}
    (h : s.saveBlock env raw header body = (.ok false, s')) : s'.disk = s.disk := by
  obtain ⟨es, _, rfl⟩ := saveBlock_cases env h
  rfl

end Storage

namespace ChainState

open Storage

theorem savedAs_saveChecked {ls ls' : LayeredStorage} {b : Block} {saved : List Block}
    (hs : SavedAs env ls.storage.disk saved) (hc : ls.storage.Clean) (h : saveChecked env ls b = .ok ls') :
    ∃ new, new.Sublist [b] ∧ SavedAs env ls'.storage.disk (saved ++ new) := by
  have hbody : b.getBlockBodyJson env = .ok (.object (b.bodyFields env)) := by
    obtain ⟨body, hbody, _⟩ := bind_eq_ok.mp h
    obtain ⟨_, rfl⟩ := (Block.getBlockBodyJson_eq_ok env).mp hbody
    exact hbody
  obtain ⟨answer, storage, hsave, rfl⟩ := saveChecked_eq_ok env h
  have hmoved : (({ ls with storage := storage } : LayeredStorage).moveToDiskLedger
      (b.getBlockIdB64 env)).storage.disk.Agree storage.disk :=
    (LayeredStorage.touches_moveToDiskLedger _ _).blocks_eq (by decide)
  cases answer with
  | true => exact ⟨[b], List.Sublist.refl _, (hs.save hc hbody hsave).congr hmoved⟩
  | false =>
    refine ⟨[], List.nil_sublist _, ?_⟩
    rw [List.append_nil]
    exact hs.congr fun what hw => (hmoved what hw).trans (by rw [saveBlock_disk_of_false hsave])

theorem savedAs_foldlM {ws : List UnresolvedBlock} {ls ls' : LayeredStorage} {saved : List Block}
    (hs : SavedAs env ls.storage.disk saved) (hc : ls.storage.Clean) (h : ws.foldlM (saveResolved env) ls = .ok ls') :
    ∃ new, new.Sublist (ws.map (·.block)) ∧ SavedAs env ls'.storage.disk (saved ++ new) := by
  induction ws generalizing ls saved with
  | nil =>
    obtain rfl : ls = ls' := by simpa using h
    exact ⟨[], List.nil_sublist _, by simpa using hs⟩
  | cons w ws ih =>
    obtain ⟨ls₁, hw, h⟩ := foldlM_cons_eq_ok.mp h
    have hclean := (saving_saveResolved env hw).clean hc
    have hfirst : ∃ new, new.Sublist [w.block] ∧ SavedAs env ls₁.storage.disk (saved ++ new) := by
      rcases saveResolved_cases env hw with ⟨_, rfl⟩ | ⟨_, hsave⟩
      · exact ⟨[], List.nil_sublist _, by rw [List.append_nil]; exact hs⟩
      · have hlogged : SavedAs env (logEvent ls (.checked w.block true)).storage.disk saved := hs
        exact savedAs_saveChecked hlogged hc hsave
    obtain ⟨new, hnew, hsaved⟩ := hfirst
    obtain ⟨rest, hrest, hsaved⟩ := ih hsaved hclean h
    exact ⟨new ++ rest, hnew.append hrest, by simpa using hsaved⟩

/-- Storage holds some of the resolved blocks. -/
structure Holds (env : Env) (c : ChainState) (saved : List Block) : Prop where
  sublist : saved.Sublist (resolvedIn c.layered.storage.log)
  received : ∀ b ∈ saved, b.Received env
  records : SavedAs env c.layered.storage.disk saved

theorem Holds.congr {c c' : ChainState} {saved : List Block} (h : Holds env c saved)
    (hlog : resolvedIn c'.layered.storage.log = resolvedIn c.layered.storage.log)
    (hd : c'.layered.storage.disk.Agree c.layered.storage.disk) : Holds env c' saved :=
  ⟨hlog ▸ h.sublist, h.received, h.records.congr hd⟩

theorem Holds.push {c c' : ChainState} {saved : List Block} {now : Nat} {block : Block} {isRestore : Bool}
    {r : PushResult} (h : Holds env c saved) (hp : c.push env now block isRestore = .ok (r, c')) :
    Holds env c' saved := by
  have ht := touches_push env hp
  exact h.congr ht.resolvedIn_eq (ht.blocks_eq (by decide))

theorem Holds.procResolved {c c' : ChainState} {saved : List Block} (h : Holds env c saved) (hsane : Sane env c)
    (hr : c.procResolvedBlocksIf env = .ok c') : ∃ saved', Holds env c' saved' := by
  obtain ⟨ws, ds, hres, ls, ht, _, hf⟩ := procResolved_cases env hr
  have hdisk : ls.storage.disk.Agree c.layered.storage.disk := ht.blocks_eq (by decide)
  obtain ⟨new, hnew, hsaved⟩ := savedAs_foldlM (h.records.congr hdisk) (ht.clean (by decide) hsane.clean) hf
  refine ⟨saved ++ new, ?_, fun b hb => ?_, hsaved⟩
  · rw [(saving_foldlM env hf).resolved, ht.resolvedIn_eq, Storage.logResolved, resolvedIn_append, resolvedIn_resolved]
    exact h.sublist.append hnew
  · rcases List.mem_append.mp hb with hb | hb
    · exact h.received b hb
    · exact hsane.received b (hres.mem_blocksOf (Or.inl (hnew.subset hb)))

end ChainState

/-- In every run storage holds some of the resolved blocks. -/
theorem Merger.Run.holds {m₀ m : Merger} (h₀ : m₀.chain = ChainState.initial env)
    (h : Merger.Run env (Merger.NoWrap env) m₀ m) : ∃ saved, m.chain.Holds env saved := by
  have hsane₀ : m₀.chain.Sane env := h₀ ▸ ChainState.Sane.initial env
  induction h with
  | refl => exact ⟨[], by simp, by simp, _, .nil _, fun what _ => by rw [h₀]; rfl⟩
  | step hrun ha hs ih =>
    obtain ⟨saved, hholds⟩ := ih
    have hsane := hrun.sane (fun _ _ _ hw => hw) hsane₀
    rcases Merger.handleMsgBlock_cases env hs with ⟨_, rfl⟩ | ⟨block, hb, _, hd⟩
    · exact ⟨saved, hholds⟩
    · have hcache {a b : ChainState} {saved : List Block} (hab : a.Recached b) (h : a.Holds env saved) :
          b.Holds env saved := h.congr (by rw [hab.2]) fun what _ => by rw [hab.2]
      cases hd with
      | kept hp _ hc => exact ⟨saved, hcache hc (hholds.push hp)⟩
      | resolved hp _ hq hr hc =>
        have hsane₁ := (hsane.push (ha block hb) (Block.received_of_body hb) hp).recached hq
        obtain ⟨saved', hsaved⟩ := (hcache hq (hholds.push hp)).procResolved hsane₁ hr
        exact ⟨saved', hcache hc hsaved⟩

/-- The block has a height and passes the filters, either of which may be empty. -/
structure Block.Matches (b : Block) (height : Nat) (prevHash hash : Bytes) : Prop where
  height_eq : b.height = height
  prevHash_eq : prevHash = [] ∨ b.prevBlockHash = prevHash
  hash_eq : hash = [] ∨ b.blockHash = hash

namespace Pool

/-- The heights of the pool do not wrap. -/
structure Unwrapped (p : Pool) : Prop where
  bins : p.blockPool.length < 2 ^ 31
  heights : p.lastHeight + p.blockPool.length < 2 ^ 64

/-- The bin that a height of the pool leads to. -/
theorem Unwrapped.binIdx {p : Pool} (h : p.Unwrapped) {height : Nat} (hlow : p.lastHeight < height)
    (hhigh : height ≤ p.lastHeight + p.blockPool.length) : binIdx p.lastHeight height = (height - p.lastHeight - 1 : Nat) :=
  binIdx_of_lt hlow (by have := h.heights; omega) (by have := h.bins; omega)

theorem Ok.getBlock_matches {p : Pool} (hok : p.Ok) (hw : p.Unwrapped) {height : Nat} {prevHash hash : Bytes} {b : Block}
    (h : p.getBlock height prevHash hash = some b) : b ∈ blocksOf p.blockPool ∧ b.Matches height prevHash hash := by
  unfold getBlock at h
  split at h
  · cases h
  · rename_i hrange
    simp only [Bool.or_eq_true, decide_eq_true_eq, not_or, Nat.not_le, Nat.not_lt] at hrange
    obtain ⟨⟨⟨_, hlow⟩, hhigh⟩, _⟩ := hrange
    obtain ⟨e, hfind, rfl⟩ := Option.map_eq_some_iff.mp h
    have hmem := List.mem_of_find?_eq_some hfind
    have hfilter := List.find?_some hfind
    rw [hw.binIdx hlow hhigh, Int.toNat_natCast] at hmem
    have hheight := hok.height_of_mem hmem
    simp only [Bool.and_eq_true, Bool.or_eq_true, List.isEmpty_iff, decide_eq_true_eq] at hfilter
    exact ⟨mem_blocksOf.mpr ⟨_, e, hmem, rfl⟩, by omega, hfilter.1, hfilter.2⟩

theorem Ok.getBlock_isSome {p : Pool} (hok : p.Ok) (hw : p.Unwrapped) {height : Nat} {prevHash hash : Bytes} {b : Block}
    (hb : b ∈ blocksOf p.blockPool) (hm : b.Matches height prevHash hash) :
    ∃ a, p.getBlock height prevHash hash = some a := by
  obtain ⟨i, e, he, rfl⟩ := mem_blocksOf.mp hb
  have hheight := hok.height_of_mem he
  have hi : i < p.blockPool.length := by
    by_contra hge
    rw [List.getD_eq_default _ _ (by omega)] at he
    cases he
  have hrange := hm.height_eq
  have hidx : binIdx p.lastHeight height = (height - p.lastHeight - 1 : Nat) := hw.binIdx (by omega) (by omega)
  have hbin : p.bin (binIdx p.lastHeight height).toNat = p.blockPool.getD i [] := by
    rw [hidx, Int.toNat_natCast, show height - p.lastHeight - 1 = i by omega]
    rfl
  unfold getBlock
  rw [if_neg, hbin]
  · rw [← Option.isSome_iff_exists, Option.isSome_map, List.find?_isSome]
    refine ⟨e, he, ?_⟩
    simp only [Bool.and_eq_true, Bool.or_eq_true, List.isEmpty_iff, decide_eq_true_eq]
    exact ⟨hm.prevHash_eq, hm.hash_eq⟩
  · simp only [Bool.or_eq_true, decide_eq_true_eq, not_or, Nat.not_le, Nat.not_lt, hidx, List.isEmpty_iff]
    refine ⟨⟨⟨fun hnil => ?_, by omega⟩, by omega⟩, by omega⟩
    rw [hnil] at hi
    cases hi

end Pool

/-- A block that storage can tell from a missing one, with times that it can read back. -/
structure Block.Recorded (b : Block) : Prop where
  id_ne : b.blockId ≠ []
  time_lt : b.time < 2 ^ 63
  txTimes_lt : ∀ tx ∈ b.transactions, tx.sentTime < 2 ^ 63

theorem Block.Received.tx {b : Block} (h : b.Received env) {tx : Transaction} (htx : tx ∈ b.transactions) :
    tx.id.length = 32 ∧ ∃ certs, tx.getCertsIf = .ok certs := by
  obtain ⟨raw, txs, h⟩ := h
  obtain ⟨header, version, time, height, ssigs, txs, certs, h⟩ := (Block.initializeRaw_eq_some env).mp h
  have htxs : b.transactions = txs := by rw [h.block_eq]; rfl
  rw [htxs] at htx
  obtain ⟨cs, hcs, _⟩ := map_eq_ok.mp h.certs_eq
  obtain ⟨c, _, hc⟩ := mapM_ok_left hcs tx htx
  exact ⟨Block.length_id_of_setTransactions env h.txs_eq tx htx, c, hc⟩

theorem Block.Received.initializeRaw {b : Block} (h : b.Received env) :
    ∃ txs, Block.initializeRaw env b.blockRaw txs = .ok (some b) := by
  obtain ⟨raw, txs, h⟩ := h
  obtain ⟨_, _, _, _, _, _, _, hreads⟩ := (Block.initializeRaw_eq_some env).mp h
  have hraw : b.blockRaw = raw := by rw [hreads.block_eq]; rfl
  exact ⟨txs, hraw ▸ h⟩

namespace Storage

variable {s' : Storage} {saved : List Block}

theorem SaveRun.count_le (run : SaveRun env Storage.empty saved s') :
    ∀ b ∈ saved, b.transactions.length ≤ merkleTreeSize := by
  generalize Storage.empty = s at run
  induction run with
  | nil => simp
  | save run hbody _ ih =>
    intro a ha
    rcases List.mem_append.mp ha with ha | ha
    · exact ih a ha
    · rw [List.mem_singleton.mp ha]
      exact ((Block.getBlockBodyJson_eq_ok env).mp hbody).1

/-- A height record leads to a saved block of this height. -/
theorem SaveRun.height_of_record (run : SaveRun env Storage.empty saved s') {height : Nat} (h0 : height ≠ 0)
    (h : s'.disk.getNthBlockIdB64 height ≠ []) : ∃ b ∈ saved, b.height = height := by
  by_contra hnone
  apply h
  rw [Records.getNthBlockIdB64, if_neg h0, Records.getText, Records.getValueByKey,
    (run.disk_write env fun _ _ => rfl).2 .blockHeight (by decide)]
  rw [write_other _ _ _ fun o ho hk => ?_]
  · rfl
  · obtain ⟨b, hb, ho⟩ := List.mem_flatMap.mp ho
    obtain ⟨e, he, rfl⟩ := List.mem_map.mp ho
    obtain rfl : e = ⟨.blockHeight, decimal b.height, .text (b.getBlockIdB64 env)⟩ := List.mem_singleton.mp he
    exact hnone ⟨b, hb, decimal_injective (List.append_cancel_left hk)⟩

/-- A saved block is read at its height, with transactions of the same ids. -/
theorem SaveRun.readBlock (run : SaveRun env Storage.empty saved s') (hid : (saved.map Block.blockId).Nodup)
    (hh : (saved.map Block.height).Nodup) {b : Block} (hb : b ∈ saved) (h0 : b.height ≠ 0) (hr : Readable env b) :
    ∃ us, List.Forall₂ (fun tx u => u.id = tx.id ∧ ∃ a ∈ saved, u ∈ a.transactions) b.transactions us ∧
      s'.disk.readBlock env b.height = .ok { asRead env b with txs := us.map (·.getJson env) } := by
  have hclean : Storage.empty.Clean := fun _ _ => rfl
  obtain ⟨us, hus⟩ : ∃ us, List.Forall₂ (fun tx u => (u.id = tx.id ∧ ∃ a ∈ saved, u ∈ a.transactions) ∧
      s'.disk.bodyAt env tx.id .content = some (.cbor (u.getJson env))) b.transactions us := by
    refine exists_forall₂ fun tx htx => ?_
    obtain ⟨a, ha, u, hu, huid, hat⟩ := run.content env hclean hb htx
    exact ⟨u, ⟨huid, a, ha, hu⟩, hat⟩
  exact ⟨us, hus.imp fun _ _ h => h.1, (run.stored_of_nodup env hclean hid hh hb).readBlock env
    (run.height_lt env hclean b hb) h0 hr (hus.imp fun _ _ h => h.2)⟩

/-- What is read at a height, when something is there, is a saved block of this height, and
is read as a block around transactions of the same ids. -/
theorem SaveRun.served (run : SaveRun env Storage.empty saved s') (hid : (saved.map Block.blockId).Nodup)
    (hh : (saved.map Block.height).Nodup) (hrec : ∀ b ∈ saved, b.Received env ∧ b.Recorded) {b : Block}
    (hb : b ∈ saved) (h0 : b.height ≠ 0) :
    ∃ found sent, s'.disk.readBlock env b.height = .ok found ∧ found.height = b.height ∧ found.hash = b.blockHash ∧
      found.prevHash = b.prevBlockHash ∧ Block.initializeSaved env found = .ok (some sent) ∧
      sent.blockRaw = b.blockRaw ∧ sent.transactions.length ≤ merkleTreeSize := by
  obtain ⟨hreceived, hrecorded⟩ := hrec b hb
  have hr : Readable env b := ⟨hrecorded.id_ne, hrecorded.time_lt, hreceived.blockHash_eq⟩
  obtain ⟨us, hus, hread⟩ := run.readBlock hid hh hb h0 hr
  have hmem : ∀ u ∈ us, ∃ a ∈ saved, u ∈ a.transactions := by
    intro u hu
    obtain ⟨tx, _, _, ha⟩ := exists_of_forall₂_left hus.flip u hu
    exact ha
  have hset : Block.setTransactions env (us.map (·.getJson env)) = .ok us := by
    refine Block.setTransactions_getJson env us (fun u hu => ?_) fun u hu => ?_
    · obtain ⟨a, ha, hua⟩ := hmem u hu
      exact ((hrec a ha).1.tx hua).1
    · obtain ⟨a, ha, hua⟩ := hmem u hu
      exact (hrec a ha).2.txTimes_lt u hua
  obtain ⟨certs, hcerts⟩ : ∃ certs, Block.extractUserCertsIf us = .ok certs := by
    obtain ⟨cs, hcs⟩ := exists_forall₂ (R := fun u c => Transaction.getCertsIf u = .ok c) fun u hu => by
      obtain ⟨a, ha, hua⟩ := hmem u hu
      exact ((hrec a ha).1.tx hua).2
    exact ⟨cs.flatten, map_eq_ok.mpr ⟨cs, mapM_eq_ok.mpr hcs, rfl⟩⟩
  obtain ⟨txs, hinit⟩ := hreceived.initializeRaw
  have hsent := Block.initializeRaw_other env hinit hset hcerts rfl
  refine ⟨_, _, hread, rfl, rfl, rfl, hsent, rfl, ?_⟩
  rw [show us.length = b.transactions.length from hus.length_eq.symm]
  exact run.count_le b hb

end Storage

namespace Merger

theorem sendBlock_eq_ok {block : Block} (h : block.transactions.length ≤ merkleTreeSize) (receiver : Bytes) :
    sendBlock env block receiver = .ok (blockMessage env block.blockRaw (block.getBlockTXsAsJson env) receiver) := by
  have hbody := (Block.getBlockBodyJson_eq_ok env).mpr ⟨h, rfl⟩
  rw [sendBlock, hbody]
  rfl

/-- A request for a block is answered with a block that was asked for, whenever there is one. -/
structure Faithful (env : Env) (m : Merger) (saved : List Block) (now height : Nat) (body : Json) : Prop where
  sent : ∀ reply, m.handleMsgReqBlock env now body = .ok reply → reply.type = .block →
    ∃ b txs, (b ∈ Pool.blocksOf m.chain.pool.blockPool ∨ b ∈ saved) ∧
      b.Matches height (Safe.getBytesFromB64 env.base64 body "prevHash") (Safe.getBytesFromB64 env.base64 body "hash") ∧
      reply = blockMessage env b.blockRaw txs (Safe.getBytesFromB64 env.base64 body "mID")
  found : (∃ b, (b ∈ Pool.blocksOf m.chain.pool.blockPool ∨ b ∈ saved) ∧
      b.Matches height (Safe.getBytesFromB64 env.base64 body "prevHash") (Safe.getBytesFromB64 env.base64 body "hash")) →
    ∃ reply, m.handleMsgReqBlock env now body = .ok reply ∧ reply.type = .block

theorem fits_iff {found : StorageBlock} {b : Block} {height : Nat} (hheight : b.height = height) (h1 : 1 ≤ height)
    (hfound : found.height = b.height ∧ found.hash = b.blockHash ∧ found.prevHash = b.prevBlockHash)
    (prevHash hash : Bytes) : fits found prevHash hash = true ↔ b.Matches height prevHash hash := by
  simp only [fits, hfound, Bool.and_eq_true, Bool.or_eq_true, decide_eq_true_eq, List.isEmpty_iff]
  exact ⟨fun h => ⟨hheight, h.1.2, h.2⟩, fun h => ⟨⟨by omega, h.prevHash_eq⟩, h.hash_eq⟩⟩

/-- A storage with saved blocks is not empty. -/
theorem storageEmpty_of_saved {m : Merger} {saved : List Block} (hholds : m.chain.Holds env saved)
    (hid : (saved.map Block.blockId).Nodup) (hh : (saved.map Block.height).Nodup)
    (hrec : ∀ b ∈ saved, b.Recorded ∧ 1 ≤ b.height) (hne : saved ≠ []) : m.storageEmpty = false := by
  obtain ⟨s', run, hagree⟩ := hholds.records
  have hreadable : ∀ a ∈ saved, Storage.Readable env a ∧ 1 ≤ a.height := fun a ha =>
    ⟨⟨(hrec a ha).1.id_ne, (hrec a ha).1.time_lt, (hholds.received a ha).blockHash_eq⟩, (hrec a ha).2⟩
  obtain ⟨hnil, _⟩ | ⟨top, htop, hlatest, _⟩ := run.latest (fun _ _ => rfl) rfl hid hh hreadable
  · exact absurd hnil hne
  · have hpointer := Storage.getNthBlockIdB64_of_latestIs env hlatest
    rw [← hagree.getNthBlockIdB64] at hpointer
    rw [storageEmpty, List.isEmpty_eq_false_iff]
    change m.chain.layered.storage.disk.getNthBlockIdB64 0 ≠ []
    rw [hpointer]
    exact (hreadable top htop).1.idB64_ne env

/-- Where the heights of the pool do not wrap, its blocks have trees with room for their
transactions, and the saved blocks can be told apart and read back, requests are
answered faithfully. -/
theorem faithful_of_holds {m : Merger} (hok : m.chain.pool.Ok) (hw : m.chain.pool.Unwrapped)
    (hpool : ∀ b ∈ Pool.blocksOf m.chain.pool.blockPool, b.transactions.length ≤ merkleTreeSize) {saved : List Block}
    (hholds : m.chain.Holds env saved) (hid : (saved.map Block.blockId).Nodup) (hh : (saved.map Block.height).Nodup)
    (hrec : ∀ b ∈ saved, b.Recorded ∧ 1 ≤ b.height) {now height : Nat} {body : Json}
    (hheight : Safe.getInt body "hgt" = .ok height) (h1 : 1 ≤ height) : Faithful env m saved now height body := by
  obtain ⟨s', run, hagree⟩ := hholds.records
  have hserved {b : Block} (hb : b ∈ saved) := run.served hid hh (fun a ha => ⟨hholds.received a ha, (hrec a ha).1⟩) hb
    (show b.height ≠ 0 by have := (hrec b hb).2; omega)
  constructor
  · intro reply hreply htype
    rcases reqBlock_eq_ok hheight hreply with herror | ⟨block, hfound, hsend⟩ | ⟨found, _, hread, hfits, hsend⟩
    · rw [herror] at htype
      cases htype
    · obtain ⟨hmem, hmatch⟩ := hok.getBlock_matches hw hfound
      rw [sendBlock_eq_ok (hpool block hmem)] at hsend
      cases hsend
      exact ⟨block, _, Or.inl hmem, hmatch, rfl⟩
    · rw [hagree.readBlock] at hread
      have hidne : s'.disk.getNthBlockIdB64 height ≠ [] := by
        rcases Records.readBlock_eq_ok.mp hread with ⟨_, rfl⟩ | ⟨hne, _⟩
        · simp [fits, Records.nothingRead] at hfits
        · exact hne
      obtain ⟨b, hb, rfl⟩ := run.height_of_record (by omega) hidne
      obtain ⟨found', sent, hread', hfh, hfhash, hfprev, hinit, hraw, hcount⟩ := hserved hb
      rw [hread'] at hread
      cases hread
      have hmatch := (fits_iff rfl h1 ⟨hfh, hfhash, hfprev⟩ _ _).mp hfits
      rcases hsend with ⟨block, hinit', hsend⟩ | ⟨hinit', _⟩
      · rw [hinit] at hinit'
        cases hinit'
        rw [sendBlock_eq_ok hcount, hraw] at hsend
        cases hsend
        exact ⟨b, _, Or.inr hb, hmatch, rfl⟩
      · rw [hinit] at hinit'
        cases hinit'
  · rintro ⟨b, hmem, hmatch⟩
    cases hfound : m.chain.pool.getBlock height (Safe.getBytesFromB64 env.base64 body "prevHash")
        (Safe.getBytesFromB64 env.base64 body "hash") with
    | some block =>
      have hblock := (hok.getBlock_matches hw hfound).1
      rw [reqBlock_of_pool hheight hfound, sendBlock_eq_ok (hpool block hblock)]
      exact ⟨_, rfl, rfl⟩
    | none =>
      rcases hmem with hmem | hmem
      · obtain ⟨a, ha⟩ := hok.getBlock_isSome hw hmem hmatch
        rw [ha] at hfound
        cases hfound
      · obtain ⟨found, sent, hread, hfh, hfhash, hfprev, hinit, hraw, hcount⟩ := hserved hmem
        have hfits := (fits_iff hmatch.height_eq h1 ⟨hfh, hfhash, hfprev⟩ _ _).mpr hmatch
        have hread' : m.chain.layered.storage.disk.readBlock env height = .ok found := by
          rw [hagree.readBlock, ← hmatch.height_eq, hread]
        have hstorage := storageEmpty_of_saved hholds hid hh hrec (List.ne_nil_of_mem hmem)
        rw [reqBlock_of_storage hheight hstorage hfound hread' hfits hinit, sendBlock_eq_ok hcount]
        exact ⟨_, rfl, rfl⟩

/-- In every run whose resolved blocks can be told apart and read back, requests for blocks
are answered faithfully. -/
theorem reqBlock_faithful {m₀ m : Merger} (h₀ : m₀.chain = ChainState.initial env)
    (h : Merger.Run env (Merger.NoWrap env) m₀ m) (hw : m.chain.pool.Unwrapped)
    (hpool : ∀ b ∈ Pool.blocksOf m.chain.pool.blockPool, b.transactions.length ≤ merkleTreeSize)
    (hid : ((resolvedIn m.chain.layered.storage.log).map Block.blockId).Nodup)
    (hrec : ∀ b ∈ resolvedIn m.chain.layered.storage.log, b.Recorded) :
    ∃ saved, m.chain.Holds env saved ∧ ∀ (now height : Nat) (body : Json), Safe.getInt body "hgt" = .ok height →
      1 ≤ height → Faithful env m saved now height body := by
  have hsane : m.chain.Sane env := h.sane (fun _ _ _ hw => hw) (h₀ ▸ ChainState.Sane.initial env)
  obtain ⟨saved, hholds⟩ := h.holds h₀
  have hheights : ((resolvedIn m.chain.layered.storage.log).map Block.height).Nodup := hsane.linked.nodup_height
  have hpos : ∀ b ∈ resolvedIn m.chain.layered.storage.log, 1 ≤ b.height := by
    intro b hb
    obtain ⟨k, hk⟩ := List.getElem?_of_mem hb
    have := hsane.linked.height_at hk
    omega
  have hsub := hholds.sublist
  exact ⟨saved, hholds, fun now height body hheight h1 => faithful_of_holds hsane.ok hw hpool hholds
    ((hsub.map _).nodup hid) ((hsub.map _).nodup hheights)
    (fun b hb => ⟨hrec b (hsub.subset hb), hpos b (hsub.subset hb)⟩) hheight h1⟩

end Merger

namespace Sample

def heightRequest (height : String) : Json := .object [("hgt", .string (ascii height))]

/-- A block of height 2 under the id of the block before it. -/
def twin : Row := ⟨[1], [1], hashOf 0, 2, [good 1, good 2, good 3], [digestTx]⟩

def twinRows : List Row :=
  [⟨[1], genesisBlockPrevId base, genesisBlockPrevHash base, 1, [good 1, good 2, good 3], [digestTx]⟩, twin,
   ⟨[3], [1], hashOf 1, 3, [good 1, good 2, good 3], [digestTx]⟩]

end Sample

open Sample

/-- After the run of four blocks a request for height 2 is answered with the block there. -/
theorem Merger.reqBlock_faithful_chain : ∃ m saved b txs,
    Merger.Run (world chainRows) (Merger.NoWrap (world chainRows)) initial m ∧ m.chain.Holds (world chainRows) saved ∧
    (b ∈ Pool.blocksOf m.chain.pool.blockPool ∨ b ∈ saved) ∧ b.Matches 2 [] [] ∧
    m.handleMsgReqBlock (world chainRows) 1000 (heightRequest "2") =
      .ok (blockMessage (world chainRows) b.blockRaw txs []) := by
  have hrun : okAnd (fun m : Merger => decide (m.chain.pool.blockPool.length < 2 ^ 31) &&
      decide (m.chain.pool.lastHeight + m.chain.pool.blockPool.length < 2 ^ 64) &&
      (Pool.blocksOf m.chain.pool.blockPool).all (fun b => decide (b.transactions.length ≤ merkleTreeSize)) &&
      decide ((resolvedIn m.chain.layered.storage.log).map Block.blockId).Nodup &&
      (resolvedIn m.chain.layered.storage.log).all (fun b => decide (b.blockId ≠ [] ∧ b.time < 2 ^ 63 ∧
        ∀ tx ∈ b.transactions, tx.sentTime < 2 ^ 63)) &&
      okAnd (fun reply => decide (reply.type = .block))
        (m.handleMsgReqBlock (world chainRows) 1000 (heightRequest "2")))
      (Sample.run chainRows 1000 [0, 1, 2, 3] initial) = true := by decide +kernel
  obtain ⟨m, hm, htest⟩ := okAnd_eq_true.mp hrun
  simp only [Bool.and_eq_true, decide_eq_true_eq, okAnd_eq_true, List.all_eq_true] at htest
  obtain ⟨⟨⟨⟨⟨hbins, hheights⟩, hpool⟩, hid⟩, hrec⟩, reply, hreply, htype⟩ := htest
  have h := run_is_run (by decide +kernel) (by decide) (by decide) hm
  obtain ⟨saved, hholds, hfaithful⟩ := reqBlock_faithful (initial_chain _) h ⟨hbins, hheights⟩ hpool hid
    fun b hb => ⟨(hrec b hb).1, (hrec b hb).2.1, (hrec b hb).2.2⟩
  obtain ⟨b, txs, hmem, hmatch, rfl⟩ := (hfaithful 1000 2 (heightRequest "2") (by decide) (by decide)).sent reply hreply htype
  exact ⟨m, saved, b, txs, h, hholds, hmem, hmatch, hreply⟩

/-- Both blocks are resolved and saved, and the request for height 1 is answered with the
block of height 2. -/
theorem Merger.reqBlock_twin : ∃ m reply, Merger.Run (world twinRows) (Merger.NoWrap (world twinRows)) initial m ∧
    m.chain.pool.Unwrapped ∧ m.handleMsgReqBlock (world twinRows) 1000 (heightRequest "1") = .ok reply ∧
    reply.type = .block ∧ ∃ b ∈ tableOf twinRows, b.height = 2 ∧
      Safe.getStringOf reply.body "blockraw" = base.base64.encode b.blockRaw := by
  have hrun : okAnd (fun m : Merger => decide (m.chain.pool.blockPool.length < 2 ^ 31) &&
      decide (m.chain.pool.lastHeight + m.chain.pool.blockPool.length < 2 ^ 64) &&
      okAnd (fun reply => decide (reply.type = .block) &&
        decide (Safe.getStringOf reply.body "blockraw" = base.base64.encode (twin.block 1).blockRaw))
        (m.handleMsgReqBlock (world twinRows) 1000 (heightRequest "1")))
      (Sample.run twinRows 1000 [0, 1, 2] initial) = true := by decide +kernel
  obtain ⟨m, hm, htest⟩ := okAnd_eq_true.mp hrun
  simp only [Bool.and_eq_true, decide_eq_true_eq, okAnd_eq_true] at htest
  obtain ⟨hw, reply, hreply, htype, hraw⟩ := htest
  exact ⟨m, reply, run_is_run (by decide +kernel) (by decide) (by decide) hm, ⟨hw.1, hw.2⟩, hreply, htype, _,
    List.mem_of_getElem? (i := 1) rfl, rfl, hraw⟩

end GruutMerger
