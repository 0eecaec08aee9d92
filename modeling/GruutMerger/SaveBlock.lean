import GruutMerger.Storage
import Mathlib.Data.List.Nodup

/-!
# What saving a block writes

The entries that the `put` functions make for a block with at least one support
signature and one transaction, and the contents of the databases after the
commit. Records of other blocks stay as they are.
-/
namespace GruutMerger

open ByteText KeyValue

variable (env : Env)

namespace Storage

/-- Suffix and value of the header records of a block. -/
def headerRecords (b : Block) : List (Bytes × Value) :=
  [(ascii "_bID", .text (env.base64.encode b.blockId)),
   (ascii "_ver", .text (decimal b.version)),
   (ascii "_cID", .text (env.base64.encode b.chainId)),
   (ascii "_time", .text (decimal b.time)),
   (ascii "_hgt", .text (decimal b.height)),
   (ascii "_ssig" ++ ascii "_c", .cbor (.array (b.ssigs.map (Block.ssigJson env)))),
   (ascii "_ssig" ++ ascii "_n", .text (decimal b.ssigs.length)),
   (ascii "_mID", .text (env.base64.encode b.mergerId)),
   (ascii "_prevbID", .text (env.base64.encode b.prevBlockId)),
   (ascii "_prevH", .text (env.base64.encode b.prevBlockHash)),
   (ascii "_txrt", .text (env.base64.encode b.txRoot)),
   (ascii "_txids", .dump (.array (b.transactions.map fun tx => .string (env.base64.encode tx.id))))]

def rawRecords (b : Block) : List (Bytes × Value) :=
  [([], .text b.blockRaw), (ascii "_hash", .text (env.sha256 b.blockRaw))]

/-- Records under the id of a block. -/
def recordEntries (what : DBType) (b : Block) (records : List (Bytes × Value)) : List Entry :=
  records.map fun r => ⟨what, b.getBlockIdB64 env ++ r.1, r.2⟩

def headerEntries (b : Block) : List Entry := recordEntries env .blockHeader b (headerRecords env b)

def heightEntries (b : Block) : List Entry := [⟨.blockHeight, decimal b.height, .text (b.getBlockIdB64 env)⟩]

def latestEntries (b : Block) : List Entry :=
  [⟨.blockLatest, ascii "bID", .text (b.getBlockIdB64 env)⟩, ⟨.blockLatest, ascii "hgt", .text (decimal b.height)⟩]

def bodyEntries (b : Block) : List Entry :=
  (b.transactions.map (·.getJson env)).zipIdx.flatMap (txEntries (b.getBlockIdB64 env)) ++
    [⟨.transaction, b.getBlockIdB64 env ++ ascii "_mtree", .dump (.array
        ((b.merkleTreeNode.take b.transactions.length).map fun n => .string (env.base64.encode n)))⟩,
     ⟨.transaction, b.getBlockIdB64 env ++ ascii "_txCnt", .text (decimal b.transactions.length)⟩]

def rawEntries (b : Block) : List Entry := recordEntries env .blockRaw b (rawRecords env b)

@[simp] theorem Puts.and_ok (es fs : List Entry) (r : Except Failure Bool) :
    Puts.and (es, .ok true) (fs, r) = (es ++ fs, r) := rfl

/-- A text field of the header goes into the batch as it is. -/
theorem putHeaderItem_text {b : Block} (id : Bytes) {name : String} (suffix : String) {s : Bytes}
    (h : (name, s) ∈ b.headerTexts env) : putHeaderItem (b.getBlockHeaderJson env) id (name, suffix) =
      ([⟨.blockHeader, id ++ ascii suffix, .text s⟩], .ok true) := by
  have hname : name ≠ "SSig" ∧ name ≠ "txids" := by
    simp only [Block.headerTexts, List.mem_cons, Prod.mk.injEq, List.not_mem_nil, or_false] at h
    rcases h with h | h | h | h | h | h | h | h | h <;> rw [h.1] <;> decide
  simp [putHeaderItem, hname, Block.headerString env h]

theorem putBlockHeader_block {b : Block} (hs : b.ssigs ≠ []) (ht : b.transactions ≠ []) :
    putBlockHeader (b.getBlockHeaderJson env) (b.getBlockIdB64 env) = (headerEntries env b, .ok true) := by
  have hssig : putHeaderItem (b.getBlockHeaderJson env) (b.getBlockIdB64 env) ("SSig", "_ssig") =
      ([⟨.blockHeader, b.getBlockIdB64 env ++ (ascii "_ssig" ++ ascii "_c"),
          .cbor (.array (b.ssigs.map (Block.ssigJson env)))⟩,
        ⟨.blockHeader, b.getBlockIdB64 env ++ (ascii "_ssig" ++ ascii "_n"),
          .text (decimal b.ssigs.length)⟩], .ok true) := by
    simp [putHeaderItem, Block.headerSSig env hs, List.append_assoc]
  have htxids : putHeaderItem (b.getBlockHeaderJson env) (b.getBlockIdB64 env) ("txids", "_txids") =
      ([⟨.blockHeader, b.getBlockIdB64 env ++ ascii "_txids",
          .dump (.array (b.transactions.map fun tx => .string (env.base64.encode tx.id)))⟩], .ok true) := by
    simp [putHeaderItem, Block.headerTxids env ht, Json.dumps_encoded]
  have hitem : ∀ name suffix s, (name, s) ∈ b.headerTexts env →
      putHeaderItem (b.getBlockHeaderJson env) (b.getBlockIdB64 env) (name, suffix) =
        ([⟨.blockHeader, b.getBlockIdB64 env ++ ascii suffix, .text s⟩], .ok true) :=
    fun name suffix s h => putHeaderItem_text env _ suffix h
  simp only [putBlockHeader, dbBlockHeaderSuffix, List.foldl_cons, List.foldl_nil, hssig, htxids,
    hitem "bID" "_bID" (env.base64.encode b.blockId) (by simp [Block.headerTexts]),
    hitem "ver" "_ver" (decimal b.version) (by simp [Block.headerTexts]),
    hitem "cID" "_cID" (env.base64.encode b.chainId) (by simp [Block.headerTexts]),
    hitem "time" "_time" (decimal b.time) (by simp [Block.headerTexts]),
    hitem "hgt" "_hgt" (decimal b.height) (by simp [Block.headerTexts]),
    hitem "mID" "_mID" (env.base64.encode b.mergerId) (by simp [Block.headerTexts]),
    hitem "prevbID" "_prevbID" (env.base64.encode b.prevBlockId) (by simp [Block.headerTexts]),
    hitem "prevH" "_prevH" (env.base64.encode b.prevBlockHash) (by simp [Block.headerTexts]),
    hitem "txrt" "_txrt" (env.base64.encode b.txRoot) (by simp [Block.headerTexts]), Puts.and_ok]
  rfl

theorem getStringOf_bID (b : Block) :
    Safe.getStringOf (b.getBlockHeaderJson env) "bID" = b.getBlockIdB64 env :=
  Block.headerString env (by simp [Block.headerTexts, Block.getBlockIdB64])

theorem getStringOf_hgt (b : Block) :
    Safe.getStringOf (b.getBlockHeaderJson env) "hgt" = decimal b.height :=
  Block.headerString env (by simp [Block.headerTexts])

/-- A block above the latest one becomes the latest one. -/
theorem putLatestBlockHeader_block {d : Records} {b : Block} {latest : NthLink}
    (hd : d.getNthBlockLinkInfo env 0 = .ok latest) (hb : b.height < 2 ^ 63)
    (hlt : latest.height < b.height) :
    putLatestBlockHeader env d (b.getBlockHeaderJson env) = (latestEntries env b, .ok true) := by
  have hint : Safe.getInt (b.getBlockHeaderJson env) "hgt" = .ok b.height := by
    rw [Safe.getInt, getStringOf_hgt, Safe.parseDecimal_decimal b.height hb]
  simp [putLatestBlockHeader, hd, hint, Nat.not_le.mpr hlt, getStringOf_bID, getStringOf_hgt, latestEntries]

theorem putTransaction_block (b : Block) :
    putTransaction (.object (b.bodyFields env)) (b.getBlockIdB64 env) = (bodyEntries env b, .ok true) :=
  if_pos (Json.dumps_encoded env.base64 _ id)

/-- The entries of a block that becomes the latest one. -/
def blockEntries (b : Block) : List Entry :=
  headerEntries env b ++ heightEntries env b ++ latestEntries env b ++ bodyEntries env b ++ rawEntries env b

theorem putBlock_block {d : Records} {b : Block} {latest : NthLink} (hs : b.ssigs ≠ [])
    (ht : b.transactions ≠ []) (hd : d.getNthBlockLinkInfo env 0 = .ok latest) (hb : b.height < 2 ^ 63)
    (hlt : latest.height < b.height) :
    putBlock env d b.blockRaw (b.getBlockHeaderJson env) (.object (b.bodyFields env)) =
      (blockEntries env b, .ok true) := by
  simp only [putBlock, getStringOf_bID, putBlockHeader_block env hs ht,
    putLatestBlockHeader_block env hd hb hlt, putTransaction_block, putBlockHeight, getStringOf_hgt,
    putBlockRaw, Puts.and_ok, blockEntries, heightEntries, rawEntries, recordEntries, rawRecords,
    List.map_cons, List.map_nil, List.append_nil]

/-- No entry waits in a batch of the block databases. -/
def Clean (s : Storage) : Prop := ∀ what ∈ commitOrder, s.batch what = []

theorem clean_clearBatchAll (s : Storage) : s.clearBatchAll.Clean := by
  intro what hw
  cases what <;> simp [clearBatchAll, commitOrder, clearBatch, Function.update] at hw ⊢

/-- The operations of a list of entries on one database. -/
def opsOn (what : DBType) (es : List Entry) : Batch Bytes Value := (es.filter (·.what = what)).map Entry.put

theorem disk_commitBatchAll (s : Storage) (what : DBType) :
    s.commitBatchAll.disk what =
      if what ∈ commitOrder then (s.disk what).write (s.batch what) else s.disk what := by
  cases what <;>
    simp [commitBatchAll, clearBatchAll, clearBatch, commitOrder, writeBatch, Disk.write, Function.update]

theorem log_commitBatchAll (s : Storage) :
    s.commitBatchAll.log = s.log ++ commitOrder.map fun what => .write ⟨what, s.batch what⟩ := by
  simp [commitBatchAll, clearBatchAll, clearBatch, commitOrder, writeBatch]

theorem batch_commitBatchAll (s : Storage) (what : DBType) :
    s.commitBatchAll.batch what = if what ∈ commitOrder then [] else s.batch what := by
  cases what <;>
    simp [commitBatchAll, clearBatchAll, clearBatch, commitOrder, writeBatch, Function.update]

theorem opsOn_append (what : DBType) (es fs : List Entry) :
    opsOn what (es ++ fs) = opsOn what es ++ opsOn what fs := by
  simp [opsOn]

theorem opsOn_uniform {w : DBType} {es : List Entry} (h : ∀ e ∈ es, e.what = w) (what : DBType) :
    opsOn what es = if w = what then es.map Entry.put else [] := by
  unfold opsOn
  split
  · rename_i hw
    rw [List.filter_eq_self.mpr (by simpa [← hw] using h)]
  · rename_i hw
    have hne : ∀ e ∈ es, ¬ e.what = what := fun e he heq => hw ((h e he).symm.trans heq)
    rw [List.filter_eq_nil_iff.mpr (by simpa using hne)]
    rfl

theorem what_recordEntries (what : DBType) (b : Block) (records : List (Bytes × Value)) :
    ∀ e ∈ recordEntries env what b records, e.what = what := by
  intro e he
  obtain ⟨r, _, rfl⟩ := List.mem_map.mp he
  rfl

theorem what_bodyEntries (b : Block) : ∀ e ∈ bodyEntries env b, e.what = .transaction := by
  simp only [bodyEntries, List.mem_append, List.mem_flatMap, txEntries]
  rintro e (⟨x, _, he⟩ | he)
  · simp only [List.mem_cons, List.not_mem_nil, or_false] at he
    rcases he with rfl | rfl | rfl <;> rfl
  · simp only [List.mem_cons, List.not_mem_nil, or_false] at he
    rcases he with rfl | rfl <;> rfl

/-- The entries of a block for one database. -/
def entriesOn (b : Block) : DBType → List Entry
  | .blockHeader => headerEntries env b
  | .blockHeight => heightEntries env b
  | .blockRaw => rawEntries env b
  | .blockLatest => latestEntries env b
  | .transaction => bodyEntries env b
  | .ledger => []
  | .blockBackup => []

theorem opsOn_blockEntries (b : Block) (what : DBType) :
    opsOn what (blockEntries env b) = (entriesOn env b what).map Entry.put := by
  have hheight : ∀ e ∈ heightEntries env b, e.what = .blockHeight := by simp [heightEntries]
  have hlatest : ∀ e ∈ latestEntries env b, e.what = .blockLatest := by simp [latestEntries]
  have hheader : ∀ e ∈ headerEntries env b, e.what = .blockHeader := what_recordEntries env _ b _
  have hraw : ∀ e ∈ rawEntries env b, e.what = .blockRaw := what_recordEntries env _ b _
  simp only [blockEntries, opsOn_append, opsOn_uniform hheader, opsOn_uniform hheight,
    opsOn_uniform hlatest, opsOn_uniform (what_bodyEntries env b), opsOn_uniform hraw]
  cases what <;> simp [entriesOn]

/-- The storage after the put functions of a call added some entries and ended. -/
def finishSave (s : Storage) (es : List Entry) : Except Failure Bool → Storage
  | .ok true => (s.addBatch es).commitBatchAll
  | .ok false => (s.addBatch es).rollbackBatchAll
  | .error _ => s.addBatch es

theorem saveBlock_eq {s : Storage} {raw : Bytes} {header body : Json} {es : List Entry} {r : Except Failure Bool}
    (h : putBlock env s.disk raw header body = (es, r)) :
    s.saveBlock env raw header body = (r, s.finishSave es r) := by
  rw [saveBlock, h]
  cases r with
  | error e => rfl
  | ok ok => cases ok <;> rfl

/-- What a call does, by what the put functions add and answer. -/
theorem saveBlock_cases {s s' : Storage} {raw : Bytes} {header body : Json} {r : Except Failure Bool}
    (h : s.saveBlock env raw header body = (r, s')) :
    ∃ es, putBlock env s.disk raw header body = (es, r) ∧ s' = s.finishSave es r := by
  obtain ⟨es, r', hputs⟩ : ∃ es r', putBlock env s.disk raw header body = (es, r') := ⟨_, _, rfl⟩
  rw [saveBlock_eq env hputs] at h
  obtain ⟨rfl, rfl⟩ := Prod.mk.inj h
  exact ⟨es, hputs, rfl⟩

theorem clean_finishSave (s : Storage) (es : List Entry) (ok : Bool) : (s.finishSave es (.ok ok)).Clean := by
  cases ok <;> exact clean_clearBatchAll _

/-- A commit writes every database of it once. -/
theorem disk_commitBatchAll_eq {s : Storage} {ops : DBType → Batch Bytes Value}
    (hbatch : ∀ what ∈ commitOrder, s.batch what = ops what) (hrest : ∀ what ∉ commitOrder, ops what = []) :
    s.commitBatchAll.disk = fun what => (s.disk what).write (ops what) := by
  funext what
  rw [disk_commitBatchAll]
  split
  · rename_i hw
    rw [hbatch what hw]
  · rename_i hw
    rw [hrest what hw, write_nil]

/-- The databases once a block is saved. -/
def savedDisk (d : Records) (b : Block) : Records :=
  fun what => (d what).write ((entriesOn env b what).map Entry.put)

/-- The five writes of a commit, in order. -/
def blockWrites (b : Block) : List DBWrite :=
  commitOrder.map fun what => ⟨what, (entriesOn env b what).map Entry.put⟩

/-- Saving a block with a signature and a transaction above the latest block. -/
theorem saveBlock_block {s : Storage} {b : Block} {latest : NthLink} (hc : s.Clean) (hs : b.ssigs ≠ [])
    (ht : b.transactions ≠ []) (hd : s.disk.getNthBlockLinkInfo env 0 = .ok latest)
    (hb : b.height < 2 ^ 63) (hlt : latest.height < b.height) :
    ∃ s', s.saveBlock env b.blockRaw (b.getBlockHeaderJson env) (.object (b.bodyFields env)) = (.ok true, s') ∧
      s'.disk = savedDisk env s.disk b ∧ s'.Clean ∧
      s'.batch .ledger = s.batch .ledger ∧ s'.batch .blockBackup = s.batch .blockBackup ∧
      s'.log = s.log ++ (blockWrites env b).map .write := by
  have hbatch : ∀ what ∈ commitOrder, (s.addBatch (blockEntries env b)).batch what =
      (entriesOn env b what).map Entry.put := by
    intro what hw
    have hops := opsOn_blockEntries env b what
    unfold opsOn at hops
    simp only [addBatch, hc what hw, List.nil_append, hops]
  refine ⟨(s.addBatch (blockEntries env b)).commitBatchAll, ?_, ?_, ?_, ?_, ?_, ?_⟩
  · exact saveBlock_eq env (putBlock_block env hs ht hd hb hlt)
  · exact disk_commitBatchAll_eq hbatch fun what hw => by
      cases what <;> first | rfl | exact absurd (by simp [commitOrder]) hw
  · intro what hw
    rw [batch_commitBatchAll, if_pos hw]
  · have hops := opsOn_blockEntries env b .ledger
    unfold opsOn at hops
    rw [batch_commitBatchAll, if_neg (by decide)]
    simp [addBatch, hops, entriesOn]
  · have hops := opsOn_blockEntries env b .blockBackup
    unfold opsOn at hops
    rw [batch_commitBatchAll, if_neg (by decide)]
    simp [addBatch, hops, entriesOn]
  · rw [log_commitBatchAll, blockWrites, List.map_map]
    congr 1
    apply List.map_congr_left
    intro what hw
    simp [hbatch what hw]

/-- The databases in which every record belongs to one block. -/
def ownDBs : List DBType := [.blockHeader, .blockHeight, .blockRaw]

theorem ownDBs_subset : ownDBs ⊆ commitOrder := by decide

/-- The header, height and raw records of a block are on disk. -/
def Stored (d : Records) (b : Block) : Prop :=
  ∀ what ∈ ownDBs, ∀ e ∈ entriesOn env b what, d what (getPrefix what ++ e.key) = some e.value

theorem keySuffix_headerRecords (b : Block) : ∀ r ∈ headerRecords env b, KeySuffix r.1 := by
  intro r hr
  simp only [headerRecords, List.mem_cons, List.not_mem_nil, or_false] at hr
  rcases hr with rfl | rfl | rfl | rfl | rfl | rfl | rfl | rfl | rfl | rfl | rfl | rfl <;>
    exact Or.inr ⟨_, rfl⟩

theorem keySuffix_rawRecords (b : Block) : ∀ r ∈ rawRecords env b, KeySuffix r.1 := by
  intro r hr
  simp only [rawRecords, List.mem_cons, List.not_mem_nil, or_false] at hr
  rcases hr with rfl | rfl
  · exact Or.inl rfl
  · exact Or.inr ⟨_, rfl⟩

theorem underscore_notMem_id (b : Block) : underscore ∉ b.getBlockIdB64 env :=
  env.base64.underscore_notMem b.blockId

theorem key_put (e : Entry) : e.put.key = getPrefix e.what ++ e.key := rfl

theorem nodup_recordEntries (what : DBType) (b : Block) {records : List (Bytes × Value)}
    (h : (records.map Prod.fst).Nodup) :
    (((recordEntries env what b records).map Entry.put).map Op.key).Nodup := by
  have hkey : ((recordEntries env what b records).map Entry.put).map Op.key =
      (records.map Prod.fst).map fun s => getPrefix what ++ (b.getBlockIdB64 env ++ s) := by
    simp [recordEntries, key_put, Function.comp_def]
  rw [hkey]
  refine List.Nodup.map (fun s t hst => ?_) h
  exact List.append_cancel_left (List.append_cancel_left hst)

theorem nodup_keys_entriesOn (b : Block) :
    ∀ what ∈ ownDBs, (((entriesOn env b what).map Entry.put).map Op.key).Nodup := by
  have hheader : ((headerRecords env b).map Prod.fst).Nodup := by
    simp only [headerRecords, List.map_cons, List.map_nil]
    decide
  have hraw : ((rawRecords env b).map Prod.fst).Nodup := by
    simp only [rawRecords, List.map_cons, List.map_nil]
    decide
  simp only [ownDBs, List.mem_cons, List.not_mem_nil, or_false]
  rintro what (rfl | rfl | rfl)
  · exact nodup_recordEntries env _ b hheader
  · simp [entriesOn, heightEntries]
  · exact nodup_recordEntries env _ b hraw

theorem what_entriesOn (b : Block) (what : DBType) : ∀ e ∈ entriesOn env b what, e.what = what := by
  cases what with
  | transaction => exact what_bodyEntries env b
  | blockHeader => exact what_recordEntries env _ b _
  | blockRaw => exact what_recordEntries env _ b _
  | _ => simp [entriesOn, heightEntries, latestEntries]

theorem stored_savedDisk (d : Records) (b : Block) : Stored env (savedDisk env d b) b := by
  intro what hw e he
  have h := write_of_nodup (d what) (nodup_keys_entriesOn env b what hw) (List.mem_map_of_mem he)
  rwa [key_put, what_entriesOn env b what e he] at h

/-- Two blocks share a key only if they share the id, or the height in the index. -/
theorem key_ne_of_entriesOn {a b : Block} (hid : a.blockId ≠ b.blockId) {what : DBType} (hw : what ∈ ownDBs)
    (hh : what = .blockHeight → a.height ≠ b.height) :
    ∀ e ∈ entriesOn env a what, ∀ f ∈ entriesOn env b what, f.key ≠ e.key := by
  have hrecords : ∀ {what : DBType} {rs ss : List (Bytes × Value)}, (∀ r ∈ rs, KeySuffix r.1) →
      (∀ r ∈ ss, KeySuffix r.1) → ∀ e ∈ recordEntries env what a rs,
      ∀ f ∈ recordEntries env what b ss, f.key ≠ e.key := by
    intro what rs ss hrs hss e he f hf heq
    obtain ⟨r, hr, rfl⟩ := List.mem_map.mp he
    obtain ⟨s, hs, rfl⟩ := List.mem_map.mp hf
    have h := (append_keySuffix_inj (underscore_notMem_id env b) (underscore_notMem_id env a)
      (hss s hs) (hrs r hr) heq).1
    exact hid (env.base64.encode_injective h).symm
  simp only [ownDBs, List.mem_cons, List.not_mem_nil, or_false] at hw
  rcases hw with rfl | rfl | rfl
  · exact hrecords (keySuffix_headerRecords env a) (keySuffix_headerRecords env b)
  · simp only [entriesOn, heightEntries, List.mem_singleton]
    rintro e rfl f rfl heq
    exact hh rfl (decimal_injective heq).symm
  · exact hrecords (keySuffix_rawRecords env a) (keySuffix_rawRecords env b)

/-- A record of another block is left as it was. -/
theorem savedDisk_other (d : Records) {a b : Block} (hid : a.blockId ≠ b.blockId) {what : DBType}
    (hw : what ∈ ownDBs) (hh : what = .blockHeight → a.height ≠ b.height) {e : Entry}
    (he : e ∈ entriesOn env a what) :
    savedDisk env d b what (getPrefix what ++ e.key) = d what (getPrefix what ++ e.key) := by
  refine write_other _ _ _ fun o ho heq => ?_
  obtain ⟨f, hf, rfl⟩ := List.mem_map.mp ho
  rw [key_put, what_entriesOn env b what f hf] at heq
  exact key_ne_of_entriesOn env hid hw hh e he f hf (List.append_cancel_left heq)

theorem Stored.savedDisk {d : Records} {a b : Block} (h : Stored env d a) (hid : a.blockId ≠ b.blockId)
    (hh : a.height ≠ b.height) : Stored env (savedDisk env d b) a := by
  intro what hw e he
  rw [savedDisk_other env d hid hw (fun _ => hh) he]
  exact h what hw e he

/-- Only the three databases matter. -/
theorem Stored.congr {d d' : Records} {b : Block} (h : Stored env d b) (hd : ∀ what ∈ ownDBs, d' what = d what) :
    Stored env d' b := by
  intro what hw e he
  rw [hd what hw]
  exact h what hw e he

theorem Stored.getText_header {d : Records} {b : Block} (h : Stored env d b) (suffix v : Bytes)
    (hm : (suffix, .text v) ∈ headerRecords env b) :
    d.getText .blockHeader (b.getBlockIdB64 env ++ suffix) = v := by
  have he := h .blockHeader (by decide) ⟨.blockHeader, b.getBlockIdB64 env ++ suffix, .text v⟩
    (List.mem_map.mpr ⟨_, hm, rfl⟩)
  simp [Records.getText, Records.getValueByKey, he, Value.toText]

theorem Stored.getText_raw {d : Records} {b : Block} (h : Stored env d b) (suffix v : Bytes)
    (hm : (suffix, .text v) ∈ rawRecords env b) :
    d.getText .blockRaw (b.getBlockIdB64 env ++ suffix) = v := by
  have he := h .blockRaw (by decide) ⟨.blockRaw, b.getBlockIdB64 env ++ suffix, .text v⟩
    (List.mem_map.mpr ⟨_, hm, rfl⟩)
  simp [Records.getText, Records.getValueByKey, he, Value.toText]

theorem Stored.getNthBlockIdB64 {d : Records} {b : Block} (h : Stored env d b) (h0 : b.height ≠ 0) :
    d.getNthBlockIdB64 b.height = b.getBlockIdB64 env := by
  have he := h .blockHeight (by decide) ⟨.blockHeight, decimal b.height, .text (b.getBlockIdB64 env)⟩
    (by simp [entriesOn, heightEntries])
  simp [Records.getNthBlockIdB64, h0, Records.getText, Records.getValueByKey, he, Value.toText]

end Storage
end GruutMerger
