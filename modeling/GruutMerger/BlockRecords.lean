import GruutMerger.SaveBlock

/-!
# The records of a block

What a successful `saveBlock` leaves in each database. The records of the
transactions go under the transaction ids, so they are described by an owner
and a field; which of them a later block overwrites can be read off that.
-/
namespace GruutMerger

open ByteText KeyValue

variable (env : Env)

namespace Storage

theorem Puts.and_eq_true {a b : Puts} (h : (a.and b).2 = .ok true) :
    a.2 = .ok true ∧ b.2 = .ok true ∧ (a.and b).1 = a.1 ++ b.1 := by
  unfold Puts.and at h ⊢
  split at h
  · rename_i ha
    simp only [ha]
    exact ⟨trivial, h, trivial⟩
  · rename_i ha
    exact absurd h ha

/-- Every item of a header that could be put could be put by itself. -/
theorem putHeaderItem_true {header : Json} {id : Bytes} (h : (putBlockHeader header id).2 = .ok true) :
    ∀ item ∈ dbBlockHeaderSuffix, (putHeaderItem header id item).2 = .ok true := by
  have hfold : ∀ (items : List (String × String)) (r : Puts),
      (items.foldl (fun r item => r.and (putHeaderItem header id item)) r).2 = .ok true →
      r.2 = .ok true ∧ ∀ item ∈ items, (putHeaderItem header id item).2 = .ok true := by
    intro items
    induction items with
    | nil => simp
    | cons item items ih =>
      intro r hr
      obtain ⟨hand, hrest⟩ := ih _ hr
      obtain ⟨hr, hitem, _⟩ := Puts.and_eq_true hand
      exact ⟨hr, List.forall_mem_cons.mpr ⟨hitem, hrest⟩⟩
  exact (hfold _ _ h).2

/-- Without a support signature or without a transaction a field is missing. -/
theorem ne_nil_of_putBlockHeader {b : Block} {id : Bytes}
    (h : (putBlockHeader (b.getBlockHeaderJson env) id).2 = .ok true) :
    b.ssigs ≠ [] ∧ b.transactions ≠ [] := by
  have hitem := putHeaderItem_true h
  constructor
  · intro hs
    have hitem := hitem ("SSig", "_ssig") (by simp [dbBlockHeaderSuffix])
    have hfield : (b.getBlockHeaderJson env).field "SSig" = .ok .null := by
      unfold Block.getBlockHeaderJson Block.arrayField
      rw [hs]
      cases b.transactions <;> rfl
    simp [putHeaderItem, hfield] at hitem
  · intro ht
    have hitem := hitem ("txids", "_txids") (by simp [dbBlockHeaderSuffix])
    have hfield : (b.getBlockHeaderJson env).field "txids" = .ok .null := by
      unfold Block.getBlockHeaderJson Block.arrayField
      rw [ht]
      cases b.ssigs <;> rfl
    simp [putHeaderItem, hfield] at hitem

/-- The entries of a block over the latest one: a block that is not higher
leaves the pointer alone. -/
def entriesOver (latest : NthLink) (b : Block) (what : DBType) : List Entry :=
  if what = .blockLatest ∧ b.height ≤ latest.height then [] else entriesOn env b what

theorem putLatestBlockHeader_true {d : Records} {b : Block}
    (h : (putLatestBlockHeader env d (b.getBlockHeaderJson env)).2 = .ok true) :
    ∃ latest, d.getNthBlockLinkInfo env 0 = .ok latest ∧ b.height < 2 ^ 63 ∧
      (putLatestBlockHeader env d (b.getBlockHeaderJson env)).1 = entriesOver env latest b .blockLatest := by
  have hint : Safe.getInt (b.getBlockHeaderJson env) "hgt" = Safe.parseDecimal (decimal b.height) := by
    rw [Safe.getInt, getStringOf_hgt]
  have hlt : b.height < 2 ^ 63 := by
    by_contra hge
    simp only [putLatestBlockHeader, hint, Safe.parseDecimal_decimal_of_le _ (not_lt.mp hge)] at h
    split at h <;> simp_all
  rw [Safe.parseDecimal_decimal _ hlt] at hint
  cases hd : d.getNthBlockLinkInfo env 0 with
  | error e => simp [putLatestBlockHeader, hd] at h
  | ok latest =>
    refine ⟨latest, rfl, hlt, ?_⟩
    simp only [putLatestBlockHeader, hd, hint, entriesOver, entriesOn, latestEntries, getStringOf_bID,
      getStringOf_hgt, ge_iff_le, true_and]
    split <;> rfl

/-- The entries of a block that could be put. -/
structure PutBlock (d : Records) (b : Block) (latest : NthLink) (es : List Entry) : Prop where
  ssigs_ne : b.ssigs ≠ []
  txs_ne : b.transactions ≠ []
  height_lt : b.height < 2 ^ 63
  latest_eq : d.getNthBlockLinkInfo env 0 = .ok latest
  ops : ∀ what, opsOn what es = (entriesOver env latest b what).map Entry.put

theorem putBlock_true {d : Records} {b : Block}
    (h : (putBlock env d b.blockRaw (b.getBlockHeaderJson env) (.object (b.bodyFields env))).2 = .ok true) :
    ∃ latest, PutBlock env d b latest
      (putBlock env d b.blockRaw (b.getBlockHeaderJson env) (.object (b.bodyFields env))).1 := by
  unfold putBlock at h ⊢
  simp only [getStringOf_bID] at h ⊢
  obtain ⟨h, _, hraw⟩ := Puts.and_eq_true h
  obtain ⟨h, _, hbody⟩ := Puts.and_eq_true h
  obtain ⟨h, hl, hlatest⟩ := Puts.and_eq_true h
  obtain ⟨hheader, _, hheight⟩ := Puts.and_eq_true h
  obtain ⟨hs, ht⟩ := ne_nil_of_putBlockHeader env hheader
  obtain ⟨latest, hd, hlt, hput⟩ := putLatestBlockHeader_true env hl
  refine ⟨latest, hs, ht, hlt, hd, fun what => ?_⟩
  rw [hraw, hbody, hlatest, hheight, hput, putBlockHeader_block env hs ht, putTransaction_block]
  have h1 : ∀ e ∈ headerEntries env b, e.what = .blockHeader := what_entriesOn env b .blockHeader
  have h2 : ∀ e ∈ (putBlockHeight (b.getBlockHeaderJson env) (b.getBlockIdB64 env)).1, e.what = .blockHeight := by
    simp [putBlockHeight]
  have h3 : ∀ e ∈ entriesOver env latest b .blockLatest, e.what = .blockLatest := by
    unfold entriesOver
    split
    · simp
    · exact what_entriesOn env b .blockLatest
  have h5 : ∀ e ∈ (putBlockRaw env b.blockRaw (b.getBlockIdB64 env)).1, e.what = .blockRaw := by
    simp [putBlockRaw]
  simp only [opsOn_append, opsOn_uniform h1, opsOn_uniform h2, opsOn_uniform h3,
    opsOn_uniform (what_bodyEntries env b), opsOn_uniform h5]
  cases what <;>
    simp [entriesOver, entriesOn, heightEntries, putBlockHeight, getStringOf_hgt, putBlockRaw, rawEntries,
      recordEntries, rawRecords]

theorem PutBlock.batch_eq {s : Storage} {b : Block} {latest : NthLink} {es : List Entry}
    (h : PutBlock env s.disk b latest es) (hc : s.Clean) :
    ∀ what ∈ commitOrder, (s.addBatch es).batch what = (entriesOver env latest b what).map Entry.put := by
  intro what hw
  have hops := h.ops what
  unfold opsOn at hops
  simp only [addBatch, hc what hw, List.nil_append, hops]

/-- The databases once a block is saved over the latest one. -/
def savedOver (latest : NthLink) (d : Records) (b : Block) : Records :=
  fun what => (d what).write ((entriesOver env latest b what).map Entry.put)

theorem savedOver_of_ne {latest : NthLink} {d : Records} {b : Block} {what : DBType}
    (h : what ≠ .blockLatest) : savedOver env latest d b what = savedDisk env d b what := by
  simp [savedOver, savedDisk, entriesOver, h]

/-- A call that answers true. -/
theorem saveBlock_eq_true {s s' : Storage} {b : Block} (hc : s.Clean)
    (h : s.saveBlock env b.blockRaw (b.getBlockHeaderJson env) (.object (b.bodyFields env)) = (.ok true, s')) :
    ∃ latest es, PutBlock env s.disk b latest es ∧ s'.disk = savedOver env latest s.disk b ∧ s'.Clean := by
  obtain ⟨es, hputs, rfl⟩ := saveBlock_cases env h
  obtain ⟨latest, hput⟩ := putBlock_true env (congrArg Prod.snd hputs)
  rw [hputs] at hput
  refine ⟨latest, es, hput, ?_, clean_finishSave s es true⟩
  exact disk_commitBatchAll_eq (hput.batch_eq env hc) fun what hw => by
    cases what <;> first | rfl | exact absurd (by simp [commitOrder]) hw

inductive BodyField where
  | content | position | block | tree | count
  deriving DecidableEq

def BodyField.suffix : BodyField → Bytes
  | content => ascii "_c"
  | position => ascii "_mPos"
  | block => ascii "_bID"
  | tree => ascii "_mtree"
  | count => ascii "_txCnt"

def bodyKey (owner : Bytes) (f : BodyField) : Bytes := env.base64.encode owner ++ f.suffix

theorem bodyKey_inj {o p : Bytes} {f g : BodyField} (h : bodyKey env o f = bodyKey env p g) : o = p ∧ f = g := by
  have hsuffix : ∀ f : BodyField, KeySuffix f.suffix := by
    intro f
    cases f <;> exact Or.inr ⟨_, rfl⟩
  obtain ⟨ho, hf⟩ := append_keySuffix_inj (env.base64.underscore_notMem o) (env.base64.underscore_notMem p)
    (hsuffix f) (hsuffix g) h
  refine ⟨env.base64.encode_injective ho, ?_⟩
  revert hf
  cases f <;> cases g <;> decide

structure BodyRecord where
  owner : Bytes
  field : BodyField
  value : Value

def BodyRecord.entry (r : BodyRecord) : Entry := ⟨.transaction, bodyKey env r.owner r.field, r.value⟩

def txRecords (b : Block) (x : Transaction × Nat) : List BodyRecord :=
  [⟨x.1.id, .content, .cbor (x.1.getJson env)⟩, ⟨x.1.id, .position, .text (decimal x.2)⟩,
   ⟨x.1.id, .block, .text (b.getBlockIdB64 env)⟩]

def treeValue (b : Block) : Value :=
  .dump (.array ((b.merkleTreeNode.take b.transactions.length).map fun n => .string (env.base64.encode n)))

def bodyRecords (b : Block) : List BodyRecord :=
  b.transactions.zipIdx.flatMap (txRecords env b) ++
    [⟨b.blockId, .tree, treeValue env b⟩, ⟨b.blockId, .count, .text (decimal b.transactions.length)⟩]

theorem bodyEntries_eq (b : Block) : bodyEntries env b = (bodyRecords env b).map (BodyRecord.entry env) := by
  rw [bodyEntries, bodyRecords, List.map_append, List.zipIdx_map, List.flatMap_map, List.map_flatMap]
  rfl

theorem mem_bodyRecords {b : Block} {r : BodyRecord} : r ∈ bodyRecords env b ↔
    (∃ i tx, b.transactions[i]? = some tx ∧ r ∈ txRecords env b (tx, i)) ∨
      r = ⟨b.blockId, .tree, treeValue env b⟩ ∨
      r = ⟨b.blockId, .count, .text (decimal b.transactions.length)⟩ := by
  simp only [bodyRecords, List.mem_append, List.mem_flatMap, Prod.exists, List.mem_zipIdx_iff_getElem?,
    List.mem_cons, List.not_mem_nil, or_false]
  constructor
  · rintro (⟨tx, i, h⟩ | h)
    · exact Or.inl ⟨i, tx, h⟩
    · exact Or.inr h
  · rintro (⟨i, tx, h⟩ | h)
    · exact Or.inl ⟨tx, i, h⟩
    · exact Or.inr h

theorem content_mem {b : Block} {owner : Bytes} {v : Value} : ⟨owner, .content, v⟩ ∈ bodyRecords env b ↔
    ∃ tx ∈ b.transactions, tx.id = owner ∧ v = .cbor (tx.getJson env) := by
  simp only [mem_bodyRecords, txRecords, List.mem_cons, BodyRecord.mk.injEq, List.not_mem_nil, or_false,
    reduceCtorEq, false_and, and_false, true_and]
  constructor
  · rintro ⟨i, tx, hi, rfl, rfl⟩
    exact ⟨tx, List.mem_of_getElem? hi, rfl, rfl⟩
  · rintro ⟨tx, hm, rfl, rfl⟩
    obtain ⟨i, hi⟩ := List.getElem?_of_mem hm
    exact ⟨i, tx, hi, rfl, rfl⟩

theorem position_mem {b : Block} {owner : Bytes} {v : Value} : ⟨owner, .position, v⟩ ∈ bodyRecords env b ↔
    ∃ i tx, b.transactions[i]? = some tx ∧ tx.id = owner ∧ v = .text (decimal i) := by
  simp [mem_bodyRecords, txRecords, eq_comm]

theorem block_mem {b : Block} {owner : Bytes} {v : Value} : ⟨owner, .block, v⟩ ∈ bodyRecords env b ↔
    owner ∈ b.getTxIds ∧ v = .text (b.getBlockIdB64 env) := by
  simp only [mem_bodyRecords, txRecords, List.mem_cons, BodyRecord.mk.injEq, List.not_mem_nil, or_false,
    reduceCtorEq, false_and, and_false, true_and, false_or]
  constructor
  · rintro ⟨i, tx, hi, rfl, rfl⟩
    exact ⟨List.mem_map_of_mem (List.mem_of_getElem? hi), rfl⟩
  · rintro ⟨hm, rfl⟩
    obtain ⟨tx, htx, rfl⟩ := List.mem_map.mp hm
    obtain ⟨i, hi⟩ := List.getElem?_of_mem htx
    exact ⟨i, tx, hi, rfl, rfl⟩

theorem tree_mem {b : Block} {owner : Bytes} {v : Value} : ⟨owner, .tree, v⟩ ∈ bodyRecords env b ↔
    owner = b.blockId ∧ v = treeValue env b := by
  simp [mem_bodyRecords, txRecords]

theorem count_mem {b : Block} {owner : Bytes} {v : Value} : ⟨owner, .count, v⟩ ∈ bodyRecords env b ↔
    owner = b.blockId ∧ v = .text (decimal b.transactions.length) := by
  simp [mem_bodyRecords, txRecords]

end Storage

/-- The record of an owner in the database of the transactions. -/
def Records.bodyAt (d : Records) (owner : Bytes) (f : Storage.BodyField) : Option Value :=
  d .transaction (Storage.getPrefix .transaction ++ Storage.bodyKey env owner f)

namespace Storage

theorem op_of_bodyKey {b : Block} {o : Op Bytes Value} {owner : Bytes} {f : BodyField}
    (ho : o ∈ (entriesOn env b .transaction).map Entry.put)
    (hk : o.key = getPrefix .transaction ++ bodyKey env owner f) :
    ∃ v, ⟨owner, f, v⟩ ∈ bodyRecords env b ∧ o.value = some v := by
  rw [entriesOn, bodyEntries_eq, List.map_map] at ho
  obtain ⟨⟨p, g, v⟩, hr, rfl⟩ := List.mem_map.mp ho
  obtain ⟨rfl, rfl⟩ := bodyKey_inj env (List.append_cancel_left hk)
  exact ⟨v, hr, rfl⟩

/-- A saved block leaves one of its records wherever it has one. -/
theorem bodyAt_savedDisk {d : Records} {b : Block} {owner : Bytes} {f : BodyField} {v : Value}
    (h : ⟨owner, f, v⟩ ∈ bodyRecords env b) :
    ∃ w, ⟨owner, f, w⟩ ∈ bodyRecords env b ∧ (savedDisk env d b).bodyAt env owner f = some w := by
  have hop : (BodyRecord.entry env ⟨owner, f, v⟩).put ∈ (entriesOn env b .transaction).map Entry.put := by
    rw [entriesOn, bodyEntries_eq]
    exact List.mem_map_of_mem (List.mem_map_of_mem h)
  obtain ⟨o, ho, hk, hw⟩ := write_named (d .transaction) _ _ ⟨_, hop, rfl⟩
  obtain ⟨w, hr, hv⟩ := op_of_bodyKey env ho hk
  exact ⟨w, hr, hw.trans hv⟩

/-- Elsewhere nothing changes. -/
theorem bodyAt_savedDisk_of_notMem {d : Records} {b : Block} {owner : Bytes} {f : BodyField}
    (h : ∀ v, ⟨owner, f, v⟩ ∉ bodyRecords env b) :
    (savedDisk env d b).bodyAt env owner f = d.bodyAt env owner f := by
  refine write_other _ _ _ fun o ho hk => ?_
  obtain ⟨v, hr, _⟩ := op_of_bodyKey env ho hk
  exact h v hr

end Storage
end GruutMerger
