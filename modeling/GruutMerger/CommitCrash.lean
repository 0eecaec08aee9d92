import GruutMerger.StoredBlocks
import GruutMerger.StoredChain
import Mathlib.Data.List.Basic

/-!
# A crash during a commit

`commitBatchAll` writes five databases one after the other, and the pointer to
the latest block goes out before the transactions. What the databases hold
after any number of the writes, and when the block that the pointer names is
there as a whole.
-/
namespace GruutMerger

open ByteText KeyValue

variable (env : Env)

namespace Storage

/-- The records of the transactions of a block are on disk and belong to it; under
an id that occurs twice stands one of the transactions with this id. -/
structure BodyHeld (d : Records) (b : Block) : Prop where
  content : ∀ tx ∈ b.transactions, ∃ u ∈ b.transactions, u.id = tx.id ∧
    d.bodyAt env tx.id .content = some (.cbor (u.getJson env))
  position : ∀ tx ∈ b.transactions, ∃ i u, b.transactions[i]? = some u ∧ u.id = tx.id ∧
    d.bodyAt env tx.id .position = some (.text (decimal i))
  block : ∀ tx ∈ b.transactions, d.bodyAt env tx.id .block = some (.text (b.getBlockIdB64 env))
  tree : d.bodyAt env b.blockId .tree = some (treeValue env b)
  count : d.bodyAt env b.blockId .count = some (.text (decimal b.transactions.length))

/-- All records of a block are on disk and belong to it. -/
structure Complete (d : Records) (b : Block) : Prop where
  stored : Stored env d b
  body : BodyHeld env d b

/-- The block that the latest-block record names, if any, is complete. -/
def LatestComplete (d : Records) : Prop :=
  d.getNthBlockIdB64 0 ≠ [] → ∃ b, b.getBlockIdB64 env = d.getNthBlockIdB64 0 ∧ Complete env d b

/-- The databases after the first `k` writes of `commitBatchAll`. -/
def written (s : Storage) (k : Nat) : Records := ((commitOrder.take k).foldl writeBatch s).disk

/-- The databases after a crash that leaves the first `k` writes of saving a block. -/
def crashAt (s : Storage) (b : Block) (body : Json) (k : Nat) : Records :=
  let puts := putBlock env s.disk b.blockRaw (b.getBlockHeaderJson env) body
  match puts.2 with
  | .ok true => (s.addBatch puts.1).written k
  | _ => s.disk

theorem crashAt_of_put {s : Storage} {b : Block} {body : Json} (k : Nat)
    (h : (putBlock env s.disk b.blockRaw (b.getBlockHeaderJson env) body).2 = .ok true) : crashAt env s b body k =
      (s.addBatch (putBlock env s.disk b.blockRaw (b.getBlockHeaderJson env) body).1).written k := by
  unfold crashAt
  dsimp only
  rw [h]

theorem crashAt_of_refused {s : Storage} {b : Block} {body : Json} (k : Nat)
    (h : (putBlock env s.disk b.blockRaw (b.getBlockHeaderJson env) body).2 ≠ .ok true) :
    crashAt env s b body k = s.disk := by
  unfold crashAt
  dsimp only
  split
  · rename_i hput
    exact absurd hput h
  · rfl

theorem bodyHeld_savedDisk (d : Records) (b : Block) : BodyHeld env (savedDisk env d b) b where
  content tx htx := by
    obtain ⟨w, hw, hat⟩ := bodyAt_savedDisk env (d := d) ((content_mem env).mpr ⟨tx, htx, rfl, rfl⟩)
    obtain ⟨u, hu, hid, rfl⟩ := (content_mem env).mp hw
    exact ⟨u, hu, hid, hat⟩
  position tx htx := by
    obtain ⟨i, hi⟩ := List.getElem?_of_mem htx
    obtain ⟨w, hw, hat⟩ := bodyAt_savedDisk env (d := d) ((position_mem env).mpr ⟨i, tx, hi, rfl, rfl⟩)
    obtain ⟨j, u, hj, hid, rfl⟩ := (position_mem env).mp hw
    exact ⟨j, u, hj, hid, hat⟩
  block tx htx := by
    obtain ⟨w, hw, hat⟩ := bodyAt_savedDisk env (d := d)
      ((block_mem env).mpr ⟨List.mem_map_of_mem htx, rfl⟩)
    rw [hat, ((block_mem env).mp hw).2]
  tree := by
    obtain ⟨w, hw, hat⟩ := bodyAt_savedDisk env (d := d) ((tree_mem env).mpr ⟨rfl, rfl⟩)
    rw [hat, ((tree_mem env).mp hw).2]
  count := by
    obtain ⟨w, hw, hat⟩ := bodyAt_savedDisk env (d := d) ((count_mem env).mpr ⟨rfl, rfl⟩)
    rw [hat, ((count_mem env).mp hw).2]

theorem complete_savedDisk (d : Records) (b : Block) : Complete env (savedDisk env d b) b :=
  ⟨stored_savedDisk env d b, bodyHeld_savedDisk env d b⟩

/-- Only the records under the ids of the block and of its transactions matter. -/
theorem BodyHeld.congr {d d' : Records} {a : Block} (h : BodyHeld env d a)
    (htx : ∀ tx ∈ a.transactions, ∀ f, f = .content ∨ f = .position ∨ f = .block →
      d'.bodyAt env tx.id f = d.bodyAt env tx.id f)
    (hblock : ∀ f, f = .tree ∨ f = .count → d'.bodyAt env a.blockId f = d.bodyAt env a.blockId f) :
    BodyHeld env d' a where
  content tx hm := by
    rw [htx tx hm _ (by simp)]
    exact h.content tx hm
  position tx hm := by
    rw [htx tx hm _ (by simp)]
    exact h.position tx hm
  block tx hm := by
    rw [htx tx hm _ (by simp)]
    exact h.block tx hm
  tree := (hblock _ (by simp)).trans h.tree
  count := (hblock _ (by simp)).trans h.count

theorem BodyHeld.of_eq {d d' : Records} {a : Block} (h : BodyHeld env d a)
    (hd : d' .transaction = d .transaction) : BodyHeld env d' a := by
  have hat : ∀ owner f, d'.bodyAt env owner f = d.bodyAt env owner f := by
    intro owner f
    rw [Records.bodyAt, hd]
    rfl
  exact h.congr env (fun _ _ _ _ => hat _ _) fun _ _ => hat _ _

/-- Only the databases other than that of the latest block matter. -/
theorem Complete.congr {d d' : Records} {b : Block} (h : Complete env d b)
    (hd : ∀ what, what ≠ .blockLatest → d' what = d what) : Complete env d' b where
  stored := h.stored.congr env fun what hw => hd what (by rintro rfl; simp [ownDBs] at hw)
  body := h.body.of_eq env (hd .transaction (by decide))

/-- A block that shares no transaction leaves the records of the transactions alone. -/
theorem bodyAt_savedDisk_of_disjoint {d : Records} {a b : Block} (hid : a.blockId ≠ b.blockId)
    (hdisj : ∀ tx ∈ a.transactions, tx.id ∉ b.getTxIds) :
    (∀ tx ∈ a.transactions, ∀ f, f = .content ∨ f = .position ∨ f = .block →
      (savedDisk env d b).bodyAt env tx.id f = d.bodyAt env tx.id f) ∧
    (∀ f, f = .tree ∨ f = .count → (savedDisk env d b).bodyAt env a.blockId f = d.bodyAt env a.blockId f) := by
  constructor
  · rintro tx htx f (rfl | rfl | rfl) <;> refine bodyAt_savedDisk_of_notMem env fun v hv => hdisj tx htx ?_
    · obtain ⟨u, hu, hid, _⟩ := (content_mem env).mp hv
      exact List.mem_map.mpr ⟨u, hu, hid⟩
    · obtain ⟨i, u, hu, hid, _⟩ := (position_mem env).mp hv
      exact List.mem_map.mpr ⟨u, List.mem_of_getElem? hu, hid⟩
    · exact ((block_mem env).mp hv).1
  · rintro f (rfl | rfl) <;> refine bodyAt_savedDisk_of_notMem env fun v hv => hid ?_
    · exact ((tree_mem env).mp hv).1
    · exact ((count_mem env).mp hv).1

theorem written_at (s : Storage) (k : Nat) (what : DBType) : s.written k what =
    if what ∈ commitOrder.take k then (s.disk what).write (s.batch what) else s.disk what := by
  have hfold : ∀ (l : List DBType) (s : Storage), l.Nodup → (l.foldl writeBatch s).disk what =
      if what ∈ l then (s.disk what).write (s.batch what) else s.disk what := by
    intro l
    induction l with
    | nil => exact fun _ _ => rfl
    | cons x l ih =>
      intro s hl
      obtain ⟨hx, hl⟩ := List.nodup_cons.mp hl
      rw [List.foldl_cons, ih _ hl]
      by_cases heq : what = x
      · subst heq
        simp [hx, writeBatch]
      · simp [heq, writeBatch, disk_write_other]
  exact hfold _ s ((by decide : commitOrder.Nodup).sublist (List.take_sublist k _))

theorem written_of_clean {s : Storage} (hc : s.Clean) (k : Nat) : s.written k = s.disk := by
  funext what
  rw [written_at]
  split
  · rename_i hw
    rw [hc what (List.mem_of_mem_take hw), write_nil]
  · rfl

/-- The records of the block go over what the batches held before. -/
theorem PutBlock.written_at {s : Storage} {b : Block} {latest : NthLink} {es : List Entry}
    (h : PutBlock env s.disk b latest es) (k : Nat) (what : DBType) : (s.addBatch es).written k what =
      if what ∈ commitOrder.take k then savedOver env latest (s.written k) b what else s.written k what := by
  have hbatch : (s.addBatch es).batch what = s.batch what ++ (entriesOver env latest b what).map Entry.put :=
    congrArg (s.batch what ++ ·) (h.ops what)
  rw [Storage.written_at, hbatch, savedOver, Storage.written_at]
  split
  · exact write_append _ _ _
  · rfl

theorem take_all {k : Nat} (hk : 5 ≤ k) : commitOrder.take k = commitOrder := List.take_of_length_le hk

theorem header_written_iff {k : Nat} : .blockHeader ∈ commitOrder.take k ↔ 1 ≤ k :=
  List.mem_take_iff_idxOf_lt (a := DBType.blockHeader) (l := commitOrder) (by decide)

theorem index_written_iff {k : Nat} : .blockHeight ∈ commitOrder.take k ↔ 2 ≤ k :=
  List.mem_take_iff_idxOf_lt (a := DBType.blockHeight) (l := commitOrder) (by decide)

theorem pointer_written_iff {k : Nat} : .blockLatest ∈ commitOrder.take k ↔ 4 ≤ k :=
  List.mem_take_iff_idxOf_lt (a := DBType.blockLatest) (l := commitOrder) (by decide)

theorem txs_written_iff {k : Nat} : .transaction ∈ commitOrder.take k ↔ 5 ≤ k :=
  List.mem_take_iff_idxOf_lt (a := DBType.transaction) (l := commitOrder) (by decide)

/-- The transactions are the last to be written. -/
theorem crashAt_transaction (s : Storage) (b : Block) (body : Json) {k : Nat} (hk : k < 5) :
    crashAt env s b body k .transaction = s.disk .transaction := by
  by_cases h : (putBlock env s.disk b.blockRaw (b.getBlockHeaderJson env) body).2 = .ok true
  · rw [crashAt_of_put env k h, written_at, if_neg (by rw [txs_written_iff]; omega)]
    rfl
  · rw [crashAt_of_refused env k h]

/-- The records of a block over those of before, in the databases written so far. -/
def partly (d : Records) (b : Block) (k : Nat) : Records :=
  fun what => if what ∈ commitOrder.take k then savedDisk env d b what else d what

theorem partly_transaction (d : Records) (b : Block) (k : Nat) :
    partly env d b k .transaction = if 5 ≤ k then savedDisk env d b .transaction else d .transaction := by
  simp only [partly, txs_written_iff]

/-- A block with the id of the one that is saved: what is written of it is what the
saved block writes, and the rest was there before. -/
structure Continues (d : Records) (b : Block) (k : Nat) (a : Block) : Prop where
  id_eq : a.blockId = b.blockId
  own : ∀ what ∈ ownDBs, ∀ e ∈ entriesOn env a what,
    if what ∈ commitOrder.take k then e ∈ entriesOn env b what else d what (getPrefix what ++ e.key) = some e.value
  body : k < 5 → BodyHeld env d a

/-- A block with another id that was complete before, of which no record is replaced. -/
structure Untouched (d : Records) (b : Block) (k : Nat) (a : Block) : Prop where
  id_ne : a.blockId ≠ b.blockId
  complete : Complete env d a
  height_ne : 2 ≤ k → a.height ≠ b.height
  fresh : 5 ≤ k → ∀ tx ∈ a.transactions, tx.id ∉ b.getTxIds

/-- With all writes done the saved block needs nothing of before. -/
theorem continues_self (d : Records) (b : Block) {k : Nat} (hk : 5 ≤ k) : Continues env d b k b where
  id_eq := rfl
  own what hw e he := by
    rw [take_all hk, if_pos (ownDBs_subset hw)]
    exact he
  body hlt := by omega

section Other

variable {d : Records} {a b : Block} {k : Nat} (hid : a.blockId ≠ b.blockId)

include hid

theorem stored_partly_iff (hh : 2 ≤ k → a.height ≠ b.height) :
    Stored env (partly env d b k) a ↔ Stored env d a := by
  have hsame : ∀ what ∈ ownDBs, ∀ e ∈ entriesOn env a what,
      partly env d b k what (getPrefix what ++ e.key) = d what (getPrefix what ++ e.key) := by
    intro what hw e he
    unfold partly
    split
    · rename_i hk
      refine savedDisk_other env d hid hw (fun heq => hh ?_) he
      rw [heq] at hk
      exact index_written_iff.mp hk
    · rfl
  exact forall₄_congr fun what hw e he => by rw [hsame what hw e he]

theorem bodyHeld_partly_iff (hfresh : 5 ≤ k → ∀ tx ∈ a.transactions, tx.id ∉ b.getTxIds) :
    BodyHeld env (partly env d b k) a ↔ BodyHeld env d a := by
  have htx := partly_transaction env d b k
  split at htx
  · rename_i hk
    obtain ⟨h1, h2⟩ := bodyAt_savedDisk_of_disjoint env (d := d) hid (hfresh hk)
    have hsaved : BodyHeld env (savedDisk env d b) a ↔ BodyHeld env d a :=
      ⟨fun h => h.congr env (fun tx hm f hf => (h1 tx hm f hf).symm) fun f hf => (h2 f hf).symm,
        fun h => h.congr env h1 h2⟩
    exact ⟨fun h => hsaved.mp (h.of_eq env htx.symm), fun h => (hsaved.mpr h).of_eq env htx⟩
  · exact ⟨fun h => h.of_eq env htx.symm, fun h => h.of_eq env htx⟩

/-- At one height the index would name the saved block. -/
theorem Stored.height_ne (h : Stored env (partly env d b k) a) (hk : 2 ≤ k) : a.height ≠ b.height := by
  intro heq
  have hindex := h .blockHeight (by decide) ⟨.blockHeight, decimal a.height, .text (a.getBlockIdB64 env)⟩
    (by simp [entriesOn, heightEntries])
  have hsaved := stored_savedDisk env d b .blockHeight (by decide)
    ⟨.blockHeight, decimal b.height, .text (b.getBlockIdB64 env)⟩ (by simp [entriesOn, heightEntries])
  rw [partly, if_pos (index_written_iff.mpr hk), heq, hsaved] at hindex
  simp only [Option.some.injEq, Value.text.injEq] at hindex
  exact hid (env.base64.encode_injective hindex).symm

/-- A transaction that both have would be recorded as one of the saved block. -/
theorem BodyHeld.fresh (h : BodyHeld env (partly env d b k) a) (hk : 5 ≤ k) :
    ∀ tx ∈ a.transactions, tx.id ∉ b.getTxIds := by
  intro tx htx hmem
  obtain ⟨w, hw, hat⟩ := bodyAt_savedDisk env (d := d) ((block_mem env).mpr ⟨hmem, rfl⟩)
  have hblock := h.block tx htx
  rw [Records.bodyAt, partly_transaction, if_pos hk] at hblock
  rw [Records.bodyAt, hblock, ((block_mem env).mp hw).2] at hat
  simp only [Option.some.injEq, Value.text.injEq] at hat
  exact hid (env.base64.encode_injective hat)

theorem complete_partly_iff_untouched : Complete env (partly env d b k) a ↔ Untouched env d b k a := by
  constructor
  · intro h
    have hh := h.stored.height_ne env hid
    have hfresh := h.body.fresh env hid
    exact ⟨hid, ⟨(stored_partly_iff env hid hh).mp h.stored, (bodyHeld_partly_iff env hid hfresh).mp h.body⟩, hh, hfresh⟩
  · intro h
    exact ⟨(stored_partly_iff env hid h.height_ne).mpr h.complete.stored,
      (bodyHeld_partly_iff env hid h.fresh).mpr h.complete.body⟩

end Other

/-- Blocks with one id have their records under the same keys, except for the index
of heights. -/
theorem exists_entry_of_id_eq {a b : Block} (hid : a.blockId = b.blockId) {what : DBType} (hw : what ∈ ownDBs)
    (hh : what = .blockHeight → a.height = b.height) {e : Entry} (he : e ∈ entriesOn env a what) :
    ∃ f ∈ entriesOn env b what, f.what = e.what ∧ f.key = e.key := by
  have hrecords : ∀ {what : DBType} {rs ss : List (Bytes × Value)}, rs.map Prod.fst = ss.map Prod.fst →
      e ∈ recordEntries env what a rs → ∃ f ∈ recordEntries env what b ss, f.what = e.what ∧ f.key = e.key := by
    intro what rs ss hkeys he
    obtain ⟨r, hr, rfl⟩ := List.mem_map.mp he
    have hmem := List.mem_map_of_mem (f := Prod.fst) hr
    rw [hkeys] at hmem
    obtain ⟨s, hs, hkey⟩ := List.mem_map.mp hmem
    refine ⟨_, List.mem_map_of_mem hs, rfl, ?_⟩
    simp only [Block.getBlockIdB64, hid, hkey]
  simp only [ownDBs, List.mem_cons, List.not_mem_nil, or_false] at hw
  rcases hw with rfl | rfl | rfl
  · exact @hrecords _ (headerRecords env a) _ rfl he
  · simp only [entriesOn, heightEntries, List.mem_singleton] at he ⊢
    exact ⟨_, rfl, by rw [he], by rw [he, hh rfl]⟩
  · exact @hrecords _ (rawRecords env a) _ rfl he

section Same

variable {d : Records} {a b : Block} {k : Nat} (hid : a.blockId = b.blockId)

include hid

/-- A record that both blocks have is the one of the saved block. -/
theorem Stored.mem_entriesOn (h : Stored env (partly env d b k) a) {what : DBType} (hw : what ∈ ownDBs)
    (hk : what ∈ commitOrder.take k) (hh : what = .blockHeight → a.height = b.height) :
    ∀ e ∈ entriesOn env a what, e ∈ entriesOn env b what := by
  intro e he
  obtain ⟨f, hf, hwhat, hkey⟩ := exists_entry_of_id_eq env hid hw hh he
  have hsaved := stored_savedDisk env d b what hw f hf
  have hheld := h what hw e he
  rw [partly, if_pos hk, ← hkey, hsaved] at hheld
  have heq : f = e := by
    cases f
    cases e
    simp_all
  rwa [← heq]

/-- The header tells the height. -/
theorem Stored.height_eq (h : Stored env (partly env d b k) a) (hk : 1 ≤ k) : a.height = b.height := by
  have hmem := h.mem_entriesOn env hid (by decide) (header_written_iff.mpr hk) (by simp)
    ⟨.blockHeader, a.getBlockIdB64 env ++ ascii "_hgt", .text (decimal a.height)⟩
    (List.mem_map.mpr ⟨(ascii "_hgt", .text (decimal a.height)), by simp [headerRecords], rfl⟩)
  have hat := (stored_savedDisk env d b).getText_header env (ascii "_hgt") (decimal b.height) (by simp [headerRecords])
  have hat' := stored_savedDisk env d b .blockHeader (by decide) _ hmem
  simp only [Records.getText, Records.getValueByKey, Block.getBlockIdB64, hid] at hat hat'
  rw [hat'] at hat
  exact decimal_injective hat

theorem complete_partly_iff_continues (hk : k < 5) :
    Complete env (partly env d b k) a ↔ Continues env d b k a := by
  have htx := partly_transaction env d b k
  rw [if_neg (by omega)] at htx
  constructor
  · intro h
    refine ⟨hid, fun what hw e he => ?_, fun _ => h.body.of_eq env htx.symm⟩
    split
    · rename_i htake
      refine h.stored.mem_entriesOn env hid hw htake (fun heq => h.stored.height_eq env hid ?_) e he
      rw [heq] at htake
      have := index_written_iff.mp htake
      omega
    · rename_i htake
      have hheld := h.stored what hw e he
      rwa [partly, if_neg htake] at hheld
  · intro h
    refine ⟨fun what hw e he => ?_, (h.body hk).of_eq env htx⟩
    have hrecord := h.own what hw e he
    unfold partly
    split at hrecord
    · rename_i htake
      rw [if_pos htake]
      exact stored_savedDisk env d b what hw e hrecord
    · rename_i htake
      rw [if_neg htake]
      exact hrecord

end Same

theorem partly_all {d : Records} {b : Block} {k : Nat} (hk : 5 ≤ k) {what : DBType} (hw : what ∈ commitOrder) :
    partly env d b k what = savedDisk env d b what := by
  rw [partly, take_all hk, if_pos hw]

/-- Some block with a given id is complete after the first writes. -/
theorem exists_complete_partly {d : Records} {b : Block} {k : Nat} {id : Bytes} :
    (∃ a, a.getBlockIdB64 env = id ∧ Complete env (partly env d b k) a) ↔
      ∃ a, a.getBlockIdB64 env = id ∧ (Continues env d b k a ∨ Untouched env d b k a) := by
  constructor
  · rintro ⟨a, ha, h⟩
    by_cases hid : a.blockId = b.blockId
    · by_cases hk : k < 5
      · exact ⟨a, ha, Or.inl ((complete_partly_iff_continues env hid hk).mp h)⟩
      · refine ⟨b, ?_, Or.inl (continues_self env d b (by omega))⟩
        rw [← ha, Block.getBlockIdB64, Block.getBlockIdB64, hid]
    · exact ⟨a, ha, Or.inr ((complete_partly_iff_untouched env hid).mp h)⟩
  · rintro ⟨a, ha, h | h⟩
    · by_cases hk : k < 5
      · exact ⟨a, ha, (complete_partly_iff_continues env h.id_eq hk).mpr h⟩
      · -- all records of the saved block are there
        refine ⟨b, by rw [← ha, Block.getBlockIdB64, Block.getBlockIdB64, h.id_eq], ?_, ?_⟩
        · exact (stored_savedDisk env d b).congr env fun what hw => partly_all env (by omega) (ownDBs_subset hw)
        · exact (bodyHeld_savedDisk env d b).of_eq env (partly_all env (by omega) (by decide))
    · exact ⟨a, ha, (complete_partly_iff_untouched env h.id_ne).mpr h⟩

/-- The id that the latest-block record names after the first writes: that of the
block, once the record is written and if the block is above the latest. -/
def namedAt (s : Storage) (b : Block) (k : Nat) : Bytes :=
  match s.disk.getNthBlockLinkInfo env 0 with
  | .ok latest => if 4 ≤ k ∧ latest.height < b.height then b.getBlockIdB64 env else (s.written k).getNthBlockIdB64 0
  | .error _ => (s.written k).getNthBlockIdB64 0

theorem PutBlock.getNthBlockIdB64 {s : Storage} {b : Block} {latest : NthLink} {es : List Entry}
    (h : PutBlock env s.disk b latest es) (k : Nat) :
    ((s.addBatch es).written k).getNthBlockIdB64 0 = namedAt env s b k := by
  have hat := h.written_at env k .blockLatest
  simp only [pointer_written_iff, savedOver, entriesOver, true_and] at hat
  simp only [namedAt, h.latest_eq]
  by_cases hk : 4 ≤ k ∧ latest.height < b.height
  · rw [if_pos hk]
    rw [if_pos hk.1, if_neg (by omega)] at hat
    refine getNthBlockIdB64_of_latestIs env fun e he => ?_
    rw [hat]
    exact latestIs_savedDisk env (s.written k) b e he
  · rw [if_neg hk]
    have hsame : (s.addBatch es).written k .blockLatest = s.written k .blockLatest := by
      rw [hat]
      split
      · rw [if_pos (by omega)]
        rfl
      · rfl
    simp only [Records.getNthBlockIdB64, Records.getText, Records.getValueByKey, hsame, if_true]

end Storage

namespace Sample

/-- The first two blocks of the chain, and the body of each. -/
def firstBlock : Block := (⟨[1], genesisBlockPrevId base, genesisBlockPrevHash base, 1,
  [good 1, good 2, good 3], [digestTx]⟩ : Row).block 0

def secondBlock : Block := (⟨[2], [1], hashOf 0, 2, [good 1, good 2, good 3], [digestTx]⟩ : Row).block 1

def bodyOf (b : Block) : Json := .object (b.bodyFields base)

end Sample

end GruutMerger
