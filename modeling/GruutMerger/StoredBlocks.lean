import GruutMerger.BlockRecords
import GruutMerger.Sample
import GruutMerger.Lib.Fallible

/-!
# Reading saved blocks

After any sequence of successful saves, which blocks `readBlock` still gives
back whole. Header, height and raw records belong to one block each. The
contents of the transactions stand under the transaction ids, which do not
cover the signature of the requester.
-/
namespace GruutMerger

open ByteText KeyValue

variable (env : Env)

namespace Storage

/-- Successful calls of `saveBlock`, oldest block first. -/
inductive SaveRun : Storage → List Block → Storage → Prop where
  | nil (s : Storage) : SaveRun s [] s
  | save {s s' s'' : Storage} {bs : List Block} {b : Block} {body : Json} (run : SaveRun s bs s')
      (hbody : b.getBlockBodyJson env = .ok body)
      (h : s'.saveBlock env b.blockRaw (b.getBlockHeaderJson env) body = (.ok true, s'')) :
      SaveRun s (bs ++ [b]) s''

/-- One call, for evaluation. -/
def trySave (s : Storage) (b : Block) : Option Storage :=
  match b.getBlockBodyJson env with
  | .error _ => none
  | .ok body =>
    match s.saveBlock env b.blockRaw (b.getBlockHeaderJson env) body with
    | (.ok true, s') => some s'
    | _ => none

theorem saveRun_of_trySave {s s' : Storage} {bs : List Block} (h : bs.foldlM (trySave env) s = some s') :
    SaveRun env s bs s' := by
  induction bs using List.reverseRecOn generalizing s' with
  | nil =>
    obtain rfl : s = s' := by simpa using h
    exact .nil s
  | append_singleton bs b ih =>
    rw [List.foldlM_append, Option.bind_eq_bind, Option.bind_eq_some_iff] at h
    obtain ⟨t, ht, h⟩ := h
    have hsave : trySave env t b = some s' := by simpa using h
    unfold trySave at hsave
    split at hsave
    · cases hsave
    rename_i body hbody
    split at hsave
    · rename_i u hu
      cases hsave
      exact .save (ih ht) hbody hu
    · cases hsave

/-- A run writes the records of its blocks one after the other, apart from the
pointer to the latest block. -/
theorem SaveRun.disk_write {s s' : Storage} {bs : List Block} (h : SaveRun env s bs s') (hc : s.Clean) :
    s'.Clean ∧ ∀ what, what ≠ .blockLatest →
      s'.disk what = (s.disk what).write (bs.flatMap fun b => (entriesOn env b what).map Entry.put) := by
  induction h with
  | nil => exact ⟨hc, fun _ _ => rfl⟩
  | @save s' s'' bs b body run hbody hsave ih =>
    obtain ⟨_, rfl⟩ := (Block.getBlockBodyJson_eq_ok env).mp hbody
    obtain ⟨latest, es, _, hdisk, hclean⟩ := saveBlock_eq_true env ih.1 hsave
    refine ⟨hclean, fun what hw => ?_⟩
    rw [hdisk, savedOver_of_ne env hw, savedDisk, ih.2 what hw, List.flatMap_append, List.flatMap_singleton,
      write_append]

/-- A record under the id of a transaction or block is the last one of the run. -/
theorem SaveRun.bodyAt_eq {s s' : Storage} {bs : List Block} (h : SaveRun env s bs s') (hc : s.Clean) (owner : Bytes)
    (f : BodyField) : s'.disk.bodyAt env owner f =
      (((bs.flatMap (bodyRecords env)).filter fun r => decide (r.owner = owner ∧ r.field = f)).getLast?.map (·.value)).or
        (s.disk.bodyAt env owner f) := by
  have hops : (bs.flatMap fun b => (entriesOn env b .transaction).map Entry.put) = (bs.flatMap (bodyRecords env)).map
      fun r => .put (getPrefix .transaction ++ bodyKey env r.owner r.field) r.value := by
    rw [List.map_flatMap]
    refine List.flatMap_congr fun b _ => ?_
    rw [entriesOn, bodyEntries_eq, List.map_map]
    rfl
  have hkey (r : BodyRecord) : getPrefix .transaction ++ bodyKey env r.owner r.field =
      getPrefix .transaction ++ bodyKey env owner f ↔ r.owner = owner ∧ r.field = f :=
    ⟨fun heq => bodyKey_inj env (List.append_cancel_left heq), fun heq => by rw [heq.1, heq.2]⟩
  rw [Records.bodyAt, (h.disk_write env hc).2 .transaction (by decide), hops, write_puts]
  simp only [hkey]
  rfl

/-- The last block with a record of an owner decides it. -/
theorem SaveRun.bodyAt_last {s s' : Storage} {front back : List Block} {b : Block}
    (h : SaveRun env s (front ++ b :: back) s') (hc : s.Clean) {owner : Bytes} {f : BodyField} {v : Value}
    (hrec : ⟨owner, f, v⟩ ∈ bodyRecords env b) (hlast : ∀ a ∈ back, ∀ w, ⟨owner, f, w⟩ ∉ bodyRecords env a) :
    ∃ w, ⟨owner, f, w⟩ ∈ bodyRecords env b ∧ s'.disk.bodyAt env owner f = some w := by
  have hdisk := (h.disk_write env hc).2 .transaction (by decide)
  let before : Records := fun what => (s.disk what).write (front.flatMap fun b => (entriesOn env b what).map Entry.put)
  obtain ⟨w, hw, hat⟩ := bodyAt_savedDisk env (d := before) hrec
  refine ⟨w, hw, ?_⟩
  rw [List.flatMap_append, List.flatMap_cons, write_append, write_append] at hdisk
  rw [← hat, Records.bodyAt, hdisk]
  refine write_other _ _ _ fun o ho hk => ?_
  obtain ⟨a, ha, hoa⟩ := List.mem_flatMap.mp ho
  obtain ⟨u, hu, _⟩ := op_of_bodyKey env hoa hk
  exact hlast a ha u hu

/-- Transactions of the two blocks with the same id are the same. -/
def SameTxs (a b : Block) : Prop := ∀ t ∈ a.transactions, ∀ u ∈ b.transactions, t.id = u.id → t = u

instance (a b : Block) : Decidable (SameTxs a b) :=
  inferInstanceAs (Decidable (∀ t ∈ a.transactions, ∀ u ∈ b.transactions, t.id = u.id → t = u))

/-- The content of every transaction of a block is on disk. -/
def ContentHeld (d : Records) (b : Block) : Prop :=
  ∀ tx ∈ b.transactions, d.bodyAt env tx.id .content = some (.cbor (tx.getJson env))

/-- What the saves of a run leave of each block. -/
structure Held (d : Records) (b : Block) : Prop where
  height_lt : b.height < 2 ^ 63
  stored : Stored env d b
  content : ContentHeld env d b

theorem SaveRun.height_lt {s s' : Storage} {bs : List Block} (h : SaveRun env s bs s') (hc : s.Clean) :
    ∀ b ∈ bs, b.height < 2 ^ 63 := by
  induction h with
  | nil => simp
  | @save s' s'' bs b body run hbody hsave ih =>
    obtain ⟨_, rfl⟩ := (Block.getBlockBodyJson_eq_ok env).mp hbody
    obtain ⟨latest, es, hput, _⟩ := saveBlock_eq_true env (run.disk_write env hc).1 hsave
    intro a ha
    rcases List.mem_append.mp ha with ha | ha
    · exact ih a ha
    · rw [List.mem_singleton.mp ha]
      exact hput.height_lt

/-- The records of a block last as long as no later block has its id or height. -/
theorem SaveRun.stored {s s' : Storage} {front back : List Block} {b : Block}
    (h : SaveRun env s (front ++ b :: back) s') (hc : s.Clean)
    (hback : ∀ a ∈ back, b.blockId ≠ a.blockId ∧ b.height ≠ a.height) : Stored env s'.disk b := by
  intro what hw e he
  let before : Records := fun what => (s.disk what).write (front.flatMap fun b => (entriesOn env b what).map Entry.put)
  have hdisk := (h.disk_write env hc).2 what (by rintro rfl; simp [ownDBs] at hw)
  rw [List.flatMap_append, List.flatMap_cons, write_append, write_append] at hdisk
  rw [hdisk, write_other _ _ _ fun o ho hk => ?_]
  · exact stored_savedDisk env before b what hw e he
  · obtain ⟨a, ha, ho⟩ := List.mem_flatMap.mp ho
    obtain ⟨f, hf, rfl⟩ := List.mem_map.mp ho
    rw [key_put, what_entriesOn env a what f hf] at hk
    exact key_ne_of_entriesOn env (hback a ha).1 hw (fun _ => (hback a ha).2) e he f hf (List.append_cancel_left hk)

theorem SaveRun.stored_of_nodup {s s' : Storage} {bs : List Block} (h : SaveRun env s bs s') (hc : s.Clean)
    (hid : (bs.map Block.blockId).Nodup) (hh : (bs.map Block.height).Nodup) {b : Block} (hb : b ∈ bs) :
    Stored env s'.disk b := by
  obtain ⟨front, back, rfl⟩ := List.append_of_mem hb
  refine h.stored env hc fun a ha => ?_
  rw [List.map_append, List.map_cons, List.nodup_append, List.nodup_cons] at hid hh
  exact ⟨fun heq => hid.2.1.1 (heq ▸ List.mem_map_of_mem ha), fun heq => hh.2.1.1 (heq ▸ List.mem_map_of_mem ha)⟩

/-- The content that is left under the id of a transaction belongs to one with this id. -/
theorem SaveRun.content {s s' : Storage} {bs : List Block} (h : SaveRun env s bs s') (hc : s.Clean) {b : Block}
    (hb : b ∈ bs) {tx : Transaction} (htx : tx ∈ b.transactions) :
    ∃ a ∈ bs, ∃ u ∈ a.transactions, u.id = tx.id ∧ s'.disk.bodyAt env tx.id .content = some (.cbor (u.getJson env)) := by
  have hmem : ⟨tx.id, .content, .cbor (tx.getJson env)⟩ ∈ (bs.flatMap (bodyRecords env)).filter
      fun r => decide (r.owner = tx.id ∧ r.field = .content) :=
    List.mem_filter.mpr ⟨List.mem_flatMap.mpr ⟨b, hb, (content_mem env).mpr ⟨tx, htx, rfl, rfl⟩⟩, by simp⟩
  have hlast := List.getLast?_eq_some_getLast (List.ne_nil_of_mem hmem)
  have hrecord := List.mem_of_getLast? hlast
  rw [h.bodyAt_eq env hc, hlast]
  generalize List.getLast _ _ = r at hrecord
  obtain ⟨hin, hfield⟩ := List.mem_filter.mp hrecord
  obtain ⟨a, ha, hr⟩ := List.mem_flatMap.mp hin
  obtain ⟨owner, f, v⟩ := r
  obtain ⟨rfl, rfl⟩ := of_decide_eq_true hfield
  obtain ⟨u, hu, hid, rfl⟩ := (content_mem env).mp hr
  exact ⟨a, ha, u, hu, hid, rfl⟩

theorem SaveRun.held {s s' : Storage} {bs : List Block} (h : SaveRun env s bs s') (hc : s.Clean)
    (hid : (bs.map Block.blockId).Nodup) (hh : (bs.map Block.height).Nodup)
    (hs : ∀ a ∈ bs, ∀ b ∈ bs, SameTxs a b) : s'.Clean ∧ ∀ b ∈ bs, Held env s'.disk b := by
  refine ⟨(h.disk_write env hc).1, fun b hb =>
    ⟨h.height_lt env hc b hb, h.stored_of_nodup env hc hid hh hb, fun tx htx => ?_⟩⟩
  obtain ⟨a, ha, u, hu, huid, hat⟩ := h.content env hc hb htx
  rw [hat, hs b hb a ha tx htx u hu huid.symm]

/-- The transactions of a block are read as whatever is left under their ids. -/
theorem readTxs_of_content {d : Records} {txs us : List Transaction}
    (h : List.Forall₂ (fun tx u => d.bodyAt env tx.id .content = some (.cbor (u.getJson env))) txs us) :
    d.readTxs (txs.map fun tx => .string (env.base64.encode tx.id)) = us.map (·.getJson env) := by
  induction h with
  | nil => rfl
  | @cons tx u txs us hat _ ih =>
    have htx : d.getValueByKey .transaction (env.base64.encode tx.id ++ ascii "_c") = .cbor (u.getJson env) := by
      rw [Records.bodyAt, bodyKey, BodyField.suffix] at hat
      rw [Records.getValueByKey, hat]
      rfl
    simp only [List.map_cons, Records.readTxs, Safe.getString, htx, ih]

/-- The block that `readBlock` should give back. -/
def asRead (b : Block) : StorageBlock where
  id := b.blockId
  hash := b.blockHash
  prevId := b.prevBlockId
  prevHash := b.prevBlockHash
  time := b.time
  height := b.height
  blockRaw := b.blockRaw
  txs := b.transactions.map (·.getJson env)

/-- A finished block that can be told from a missing one, at a time that can be
read back. -/
structure Readable (b : Block) : Prop where
  id_ne : b.blockId ≠ []
  time_lt : b.time < 2 ^ 63
  hash_eq : b.blockHash = env.sha256 b.blockRaw

theorem Readable.idB64_ne {b : Block} (h : Readable env b) : b.getBlockIdB64 env ≠ [] := Block.getBlockIdB64_ne env h.id_ne

/-- The link of a stored block, under whatever height its id is found. -/
theorem Stored.getNthBlockLinkInfo {d : Records} {b : Block} (h : Stored env d b) (hheight : b.height < 2 ^ 63)
    (hr : Readable env b) {n : Nat} (hid : d.getNthBlockIdB64 n = b.getBlockIdB64 env) :
    d.getNthBlockLinkInfo env n = .ok b.link := by
  have hidB64 := hr.idB64_ne env
  have hhash := h.getText_raw env (ascii "_hash") (env.sha256 b.blockRaw) (by simp [rawRecords])
  have hhgt := h.getText_header env (ascii "_hgt") (decimal b.height) (by simp [headerRecords])
  have htime := h.getText_header env (ascii "_time") (decimal b.time) (by simp [headerRecords])
  have hprev := h.getText_header env (ascii "_prevbID") (env.base64.encode b.prevBlockId) (by simp [headerRecords])
  have hprevH := h.getText_header env (ascii "_prevH") (env.base64.encode b.prevBlockHash) (by simp [headerRecords])
  have hdecode : env.base64.decode (b.getBlockIdB64 env) = b.blockId := env.base64.decode_encode _
  simp only [Records.getNthBlockLinkInfo, hid, hidB64, if_false, hhgt, htime, hprev, hprevH, hhash, hdecode,
    Safe.getSize_decimal b.height hheight, Safe.getTime, Safe.parseDecimal_decimal b.time hr.time_lt,
    env.base64.decode_encode, Block.link, hr.hash_eq, bind, Except.bind, pure, Except.pure]

/-- A stored block is read with the transactions that are left under the ids of its own. -/
theorem Stored.readBlock {d : Records} {b : Block} (h : Stored env d b) (hlt : b.height < 2 ^ 63) (h0 : b.height ≠ 0)
    (hr : Readable env b) {us : List Transaction} (hus : List.Forall₂
      (fun tx u => d.bodyAt env tx.id .content = some (.cbor (u.getJson env))) b.transactions us) :
    d.readBlock env b.height = .ok { asRead env b with txs := us.map (·.getJson env) } := by
  have hlink := h.getNthBlockLinkInfo env hlt hr (h.getNthBlockIdB64 env h0)
  have hids : d.getValueByKey .blockHeader (b.getBlockIdB64 env ++ ascii "_txids") =
      .dump (.array (b.transactions.map fun tx => .string (env.base64.encode tx.id))) := by
    have he := h .blockHeader (by decide)
      ⟨.blockHeader, b.getBlockIdB64 env ++ ascii "_txids",
        .dump (.array (b.transactions.map fun tx => .string (env.base64.encode tx.id)))⟩
      (List.mem_map.mpr ⟨(ascii "_txids", _), by simp [headerRecords], rfl⟩)
    rw [Records.getValueByKey, he]
    rfl
  have hraw := h.getText_raw env [] b.blockRaw (by simp [rawRecords])
  rw [List.append_nil] at hraw
  have hidB64 := hr.idB64_ne env
  simp only [Records.readBlock, hlink, h.getNthBlockIdB64 env h0, hidB64, h0, if_false, hids, hraw,
    Value.parseAsArray, Json.elements, readTxs_of_content env hus, Block.link, asRead, bind,
    Except.bind, pure, Except.pure]

theorem Held.readBlock {d : Records} {b : Block} (h : Held env d b) (h0 : b.height ≠ 0)
    (hr : Readable env b) : d.readBlock env b.height = .ok (asRead env b) :=
  h.stored.readBlock env h.height_lt h0 hr (List.forall₂_same.mpr h.content)

/-- Every saved block is read back whole, and read as a block again, as long as
transactions under one id are the same in all saved blocks. -/
theorem readBlock_saved {s s' : Storage} {bs : List Block} (hc : s.Clean) (hrun : SaveRun env s bs s')
    (hid : (bs.map Block.blockId).Nodup) (hh : (bs.map Block.height).Nodup)
    (hs : ∀ a ∈ bs, ∀ b ∈ bs, SameTxs a b) {b : Block} (hb : b ∈ bs) (h1 : 1 ≤ b.height)
    (hr : Readable env b) :
    ∃ found, s'.disk.readBlock env b.height = .ok found ∧ found = asRead env b ∧
      (b.Received env → (∀ tx ∈ b.transactions, tx.sentTime < 2 ^ 63) →
        Block.initializeRaw env found.blockRaw (.array found.txs) = .ok (some b)) := by
  have hheld := (hrun.held env hc hid hh hs).2 b hb
  exact ⟨asRead env b, hheld.readBlock env (by omega) hr, rfl, fun hrec ht => hrec.initializeRaw_again env ht⟩

end Storage

namespace Sample

/-- The same transaction, signed again: the id stays. -/
def resignedTx : Transaction := { digestTx with signature := [2] }

/-- Two blocks in a row that share a transaction, and two with the second signature. -/
def sharingRows : List Row := chainRows.take 2

def resignedRows : List Row :=
  [⟨[1], genesisBlockPrevId base, genesisBlockPrevHash base, 1, [good 1], [digestTx]⟩,
   ⟨[2], [1], hashOf 0, 2, [good 1], [resignedTx]⟩]

/-- The signatures of some transactions in JSON form. -/
def signaturesOf (txs : List Json) : List Bytes := txs.map (Safe.getBytesFromB64 base.base64 · "rSig")

end Sample

open Sample in
theorem Storage.readBlock_saved_shared : ∃ s', SaveRun (world sharingRows) empty (tableOf sharingRows) s' ∧
    ∃ b ∈ tableOf sharingRows, b.blockId = [1] ∧ ∃ found,
      s'.disk.readBlock (world sharingRows) b.height = .ok found ∧ found = asRead (world sharingRows) b := by
  have hrun : ((tableOf sharingRows).foldlM (trySave (world sharingRows)) empty).isSome = true := by
    decide +kernel
  obtain ⟨s', hs'⟩ := Option.isSome_iff_exists.mp hrun
  have hsave := saveRun_of_trySave _ hs'
  have hb : (⟨[1], genesisBlockPrevId base, genesisBlockPrevHash base, 1, [good 1, good 2, good 3],
      [digestTx]⟩ : Row).block 0 ∈ tableOf sharingRows := List.mem_of_getElem? (i := 0) rfl
  obtain ⟨found, hread, heq, _⟩ := readBlock_saved (world sharingRows) (s := empty) (fun _ _ => rfl) hsave
    (by decide +kernel) (by decide +kernel) (by decide +kernel) hb (by decide)
    ⟨by decide, by decide, rfl⟩
  exact ⟨s', hsave, _, hb, rfl, found, hread, heq⟩

open Sample in
/-- Both blocks are accepted and saved; the first is then read with the signature of
the second. -/
theorem Storage.readBlock_replaced : ∃ s', SaveRun (world resignedRows) empty (tableOf resignedRows) s' ∧
    (∀ b ∈ tableOf resignedRows, b.isValidEarly (world resignedRows) = true) ∧
    ((tableOf resignedRows).map fun b => (b.blockId, b.height)) = [([1], 1), ([2], 2)] ∧
    (tableOf resignedRows).map (fun b => b.transactions.map (·.signature)) = [[[1]], [[2]]] ∧
    ∃ found, s'.disk.readBlock (world resignedRows) 1 = .ok found ∧ found.id = [1] ∧
      signaturesOf found.txs = [[2]] := by
  have hrun : ((tableOf resignedRows).foldlM (trySave (world resignedRows)) empty).any (fun s =>
      Fallible.okAnd (fun found => decide (found.id = [1]) && decide (signaturesOf found.txs = [[2]]))
        (s.disk.readBlock (world resignedRows) 1)) = true := by decide +kernel
  obtain ⟨s', hs', htest⟩ := (Option.any_eq_true _ _).mp hrun
  obtain ⟨found, hread, htest⟩ := Fallible.okAnd_eq_true.mp htest
  simp only [Bool.and_eq_true, decide_eq_true_eq] at htest
  have hvalid : ∀ b ∈ tableOf resignedRows, b.isValidEarly (world resignedRows) = true := by
    intro b hb
    obtain ⟨⟨r, i⟩, hr, rfl⟩ := List.mem_map.mp hb
    have hg : Good resignedRows := by decide +kernel
    exact block_valid (hg.2 r (List.fst_mem_of_mem_zipIdx hr)).2.2 _
  exact ⟨s', saveRun_of_trySave _ hs', hvalid, by decide +kernel, by decide +kernel, found, hread, htest⟩

end GruutMerger
