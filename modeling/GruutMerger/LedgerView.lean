import GruutMerger.MergerRun

/-!
# What a block registers

The certificate ledger as a store of its own. Registering the certificates of a
block gives records that only depend on the counts read for its users; they wait
in memory under the block's id, and a read through a layer sees them there as it
would see them on disk.
-/
namespace GruutMerger

open ByteText KeyValue Fallible

variable (env : Env)

/-- The ledger database. -/
abbrev Ledger := Store Bytes Value

def Ledger.read (v : Ledger) (key : Bytes) : Value :=
  (v (Storage.getPrefix .ledger ++ key)).getD (.text [])

def ledgerPut (r : Bytes × Value) : Op Bytes Value := .put (Storage.getPrefix .ledger ++ r.1) r.2

/-- Records go to the ledger one after the other, so the last one of a key stays. -/
theorem read_write_lastOf (v : Ledger) (rs : List (Bytes × Value)) (key : Bytes) :
    Ledger.read (v.write (rs.map ledgerPut)) key = (lastOf rs key).getD (v.read key) := by
  have hname : Function.Injective fun key => Storage.getPrefix .ledger ++ key :=
    fun _ _ h => List.append_cancel_left h
  unfold Ledger.read
  rw [show rs.map ledgerPut = rs.map fun r => .put (Storage.getPrefix .ledger ++ r.1) r.2 from rfl, write_lastOf hname]
  cases lastOf rs key <;> rfl

namespace CertificateLedger

/-- The users and certificates that a block registers. -/
def registeredBy (b : Block) : List (Bytes × Bytes) := registered (b.getBlockTXsAsJson env).elements

def usersOf (b : Block) : List Bytes := (registeredBy env b).map Prod.fst

/-- The records of one registration. -/
def entryRecords (entry : Bytes × Bytes) (index : Bytes × Bytes) : List (Bytes × Value) :=
  (wrapKey entry.1, .text index.1) ::
    ((parseCert env entry.2).map fun cert => (wrapKey (entry.1 ++ ascii "_" ++ index.2), cert)).toList

/-- The records of some registrations when counts are read with `read`. -/
def certRecords (read : Bytes → Value) (entries : List (Bytes × Bytes)) :
    Except Failure (List (Bytes × Value)) :=
  (entries.mapM fun entry => (nextIndex (read (wrapKey entry.1))).map (entryRecords env entry)).map List.flatten

/-- The ledger after a block. -/
def commit (v : Ledger) (b : Block) : Except Failure Ledger :=
  (certRecords env v.read (registeredBy env b)).map fun rs => v.write (rs.map ledgerPut)

/-- The ledger after some blocks, one on top of the other. -/
def commitAll (v : Ledger) (bs : List Block) : Except Failure Ledger := bs.foldlM (commit env) v

variable {env}

theorem certRecords_nil (read : Bytes → Value) : certRecords env read [] = .ok [] := rfl

theorem certRecords_cons {read : Bytes → Value} {entry : Bytes × Bytes} {rest : List (Bytes × Bytes)}
    {rs : List (Bytes × Value)} : certRecords env read (entry :: rest) = .ok rs ↔
      ∃ index more, nextIndex (read (wrapKey entry.1)) = .ok index ∧ certRecords env read rest = .ok more ∧
        rs = entryRecords env entry index ++ more := by
  unfold certRecords
  simp only [List.mapM_cons, map_eq_ok, bind_eq_ok, pure_eq_ok]
  constructor
  · rintro ⟨_, ⟨_, ⟨index, hi, rfl⟩, more, hm, rfl⟩, rfl⟩
    exact ⟨index, more.flatten, hi, ⟨more, hm, rfl⟩, rfl⟩
  · rintro ⟨index, _, hi, ⟨more, hm, rfl⟩, rfl⟩
    exact ⟨_, ⟨_, ⟨index, hi, rfl⟩, more, hm, rfl⟩, rfl⟩

/-- Only the counts of the users matter. -/
theorem certRecords_congr {read read' : Bytes → Value} {entries : List (Bytes × Bytes)}
    (h : ∀ u ∈ entries.map Prod.fst, read (wrapKey u) = read' (wrapKey u)) :
    certRecords env read entries = certRecords env read' entries := by
  unfold certRecords
  congr 1
  induction entries with
  | nil => rfl
  | cons entry rest ih =>
    rw [List.mapM_cons, List.mapM_cons, ih fun u hu => h u (List.mem_cons_of_mem _ hu),
      h entry.1 (by simp)]

theorem commit_of_records {v : Ledger} {b : Block} {rs : List (Bytes × Value)}
    (h : certRecords env v.read (registeredBy env b) = .ok rs) : commit env v b = .ok (v.write (rs.map ledgerPut)) := by
  rw [commit, h]
  rfl

theorem wrapKey_injective : Function.Injective wrapKey := fun _ _ h => List.append_cancel_left h

/-- A count is never filed under the key of a certificate. -/
theorem wrapKey_ne {u : Bytes} (hu : underscore ∉ u) (v n : Bytes) : wrapKey (v ++ ascii "_" ++ n) ≠ wrapKey u := by
  intro h
  apply hu
  rw [← wrapKey_injective h]
  have hmem : underscore ∈ ascii "_" := by decide
  simp [hmem]

theorem nextIndex_ne {v : Value} {index : Bytes × Bytes} (h : nextIndex v = .ok index) : index.1 ≠ [] := by
  unfold nextIndex at h
  split at h
  · cases h
    decide
  · split at h
    · cases h
    · split at h
      · cases h
      · cases h
        unfold intText
        split
        · simp
        · exact decimal_ne_nil _

/-- A record under the key of a count is the new count of that user. -/
theorem count_of_mem {read : Bytes → Value} {entries : List (Bytes × Bytes)} {rs : List (Bytes × Value)}
    (h : certRecords env read entries = .ok rs) {u : Bytes} (hu : underscore ∉ u) {v : Value}
    (hm : (wrapKey u, v) ∈ rs) : u ∈ entries.map Prod.fst ∧ ∃ index, nextIndex (read (wrapKey u)) = .ok index ∧
      v = .text index.1 := by
  induction entries generalizing rs with
  | nil =>
    cases h
    cases hm
  | cons entry rest ih =>
    obtain ⟨index, more, hi, hmore, rfl⟩ := certRecords_cons.mp h
    rcases List.mem_append.mp hm with hm | hm
    · rcases List.mem_cons.mp hm with heq | hm
      · obtain ⟨hkey, rfl⟩ := Prod.mk.inj heq
        obtain rfl := wrapKey_injective hkey
        exact ⟨by simp, index, hi, rfl⟩
      · obtain ⟨cert, _, heq⟩ := Option.map_eq_some_iff.mp (Option.mem_toList.mp hm)
        exact absurd (Prod.mk.inj heq).1 (wrapKey_ne hu _ _)
    · obtain ⟨hin, hcount⟩ := ih hmore hm
      exact ⟨List.mem_cons_of_mem _ hin, hcount⟩

/-- The count of a user after a block: the first count among its records, or the
one from before. -/
theorem read_write {v : Ledger} {read : Bytes → Value} {entries : List (Bytes × Bytes)}
    {rs : List (Bytes × Value)} (h : certRecords env read entries = .ok rs) {u : Bytes} (hu : underscore ∉ u) :
    Ledger.read (v.write (rs.map ledgerPut)) (wrapKey u) =
      (firstOf rs (wrapKey u)).getD (v.read (wrapKey u)) := by
  have hagree : ∀ r ∈ rs, ∀ x, r.1 = wrapKey u → (wrapKey u, x) ∈ rs → r.2 = x := by
    rintro ⟨k, y⟩ hr x rfl hx
    obtain ⟨_, index, hi, rfl⟩ := count_of_mem h hu hr
    obtain ⟨_, index', hi', rfl⟩ := count_of_mem h hu hx
    rw [hi] at hi'
    cases hi'
    rfl
  have hname : Function.Injective fun key => Storage.getPrefix .ledger ++ key :=
    fun _ _ h => List.append_cancel_left h
  have hw := write_firstOf hname v rs (wrapKey u) hagree
  unfold Ledger.read
  rw [show rs.map ledgerPut = rs.map fun r => .put (Storage.getPrefix .ledger ++ r.1) r.2 from rfl, hw]
  cases firstOf rs (wrapKey u) <;> rfl

/-- A user the block does not register keeps the count. -/
theorem firstOf_of_notMem {read : Bytes → Value} {entries : List (Bytes × Bytes)} {rs : List (Bytes × Value)}
    (h : certRecords env read entries = .ok rs) {u : Bytes} (hu : underscore ∉ u)
    (hn : u ∉ entries.map Prod.fst) : firstOf rs (wrapKey u) = none := by
  refine firstOf_eq_none.mpr ?_
  rintro ⟨k, v⟩ hr rfl
  exact hn (count_of_mem h hu hr).1

end CertificateLedger

/-- The records that wait under an id. -/
def recordsOf (mem : List LedgerRecord) (id : Bytes) : List (Bytes × Value) :=
  (mem.filter fun r => decide (r.blockIdB64 = id)).map fun r => (r.key, r.value)

def ownedBy (id : Bytes) (rs : List (Bytes × Value)) : List LedgerRecord := rs.map fun r => ⟨r.1, r.2, id⟩

/-- `readLedgerByKey` with the layer it searches given. -/
def through (mem : List LedgerRecord) (layer : List Bytes) (v : Ledger) (key : Bytes) : Value :=
  match layer.findSome? (getVal mem key) with
  | some x => if x.isEmpty then v.read key else x
  | none => v.read key

theorem readLedgerByKey_eq (ls : LayeredStorage) (key : Bytes) (layer : List Bytes) :
    ls.readLedgerByKey key layer =
      through ls.memLedger (if layer = [] then ls.blockLayer else layer) (ls.storage.disk .ledger) key := rfl

theorem getVal_eq (mem : List LedgerRecord) (key id : Bytes) :
    getVal mem key id = firstOf (recordsOf mem id) key := by
  unfold getVal firstOf recordsOf
  rw [List.find?_map, List.find?_filter, Option.map_map]
  congr 2
  funext r
  simp [Bool.and_comm]

@[simp] theorem recordsOf_append (mem mem' : List LedgerRecord) (id : Bytes) :
    recordsOf (mem ++ mem') id = recordsOf mem id ++ recordsOf mem' id := by
  simp [recordsOf]

@[simp] theorem recordsOf_ownedBy (id : Bytes) (rs : List (Bytes × Value)) : recordsOf (ownedBy id rs) id = rs := by
  simp [recordsOf, ownedBy, List.filter_map, Function.comp_def]

theorem recordsOf_ownedBy_other {id id' : Bytes} (h : id' ≠ id) (rs : List (Bytes × Value)) :
    recordsOf (ownedBy id rs) id' = [] := by
  simp [recordsOf, ownedBy, List.filter_map, Function.comp_def, h.symm]

/-- Adding records to the ledger's batch and flushing it. -/
theorem flushLedger_records (s : Storage) (rs : List LedgerRecord) :
    ((rs.foldl (fun st r => st.saveLedger r.key r.value) s).flushLedger).disk .ledger =
        Store.write (s.disk .ledger) (s.batch .ledger ++ rs.map fun r => ledgerPut (r.key, r.value)) ∧
      ((rs.foldl (fun st r => st.saveLedger r.key r.value) s).flushLedger).batch .ledger = [] := by
  have hfold : ∀ (rs : List LedgerRecord) (s : Storage),
      (rs.foldl (fun st r => st.saveLedger r.key r.value) s).batch .ledger =
        s.batch .ledger ++ rs.map (fun r => ledgerPut (r.key, r.value)) ∧
      (rs.foldl (fun st r => st.saveLedger r.key r.value) s).disk = s.disk := by
    intro rs
    induction rs with
    | nil => simp
    | cons r rs ih =>
      intro s
      obtain ⟨hbatch, hdisk⟩ := ih (s.saveLedger r.key r.value)
      rw [List.foldl_cons, hbatch, hdisk]
      refine ⟨?_, rfl⟩
      simp [Storage.saveLedger, Storage.addBatch, Storage.Entry.put, ledgerPut]
  obtain ⟨hbatch, hdisk⟩ := hfold rs s
  constructor
  · simp only [Storage.flushLedger, Storage.clearBatch, Storage.writeBatch, hbatch, hdisk, disk_write_self]
  · simp [Storage.flushLedger, Storage.clearBatch]

theorem recordsOf_filter {mem : List LedgerRecord} (keep : Bytes → Bool) {id : Bytes} (h : keep id = true) :
    recordsOf (mem.filter fun r => keep r.blockIdB64) id = recordsOf mem id := by
  unfold recordsOf
  rw [List.filter_filter]
  congr 2
  funext r
  by_cases hr : r.blockIdB64 = id
  · simp [hr, h]
  · simp [hr]

/-- Moving the records of a block to the ledger on disk. -/
theorem ledger_moveToDiskLedger (ls : LayeredStorage) (id : Bytes) :
    (ls.moveToDiskLedger id).storage.disk .ledger = Store.write (ls.storage.disk .ledger)
        (ls.storage.batch .ledger ++ (recordsOf ls.memLedger id).map ledgerPut) ∧
      (ls.moveToDiskLedger id).storage.batch .ledger = [] := by
  have hmove := flushLedger_records ls.storage (ls.memLedger.filter fun r => decide (r.blockIdB64 = id))
  rw [recordsOf, List.map_map]
  exact hmove

theorem recordsOf_moveToDiskLedger (ls : LayeredStorage) {id other : Bytes} (h : other ≠ id) :
    recordsOf (ls.moveToDiskLedger id).memLedger other = recordsOf ls.memLedger other :=
  recordsOf_filter (fun x => decide (x ≠ id)) (decide_eq_true h)

/-- A read only sees the records of its layer. -/
theorem through_congr {mem mem' : List LedgerRecord} {layer : List Bytes} (v : Ledger) (key : Bytes)
    (h : ∀ id ∈ layer, recordsOf mem' id = recordsOf mem id) : through mem' layer v key = through mem layer v key := by
  have hfind : layer.findSome? (getVal mem' key) = layer.findSome? (getVal mem key) := by
    induction layer with
    | nil => rfl
    | cons id rest ih =>
      rw [List.findSome?_cons, List.findSome?_cons, getVal_eq, getVal_eq, h id (by simp),
        ih fun x hx => h x (List.mem_cons_of_mem _ hx)]
  unfold through
  rw [hfind]

theorem through_of_none {mem : List LedgerRecord} {layer : List Bytes} {key : Bytes}
    (hnone : layer.findSome? (getVal mem key) = none) (v : Ledger) : through mem layer v key = v.read key := by
  simp [through, hnone]

/-- A value that memory has is what a read returns, unless it is empty. -/
theorem through_of_some {mem : List LedgerRecord} {layer : List Bytes} {key : Bytes} {x : Value}
    (hx : layer.findSome? (getVal mem key) = some x) (hne : x.isEmpty = false) (v : Ledger) :
    through mem layer v key = x := by
  simp [through, hx, hne]

/-- Ids without a record for the key are passed over. -/
theorem through_append_none {mem : List LedgerRecord} {ids layer : List Bytes} (v : Ledger) (key : Bytes)
    (h : ∀ id ∈ ids, firstOf (recordsOf mem id) key = none) :
    through mem (ids ++ layer) v key = through mem layer v key := by
  have hnone : ids.findSome? (getVal mem key) = none :=
    List.findSome?_eq_none_iff.mpr fun id hid => (getVal_eq mem key id).trans (h id hid)
  simp only [through, List.findSome?_append, hnone, Option.none_or]

open CertificateLedger

/-- A count is read through a block whose records wait in memory as from the ledger with them. -/
theorem through_concat_write {mem : List LedgerRecord} {layer : List Bytes} {id : Bytes} (v : Ledger)
    {read : Bytes → Value} {entries : List (Bytes × Bytes)} (h : certRecords env read entries = .ok (recordsOf mem id))
    {u : Bytes} (hu : underscore ∉ u)
    (hne : ∀ x, layer.findSome? (getVal mem (wrapKey u)) = some x → x.isEmpty = false) :
    (∀ x, (layer ++ [id]).findSome? (getVal mem (wrapKey u)) = some x → x.isEmpty = false) ∧
      through mem (layer ++ [id]) v (wrapKey u) =
        through mem layer (v.write ((recordsOf mem id).map ledgerPut)) (wrapKey u) := by
  have hfind : (layer ++ [id]).findSome? (getVal mem (wrapKey u)) =
      (layer.findSome? (getVal mem (wrapKey u))).or (firstOf (recordsOf mem id) (wrapKey u)) := by
    rw [List.findSome?_append, List.findSome?_singleton, getVal_eq mem (wrapKey u) id]
  cases hx : layer.findSome? (getVal mem (wrapKey u)) with
  | some x =>
    rw [hx, Option.some_or] at hfind
    refine ⟨fun y hy => hne y (hx.trans (hfind.symm.trans hy)), ?_⟩
    rw [through_of_some hfind (hne x hx), through_of_some hx (hne x hx)]
  | none =>
    rw [hx, Option.none_or] at hfind
    rw [through_of_none hx, read_write h hu]
    cases hf : firstOf (recordsOf mem id) (wrapKey u) with
    | none =>
      rw [hf] at hfind
      exact ⟨fun y hy => (nomatch hfind.symm.trans hy), through_of_none hfind v⟩
    | some x =>
      rw [hf] at hfind
      obtain ⟨_, index, hi, rfl⟩ := count_of_mem h hu (firstOf_eq_some hf)
      have hcount : (Value.text index.1).isEmpty = false := by
        simpa [Value.isEmpty] using nextIndex_ne hi
      refine ⟨fun y hy => ?_, through_of_some hfind hcount v⟩
      rw [← Option.some.inj (hfind.symm.trans hy)]
      exact hcount

/-- What the registration of a certificate writes. -/
theorem CertificateLedger.registerCert_eq (id : Bytes) (layer : List Bytes) (ls : LayeredStorage) (entry : Bytes × Bytes) :
    registerCert env id layer ls entry = (nextIndex (ls.readLedgerByKey (wrapKey entry.1) layer)).map fun index =>
      (entryRecords env entry index).foldl (fun ls r => ls.saveLedger r.1 r.2 id) ls := by
  unfold registerCert entryRecords
  cases nextIndex (ls.readLedgerByKey (wrapKey entry.1) layer) with
  | error e => rfl
  | ok index => cases parseCert env entry.2 <;> rfl

theorem saveLedger_records {id : Bytes} (hid : id ≠ []) (rs : List (Bytes × Value)) (ls : LayeredStorage) :
    rs.foldl (fun ls r => ls.saveLedger r.1 r.2 id) ls = { ls with memLedger := ls.memLedger ++ ownedBy id rs } := by
  induction rs generalizing ls with
  | nil => simp [ownedBy]
  | cons r rs ih =>
    rw [List.foldl_cons, ih, LayeredStorage.saveLedger, if_neg hid]
    simp [ownedBy]

/-- The ledger call of a block with an id that is not searched. -/
theorem blockToLedger_eq_ok {ls ls' : LayeredStorage} {txs : Json} {id : Bytes} {layer : List Bytes}
    (hid : id ≠ []) (hn : id ∉ if layer = [] then ls.blockLayer else layer)
    (h : blockToLedger env ls txs id layer = .ok ls') :
    ∃ rs, certRecords env (fun key => ls.readLedgerByKey key layer) (registered txs.elements) = .ok rs ∧
      ls' = { ls with memLedger := ls.memLedger ++ ownedBy id rs } := by
  unfold blockToLedger at h
  generalize registered txs.elements = entries at h ⊢
  induction entries generalizing ls with
  | nil =>
    cases h
    exact ⟨[], certRecords_nil _, by simp [ownedBy]⟩
  | cons entry rest ih =>
    obtain ⟨ls₁, h₁, h⟩ := foldlM_cons_eq_ok.mp h
    rw [registerCert_eq] at h₁
    obtain ⟨index, hi, rfl⟩ := map_eq_ok.mp h₁
    rw [saveLedger_records hid] at h
    obtain ⟨more, hmore, rfl⟩ := ih (by exact hn) h
    -- the records just added are not seen
    have hread : (fun key => LayeredStorage.readLedgerByKey
        { ls with memLedger := ls.memLedger ++ ownedBy id (entryRecords env entry index) } key layer) =
        fun key => ls.readLedgerByKey key layer := by
      funext key
      rw [readLedgerByKey_eq, readLedgerByKey_eq]
      refine through_congr _ _ fun x hx => ?_
      have hne : x ≠ id := fun he => hn (he ▸ hx)
      rw [recordsOf_append, recordsOf_ownedBy_other hne, List.append_nil]
    rw [hread] at hmore
    exact ⟨entryRecords env entry index ++ more, certRecords_cons.mpr ⟨index, more, hi, hmore, rfl⟩,
      by simp [ownedBy]⟩

end GruutMerger
