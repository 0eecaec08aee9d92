import GruutMerger.LedgerView
import GruutMerger.Sample

/-!
# Reads through a layer

A read through a layer that is not empty sees the disk ledger and the blocks of the
layer, and nothing else. The empty layer stands for whatever layer was installed last.
Promoting the oldest block of a layer to disk is not seen by the blocks above it, as
long as the block has one value for each of its keys.
-/
namespace GruutMerger

open ByteText KeyValue Fallible CertificateLedger

variable (env : Env)

/-- Storages that agree on the disk ledger and on the blocks of a layer. -/
structure SameBranch (layer : List Bytes) (ls ls' : LayeredStorage) : Prop where
  disk : ls'.storage.disk .ledger = ls.storage.disk .ledger
  records : ∀ id ∈ layer, recordsOf ls'.memLedger id = recordsOf ls.memLedger id

/-- A read through a layer depends on its branch alone, unless the layer is empty. -/
theorem branch_read_iff (mPrefix key : Bytes) (layer : List Bytes) (ls : LayeredStorage) :
    (∀ ls', SameBranch layer ls ls' →
      readLedgerByKeyOnLayer mPrefix ls' key layer = readLedgerByKeyOnLayer mPrefix ls key layer) ↔ layer ≠ [] := by
  unfold readLedgerByKeyOnLayer
  constructor
  · rintro h rfl
    -- a record of an installed block that is not the value read so far
    have hread : ∀ x : UInt8, (LayeredStorage.mk ls.storage [⟨mPrefix ++ key, .text [x], []⟩] [[]]).readLedgerByKey
        (mPrefix ++ key) [] = .text [x] := by
      intro x
      simp [LayeredStorage.readLedgerByKey, getVal, Value.isEmpty]
    have hone := h ⟨ls.storage, [⟨mPrefix ++ key, .text [1], []⟩], [[]]⟩ ⟨rfl, by simp⟩
    have htwo := h ⟨ls.storage, [⟨mPrefix ++ key, .text [2], []⟩], [[]]⟩ ⟨rfl, by simp⟩
    rw [hread] at hone htwo
    exact absurd (hone.trans htwo.symm) (by simp)
  · intro hne ls' h
    rw [readLedgerByKey_eq, readLedgerByKey_eq, if_neg hne, if_neg hne, h.disk]
    exact through_congr _ _ h.records

/-- The count of a user that waits under block `[2]` is read through the empty layer once
that block is installed. -/
theorem empty_layer_sees_installed : ∃ ls, SameBranch [] ls (ls.setBlockLayer [[2]]) ∧
    readLedgerByKeyOnLayer (ascii "C") ls (ascii "u") [] = .text [] ∧
    readLedgerByKeyOnLayer (ascii "C") (ls.setBlockLayer [[2]]) (ascii "u") [] = .text (ascii "1") :=
  ⟨⟨Storage.empty, [⟨ascii "C" ++ ascii "u", .text (ascii "1"), [2]⟩], []⟩, ⟨rfl, by simp⟩, rfl, rfl⟩

/-- Layered storages that ledger calls lead to, from any storage with nothing in memory. -/
inductive LedgerCalled : LayeredStorage → Prop where
  | start (s : Storage) (layer : List Bytes) : LedgerCalled ⟨s, [], layer⟩
  | procLedgerBlock {ls ls' : LayeredStorage} {txs : Json} {id : Bytes} {layer : List Bytes} (h : LedgerCalled ls)
      (hc : GruutMerger.procLedgerBlock env ls txs id layer = .ok ls') : LedgerCalled ls'
  | setBlockLayer {ls : LayeredStorage} (h : LedgerCalled ls) (layer : List Bytes) : LedgerCalled (ls.setBlockLayer layer)
  | moveToDiskLedger {ls : LayeredStorage} (h : LedgerCalled ls) (id : Bytes) : LedgerCalled (ls.moveToDiskLedger id)
  | dropLedger {ls : LayeredStorage} (h : LedgerCalled ls) (id : Bytes) : LedgerCalled (ls.dropLedger id)

/-- No record in memory is empty. -/
def Filled (mem : List LedgerRecord) : Prop := ∀ r ∈ mem, r.value.isEmpty = false

variable {env}

theorem Filled.saveLedger {ls : LayeredStorage} (h : Filled ls.memLedger) (key : Bytes) {v : Value}
    (hv : v.isEmpty = false) (id : Bytes) : Filled (ls.saveLedger key v id).memLedger := by
  unfold LayeredStorage.saveLedger
  split
  · exact h
  · intro r hr
    rcases List.mem_append.mp hr with hr | hr
    · exact h r hr
    · rw [List.mem_singleton.mp hr]
      exact hv

theorem Filled.registerCert {ls ls' : LayeredStorage} (h : Filled ls.memLedger) {id : Bytes} {layer : List Bytes}
    {entry : Bytes × Bytes} (hr : registerCert env id layer ls entry = .ok ls') : Filled ls'.memLedger := by
  obtain ⟨index, hi, hr⟩ := bind_eq_ok.mp hr
  have hcount : (Value.text index.1).isEmpty = false := by
    simpa [Value.isEmpty] using nextIndex_ne hi
  have hsaved := h.saveLedger (wrapKey entry.1) hcount id
  simp only at hr
  split at hr
  · cases hr
    exact hsaved
  · rename_i cert hcert
    cases hr
    obtain ⟨period, _, rfl⟩ := Option.map_eq_some_iff.mp hcert
    exact hsaved.saveLedger _ rfl id

theorem blockToLedger_filled {ls ls' : LayeredStorage} (h : Filled ls.memLedger) {txs : Json} {id : Bytes}
    {layer : List Bytes} (hc : blockToLedger env ls txs id layer = .ok ls') : Filled ls'.memLedger :=
  foldlM_invariant (P := fun ls : LayeredStorage => Filled ls.memLedger)
    (fun _ _ _ _ hls hstep => hls.registerCert hstep) h hc

theorem LedgerCalled.filled {ls : LayeredStorage} (h : LedgerCalled env ls) : Filled ls.memLedger := by
  induction h with
  | start s layer => simp [Filled]
  | procLedgerBlock _ hc ih => exact blockToLedger_filled ih hc
  | setBlockLayer _ layer ih => exact ih
  | moveToDiskLedger _ id ih => exact fun r hr => ih r (List.mem_of_mem_filter hr)
  | dropLedger _ id ih => exact fun r hr => ih r (List.mem_of_mem_filter hr)

/-- Blocks above the promoted one read what they read before, and the other records stay. -/
def PromotesAlike (ls : LayeredStorage) (layer : List Bytes) (id : Bytes) : Prop :=
  (∀ key, (ls.moveToDiskLedger id).readLedgerByKey key layer = ls.readLedgerByKey key (layer ++ [id])) ∧
    ∀ other ≠ id, recordsOf (ls.moveToDiskLedger id).memLedger other = recordsOf ls.memLedger other

/-- A block has one value for a key, or none and nothing is on its way to the disk. -/
def OneValue (ls : LayeredStorage) (id key : Bytes) : Prop :=
  (∀ x, firstOf (recordsOf ls.memLedger id) key = some x → lastOf (recordsOf ls.memLedger id) key = some x) ∧
    (firstOf (recordsOf ls.memLedger id) key = none →
      Ledger.read (Store.write (ls.storage.disk .ledger) (ls.storage.batch .ledger)) key =
        Ledger.read (ls.storage.disk .ledger) key)

/-- The disk ledger after promotion. -/
theorem read_moveToDiskLedger (ls : LayeredStorage) (id key : Bytes) :
    Ledger.read ((ls.moveToDiskLedger id).storage.disk .ledger) key =
      (lastOf (recordsOf ls.memLedger id) key).getD
        (Ledger.read (Store.write (ls.storage.disk .ledger) (ls.storage.batch .ledger)) key) := by
  rw [(ledger_moveToDiskLedger ls id).1, write_append, read_write_lastOf]

theorem Filled.isEmpty_eq_false {mem : List LedgerRecord} (h : Filled mem) {layer : List Bytes} {key : Bytes} {x : Value}
    (hx : layer.findSome? (getVal mem key) = some x) : x.isEmpty = false := by
  obtain ⟨id, _, hid⟩ := List.exists_of_findSome?_eq_some hx
  obtain ⟨r, hr, rfl⟩ := Option.map_eq_some_iff.mp hid
  exact h r (List.mem_of_find?_eq_some hr)

/-- A read through a layer and a block below it. -/
theorem through_concat {mem : List LedgerRecord} (h : Filled mem) {layer : List Bytes} (id : Bytes) {key : Bytes}
    (hnone : layer.findSome? (getVal mem key) = none) (v : Ledger) :
    through mem (layer ++ [id]) v key = (firstOf (recordsOf mem id) key).getD (v.read key) := by
  have hfind : (layer ++ [id]).findSome? (getVal mem key) = firstOf (recordsOf mem id) key := by
    rw [List.findSome?_append, hnone, Option.none_or, List.findSome?_singleton, getVal_eq]
  cases hf : firstOf (recordsOf mem id) key with
  | none => simp [through, hfind, hf]
  | some x =>
    rw [hf] at hfind
    exact through_of_some hfind (h.isEmpty_eq_false hfind) v

/-- Promotion is transparent exactly when the block has one value for each key that the
blocks above it leave to it. -/
theorem promotion_transparent {ls : LayeredStorage} (h : LedgerCalled env ls) {layer : List Bytes} {id : Bytes}
    (hlayer : layer ≠ []) (hid : id ∉ layer) :
    PromotesAlike ls layer id ↔
      ∀ key, (∀ above ∈ layer, getVal ls.memLedger key above = none) → OneValue ls id key := by
  have hne : layer ++ [id] ≠ [] := by simp
  -- the blocks above find in memory what they found there before
  have hafter : ∀ key v, through (ls.moveToDiskLedger id).memLedger layer v key = through ls.memLedger layer v key :=
    fun key v => through_congr v key fun x hx => recordsOf_moveToDiskLedger ls fun he => hid (he ▸ hx)
  have hstep : ∀ key, (ls.moveToDiskLedger id).readLedgerByKey key layer = ls.readLedgerByKey key (layer ++ [id]) ↔
      ((∀ above ∈ layer, getVal ls.memLedger key above = none) → OneValue ls id key) := by
    intro key
    rw [readLedgerByKey_eq, readLedgerByKey_eq, if_neg hlayer, if_neg hne, hafter]
    cases hfind : layer.findSome? (getVal ls.memLedger key) with
    | some x =>
      have hcat : (layer ++ [id]).findSome? (getVal ls.memLedger key) = some x := by
        rw [List.findSome?_append, hfind, Option.some_or]
      have hne := h.filled.isEmpty_eq_false hfind
      rw [through_of_some hfind hne, through_of_some hcat hne]
      refine iff_of_true rfl fun hnone => ?_
      rw [List.findSome?_eq_none_iff.mpr hnone] at hfind
      cases hfind
    | none =>
      rw [through_of_none hfind, through_concat h.filled id hfind, read_moveToDiskLedger,
        forall_prop_of_true (List.findSome?_eq_none_iff.mp hfind)]
      unfold OneValue
      cases hf : firstOf (recordsOf ls.memLedger id) key with
      | none => simp [lastOf_eq_none.mpr hf]
      | some x =>
        cases hl : lastOf (recordsOf ls.memLedger id) key with
        | none => simp [lastOf_eq_none.mp hl] at hf
        | some y => simp [eq_comm]
  constructor
  · exact fun hp key => (hstep key).mp (hp.1 key)
  · exact fun hone => ⟨fun key => (hstep key).mpr (hone key), fun other ho => recordsOf_moveToDiskLedger ls ho⟩

namespace Sample

/-- Transactions with certificates, each a user and a text. -/
def certTxs (content : List Bytes) : Json :=
  .array [.object [("content", .array (content.map .string)), ("type", .string txtypeCertificates)]]

def blankLedger : LayeredStorage := ⟨Storage.empty, [], []⟩

/-- The text of a filed certificate. -/
def certText : Value → Bytes
  | .dump j => Safe.getStringAt j 2
  | _ => []

end Sample

open Sample

/-- Users `u` and `w` with one certificate each. -/
theorem promotion_transparent_two : ∃ ls, LedgerCalled base ls ∧ recordsOf ls.memLedger [1] ≠ [] ∧
    PromotesAlike ls [[2]] [1] := by
  have hrun : okAnd (fun ls : LayeredStorage => !(recordsOf ls.memLedger [1]).isEmpty &&
      decide ((recordsOf ls.memLedger [1]).map Prod.fst).Nodup && (ls.storage.batch .ledger).isEmpty)
      (procLedgerBlock base blankLedger (certTxs [ascii "u", [65], ascii "w", [66]]) [1] []) = true := by decide +kernel
  obtain ⟨ls, hls, htest⟩ := okAnd_eq_true.mp hrun
  simp only [Bool.and_eq_true, decide_eq_true_eq, Bool.not_eq_true', List.isEmpty_eq_false_iff, List.isEmpty_iff] at htest
  obtain ⟨⟨hne, hkeys⟩, hbatch⟩ := htest
  have hcalled : LedgerCalled base ls := .procLedgerBlock (.start Storage.empty []) hls
  refine ⟨ls, hcalled, hne, (promotion_transparent hcalled (by simp) (by simp)).mpr fun key _ => ⟨fun x hx => ?_, fun _ => ?_⟩⟩
  · rw [lastOf_of_nodup hkeys]
    exact hx
  · rw [hbatch, write_nil]

/-- Of two certificates of a user in one block the first is read in memory, the second on
disk. -/
theorem promotion_changes_read : ∃ ls, LedgerCalled base ls ∧
    certText (ls.readLedgerByKey (wrapKey (ascii "u_0")) [[2], [1]]) = [65] ∧
    certText ((ls.moveToDiskLedger [1]).readLedgerByKey (wrapKey (ascii "u_0")) [[2]]) = [66] := by
  have hrun : okAnd (fun ls : LayeredStorage =>
      decide (certText (ls.readLedgerByKey (wrapKey (ascii "u_0")) [[2], [1]]) = [65]) &&
      decide (certText ((ls.moveToDiskLedger [1]).readLedgerByKey (wrapKey (ascii "u_0")) [[2]]) = [66]))
      (procLedgerBlock base blankLedger (certTxs [ascii "u", [65], ascii "u", [66]]) [1] []) = true := by decide +kernel
  obtain ⟨ls, hls, htest⟩ := okAnd_eq_true.mp hrun
  simp only [Bool.and_eq_true, decide_eq_true_eq] at htest
  exact ⟨ls, .procLedgerBlock (.start Storage.empty []) hls, htest.1, htest.2⟩

end GruutMerger
