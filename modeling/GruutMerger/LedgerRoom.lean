import GruutMerger.LedgerFeed
import GruutMerger.LedgerView

/-!
# Ledger calls return

A ledger call fails where the count it reads for a user is no number or the
greatest one of its type. With users that have no underscore in their names only
counts are filed under the keys of counts, and each registration makes a count
at most one greater than those before.
-/
namespace GruutMerger

open ByteText KeyValue Fallible

variable (env : Env)

namespace CertificateLedger

/-- A count that is missing or at most `n`. -/
def Counted (n : Nat) (v : Value) : Prop := v.isEmpty = true ∨ ∃ k ≤ n, v = .text (decimal k)

/-- The counts of some users, on disk and in memory, are at most `n`. -/
structure Counts (users : Set Bytes) (n : Nat) (ls : LayeredStorage) : Prop where
  disk : ∀ u ∈ users, Counted n (ls.storage.readLedgerByKey (wrapKey u))
  mem : ∀ r ∈ ls.memLedger, ∀ u ∈ users, r.key = wrapKey u → Counted n r.value

/-- How many certificates a block registers. -/
def weight (b : Block) : Nat := (registeredBy env b).length

/-- The ledger has room for what some blocks register. -/
def Room (v : Ledger) (bs : List Block) : Prop :=
  ∃ n, n + (bs.map (weight env)).sum < 2 ^ 31 ∧
    ∀ b ∈ bs, ∀ u ∈ usersOf env b, underscore ∉ u ∧ Counted n (v.read (wrapKey u))

theorem Counted.mono {n m : Nat} {v : Value} (h : Counted n v) (hle : n ≤ m) : Counted m v :=
  h.imp_right fun ⟨k, hk, hv⟩ => ⟨k, by omega, hv⟩

theorem Counts.mono {users : Set Bytes} {n m : Nat} {ls : LayeredStorage} (h : Counts users n ls) (hle : n ≤ m) :
    Counts users m ls :=
  ⟨fun u hu => (h.disk u hu).mono hle, fun r hr u hu hkey => (h.mem r hr u hu hkey).mono hle⟩

theorem Counted.nextIndex {n : Nat} {v : Value} (h : Counted n v) (hn : n + 1 < 2 ^ 31) :
    ∃ k number, k ≤ n + 1 ∧ nextIndex v = .ok (decimal k, number) := by
  rcases h with hempty | ⟨k, hk, rfl⟩
  · refine ⟨1, ascii "0", by omega, ?_⟩
    rw [CertificateLedger.nextIndex, if_pos hempty]
    rfl
  · refine ⟨k + 1, decimal k, by omega, ?_⟩
    have hsome : ¬ (Value.text (decimal k)).isEmpty = true := by
      simp [Value.isEmpty, decimal_ne_nil]
    have hnot : ¬ (k : Int) = 2 ^ 31 - 1 := by omega
    have hpos : ¬ (k : Int) + 1 < 0 := by omega
    rw [CertificateLedger.nextIndex, if_neg hsome]
    simp only [Value.toText, stoi_decimal k (by omega), if_neg hnot, intText, if_neg hpos]
    rfl

variable {users : Set Bytes} {n : Nat} {ls : LayeredStorage}

/-- What is read through a layer is a record of memory or of the disk. -/
theorem forall_read {P : Value → Prop} {key : Bytes} (hdisk : P (ls.storage.readLedgerByKey key))
    (hmem : ∀ r ∈ ls.memLedger, r.key = key → P r.value) (layer : List Bytes) : P (ls.readLedgerByKey key layer) := by
  unfold LayeredStorage.readLedgerByKey
  simp only
  split
  · rename_i v hv
    split
    · exact hdisk
    · obtain ⟨id, _, hid⟩ := List.exists_of_findSome?_eq_some hv
      obtain ⟨r, hr, rfl⟩ := Option.map_eq_some_iff.mp hid
      have hkey := List.find?_some hr
      rw [Bool.and_eq_true, decide_eq_true_eq] at hkey
      exact hmem r (List.mem_of_find?_eq_some hr) hkey.1
  · exact hdisk

theorem Counts.read (h : Counts users n ls) {u : Bytes} (hu : u ∈ users) (layer : List Bytes) :
    Counted n (ls.readLedgerByKey (wrapKey u) layer) :=
  forall_read (h.disk u hu) (fun r hr => h.mem r hr u hu) layer

theorem Counts.saveLedger (h : Counts users n ls) {key id : Bytes} {v : Value} (hid : id ≠ [])
    (hv : ∀ u ∈ users, key = wrapKey u → Counted n v) : Counts users n (ls.saveLedger key v id) := by
  rw [LayeredStorage.saveLedger, if_neg hid]
  refine ⟨h.disk, fun r hr u hu hkey => ?_⟩
  rcases List.mem_append.mp hr with hr | hr
  · exact h.mem r hr u hu hkey
  · rw [List.mem_singleton.mp hr] at hkey ⊢
    exact hv u hu hkey

variable (hplain : ∀ u ∈ users, underscore ∉ u)
include hplain

theorem Counts.registerCert (h : Counts users n ls) (hn : n + 1 < 2 ^ 31) {id : Bytes} (hid : id ≠ []) (layer : List Bytes)
    {entry : Bytes × Bytes} (hu : entry.1 ∈ users) :
    ∃ ls', registerCert env id layer ls entry = .ok ls' ∧ Counts users (n + 1) ls' := by
  obtain ⟨k, number, hk, hnext⟩ := (h.read hu layer).nextIndex hn
  have hcount : Counts users (n + 1) (ls.saveLedger (wrapKey entry.1) (.text (decimal k)) id) :=
    (h.mono (Nat.le_succ n)).saveLedger hid fun _ _ _ => Or.inr ⟨k, hk, rfl⟩
  unfold CertificateLedger.registerCert
  simp only [hnext, bind, Except.bind]
  split
  · exact ⟨_, rfl, hcount⟩
  · exact ⟨_, rfl, hcount.saveLedger hid fun u hu hkey => absurd hkey (wrapKey_ne (hplain u hu) _ _)⟩

theorem Counts.registered (h : Counts users n ls) {entries : List (Bytes × Bytes)} (hn : n + entries.length < 2 ^ 31)
    {id : Bytes} (hid : id ≠ []) (layer : List Bytes) (hu : ∀ entry ∈ entries, entry.1 ∈ users) :
    ∃ ls', entries.foldlM (CertificateLedger.registerCert env id layer) ls = .ok ls' ∧
      Counts users (n + entries.length) ls' := by
  induction entries generalizing n ls with
  | nil => exact ⟨ls, rfl, h⟩
  | cons entry rest ih =>
    rw [List.length_cons] at hn ⊢
    obtain ⟨ls₁, hone, h₁⟩ := h.registerCert env hplain (by omega) hid layer (hu entry (by simp))
    obtain ⟨ls', hrest, h'⟩ := ih h₁ (by omega) fun e he => hu e (List.mem_cons_of_mem _ he)
    exact ⟨ls', foldlM_cons_eq_ok.mpr ⟨ls₁, hone, hrest⟩, h'.mono (by omega)⟩

/-- The ledger calls of a push. -/
theorem Counts.forwards (h : Counts users n ls) {fs : List Pool.Forward}
    (hn : n + ((fs.map Pool.Forward.block).map (weight env)).sum < 2 ^ 31)
    (hfs : ∀ f ∈ fs, f.block.blockId ≠ [] ∧ ∀ u ∈ usersOf env f.block, u ∈ users) :
    ∃ ls', fs.foldlM (ChainState.forwardBlock env) ls = .ok ls' ∧
      Counts users (n + ((fs.map Pool.Forward.block).map (weight env)).sum) ls' := by
  induction fs generalizing n ls with
  | nil => exact ⟨ls, rfl, h⟩
  | cons f fs ih =>
    rw [List.map_cons, List.map_cons, List.sum_cons, weight] at hn ⊢
    obtain ⟨hid, husers⟩ := hfs f (by simp)
    have hidB64 : f.block.getBlockIdB64 env ≠ [] := Block.getBlockIdB64_ne env hid
    have hroom : n + (registeredBy env f.block).length < 2 ^ 31 := by omega
    obtain ⟨ls₁, hone, h₁⟩ := h.registered env hplain hroom hidB64 f.layer fun entry he =>
      husers _ (List.mem_map_of_mem he)
    obtain ⟨ls', hrest, h'⟩ := ih h₁ (by omega) fun g hg => hfs g (List.mem_cons_of_mem _ hg)
    exact ⟨ls', foldlM_cons_eq_ok.mpr ⟨ls₁, hone, hrest⟩, h'.mono (by omega)⟩

end CertificateLedger
end GruutMerger
