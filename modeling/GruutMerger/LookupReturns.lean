import GruutMerger.CertificateLookup
import GruutMerger.LedgerRoom
import GruutMerger.LedgerRun

/-!
# Certificate lookups return

With users that have no underscore in their names, what the ledger files under a
name is a count and what it files under a name, an underscore and a number is a
certificate. A support signer is looked up by a base64 text, which has no
underscore, so a lookup reads numbers where it expects them.
-/
namespace GruutMerger

open ByteText KeyValue Fallible CertificateLedger

namespace CertificateLedger

variable (env : Env)

/-- Nothing, or a certificate whose times can be read. -/
def CertRecord (v : Value) : Prop :=
  v = .text [] ∨ ∃ pem, Parsable env pem ∧ Readable env pem ∧ v = slotValue env (some pem)

/-- The records under names with an underscore are certificates, on disk and in memory. -/
structure Certs (ls : LayeredStorage) : Prop where
  batch : ls.storage.batch .ledger = []
  disk : ∀ u, underscore ∈ u → CertRecord env (ls.storage.readLedgerByKey (wrapKey u))
  mem : ∀ r ∈ ls.memLedger, ∀ u, underscore ∈ u → r.key = wrapKey u → CertRecord env r.value

/-- The names without an underscore. -/
def plainNames : Set Bytes := {u | underscore ∉ u}

/-- A lookup that answers, as long as it finds counts and certificates. -/
def Answers (lookup : (Bytes → Value) → Bytes → Nat → Except Failure Bytes) : Prop :=
  ∀ (n : Nat) (read : Bytes → Value), n < 2 ^ 31 → (∀ u, underscore ∉ u → Counted n (read (wrapKey u))) →
    (∀ u, underscore ∈ u → CertRecord env (read (wrapKey u))) →
    ∀ u t, underscore ∉ u → ∃ pem, lookup read u t = .ok pem

variable {env} {ls : LayeredStorage}

theorem Certs.read (h : Certs env ls) {u : Bytes} (hu : underscore ∈ u) (layer : List Bytes) :
    CertRecord env (ls.readLedgerByKey (wrapKey u) layer) :=
  forall_read (h.disk u hu) (fun r hr => h.mem r hr u hu) layer

theorem Certs.saveLedger (h : Certs env ls) {key id : Bytes} {v : Value} (hid : id ≠ [])
    (hv : ∀ u, underscore ∈ u → key = wrapKey u → CertRecord env v) : Certs env (ls.saveLedger key v id) := by
  rw [LayeredStorage.saveLedger, if_neg hid]
  refine ⟨h.batch, h.disk, fun r hr u hu hkey => ?_⟩
  rcases List.mem_append.mp hr with hr | hr
  · exact h.mem r hr u hu hkey
  · rw [List.mem_singleton.mp hr] at hkey ⊢
    exact hv u hu hkey

theorem Certs.registerCert (h : Certs env ls) {id : Bytes} (hid : id ≠ []) {layer : List Bytes} {entry : Bytes × Bytes}
    (hu : underscore ∉ entry.1) (hr : Readable env entry.2) {ls' : LayeredStorage}
    (hreg : registerCert env id layer ls entry = .ok ls') : Certs env ls' := by
  obtain ⟨⟨count, number⟩, _, hreg⟩ := bind_eq_ok.mp hreg
  -- a count goes under a plain name
  have hcount : Certs env (ls.saveLedger (wrapKey entry.1) (.text count) id) :=
    h.saveLedger hid fun u hmem hkey => absurd (wrapKey_injective hkey ▸ hmem) hu
  simp only at hreg
  split at hreg
  · cases hreg
    exact hcount
  · rename_i cert hcert
    cases hreg
    refine hcount.saveLedger hid fun _ _ _ => Or.inr ⟨entry.2, ?_, hr, ?_⟩
    · obtain ⟨period, hperiod, _⟩ := Option.map_eq_some_iff.mp hcert
      rw [Parsable, hperiod]
      rfl
    · rw [slotValue, hcert]
      rfl

theorem Certs.forwards (h : Certs env ls) {fs : List Pool.Forward} {ls' : LayeredStorage}
    (hfs : ∀ f ∈ fs, f.block.blockId ≠ [] ∧ ∀ entry ∈ registeredBy env f.block,
      underscore ∉ entry.1 ∧ Readable env entry.2)
    (hf : fs.foldlM (ChainState.forwardBlock env) ls = .ok ls') : Certs env ls' := by
  refine foldlM_invariant (P := Certs env) (fun s f t hmem hs hstep => ?_) h hf
  obtain ⟨hid, hentries⟩ := hfs f hmem
  exact foldlM_invariant (P := Certs env) (fun s entry t hin hs hone =>
    hs.registerCert (Block.getBlockIdB64_ne env hid) (hentries entry hin).1 (hentries entry hin).2 hone) hs hstep

/-- Records move from memory to disk or are dropped, and none waits in the batch. -/
structure Moves (ls ls' : LayeredStorage) : Prop where
  batch : ls'.storage.batch .ledger = []
  mem : ∀ r ∈ ls'.memLedger, r ∈ ls.memLedger
  disk : ∀ key, ls'.storage.readLedgerByKey key = ls.storage.readLedgerByKey key ∨
    ∃ r ∈ ls.memLedger, r.key = key ∧ ls'.storage.readLedgerByKey key = r.value

theorem Moves.trans {a b c : LayeredStorage} (h : Moves a b) (h' : Moves b c) : Moves a c where
  batch := h'.batch
  mem r hr := h.mem r (h'.mem r hr)
  disk key := by
    rcases h'.disk key with heq | ⟨r, hr, hkey, heq⟩
    · rw [heq]
      exact h.disk key
    · exact Or.inr ⟨r, h.mem r hr, hkey, heq⟩

/-- Other databases do not matter. -/
theorem Moves.of_touches {ls ls' : LayeredStorage} {dbs : List DBType} (hb : ls.storage.batch .ledger = [])
    (ht : ls.storage.Touches dbs ls'.storage) (hdb : .ledger ∉ dbs) (hmem : ∀ r ∈ ls'.memLedger, r ∈ ls.memLedger) :
    Moves ls ls' where
  batch := (ht.batch_eq hdb).trans hb
  mem := hmem
  disk key := by
    left
    rw [Storage.readLedgerByKey, Storage.readLedgerByKey, Records.getValueByKey, Records.getValueByKey, ht.disk_eq hdb]

theorem moves_saveChecked {ls ls' : LayeredStorage} {b : Block} (hb : ls.storage.batch .ledger = [])
    (h : ChainState.saveChecked env ls b = .ok ls') : Moves ls ls' := by
  obtain ⟨hdisk, hbatch, hmem⟩ := ChainState.ledger_saveChecked hb h
  refine ⟨hbatch, fun r hr => List.mem_of_mem_filter (hmem ▸ hr), fun key => ?_⟩
  have hread : ls'.storage.readLedgerByKey key = Ledger.read (ls'.storage.disk .ledger) key := rfl
  rw [hread, hdisk, read_write_lastOf]
  cases hlast : lastOf (recordsOf ls.memLedger (b.getBlockIdB64 env)) key with
  | none => exact Or.inl rfl
  | some v =>
    obtain ⟨r, hr, heq⟩ := List.mem_map.mp (lastOf_eq_some hlast)
    cases heq
    exact Or.inr ⟨r, List.mem_of_mem_filter hr, rfl, rfl⟩

theorem moves_saveResolved {ls ls' : LayeredStorage} {e : UnresolvedBlock} (hb : ls.storage.batch .ledger = [])
    (h : ChainState.saveResolved env ls e = .ok ls') : Moves ls ls' := by
  rcases ChainState.saveResolved_cases env h with ⟨_, rfl⟩ | ⟨_, hsave⟩
  · exact ⟨hb, fun _ hr => hr, fun _ => Or.inl rfl⟩
  · have hmoves := moves_saveChecked (by exact hb) hsave
    exact ⟨hmoves.batch, hmoves.mem, hmoves.disk⟩

theorem Counts.moves {users : Set Bytes} {n : Nat} {ls ls' : LayeredStorage} (h : Counts users n ls)
    (hm : Moves ls ls') : Counts users n ls' := by
  refine ⟨fun u hu => ?_, fun r hr => h.mem r (hm.mem r hr)⟩
  rcases hm.disk (wrapKey u) with heq | ⟨r, hr, hkey, heq⟩
  · rw [heq]
    exact h.disk u hu
  · rw [heq]
    exact h.mem r hr u hu hkey

theorem Certs.moves {ls ls' : LayeredStorage} (h : Certs env ls) (hm : Moves ls ls') : Certs env ls' := by
  refine ⟨hm.batch, fun u hu => ?_, fun r hr => h.mem r (hm.mem r hr)⟩
  rcases hm.disk (wrapKey u) with heq | ⟨r, hr, hkey, heq⟩
  · rw [heq]
    exact h.disk u hu
  · rw [heq]
    exact h.mem r hr u hu hkey

section Lookup

variable {parse : Value → Json} {read : Bytes → Value} {u : Bytes} {t : Nat} (hp : ParsesRecords parse)
include hp

theorem latestValid_returns (hread : ∀ x, underscore ∈ x → CertRecord env (read (wrapKey x))) (fuel i latestBegin : Nat)
    (best : Bytes) : ∃ pem, latestValid parse read u t fuel i latestBegin best = .ok pem := by
  induction fuel generalizing i latestBegin best with
  | zero => exact ⟨best, rfl⟩
  | succ fuel ih =>
    have hmem : underscore ∈ u ++ ascii "_" ++ decimal i := by
      rw [append_ascii_underscore]
      simp
    rcases hread _ hmem with hnone | ⟨pem, hparsable, hreadable, hcert⟩
    · refine ⟨best, ?_⟩
      rw [latestValid, hnone, hp.nothing]
      rfl
    · obtain ⟨period, hperiod⟩ := Option.isSome_iff_exists.mp hparsable
      obtain ⟨hbegin, hend⟩ := (readable_iff hperiod).mp hreadable
      rw [latestValid_cert hp hperiod hcert, Safe.getTime, Safe.getTime, Safe.parseDecimal_decimal _ hbegin,
        Safe.parseDecimal_decimal _ hend]
      simp only [bind, Except.bind]
      split
      · exact ih _ _ _
      · exact ih _ _ _

/-- The lookup that the block processor installs answers. -/
theorem answers_getCertificate : Answers env (getCertificate parse) := by
  intro n read hn hcounts hcerts u t hu
  rcases hcounts u hu with hempty | ⟨k, hk, hcount⟩
  · refine ⟨[], ?_⟩
    rw [getCertificate]
    simp only [hempty, if_true]
    rfl
  · have hne : (Value.text (decimal k)).isEmpty = false := by
      simpa [Value.isEmpty] using decimal_ne_nil k
    rw [getCertificate]
    simp only [hcount, hne, Value.toText, stoi_decimal k (by omega), Bool.false_eq_true, if_false]
    split
    · rw [if_neg (by omega)]
      exact ⟨_, rfl⟩
    · exact latestValid_returns hp hcerts _ _ _ _

end Lookup

/-- The late check of a block comes to an answer. -/
theorem isValidLate_returns {n : Nat} {ls : LayeredStorage} (ha : Answers env env.getUserCert)
    (hcounts : Counts plainNames n ls) (hn : n < 2 ^ 31) (hcerts : Certs env ls) (b : Block) :
    ∃ valid, b.isValidLate env (ChainState.getUserCert env ls) = .ok valid := by
  have hlookup : ∀ u time, underscore ∉ u → ∃ pem, ChainState.getUserCert env ls u time = .ok pem := fun u time hu =>
    ha n _ hn (fun u hu => hcounts.read hu []) (fun u hu => hcerts.read hu []) u time hu
  have hone : ∀ s, ∃ valid, b.isValidSSig env (ChainState.getUserCert env ls) s = .ok valid := by
    intro s
    obtain ⟨pem, hpem⟩ := hlookup (env.base64.encode s.signerId) b.time (env.base64.underscore_notMem _)
    unfold Block.isValidSSig
    simp only [hpem]
    cases b.userCerts.lookup (env.base64.encode s.signerId) with
    | none => exact ⟨_, rfl⟩
    | some pem => exact ⟨_, rfl⟩
  have hall : ∀ ssigs, ∃ valid, b.allValidSSigs env (ChainState.getUserCert env ls) ssigs = .ok valid := by
    intro ssigs
    induction ssigs with
    | nil => exact ⟨true, rfl⟩
    | cons s rest ih =>
      obtain ⟨valid, hvalid⟩ := hone s
      rw [Block.allValidSSigs, hvalid]
      cases valid with
      | true => exact ih
      | false => exact ⟨false, rfl⟩
  exact hall b.ssigs

end CertificateLedger
end GruutMerger
