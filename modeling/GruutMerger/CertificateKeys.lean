import GruutMerger.LayeredReads

/-!
# Keys of the certificate ledger

The count of a user stands under the user's id, a certificate under the id, an
underscore and a number. The ids are texts as a transaction gives them, so one user's
count can stand where another's certificate is looked for, and the other way round.
-/
namespace GruutMerger

open ByteText KeyValue Fallible

namespace CertificateLedger

variable (env : Env) (parse : Value → Json)

/-- `getCertificate` on a layered storage: reads go through the layer that is installed. -/
def lookup (ls : LayeredStorage) (user : Bytes) (time : Nat) : Except Failure Bytes :=
  getCertificate parse (fun key => ls.readLedgerByKey key []) user time

/-- What `Safe::parseJson` makes of the records of the ledger. -/
structure ParsesRecords : Prop where
  dump : ∀ j, parse (.dump j) = j
  nothing : parse (.text []) = .null
  count : ∀ n : Int, -2 ^ 31 ≤ n → n < 2 ^ 31 → parse (.text (intText n)) = .number n

/-- A certificate of `v` can meet a record of `u`: one of the two ids is the other, an underscore
and a number. -/
def CanTouch (v u : Bytes) : Prop :=
  (∃ i : Int, -2 ^ 31 ≤ i ∧ i < 2 ^ 31 - 1 ∧ v = u ++ ascii "_" ++ intText i) ∨
    ((∃ pem, (env.pemToX509 pem).isSome) ∧
      ∃ w x, u = v ++ ascii "_" ++ w ∧ stoi w = some x ∧ x ≠ 2 ^ 31 - 1)

variable {env parse}

theorem append_ascii_underscore (u w : Bytes) : u ++ ascii "_" ++ w = u ++ underscore :: w := List.append_assoc _ _ _

theorem intText_natCast (n : Nat) : intText n = decimal n := by
  rw [intText, if_neg (by omega), Int.toNat_natCast]

theorem underscore_notMem_intText (v : Int) : underscore ∉ intText v := by
  unfold intText
  split
  · intro h
    rcases List.mem_cons.mp h with h | h
    · exact absurd h (by decide)
    · exact underscore_notMem_decimal _ h
  · exact underscore_notMem_decimal _

theorem intText_ne_nil (v : Int) : intText v ≠ [] := by
  unfold intText
  split
  · exact List.cons_ne_nil _ _
  · exact decimal_ne_nil _

theorem stoi_intText {v : Int} (hl : -2 ^ 31 ≤ v) (hu : v < 2 ^ 31) : stoi (intText v) = some v := by
  have hneg : ∀ n : Nat, readInt (45 :: decimal n) = some (-(n : Int)) := by
    intro n
    rw [readInt, List.dropWhile_cons_of_neg (by decide)]
    simp only [readDigits_decimal]
    rfl
  have hread : readInt (intText v) = some v := by
    unfold intText
    split
    · rw [hneg, Option.some_inj]
      omega
    · rw [readInt_decimal, Option.some_inj]
      omega
  rw [stoi, readBounded, hread]
  refine Option.filter_eq_some_iff.mpr ⟨rfl, ?_⟩
  simp only [Bool.and_eq_true, decide_eq_true_eq]
  exact ⟨hl, hu⟩

/-- The text up to an underscore is the number that is read. -/
theorem stoi_append_underscore (s rest : Bytes) : stoi (s ++ underscore :: rest) = stoi s := by
  rw [stoi, stoi, readBounded, readBounded, readInt_append_underscore]

/-- The number that a certificate is filed under. -/
theorem stoi_nextIndex {v : Value} {index : Bytes × Bytes} (h : nextIndex v = .ok index) :
    ∃ x, stoi index.2 = some x ∧ x ≠ 2 ^ 31 - 1 := by
  unfold nextIndex at h
  split at h
  · cases h
    exact ⟨0, by decide, by decide⟩
  · split at h
    · cases h
    · rename_i x hx
      split at h
      · cases h
      · rename_i hmax
        cases h
        exact ⟨x, hx, hmax⟩

/-- A lookup reads the count of its user and the user's certificates. -/
theorem getCertificate_congr {read read' : Bytes → Value} {u : Bytes} (t : Nat)
    (hcount : read' (wrapKey u) = read (wrapKey u))
    (hcerts : ∀ i : Int, -2 ^ 31 ≤ i → i < 2 ^ 31 - 1 →
      read' (wrapKey (u ++ ascii "_" ++ intText i)) = read (wrapKey (u ++ ascii "_" ++ intText i))) :
    getCertificate parse read' u t = getCertificate parse read u t := by
  have hsearch : ∀ (fuel i : Nat), i + fuel < 2 ^ 31 → ∀ latestBegin best,
      latestValid parse read' u t fuel i latestBegin best = latestValid parse read u t fuel i latestBegin best := by
    intro fuel
    induction fuel with
    | zero => intros; rfl
    | succ fuel ih =>
      intro i hi latestBegin best
      have hread := hcerts i (by omega) (by omega)
      rw [intText_natCast] at hread
      simp only [latestValid, hread, ih (i + 1) (by omega)]
  unfold getCertificate
  rw [hcount]
  simp only
  split
  · rfl
  · cases hstoi : stoi (read (wrapKey u)).toText with
    | none => rfl
    | some n =>
      obtain ⟨_, hbound⟩ := Option.filter_eq_some_iff.mp hstoi
      simp only [Bool.and_eq_true, decide_eq_true_eq] at hbound
      simp only
      split
      · split
        · rfl
        · rw [hcerts (n - 1) (by omega) (by omega)]
      · exact hsearch _ _ (by omega) _ _

theorem readLedgerByKey_saveLedger_other {ls : LayeredStorage} {key key' : Bytes} (h : key' ≠ key) (v : Value)
    (id : Bytes) (layer : List Bytes) : (ls.saveLedger key' v id).readLedgerByKey key layer = ls.readLedgerByKey key layer := by
  unfold LayeredStorage.saveLedger
  split
  · rfl
  · have hval : getVal (ls.memLedger ++ [⟨key', v, id⟩]) key = getVal ls.memLedger key := by
      funext x
      simp [getVal, h]
    simp only [LayeredStorage.readLedgerByKey, hval]

/-- Keys that are not written are read as before. -/
theorem readLedgerByKey_records {key id : Bytes} (rs : List (Bytes × Value)) (h : ∀ r ∈ rs, r.1 ≠ key)
    (ls : LayeredStorage) (layer : List Bytes) :
    (rs.foldl (fun ls r => ls.saveLedger r.1 r.2 id) ls).readLedgerByKey key layer = ls.readLedgerByKey key layer := by
  induction rs generalizing ls with
  | nil => rfl
  | cons r rs ih =>
    rw [List.foldl_cons, ih fun x hx => h x (List.mem_cons_of_mem _ hx),
      readLedgerByKey_saveLedger_other (h r List.mem_cons_self)]

/-- The keys of a registration. -/
theorem key_of_mem_entryRecords {v pem : Bytes} {index : Bytes × Bytes} {r : Bytes × Value}
    (h : r ∈ entryRecords env (v, pem) index) :
    r.1 = wrapKey v ∨ ((env.pemToX509 pem).isSome ∧ r.1 = wrapKey (v ++ ascii "_" ++ index.2)) := by
  rcases List.mem_cons.mp h with rfl | h
  · exact Or.inl rfl
  · obtain ⟨cert, hcert, rfl⟩ := Option.map_eq_some_iff.mp (Option.mem_toList.mp h)
    obtain ⟨period, hperiod, _⟩ := Option.map_eq_some_iff.mp hcert
    exact Or.inr ⟨by rw [hperiod]; rfl, rfl⟩

/-- A user that cannot be touched is looked up as before. -/
theorem lookup_registerCert {u v pem id : Bytes} {layer : List Bytes} {ls ls' : LayeredStorage} (huv : u ≠ v)
    (htouch : ¬ CanTouch env v u) (h : registerCert env id layer ls (v, pem) = .ok ls') (t : Nat) :
    lookup parse ls' u t = lookup parse ls u t := by
  rw [registerCert_eq] at h
  obtain ⟨index, hi, rfl⟩ := map_eq_ok.mp h
  obtain ⟨x, hx, hmax⟩ := stoi_nextIndex hi
  have hcert : ∀ w, (env.pemToX509 pem).isSome → u = v ++ ascii "_" ++ w → stoi w = some x → False :=
    fun w hpem hu hw => htouch (Or.inr ⟨⟨pem, hpem⟩, w, x, hu, hw, hmax⟩)
  refine getCertificate_congr t ?_ fun i hl hu => ?_
  · refine readLedgerByKey_records _ (fun r hr hkey => ?_) ls []
    rcases key_of_mem_entryRecords hr with hr | ⟨hpem, hr⟩
    · exact huv (wrapKey_injective (hkey.symm.trans hr))
    · exact hcert index.2 hpem (wrapKey_injective (hkey.symm.trans hr)) hx
  · refine readLedgerByKey_records _ (fun r hr hkey => ?_) ls []
    rcases key_of_mem_entryRecords hr with hr | ⟨hpem, hr⟩
    · exact htouch (Or.inl ⟨i, hl, hu, (wrapKey_injective (hkey.symm.trans hr)).symm⟩)
    · -- the last underscore on the left is before the number `i`
      have heq : u ++ underscore :: intText i = v ++ underscore :: index.2 := by
        rw [← append_ascii_underscore, ← append_ascii_underscore]
        exact wrapKey_injective (hkey.symm.trans hr)
      rcases append_separator_cases (underscore_notMem_intText i) heq with rfl | ⟨w, rfl, hw⟩
      · exact huv rfl
      · rw [hw, stoi_append_underscore] at hx
        exact hcert w hpem (append_ascii_underscore v w).symm hx

/-- The number of a text is the one before the latest count. -/
theorem lookup_latest {ls : LayeredStorage} {u : Bytes} {i : Int} (hl : -2 ^ 31 ≤ i) (hu : i < 2 ^ 31 - 1)
    (hcount : ls.readLedgerByKey (wrapKey u) [] = .text (intText (i + 1))) :
    lookup parse ls u 0 =
      .ok (Safe.getStringAt (parse (ls.readLedgerByKey (wrapKey (u ++ ascii "_" ++ intText i)) [])) 2) := by
  have hne : (Value.text (intText (i + 1))).isEmpty = false := by
    simpa [Value.isEmpty] using intText_ne_nil (i + 1)
  have hstoi : stoi (Value.text (intText (i + 1))).toText = some (i + 1) := stoi_intText (by omega) (by omega)
  unfold lookup getCertificate
  simp only [hcount, hne, hstoi, Bool.false_eq_true, if_false, if_true, add_sub_cancel_right]
  rw [if_neg (by omega)]
  rfl

/-- Blocks `[1]` and `[3]` are installed. -/
def installed (mem : List LedgerRecord) : LayeredStorage := ⟨Storage.empty, mem, [[1], [3]]⟩

/-- A record of block `[1]` is read first. -/
theorem read_installed {mem : List LedgerRecord} {rs : List (Bytes × Value)} (hmem : recordsOf mem [1] = []) {key : Bytes}
    {v : Value} (hrs : firstOf rs key = some v) (hv : v.isEmpty = false) :
    (rs.foldl (fun ls r => ls.saveLedger r.1 r.2 [1]) (installed mem)).readLedgerByKey key [] = v := by
  rw [saveLedger_records (by simp), readLedgerByKey_eq]
  simp [installed, through, getVal_eq, hmem, hrs, hv]

/-- The count of `v` stands where a certificate of `u` is looked for. -/
theorem lookup_changes_of_count (hp : ParsesRecords parse) {u v : Bytes} {i : Int} (hl : -2 ^ 31 ≤ i)
    (hu : i < 2 ^ 31 - 1) (hv : v = u ++ ascii "_" ++ intText i) :
    ∃ ls id layer pem ls' t, registerCert env id layer ls (v, pem) = .ok ls' ∧
      lookup parse ls' u t ≠ lookup parse ls u t := by
  have hne : wrapKey v ≠ wrapKey u := by
    intro h
    have hlen := congrArg List.length (hv.symm.trans (wrapKey_injective h))
    rw [append_ascii_underscore, List.length_append, List.length_cons] at hlen
    omega
  let cert : Json := .array [.null, .null, .string [65]]
  let ls := installed [⟨wrapKey u, .text (intText (i + 1)), [3]⟩, ⟨wrapKey v, .dump cert, [3]⟩]
  let rs := entryRecords env (v, []) (ascii "1", ascii "0")
  have hcount : ls.readLedgerByKey (wrapKey u) [] = .text (intText (i + 1)) := by
    simp [ls, installed, LayeredStorage.readLedgerByKey, getVal, Value.isEmpty, intText_ne_nil]
  have hcert : ls.readLedgerByKey (wrapKey v) [] = .dump cert := by
    simp [ls, installed, LayeredStorage.readLedgerByKey, getVal, Value.isEmpty, hne.symm]
  have hnext : nextIndex (ls.readLedgerByKey (wrapKey v) [[2]]) = .ok (ascii "1", ascii "0") := by
    have hread : ls.readLedgerByKey (wrapKey v) [[2]] = .text [] := by
      simp [ls, installed, LayeredStorage.readLedgerByKey, getVal]
      rfl
    rw [hread]
    rfl
  have hcount' : (rs.foldl (fun ls r => ls.saveLedger r.1 r.2 [1]) ls).readLedgerByKey (wrapKey u) [] =
      .text (intText (i + 1)) := by
    rw [readLedgerByKey_records rs (fun r hr hkey => ?_), hcount]
    rcases key_of_mem_entryRecords hr with hr | ⟨_, hr⟩
    · exact hne (hr.symm.trans hkey)
    · have hlen := congrArg List.length (wrapKey_injective (hr.symm.trans hkey))
      rw [hv, append_ascii_underscore, append_ascii_underscore, List.length_append, List.length_append,
        List.length_cons] at hlen
      omega
  have hcert' : (rs.foldl (fun ls r => ls.saveLedger r.1 r.2 [1]) ls).readLedgerByKey (wrapKey v) [] =
      .text (intText 1) :=
    read_installed rfl (by simp [rs, entryRecords, firstOf]; rfl) rfl
  refine ⟨ls, [1], [[2]], [], _, 0, (registerCert_eq _ _ _ _ _).trans (map_eq_ok.mpr ⟨_, hnext, rfl⟩), ?_⟩
  rw [lookup_latest hl hu hcount', lookup_latest hl hu hcount, ← hv, hcert', hcert, hp.count 1 (by decide) (by decide),
    hp.dump]
  decide

/-- A certificate of `v` stands where the count of `u` is looked for. -/
theorem lookup_changes_of_cert {u v w pem : Bytes} {x : Int} (hpem : (env.pemToX509 pem).isSome)
    (hu : u = v ++ ascii "_" ++ w) (hx : stoi w = some x) (hmax : x ≠ 2 ^ 31 - 1) :
    ∃ ls id layer pem ls' t, registerCert env id layer ls (v, pem) = .ok ls' ∧
      lookup parse ls' u t ≠ lookup parse ls u t := by
  have hne : wrapKey v ≠ wrapKey u := by
    intro h
    have hlen := congrArg List.length (hu.symm.trans (wrapKey_injective h).symm)
    rw [append_ascii_underscore, List.length_append, List.length_cons] at hlen
    omega
  have hw : w ≠ [] := by
    rintro rfl
    cases hx
  obtain ⟨period, hperiod⟩ := Option.isSome_iff_exists.mp hpem
  let cert : Json := .array [.string (decimal period.1), .string (decimal period.2), .string pem]
  let ls := installed [⟨wrapKey v, .text w, [2]⟩]
  let rs := entryRecords env (v, pem) (intText (x + 1), w)
  have hnext : nextIndex (ls.readLedgerByKey (wrapKey v) [[2]]) = .ok (intText (x + 1), w) := by
    have hread : ls.readLedgerByKey (wrapKey v) [[2]] = .text w := by
      simp [ls, installed, LayeredStorage.readLedgerByKey, getVal, Value.isEmpty, hw]
    have hnot : (Value.text w).isEmpty = false := by simpa [Value.isEmpty] using hw
    simp only [hread, nextIndex, hnot, Value.toText, hx, if_neg hmax, Bool.false_eq_true, if_false]
  have hrs : firstOf rs (wrapKey u) = some (.dump cert) := by
    simp [rs, entryRecords, parseCert, hperiod, firstOf, hne, ← hu, cert]
  have hcount : ls.readLedgerByKey (wrapKey u) [] = .text [] := by
    simp [ls, installed, LayeredStorage.readLedgerByKey, getVal]
    rfl
  have hcount' : (rs.foldl (fun ls r => ls.saveLedger r.1 r.2 [1]) ls).readLedgerByKey (wrapKey u) [] = .dump cert :=
    read_installed rfl hrs rfl
  refine ⟨ls, [1], [[2]], pem, _, 0, (registerCert_eq _ _ _ _ _).trans (map_eq_ok.mpr ⟨_, hnext, rfl⟩), ?_⟩
  have hbefore : lookup parse ls u 0 = .ok [] := by
    simp [lookup, getCertificate, hcount, Value.isEmpty, pure, Except.pure]
  have hafter : lookup parse (rs.foldl (fun ls r => ls.saveLedger r.1 r.2 [1]) ls) u 0 = .error .std := by
    simp only [lookup, getCertificate, hcount']
    rfl
  rw [hbefore, hafter]
  simp

/-- The certificates of `v` leave the lookups of another user alone exactly when neither id is
the other one with an underscore and a number behind it. -/
theorem users_apart_iff (hp : ParsesRecords parse) {u v : Bytes} (huv : u ≠ v) :
    (∀ ls id layer pem ls' t, registerCert env id layer ls (v, pem) = .ok ls' →
      lookup parse ls' u t = lookup parse ls u t) ↔ ¬ CanTouch env v u := by
  constructor
  · intro h htouch
    have hchanges : ∃ ls id layer pem ls' t, registerCert env id layer ls (v, pem) = .ok ls' ∧
        lookup parse ls' u t ≠ lookup parse ls u t := by
      rcases htouch with ⟨i, hl, hu, hv⟩ | ⟨⟨pem, hpem⟩, w, x, hu, hx, hmax⟩
      · exact lookup_changes_of_count hp hl hu hv
      · exact lookup_changes_of_cert hpem hu hx hmax
    obtain ⟨ls, id, layer, pem, ls', t, hr, hne⟩ := hchanges
    exact hne (h ls id layer pem ls' t hr)
  · intro htouch ls id layer pem ls' t hr
    exact lookup_registerCert huv htouch hr t

/-- A block that names only other users, none of which can touch `u`, leaves the lookups of `u`
alone. -/
theorem lookup_blockToLedger {u id : Bytes} {layer : List Bytes} {txs : Json} {ls ls' : LayeredStorage}
    (hothers : ∀ v ∈ (registered txs.elements).map Prod.fst, u ≠ v ∧ ¬ CanTouch env v u)
    (h : blockToLedger env ls txs id layer = .ok ls') (t : Nat) : lookup parse ls' u t = lookup parse ls u t := by
  refine foldlM_invariant (P := fun s => lookup parse s u t = lookup parse ls u t) ?_ rfl h
  intro s entry s' hmem hs hstep
  obtain ⟨huv, htouch⟩ := hothers entry.1 (List.mem_map_of_mem hmem)
  exact (lookup_registerCert huv htouch hstep t).trans hs

/-- Ids without an underscore are always apart. -/
theorem not_canTouch_of_notMem {u v : Bytes} (hu : underscore ∉ u) (hv : underscore ∉ v) : ¬ CanTouch env v u := by
  rintro (⟨i, _, _, rfl⟩ | ⟨_, w, _, rfl, _, _⟩)
  · exact hv (by rw [append_ascii_underscore]; simp)
  · exact hu (by rw [append_ascii_underscore]; simp)

end CertificateLedger

namespace Sample

open CertificateLedger

/-- JSON texts of the ledger: encoded values, and numbers. -/
def parseRecord : Value → Json
  | .dump j => j
  | .text s => match readInt s with
    | some n => .number n
    | none => .null
  | .cbor _ => .null

theorem parsesRecords_parseRecord : ParsesRecords parseRecord where
  dump _ := rfl
  nothing := rfl
  count n hl hu := by
    obtain ⟨hread, _⟩ := Option.filter_eq_some_iff.mp (stoi_intText hl hu)
    simp only [parseRecord, hread]

end Sample

open Sample

namespace CertificateLedger

/-- Users `u` and `w`. -/
theorem users_apart_two : ∃ ls', registerCert base [1] [[2]] blankLedger (ascii "w", [65]) = .ok ls' ∧
    lookup parseRecord ls' (ascii "u") 50 = lookup parseRecord blankLedger (ascii "u") 50 := by
  have hrun : okAnd (fun _ => true) (registerCert base [1] [[2]] blankLedger (ascii "w", [65])) = true := by decide +kernel
  obtain ⟨ls', hls', _⟩ := okAnd_eq_true.mp hrun
  exact ⟨ls', hls', (users_apart_iff parsesRecords_parseRecord (by decide)).mpr
    (not_canTouch_of_notMem (by decide) (by decide)) _ _ _ _ _ 50 hls'⟩

/-- The first certificate of user `a` takes the place of the count of user `a_0`. -/
theorem certificate_hides_count : ∃ ls ls',
    registerCert base [1] [[1]] ⟨Storage.empty, [], [[2], [1]]⟩ (ascii "a_0", [65]) = .ok ls ∧
    lookup parseRecord ls (ascii "a_0") 50 = .ok [65] ∧ registerCert base [2] [[1]] ls (ascii "a", [66]) = .ok ls' ∧
    lookup parseRecord ls' (ascii "a_0") 50 = .error .std := by
  have hrun : okAnd (fun ls => decide (lookup parseRecord ls (ascii "a_0") 50 = .ok [65]) &&
      okAnd (fun ls' => decide (lookup parseRecord ls' (ascii "a_0") 50 = .error .std))
        (registerCert base [2] [[1]] ls (ascii "a", [66])))
      (registerCert base [1] [[1]] ⟨Storage.empty, [], [[2], [1]]⟩ (ascii "a_0", [65])) = true := by decide +kernel
  obtain ⟨ls, hls, htest⟩ := okAnd_eq_true.mp hrun
  obtain ⟨hbefore, hafter⟩ := Bool.and_eq_true_iff.mp htest
  obtain ⟨ls', hls', hafter⟩ := okAnd_eq_true.mp hafter
  exact ⟨ls, ls', hls, of_decide_eq_true hbefore, hls', of_decide_eq_true hafter⟩

end CertificateLedger

end GruutMerger
