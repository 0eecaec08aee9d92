import GruutMerger.CertificateKeys
import GruutMerger.Lib.FirstMax

/-!
# Looking up a certificate

On a linear chain of resolved blocks the ledger files one certificate for each block
that names a user: the last of the block that can be parsed, or none. A lookup goes
through these in the order of the blocks, up to the first one that is missing, and
takes the first of the latest ones that are valid. What the chain records is more than
that.
-/
namespace GruutMerger

open ByteText KeyValue Fallible CertificateLedger

variable (env : Env)

namespace CertificateLedger

/-- The certificates of a user among some registrations. -/
def pemsIn (u : Bytes) (entries : List (Bytes × Bytes)) : List Bytes :=
  (entries.filter fun e => decide (e.1 = u)).map Prod.snd

/-- The certificates that a block registers for a user. -/
def pemsOf (u : Bytes) (b : Block) : List Bytes := pemsIn u (registeredBy env b)

def Parsable (pem : Bytes) : Prop := (env.pemToX509 pem).isSome

instance (pem : Bytes) : Decidable (Parsable env pem) := inferInstanceAs (Decidable (_ = true))

/-- All certificates of a user that can be parsed. -/
def recorded (u : Bytes) (bs : List Block) : List Bytes :=
  (bs.flatMap (pemsOf env u)).filter fun pem => decide (Parsable env pem)

/-- Validity at a time; the bounds are not part of the period. -/
def ValidAt (t : Nat) (pem : Bytes) : Prop := ∃ period, env.pemToX509 pem = some period ∧ period.1 < t ∧ t < period.2

def validFrom (pem : Bytes) : Nat := ((env.pemToX509 pem).map Prod.fst).getD 0

/-- The answer to a lookup: a certificate that is valid at the time, with the latest begin, and
the empty text exactly if there is none. -/
def RightAnswer (u : Bytes) (t : Nat) (bs : List Block) (answer : Bytes) : Prop :=
  (answer = [] ∧ ∀ pem ∈ recorded env u bs, ¬ ValidAt env t pem) ∨
    (answer ≠ [] ∧ answer ∈ recorded env u bs ∧ ValidAt env t answer ∧
      ∀ pem ∈ recorded env u bs, ValidAt env t pem → validFrom env pem ≤ validFrom env answer)

/-- Of the certificates of a block the last is kept. -/
def filed (u : Bytes) (b : Block) : Option Bytes := ((pemsOf env u b).filter fun pem => decide (Parsable env pem)).getLast?

/-- One place for each block that names the user. -/
def slots (u : Bytes) (bs : List Block) : List (Option Bytes) :=
  (bs.filter fun b => decide (u ∈ usersOf env b)).map (filed env u)

/-- A lookup stops at the first place that is empty. -/
def reached : List (Option Bytes) → List Bytes
  | some pem :: rest => pem :: reached rest
  | _ => []

/-- Times that `stoll` can read. -/
def Readable (pem : Bytes) : Prop := ∀ period, env.pemToX509 pem = some period → period.1 < 2 ^ 63 ∧ period.2 < 2 ^ 63

/-- The lookup goes right: no time it reads is too large, and the latest valid certificate, if
there is one, is filed before the first empty place. -/
def Findable (u : Bytes) (t : Nat) (bs : List Block) : Prop :=
  (∀ pem ∈ reached (slots env u bs), Readable env pem) ∧
    ((∀ pem ∈ recorded env u bs, ¬ ValidAt env t pem) ∨
      ∃ before pem after, reached (slots env u bs) = before ++ pem :: after ∧ pem ≠ [] ∧ ValidAt env t pem ∧
        0 < validFrom env pem ∧ (∀ q ∈ recorded env u bs, ValidAt env t q → validFrom env q ≤ validFrom env pem) ∧
        ∀ q ∈ before, ValidAt env t q → validFrom env q < validFrom env pem)

instance (t : Nat) : DecidablePred (ValidAt env t) := fun pem =>
  match h : env.pemToX509 pem with
  | none => isFalse (by rintro ⟨_, hp, _⟩; rw [h] at hp; cases hp)
  | some period => decidable_of_iff (period.1 < t ∧ t < period.2)
      ⟨fun hv => ⟨period, h, hv⟩, fun ⟨_, hp, hv⟩ => by rw [h] at hp; cases hp; exact hv⟩

/-- The record of a place. -/
def slotValue : Option Bytes → Value
  | some pem => (parseCert env pem).getD (.text [])
  | none => .text []

/-- The records of a user in a ledger. -/
structure Files (v : Ledger) (u : Bytes) (places : List (Option Bytes)) : Prop where
  count : v.read (wrapKey u) = if places = [] then .text [] else .text (decimal places.length)
  small : places.length < 2 ^ 31
  slot : ∀ i, v.read (wrapKey (u ++ ascii "_" ++ decimal i)) = slotValue env (places.getD i none)
  parsable : ∀ pem, some pem ∈ places → Parsable env pem

variable {env}

theorem Files.nextIndex_eq {v : Ledger} {u : Bytes} {places : List (Option Bytes)} (h : Files env v u places)
    {index : Bytes × Bytes} (hi : nextIndex (v.read (wrapKey u)) = .ok index) :
    index = (decimal (places.length + 1), decimal places.length) ∧ places.length + 1 < 2 ^ 31 := by
  rw [h.count] at hi
  split at hi
  · rename_i hnil
    cases hi
    subst hnil
    exact ⟨rfl, by decide⟩
  · have hne : (Value.text (decimal places.length)).isEmpty = false := by
      simpa [Value.isEmpty] using decimal_ne_nil places.length
    have hsmall := h.small
    simp only [nextIndex, hne, Value.toText, stoi_decimal _ hsmall, Bool.false_eq_true, if_false] at hi
    split at hi
    · cases hi
    · cases hi
      refine ⟨?_, by omega⟩
      rw [← intText_natCast (places.length + 1)]
      rfl

/-- The records of a registration at a place of `u`. -/
theorem entryRecords_at {v : Ledger} {u w : Bytes} {places : List (Option Bytes)} (h : Files env v u places)
    (hu : underscore ∉ u) (hw : underscore ∉ w) {index : Bytes × Bytes}
    (hi : nextIndex (v.read (wrapKey w)) = .ok index) (pem : Bytes) (i : Nat) :
    ((entryRecords env (w, pem) index).filter fun r => decide (r.1 = wrapKey (u ++ ascii "_" ++ decimal i))).map Prod.snd =
      if w = u ∧ i = places.length ∧ Parsable env pem then [slotValue env (some pem)] else [] := by
  have hcount : wrapKey w ≠ wrapKey (u ++ ascii "_" ++ decimal i) := (wrapKey_ne hw u (decimal i)).symm
  have hplace : wrapKey (w ++ ascii "_" ++ index.2) = wrapKey (u ++ ascii "_" ++ decimal i) ↔
      w = u ∧ i = places.length := by
    rw [wrapKey_injective.eq_iff, append_ascii_underscore, append_ascii_underscore]
    constructor
    · intro heq
      obtain ⟨rfl, hnum⟩ := append_inj_of_notMem hw hu heq
      rw [(h.nextIndex_eq hi).1] at hnum
      exact ⟨rfl, (decimal_injective hnum).symm⟩
    · rintro ⟨rfl, rfl⟩
      rw [(h.nextIndex_eq hi).1]
  generalize wrapKey (u ++ ascii "_" ++ decimal i) = key at hcount hplace ⊢
  rw [entryRecords]
  generalize wrapKey (w ++ ascii "_" ++ index.2) = certKey at hplace ⊢
  cases hpem : env.pemToX509 pem with
  | none => simp [parseCert, hpem, hcount, Parsable]
  | some period =>
    by_cases hkey : certKey = key
    · obtain ⟨rfl, rfl⟩ := hplace.mp hkey
      simp [parseCert, hpem, hcount, hkey, Parsable, slotValue]
    · rw [if_neg fun hc => hkey (hplace.mpr ⟨hc.1, hc.2.1⟩)]
      simp [parseCert, hpem, hcount, hkey]

/-- The records of some registrations at a place of `u`. -/
theorem certRecords_at {v : Ledger} {u : Bytes} {places : List (Option Bytes)} (h : Files env v u places)
    (hu : underscore ∉ u) {entries : List (Bytes × Bytes)} (hplain : ∀ w ∈ entries.map Prod.fst, underscore ∉ w)
    {rs : List (Bytes × Value)} (hrs : certRecords env v.read entries = .ok rs) (i : Nat) :
    (rs.filter fun r => decide (r.1 = wrapKey (u ++ ascii "_" ++ decimal i))).map Prod.snd =
      if i = places.length then ((pemsIn u entries).filter fun pem => decide (Parsable env pem)).map
        fun pem => slotValue env (some pem) else [] := by
  induction entries generalizing rs with
  | nil =>
    cases hrs
    simp [pemsIn]
  | cons entry rest ih =>
    obtain ⟨index, more, hi, hmore, rfl⟩ := certRecords_cons.mp hrs
    have hone := entryRecords_at h hu (hplain entry.1 (by simp)) hi entry.2 i
    rw [List.filter_append, List.map_append, ih (fun w hw => hplain w (List.mem_cons_of_mem _ hw)) hmore, hone]
    by_cases hplace : i = places.length
    · by_cases hentry : entry.1 = u
      · by_cases hpem : Parsable env entry.2 <;> simp [pemsIn, hplace, hentry, hpem]
      · simp [pemsIn, hplace, hentry]
    · simp [hplace]

/-- A block that names a user leaves a count for that user. -/
theorem exists_count {read : Bytes → Value} {entries : List (Bytes × Bytes)} {rs : List (Bytes × Value)}
    (h : certRecords env read entries = .ok rs) {u : Bytes} (hu : underscore ∉ u) (hmem : u ∈ entries.map Prod.fst) :
    ∃ index, nextIndex (read (wrapKey u)) = .ok index ∧ firstOf rs (wrapKey u) = some (.text index.1) := by
  have hin : ∃ x, (wrapKey u, x) ∈ rs := by
    induction entries generalizing rs with
    | nil => cases hmem
    | cons entry rest ih =>
      obtain ⟨index, more, _, hmore, rfl⟩ := certRecords_cons.mp h
      rcases List.mem_cons.mp hmem with rfl | hmem
      · exact ⟨.text index.1, by simp [entryRecords]⟩
      · obtain ⟨x, hx⟩ := ih hmore hmem
        exact ⟨x, List.mem_append_right _ hx⟩
  cases hf : firstOf rs (wrapKey u) with
  | none =>
    obtain ⟨x, hx⟩ := hin
    exact absurd rfl (firstOf_eq_none.mp hf _ hx)
  | some x =>
    obtain ⟨_, index, hi, rfl⟩ := count_of_mem h hu (firstOf_eq_some hf)
    exact ⟨index, hi, rfl⟩

theorem parsable_of_filed {u pem : Bytes} {b : Block} (h : filed env u b = some pem) : Parsable env pem := by
  obtain ⟨_, hpem⟩ := List.mem_filter.mp (List.mem_of_getLast? h)
  exact of_decide_eq_true hpem

theorem filed_of_notMem {u : Bytes} {b : Block} (h : u ∉ usersOf env b) : filed env u b = none := by
  have hpems : pemsOf env u b = [] := by
    rw [pemsOf, pemsIn, List.map_eq_nil_iff, List.filter_eq_nil_iff]
    exact fun e he heq => h (List.mem_map.mpr ⟨e, he, of_decide_eq_true heq⟩)
  rw [filed, hpems]
  rfl

/-- The places of a user with the records of one block more: the next one has what is filed. -/
theorem Files.slot_write {v : Ledger} {u : Bytes} {places : List (Option Bytes)} (h : Files env v u places)
    (hu : underscore ∉ u) {b : Block} (hplain : ∀ w ∈ usersOf env b, underscore ∉ w) {rs : List (Bytes × Value)}
    (hrs : certRecords env v.read (registeredBy env b) = .ok rs) (i : Nat) :
    Ledger.read (v.write (rs.map ledgerPut)) (wrapKey (u ++ ascii "_" ++ decimal i)) =
      if i = places.length then slotValue env (filed env u b) else slotValue env (places.getD i none) := by
  have hat := certRecords_at h hu hplain hrs i
  rw [read_write_lastOf, lastOf, ← List.getLast?_map, hat, h.slot]
  split
  · rename_i hi
    rw [List.getLast?_map, hi, List.getD_eq_default _ _ le_rfl]
    change ((filed env u b).map _).getD _ = _
    cases filed env u b <;> rfl
  · rfl

/-- The records of a user after one block more. -/
theorem Files.commit {v v' : Ledger} {u : Bytes} {places : List (Option Bytes)} (h : Files env v u places)
    (hu : underscore ∉ u) {b : Block} (hplain : ∀ w ∈ usersOf env b, underscore ∉ w) (hc : commit env v b = .ok v') :
    Files env v' u (places ++ if u ∈ usersOf env b then [filed env u b] else []) := by
  obtain ⟨rs, hrs, rfl⟩ := map_eq_ok.mp hc
  have hslot := h.slot_write hu hplain hrs
  by_cases hmem : u ∈ usersOf env b
  · rw [if_pos hmem]
    obtain ⟨index, hi, hfirst⟩ := exists_count hrs hu hmem
    obtain ⟨rfl, hsmall⟩ := h.nextIndex_eq hi
    refine ⟨?_, by simpa using hsmall, fun i => ?_, fun pem hpem => ?_⟩
    · rw [read_write hrs hu, hfirst, if_neg (by simp), List.length_append]
      rfl
    · rw [hslot]
      split
      · rename_i hi
        rw [hi, List.getD_append_right _ _ _ _ le_rfl, Nat.sub_self]
        rfl
      · rename_i hne
        by_cases hlt : i < places.length
        · rw [List.getD_append _ _ _ _ hlt]
        · rw [List.getD_eq_default _ _ (not_lt.mp hlt), List.getD_eq_default _ _ (by simp; omega)]
    · rcases List.mem_append.mp hpem with hpem | hpem
      · exact h.parsable pem hpem
      · exact parsable_of_filed (List.mem_singleton.mp hpem).symm
  · rw [if_neg hmem, List.append_nil]
    refine ⟨?_, h.small, fun i => ?_, h.parsable⟩
    · rw [read_write hrs hu, firstOf_of_notMem hrs hu hmem, Option.getD_none, h.count]
    · rw [hslot]
      split
      · rename_i hi
        rw [filed_of_notMem hmem, hi, List.getD_eq_default _ _ le_rfl]
      · rfl

/-- The records of a user after some blocks. -/
theorem Files.commitAll {u : Bytes} (hu : underscore ∉ u) {bs : List Block}
    (hplain : ∀ b ∈ bs, ∀ w ∈ usersOf env b, underscore ∉ w) {v v' : Ledger} {places : List (Option Bytes)}
    (h : Files env v u places) (hc : commitAll env v bs = .ok v') : Files env v' u (places ++ slots env u bs) := by
  induction bs generalizing v places with
  | nil =>
    cases hc
    simpa [slots] using h
  | cons b bs ih =>
    obtain ⟨v₁, h₁, hrest⟩ := foldlM_cons_eq_ok.mp hc
    have hnext := ih (fun a ha => hplain a (List.mem_cons_of_mem _ ha)) (h.commit hu (hplain b (by simp)) h₁) hrest
    have hslots : slots env u (b :: bs) = (if u ∈ usersOf env b then [filed env u b] else []) ++ slots env u bs := by
      by_cases hmem : u ∈ usersOf env b <;> simp [slots, hmem]
    rwa [hslots, ← List.append_assoc]

theorem Files.blank (u : Bytes) : Files env (fun _ => none) u [] where
  count := rfl
  small := by decide
  slot _ := rfl
  parsable := by simp

variable {parse : Value → Json} {t : Nat}

section Place

variable {read : Bytes → Value} {u pem : Bytes} {period : Nat × Nat} {i : Nat}

theorem readable_iff (h : env.pemToX509 pem = some period) : Readable env pem ↔ period.1 < 2 ^ 63 ∧ period.2 < 2 ^ 63 := by
  simp [Readable, h]

/-- A place of the search that holds a certificate. -/
theorem latestValid_cert (hp : ParsesRecords parse) (hperiod : env.pemToX509 pem = some period)
    (hread : read (wrapKey (u ++ ascii "_" ++ decimal i)) = slotValue env (some pem)) (fuel latestBegin : Nat) (best : Bytes) :
    latestValid parse read u t (fuel + 1) i latestBegin best =
      Safe.getTime (decimal period.1) >>= fun validBegin => Safe.getTime (decimal period.2) >>= fun validEnd =>
        if validBegin < t ∧ t < validEnd ∧ latestBegin < validBegin then
          latestValid parse read u t fuel (i + 1) validBegin pem
        else latestValid parse read u t fuel (i + 1) latestBegin best := by
  have hcert : parse (read (wrapKey (u ++ ascii "_" ++ decimal i))) =
      .array [.string (decimal period.1), .string (decimal period.2), .string pem] := by
    simp only [hread, slotValue, parseCert, hperiod, Option.map_some, Option.getD_some, hp.dump]
  rw [latestValid]
  simp only [hcert]
  rfl

/-- With times that can be read, it is a step of the search. -/
theorem latestValid_readable (hp : ParsesRecords parse) (hperiod : env.pemToX509 pem = some period)
    (hread : read (wrapKey (u ++ ascii "_" ++ decimal i)) = slotValue env (some pem)) (hr : Readable env pem) (fuel : Nat)
    (best : Nat × Option Bytes) :
    latestValid parse read u t (fuel + 1) i best.1 (best.2.getD []) =
      latestValid parse read u t fuel (i + 1) (FirstMax.step (ValidAt env t) (validFrom env) best pem).1
        ((FirstMax.step (ValidAt env t) (validFrom env) best pem).2.getD []) := by
  obtain ⟨hbegin, hend⟩ := (readable_iff hperiod).mp hr
  have hvalid : ValidAt env t pem ↔ period.1 < t ∧ t < period.2 := by
    simp [ValidAt, hperiod]
  have hfrom : validFrom env pem = period.1 := by
    simp [validFrom, hperiod]
  rw [latestValid_cert hp hperiod hread, Safe.getTime, Safe.getTime, Safe.parseDecimal_decimal _ hbegin,
    Safe.parseDecimal_decimal _ hend, FirstMax.step]
  simp only [hvalid, hfrom, and_assoc]
  change (if _ then _ else _) = _
  split <;> rfl

/-- A time that cannot be read ends it. -/
theorem latestValid_unreadable (hp : ParsesRecords parse) (hperiod : env.pemToX509 pem = some period)
    (hread : read (wrapKey (u ++ ascii "_" ++ decimal i)) = slotValue env (some pem)) (hr : ¬ Readable env pem) (fuel : Nat)
    (latestBegin : Nat) (best : Bytes) : latestValid parse read u t (fuel + 1) i latestBegin best = .error .std := by
  rw [latestValid_cert hp hperiod hread, Safe.getTime, Safe.getTime]
  by_cases hbegin : period.1 < 2 ^ 63
  · have hend : 2 ^ 63 ≤ period.2 := not_lt.mp fun hend => hr ((readable_iff hperiod).mpr ⟨hbegin, hend⟩)
    rw [Safe.parseDecimal_decimal _ hbegin, Safe.parseDecimal_decimal_of_le _ hend]
    rfl
  · rw [Safe.parseDecimal_decimal_of_le _ (not_lt.mp hbegin)]
    rfl

end Place

/-- The search goes through the places up to the first empty one, unless a time cannot be read. -/
theorem latestValid_cases (hp : ParsesRecords parse) {read : Bytes → Value} {u : Bytes} (places : List (Option Bytes))
    (hparsable : ∀ pem, some pem ∈ places → Parsable env pem) (i : Nat)
    (hread : ∀ j, j < places.length →
      read (wrapKey (u ++ ascii "_" ++ decimal (i + j))) = slotValue env (places.getD j none))
    (best : Nat × Option Bytes) :
    ((∀ pem ∈ reached places, Readable env pem) ∧ latestValid parse read u t places.length i best.1 (best.2.getD []) =
        .ok (((reached places).foldl (FirstMax.step (ValidAt env t) (validFrom env)) best).2.getD [])) ∨
      ((∃ pem ∈ reached places, ¬ Readable env pem) ∧
        latestValid parse read u t places.length i best.1 (best.2.getD []) = .error .std) := by
  induction places generalizing i best with
  | nil => exact Or.inl ⟨by simp [reached], rfl⟩
  | cons place rest ih =>
    have hfirst := hread 0 (by simp)
    rw [Nat.add_zero, List.getD_cons_zero] at hfirst
    have hrest : ∀ j, j < rest.length →
        read (wrapKey (u ++ ascii "_" ++ decimal (i + 1 + j))) = slotValue env (rest.getD j none) := by
      intro j hj
      have hj' := hread (j + 1) (by simpa using hj)
      rwa [List.getD_cons_succ, show i + (j + 1) = i + 1 + j by omega] at hj'
    cases place with
    | none =>
      refine Or.inl ⟨by simp [reached], ?_⟩
      simp only [List.length_cons, latestValid, hfirst, slotValue, hp.nothing]
      rfl
    | some pem =>
      obtain ⟨period, hperiod⟩ := Option.isSome_iff_exists.mp (hparsable pem (by simp))
      by_cases hr : Readable env pem
      · rw [List.length_cons, latestValid_readable hp hperiod hfirst hr, reached, List.foldl_cons]
        rcases ih (fun q hq => hparsable q (List.mem_cons_of_mem _ hq)) (i + 1) hrest
          (FirstMax.step (ValidAt env t) (validFrom env) best pem) with ⟨hall, hok⟩ | ⟨⟨q, hq, hbad⟩, herror⟩
        · exact Or.inl ⟨List.forall_mem_cons.mpr ⟨hr, hall⟩, hok⟩
        · exact Or.inr ⟨⟨q, List.mem_cons_of_mem _ hq, hbad⟩, herror⟩
      · exact Or.inr ⟨⟨pem, by simp [reached], hr⟩, latestValid_unreadable hp hperiod hfirst hr _ _ _⟩

/-- What a lookup in the ledger finds. -/
theorem Files.getCertificate_cases (hp : ParsesRecords parse) {v : Ledger} {u : Bytes} {places : List (Option Bytes)}
    (h : Files env v u places) (ht : t ≠ 0) :
    ((∀ pem ∈ reached places, Readable env pem) ∧ getCertificate parse v.read u t =
        .ok ((FirstMax.search (ValidAt env t) (validFrom env) (reached places)).getD [])) ∨
      ((∃ pem ∈ reached places, ¬ Readable env pem) ∧ getCertificate parse v.read u t = .error .std) := by
  by_cases hnil : places = []
  · subst hnil
    refine Or.inl ⟨by simp [reached], ?_⟩
    have hcount : v.read (wrapKey u) = .text [] := h.count
    simp only [getCertificate, hcount]
    rfl
  · have hcount : v.read (wrapKey u) = .text (decimal places.length) := by rw [h.count, if_neg hnil]
    have hne : (Value.text (decimal places.length)).isEmpty = false := by
      simpa [Value.isEmpty] using decimal_ne_nil places.length
    have hsearch : getCertificate parse v.read u t = latestValid parse v.read u t places.length 0 0 [] := by
      simp only [getCertificate, hcount, hne, Value.toText, stoi_decimal _ h.small, if_neg ht, Int.toNat_natCast,
        Bool.false_eq_true, if_false]
    rw [hsearch]
    exact latestValid_cases hp places h.parsable 0 (fun j _ => by rw [Nat.zero_add]; exact h.slot j) (0, none)

theorem mem_of_mem_reached {places : List (Option Bytes)} {pem : Bytes} (h : pem ∈ reached places) : some pem ∈ places := by
  induction places with
  | nil => cases h
  | cons place rest ih =>
    cases place with
    | none => cases h
    | some q =>
      rcases List.mem_cons.mp h with rfl | h
      · exact List.mem_cons_self
      · exact List.mem_cons_of_mem _ (ih h)

/-- What is filed is recorded. -/
theorem mem_recorded_of_reached {u pem : Bytes} {bs : List Block} (h : pem ∈ reached (slots env u bs)) :
    pem ∈ recorded env u bs := by
  obtain ⟨b, hb, hfiled⟩ := List.mem_map.mp (mem_of_mem_reached h)
  obtain ⟨hmem, hparsable⟩ := List.mem_filter.mp (List.mem_of_getLast? hfiled)
  exact List.mem_filter.mpr ⟨List.mem_flatMap.mpr ⟨b, List.mem_of_mem_filter hb, hmem⟩, hparsable⟩

/-- The first of the latest valid certificates that are reached is the right answer exactly when
it is the latest of all. -/
theorem rightAnswer_search_iff {u : Bytes} {bs : List Block} :
    RightAnswer env u t bs ((FirstMax.search (ValidAt env t) (validFrom env) (reached (slots env u bs))).getD []) ↔
      (∀ pem ∈ recorded env u bs, ¬ ValidAt env t pem) ∨
        ∃ before pem after, reached (slots env u bs) = before ++ pem :: after ∧ pem ≠ [] ∧ ValidAt env t pem ∧
          0 < validFrom env pem ∧ (∀ q ∈ recorded env u bs, ValidAt env t q → validFrom env q ≤ validFrom env pem) ∧
          ∀ q ∈ before, ValidAt env t q → validFrom env q < validFrom env pem := by
  constructor
  · rintro (⟨_, hnone⟩ | ⟨hne, _, _, hlatest⟩)
    · exact Or.inl hnone
    · cases hsearch : FirstMax.search (ValidAt env t) (validFrom env) (reached (slots env u bs)) with
      | none => exact absurd (congrArg (Option.getD · []) hsearch) hne
      | some pem =>
        rw [hsearch, Option.getD_some] at hne hlatest
        obtain ⟨before, after, hsplit, hvalid, hpos, _, hlt⟩ := FirstMax.search_eq_some_iff.mp hsearch
        exact Or.inr ⟨before, pem, after, hsplit, hne, hvalid, hpos, hlatest, hlt⟩
  · rintro (hnone | ⟨before, pem, after, hsplit, hne, hvalid, hpos, hlatest, hlt⟩)
    · rw [FirstMax.search_eq_none fun q hq => hnone q (mem_recorded_of_reached hq)]
      exact Or.inl ⟨rfl, hnone⟩
    · have hsearch : FirstMax.search (ValidAt env t) (validFrom env) (reached (slots env u bs)) = some pem :=
        FirstMax.search_eq_some_iff.mpr ⟨before, after, hsplit, hvalid, hpos,
          fun q hq => hlatest q (mem_recorded_of_reached hq), hlt⟩
      rw [hsearch, Option.getD_some]
      exact Or.inr ⟨hne, mem_recorded_of_reached (by rw [hsplit]; simp), hvalid, hlatest⟩

/-- A lookup in the ledger of a chain. -/
theorem Files.right_iff (hp : ParsesRecords parse) {v : Ledger} {u : Bytes} {bs : List Block}
    (h : Files env v u (slots env u bs)) (ht : t ≠ 0) :
    (∃ answer, getCertificate parse v.read u t = .ok answer ∧ RightAnswer env u t bs answer) ↔ Findable env u t bs := by
  rw [Findable, ← rightAnswer_search_iff]
  rcases h.getCertificate_cases hp ht with ⟨hall, hok⟩ | ⟨⟨pem, hpem, hbad⟩, herror⟩
  · rw [hok, and_iff_right hall]
    constructor
    · rintro ⟨answer, heq, hright⟩
      cases heq
      exact hright
    · exact fun hright => ⟨_, rfl, hright⟩
  · rw [herror]
    exact iff_of_false (fun ⟨_, heq, _⟩ => nomatch heq) fun hf => hbad (hf.1 pem hpem)

end CertificateLedger

/-- The ids of some blocks. -/
def blockIds (bs : List Block) : List Bytes := bs.map fun b => b.getBlockIdB64 env

/-- Layered storages along a linear chain, with the blocks that wait, oldest first, and those
that are resolved. A block is processed once, on the layer of the blocks that wait; users have
ids without an underscore. -/
inductive ChainCalls : LayeredStorage → List Block → List Block → Prop where
  | start {s : Storage} (hdisk : s.disk .ledger = fun _ => none) (hbatch : s.batch .ledger = []) (layer : List Bytes) :
      ChainCalls ⟨s, [], layer⟩ [] []
  | setBlockLayer {ls : LayeredStorage} {waiting resolved : List Block} (h : ChainCalls ls waiting resolved)
      (layer : List Bytes) : ChainCalls (ls.setBlockLayer layer) waiting resolved
  | procLedgerBlock {ls ls' : LayeredStorage} {waiting resolved : List Block} {b : Block}
      (h : ChainCalls ls waiting resolved) (hid : b.getBlockIdB64 env ≠ [])
      (hwaits : b.getBlockIdB64 env ∉ blockIds env waiting) (hlayer : b.getBlockIdB64 env ∉ ls.blockLayer)
      (hplain : ∀ u ∈ usersOf env b, underscore ∉ u)
      (hc : GruutMerger.procLedgerBlock env ls (b.getBlockTXsAsJson env) (b.getBlockIdB64 env)
        (blockIds env waiting).reverse = .ok ls') : ChainCalls ls' (waiting ++ [b]) resolved
  | moveToDiskLedger {ls : LayeredStorage} {waiting resolved : List Block} {b : Block}
      (h : ChainCalls ls (b :: waiting) resolved) :
      ChainCalls (ls.moveToDiskLedger (b.getBlockIdB64 env)) waiting (resolved ++ [b])

/-- Every block that waits has in memory what it registers on the ledger of the blocks before it;
`w` is the ledger of them all. -/
def Waits (mem : List LedgerRecord) : Ledger → List Block → Ledger → Prop
  | v, [], w => v = w
  | v, b :: rest, w => certRecords env v.read (registeredBy env b) = .ok (recordsOf mem (b.getBlockIdB64 env)) ∧
      Waits mem (v.write ((recordsOf mem (b.getBlockIdB64 env)).map ledgerPut)) rest w

/-- What the calls keep up. -/
structure ChainKept (ls : LayeredStorage) (waiting resolved : List Block) (w : Ledger) : Prop where
  ids : (blockIds env waiting).Nodup
  owned : ∀ r ∈ ls.memLedger, r.blockIdB64 ∈ blockIds env waiting
  filled : Filled ls.memLedger
  batch : ls.storage.batch .ledger = []
  plain : ∀ b ∈ resolved ++ waiting, ∀ u ∈ usersOf env b, underscore ∉ u
  disk : commitAll env (fun _ => none) resolved = .ok (ls.storage.disk .ledger)
  waits : Waits env ls.memLedger (ls.storage.disk .ledger) waiting w

variable {env}

theorem blockIds_concat (bs : List Block) (b : Block) :
    blockIds env (bs ++ [b]) = blockIds env bs ++ [b.getBlockIdB64 env] := List.map_append

theorem Waits.congr {mem mem' : List LedgerRecord} {v w : Ledger} {bs : List Block} (h : Waits env mem v bs w)
    (hsame : ∀ id ∈ blockIds env bs, recordsOf mem' id = recordsOf mem id) : Waits env mem' v bs w := by
  induction bs generalizing v with
  | nil => exact h
  | cons b bs ih =>
    obtain ⟨hrec, hrest⟩ := h
    rw [Waits, hsame _ (by simp [blockIds])]
    exact ⟨hrec, ih hrest fun id hid => hsame id (List.mem_cons_of_mem _ hid)⟩

theorem Waits.concat {mem : List LedgerRecord} {v w : Ledger} {bs : List Block} {b : Block} (h : Waits env mem v bs w)
    (hb : certRecords env w.read (registeredBy env b) = .ok (recordsOf mem (b.getBlockIdB64 env))) :
    Waits env mem v (bs ++ [b]) (w.write ((recordsOf mem (b.getBlockIdB64 env)).map ledgerPut)) := by
  induction bs generalizing v with
  | nil =>
    obtain rfl : v = w := h
    exact ⟨hb, rfl⟩
  | cons a bs ih => exact ⟨h.1, ih h.2⟩

/-- Through the blocks that wait, a count is read as from the ledger of them all. -/
theorem Waits.read_count {mem : List LedgerRecord} (hfilled : Filled mem) {v w : Ledger} {bs : List Block}
    (h : Waits env mem v bs w) {u : Bytes} (hu : underscore ∉ u) :
    through mem (blockIds env bs).reverse v (wrapKey u) = w.read (wrapKey u) := by
  induction bs generalizing v with
  | nil =>
    obtain rfl : v = w := h
    rfl
  | cons b bs ih =>
    obtain ⟨hrec, hrest⟩ := h
    rw [← ih hrest, show blockIds env (b :: bs) = b.getBlockIdB64 env :: blockIds env bs from rfl, List.reverse_cons]
    exact (through_concat_write env v hrec hu fun x hx => hfilled.isEmpty_eq_false hx).2

namespace ChainKept

variable {ls ls' : LayeredStorage} {waiting resolved : List Block} {b : Block} {w : Ledger}

/-- When all blocks are resolved nothing is in memory, and reads go to the disk whatever layer is
installed. -/
theorem read_resolved (h : ChainKept env ls [] resolved w) (key : Bytes) :
    ls.readLedgerByKey key [] = Ledger.read (ls.storage.disk .ledger) key := by
  have hmem : ls.memLedger = [] := List.eq_nil_iff_forall_not_mem.mpr fun r hr => nomatch h.owned r hr
  rw [readLedgerByKey_eq, hmem]
  exact through_of_none (List.findSome?_eq_none_iff.mpr fun _ _ => rfl) _

/-- The count that a new block reads. -/
theorem read_count (h : ChainKept env ls waiting resolved w) {u : Bytes} (hu : underscore ∉ u) :
    ls.readLedgerByKey (wrapKey u) (blockIds env waiting).reverse = w.read (wrapKey u) := by
  cases waiting with
  | nil =>
    obtain hw : ls.storage.disk .ledger = w := h.waits
    rw [← hw]
    exact h.read_resolved (wrapKey u)
  | cons b rest =>
    rw [readLedgerByKey_eq, if_neg (by simp [blockIds])]
    exact h.waits.read_count h.filled hu

theorem procLedgerBlock (h : ChainKept env ls waiting resolved w) (hid : b.getBlockIdB64 env ≠ [])
    (hwaits : b.getBlockIdB64 env ∉ blockIds env waiting) (hlayer : b.getBlockIdB64 env ∉ ls.blockLayer)
    (hplain : ∀ u ∈ usersOf env b, underscore ∉ u)
    (hc : GruutMerger.procLedgerBlock env ls (b.getBlockTXsAsJson env) (b.getBlockIdB64 env)
      (blockIds env waiting).reverse = .ok ls') : ∃ w', ChainKept env ls' (waiting ++ [b]) resolved w' := by
  have hunseen : b.getBlockIdB64 env ∉
      if (blockIds env waiting).reverse = [] then ls.blockLayer else (blockIds env waiting).reverse := by
    split
    · exact hlayer
    · rwa [List.mem_reverse]
  have hfilled := blockToLedger_filled h.filled hc
  obtain ⟨rs, hrs, rfl⟩ := blockToLedger_eq_ok env hid hunseen hc
  have hmine : recordsOf (ls.memLedger ++ ownedBy (b.getBlockIdB64 env) rs) (b.getBlockIdB64 env) = rs := by
    have hnone : recordsOf ls.memLedger (b.getBlockIdB64 env) = [] := by
      rw [recordsOf, List.map_eq_nil_iff, List.filter_eq_nil_iff]
      exact fun r hr heq => hwaits (of_decide_eq_true heq ▸ h.owned r hr)
    rw [recordsOf_append, hnone, recordsOf_ownedBy, List.nil_append]
  have hothers : ∀ id ∈ blockIds env waiting,
      recordsOf (ls.memLedger ++ ownedBy (b.getBlockIdB64 env) rs) id = recordsOf ls.memLedger id := by
    intro id hmem
    have hne : id ≠ b.getBlockIdB64 env := fun he => hwaits (he ▸ hmem)
    rw [recordsOf_append, recordsOf_ownedBy_other hne, List.append_nil]
  have hcounts : certRecords env w.read (registeredBy env b) = .ok rs :=
    (certRecords_congr fun u hu => (h.read_count (hplain u hu)).symm).trans hrs
  refine ⟨_, ⟨?_, ?_, hfilled, h.batch, ?_, h.disk, (h.waits.congr hothers).concat (by rwa [hmine])⟩⟩
  · rw [blockIds_concat, ← List.concat_eq_append]
    exact (List.nodup_concat _ _).mpr ⟨hwaits, h.ids⟩
  · intro r hr
    rw [blockIds_concat]
    rcases List.mem_append.mp hr with hr | hr
    · exact List.mem_append_left _ (h.owned r hr)
    · obtain ⟨x, _, rfl⟩ := List.mem_map.mp hr
      exact List.mem_append_right _ (by simp)
  · intro a ha
    rw [← List.append_assoc] at ha
    rcases List.mem_append.mp ha with ha | ha
    · exact h.plain a ha
    · rw [List.mem_singleton.mp ha]
      exact hplain

theorem moveToDiskLedger (h : ChainKept env ls (b :: waiting) resolved w) :
    ChainKept env (ls.moveToDiskLedger (b.getBlockIdB64 env)) waiting (resolved ++ [b]) w := by
  obtain ⟨hrec, hrest⟩ := h.waits
  obtain ⟨hnew, hids⟩ : b.getBlockIdB64 env ∉ blockIds env waiting ∧ (blockIds env waiting).Nodup :=
    List.nodup_cons.mp h.ids
  obtain ⟨hledger, hbatch⟩ := ledger_moveToDiskLedger ls (b.getBlockIdB64 env)
  rw [h.batch, List.nil_append] at hledger
  refine ⟨hids, fun r hr => ?_, fun r hr => h.filled r (List.mem_of_mem_filter hr), hbatch, ?_, ?_, ?_⟩
  · obtain ⟨hmem, hne⟩ := List.mem_filter.mp hr
    exact (List.mem_cons.mp (h.owned r hmem)).resolve_left (of_decide_eq_true hne)
  · rw [List.append_assoc]
    exact h.plain
  · rw [hledger]
    exact foldlM_concat_eq_ok.mpr ⟨_, h.disk, commit_of_records hrec⟩
  · rw [hledger]
    exact hrest.congr fun id hid => recordsOf_moveToDiskLedger ls fun he => hnew (he ▸ hid)

end ChainKept

/-- Along a chain the ledger on disk is that of the resolved blocks. -/
theorem ChainCalls.kept {ls : LayeredStorage} {waiting resolved : List Block} (h : ChainCalls env ls waiting resolved) :
    ∃ w, ChainKept env ls waiting resolved w := by
  induction h with
  | start hdisk hbatch layer =>
    exact ⟨_, ⟨by simp [blockIds], by simp, by simp [Filled], hbatch, by simp, congrArg _ hdisk.symm, rfl⟩⟩
  | setBlockLayer _ layer ih =>
    obtain ⟨w, hw⟩ := ih
    exact ⟨w, hw.ids, hw.owned, hw.filled, hw.batch, hw.plain, hw.disk, hw.waits⟩
  | procLedgerBlock _ hid hwaits hlayer hplain hc ih =>
    obtain ⟨w, hw⟩ := ih
    exact hw.procLedgerBlock hid hwaits hlayer hplain hc
  | moveToDiskLedger _ ih =>
    obtain ⟨w, hw⟩ := ih
    exact ⟨w, hw.moveToDiskLedger⟩

/-- On a chain of resolved blocks a lookup is answered right exactly when the latest valid
certificate is filed, and before the first empty place. -/
theorem certificate_lookup_iff {parse : Value → Json} (hp : ParsesRecords parse) {ls : LayeredStorage}
    {resolved : List Block} (h : ChainCalls env ls [] resolved) {u : Bytes} (hu : underscore ∉ u) {t : Nat} (ht : 0 < t) :
    (∃ answer, lookup parse ls u t = .ok answer ∧ RightAnswer env u t resolved answer) ↔ Findable env u t resolved := by
  obtain ⟨w, hkept⟩ := h.kept
  have hread : (fun key => ls.readLedgerByKey key []) = Ledger.read (ls.storage.disk .ledger) := funext hkept.read_resolved
  have hfiles : Files env (ls.storage.disk .ledger) u (slots env u resolved) :=
    (Files.blank u).commitAll hu (fun b hb => hkept.plain b (List.mem_append_left _ hb)) hkept.disk
  rw [lookup, hread]
  exact hfiles.right_iff hp (Nat.ne_of_gt ht)

namespace Sample

/-- Certificates `[65]` and `[66]` are valid until 100, from 10 and from 20; no other text is one. -/
def certEnv : Env :=
  { base with
    pemToX509 := fun pem => match pem with
      | [65] => some (10, 100)
      | [66] => some (20, 100)
      | _ => none }

/-- A block that registers certificates of user `u`. -/
def certBlock (id : UInt8) (pems : List Bytes) : Block :=
  block 0 [id] [] [] 1 [good 1] [tx .certificates (pems.flatMap fun pem => [ascii "u", pem])]

/-- A block is processed and resolved at once. -/
def settle (ls : LayeredStorage) (b : Block) : Except Failure LayeredStorage :=
  (procLedgerBlock certEnv ls (b.getBlockTXsAsJson certEnv) (b.getBlockIdB64 certEnv) []).map
    fun ls => ls.moveToDiskLedger (b.getBlockIdB64 certEnv)

theorem chainCalls_settle {ls ls' : LayeredStorage} {resolved : List Block} {b : Block}
    (h : ChainCalls certEnv ls [] resolved ∧ ls.blockLayer = []) (hid : b.getBlockIdB64 certEnv ≠ [])
    (hplain : ∀ u ∈ usersOf certEnv b, underscore ∉ u) (hs : settle ls b = .ok ls') :
    ChainCalls certEnv ls' [] (resolved ++ [b]) ∧ ls'.blockLayer = [] := by
  obtain ⟨ls₁, hc, rfl⟩ := map_eq_ok.mp hs
  refine ⟨.moveToDiskLedger (.procLedgerBlock h.1 hid (by simp [blockIds]) (by simp [h.2]) hplain hc), ?_⟩
  obtain ⟨rs, _, rfl⟩ := blockToLedger_eq_ok certEnv hid (by simp [h.2]) hc
  exact h.2

theorem chainCalls_blankLedger : ChainCalls certEnv blankLedger [] [] ∧ blankLedger.blockLayer = [] :=
  ⟨.start rfl rfl [], rfl⟩

end Sample

open Sample

/-- Two blocks with one certificate each: the later one is found. -/
theorem certificate_lookup_two : ∃ ls, ChainCalls certEnv ls [] [certBlock 1 [[65]], certBlock 2 [[66]]] ∧
    ∃ answer, lookup parseRecord ls (ascii "u") 50 = .ok answer ∧
      RightAnswer certEnv (ascii "u") 50 [certBlock 1 [[65]], certBlock 2 [[66]]] answer := by
  have hrun : okAnd (fun ls => okAnd (fun _ => true) (settle ls (certBlock 2 [[66]])))
      (settle blankLedger (certBlock 1 [[65]])) = true := by decide +kernel
  obtain ⟨ls₁, h₁, htest⟩ := okAnd_eq_true.mp hrun
  obtain ⟨ls₂, h₂, _⟩ := okAnd_eq_true.mp htest
  have hone := chainCalls_settle chainCalls_blankLedger (by decide +kernel) (by decide +kernel) h₁
  have htwo : ChainCalls certEnv ls₂ [] [certBlock 1 [[65]], certBlock 2 [[66]]] :=
    (chainCalls_settle hone (by decide +kernel) (by decide +kernel) h₂).1
  have hreached : reached (slots certEnv (ascii "u") [certBlock 1 [[65]], certBlock 2 [[66]]]) = [[65], [66]] := by
    decide +kernel
  have hrecorded : recorded certEnv (ascii "u") [certBlock 1 [[65]], certBlock 2 [[66]]] = [[65], [66]] := by
    decide +kernel
  refine ⟨ls₂, htwo, (certificate_lookup_iff parsesRecords_parseRecord htwo (by decide) (by decide)).mpr ⟨?_, Or.inr ?_⟩⟩
  · rw [hreached]
    simp [Readable, certEnv]
  · rw [hreached, hrecorded]
    refine ⟨[[65]], [66], [], rfl, by decide, ⟨(20, 100), rfl, by decide, by decide⟩, by decide, ?_, ?_⟩ <;>
      simp [validFrom, certEnv]

/-- Two certificates in one block: the one that is registered last is found, the later one is
lost. A text that is no certificate, in a block before: nothing is found. -/
theorem certificate_lookup_misses :
    (∃ ls, ChainCalls certEnv ls [] [certBlock 1 [[66], [65]]] ∧ lookup parseRecord ls (ascii "u") 50 = .ok [65] ∧
      [66] ∈ recorded certEnv (ascii "u") [certBlock 1 [[66], [65]]] ∧ ValidAt certEnv 50 [66] ∧
      validFrom certEnv [65] < validFrom certEnv [66]) ∧
    ∃ ls, ChainCalls certEnv ls [] [certBlock 1 [[0]], certBlock 2 [[65]]] ∧
      lookup parseRecord ls (ascii "u") 50 = .ok [] ∧
      [65] ∈ recorded certEnv (ascii "u") [certBlock 1 [[0]], certBlock 2 [[65]]] ∧ ValidAt certEnv 50 [65] := by
  refine ⟨?_, ?_⟩
  · have hrun : okAnd (fun ls => decide (lookup parseRecord ls (ascii "u") 50 = .ok [65]))
        (settle blankLedger (certBlock 1 [[66], [65]])) = true := by decide +kernel
    obtain ⟨ls, hls, htest⟩ := okAnd_eq_true.mp hrun
    have hcalls := chainCalls_settle chainCalls_blankLedger (by decide +kernel) (by decide +kernel) hls
    exact ⟨ls, hcalls.1, of_decide_eq_true htest, by decide +kernel, by decide, by decide⟩
  · have hrun : okAnd (fun ls => okAnd (fun ls => decide (lookup parseRecord ls (ascii "u") 50 = .ok []))
        (settle ls (certBlock 2 [[65]]))) (settle blankLedger (certBlock 1 [[0]])) = true := by decide +kernel
    obtain ⟨ls₁, h₁, htest⟩ := okAnd_eq_true.mp hrun
    obtain ⟨ls₂, h₂, htest⟩ := okAnd_eq_true.mp htest
    have hone := chainCalls_settle chainCalls_blankLedger (by decide +kernel) (by decide +kernel) h₁
    have htwo := chainCalls_settle hone (by decide +kernel) (by decide +kernel) h₂
    exact ⟨ls₂, htwo.1, of_decide_eq_true htest, by decide +kernel, by decide⟩

end GruutMerger
