import GruutMerger.Lib.BigEndian
import GruutMerger.LedgerView
import GruutMerger.MessageSchema

/-!
# Reading received blocks

Where the raw bytes of a block are cut into header and signature, and which items of a
transaction's content are read as certificates. Both go by numbers that the sender
chooses: the length field of the raw bytes, and the number of items.
-/
namespace GruutMerger

open ByteText Fallible CertificateLedger

variable (env : Env)

namespace Block

/-- The number in bytes 1 to 4. -/
def lengthField (raw : Bytes) : Nat := BigEndian.read ((raw.drop 1).take 4)

theorem getHeaderEnd_of_short {raw : Bytes} (h : raw.length ≤ 5) : getHeaderEnd raw = 0 := by
  unfold getHeaderEnd
  split
  · simp only [List.length_cons] at h
    omega
  · rfl

theorem getHeaderEnd_of_long {raw : Bytes} (h : 5 < raw.length) : getHeaderEnd raw =
    if toUInt64 (toInt32 (lengthField raw)) ≥ raw.length then 0 else toUInt64 (toInt32 (lengthField raw)) := by
  match raw, h with
  | b :: b1 :: b2 :: b3 :: b4 :: b5 :: rest, h =>
    have hfield : lengthField (b :: b1 :: b2 :: b3 :: b4 :: b5 :: rest) =
        b1.toNat * 2 ^ 24 + b2.toNat * 2 ^ 16 + b3.toNat * 2 ^ 8 + b4.toNat := by
      simp [lengthField, BigEndian.read]
      omega
    rw [hfield]
    rfl

theorem lengthField_lt (raw : Bytes) : lengthField raw < 2 ^ 32 := by
  have hlt := BigEndian.read_lt ((raw.drop 1).take 4)
  have hlen : ((raw.drop 1).take 4).length ≤ 4 := List.length_take_le _ _
  exact lt_of_lt_of_le hlt (Nat.pow_le_pow_right (by decide) hlen)

/-- The two parts are in range and make up the whole. -/
structure SplitsSafely (raw : Bytes) : Prop where
  headerEnd : getHeaderEnd raw = 0 ∨ 5 ≤ getHeaderEnd raw ∧ getHeaderEnd raw < raw.length
  header : ∃ j, getBlockHeader env raw = .ok j
  rejoined : getHeaderEnd raw ≠ 0 → getBlockMetaHeaderRaw raw ++ getBlockSignature raw = raw

theorem getBlockHeader_isOk_iff (raw : Bytes) : (∃ j, getBlockHeader env raw = .ok j) ↔
    getHeaderEnd raw = 0 ∨ 5 ≤ getHeaderEnd raw := by
  unfold getBlockHeader
  simp only
  split
  · rename_i hzero
    exact iff_of_true ⟨_, rfl⟩ (Or.inl hzero)
  split
  · rename_i hne hlt
    refine iff_of_false (by rintro ⟨_, h⟩; cases h) (by omega)
  · rename_i hne hlt
    refine iff_of_true ?_ (Or.inr (by omega))
    split <;> exact ⟨_, rfl⟩

/-- Splitting is safe unless the length field is one of 1 to 4. -/
theorem raw_split_iff (raw : Bytes) :
    SplitsSafely env raw ↔ ¬ (5 < raw.length ∧ 1 ≤ lengthField raw ∧ lengthField raw ≤ 4) := by
  have hrejoin : getHeaderEnd raw ≠ 0 → getBlockMetaHeaderRaw raw ++ getBlockSignature raw = raw := by
    intro hne
    rw [getBlockMetaHeaderRaw, getBlockSignature, if_neg hne, List.take_append_drop]
  have hfield := lengthField_lt raw
  by_cases hlen : 5 < raw.length
  · have hend := getHeaderEnd_of_long hlen
    unfold toUInt64 toInt32 at hend
    constructor
    · rintro ⟨h, _, _⟩ ⟨_, hlow, hhigh⟩
      split at hend <;> split at hend <;> omega
    · intro hnot
      have hsafe : getHeaderEnd raw = 0 ∨ 5 ≤ getHeaderEnd raw ∧ getHeaderEnd raw < raw.length := by
        split at hend <;> split at hend <;> omega
      exact ⟨hsafe, (getBlockHeader_isOk_iff env raw).mpr (hsafe.imp_right And.left), hrejoin⟩
  · have hend := getHeaderEnd_of_short (Nat.not_lt.mp hlen)
    exact iff_of_true ⟨Or.inl hend, (getBlockHeader_isOk_iff env raw).mpr (Or.inl hend), hrejoin⟩ fun h => hlen h.1

/-- A header that ends before it begins. -/
theorem raw_split_unsafe : getHeaderEnd [0x04, 0, 0, 0, 3, 9, 9] = 3 ∧
    ¬ ∃ j, getBlockHeader Sample.base [0x04, 0, 0, 0, 3, 9, 9] = .ok j := by
  have hend : getHeaderEnd [0x04, 0, 0, 0, 3, 9, 9] = 3 := by decide +kernel
  refine ⟨hend, fun h => ?_⟩
  rw [getBlockHeader_isOk_iff, hend] at h
  omega

/-- The items of the content. -/
def contentOf (j : Json) : List Json := ((j.find "content").getD .null).elements

/-- A transaction that is read, and is of the type for certificates. -/
def CarriesCerts (j : Json) : Prop :=
  (Safe.getBytesFromB64 env.base64 j "txid").length = 32 ∧ Safe.getStringOf j "type" = txtypeCertificates

/-- Certificates are read at places that exist, and the ledger takes the same ones from the
transaction, as it was received and as it is handed on. -/
def ReadsCerts (j : Json) (tx : Transaction) : Prop :=
  ∃ pairs, tx.getCertsIf = .ok pairs ∧ ∀ p ∈ pairs, p ∈ registered [j] ∧ p ∈ registered [tx.getJson env]

theorem certPairs_map (xs : List Json) : Transaction.certPairs (xs.map Safe.getString) =
    if xs.length % 2 = 0 then .ok (contentPairs xs) else .error .undefined := by
  induction xs using contentPairs.induct with
  | case1 => rfl
  | case2 user => rfl
  | case3 user pem rest ih =>
    rw [List.map_cons, List.map_cons, Transaction.certPairs, ih, contentPairs, List.length_cons, List.length_cons]
    have hparity : (rest.length + 1 + 1) % 2 = rest.length % 2 := by omega
    rw [hparity]
    split <;> rfl

/-- Texts are handed on as they are. -/
theorem contentPairs_strings (xs : List Json) :
    contentPairs ((xs.map Safe.getString).map .string) = contentPairs xs := by
  induction xs using contentPairs.induct with
  | case1 => rfl
  | case2 user => rfl
  | case3 user pem rest ih =>
    rw [contentPairs, ← ih]
    rfl

variable {env}

/-- What is read of a transaction. -/
theorem readTransaction_cases {j : Json} {tx : Transaction} (h : readTransaction env j = .ok tx) :
    (tx = {} ∧ (Safe.getBytesFromB64 env.base64 j "txid").length ≠ 32) ∨
      ((Safe.getBytesFromB64 env.base64 j "txid").length = 32 ∧ tx.type = strToTxType (Safe.getStringOf j "type") ∧
        tx.contentList = (contentOf j).map Safe.getString) := by
  obtain ⟨⟨ok, tx⟩, hset, rfl⟩ : ∃ r, Transaction.setJson env {} j = .ok r ∧ r.2 = tx := map_eq_ok.mp h
  clear h
  unfold Transaction.setJson at hset
  simp only at hset
  split at hset
  · rename_i hlen
    cases hset
    exact Or.inl ⟨rfl, hlen⟩
  · rename_i hlen
    obtain ⟨time, _, hset⟩ := bind_eq_ok.mp hset
    obtain ⟨content, hcontent, hset⟩ := bind_eq_ok.mp hset
    cases hset
    refine Or.inr ⟨not_not.mp hlen, rfl, ?_⟩
    have helems : contentOf j = content.elements := by
      cases j with
      | null => cases hcontent; rfl
      | object fs => cases hcontent; rfl
      | _ => cases hcontent
    rw [helems]
    cases content <;> rfl

theorem strToTxType_eq_certificates {s : Bytes} : strToTxType s = .certificates ↔ s = txtypeCertificates := by
  unfold strToTxType
  constructor
  · intro h
    split at h
    · cases h
    split at h
    · assumption
    split at h <;> cases h
  · rintro rfl
    rfl

theorem registered_singleton {j : Json} (h : Safe.getStringOf j "type" = txtypeCertificates) :
    registered [j] = contentPairs (contentOf j) := by
  simp [registered, h, contentOf]

/-- One transaction: the reads are in range exactly when a list of certificates has an even
number of items. -/
theorem readsCerts_iff {j : Json} {tx : Transaction} (h : readTransaction env j = .ok tx) :
    ReadsCerts env j tx ↔ (CarriesCerts env j → (contentOf j).length % 2 = 0) := by
  rcases readTransaction_cases h with ⟨rfl, hlen⟩ | ⟨hlen, htype, hcontent⟩
  · refine iff_of_true ⟨[], rfl, by simp⟩ fun hc => absurd hc.1 hlen
  · by_cases hcert : Safe.getStringOf j "type" = txtypeCertificates
    · have htx : tx.type = .certificates := htype.trans (strToTxType_eq_certificates.mpr hcert)
      have hpairs : tx.getCertsIf = if (contentOf j).length % 2 = 0 then .ok (contentPairs (contentOf j))
          else .error .undefined := by
        rw [Transaction.getCertsIf, if_pos htx, hcontent, certPairs_map]
      have hjson : registered [tx.getJson env] = contentPairs (contentOf j) := by
        have hstr : Safe.getStringOf (tx.getJson env) "type" = txtypeCertificates := by
          rw [show Safe.getStringOf (tx.getJson env) "type" = txTypeToStr tx.type from rfl, htx]
          rfl
        rw [registered_singleton hstr, show contentOf (tx.getJson env) = tx.contentList.map .string from rfl, hcontent,
          contentPairs_strings]
      rw [forall_prop_of_true ⟨hlen, hcert⟩]
      constructor
      · rintro ⟨pairs, hp, _⟩
        by_contra hodd
        rw [hpairs, if_neg hodd] at hp
        cases hp
      · intro heven
        rw [if_pos heven] at hpairs
        refine ⟨_, hpairs, fun p hp => ⟨?_, ?_⟩⟩
        · rwa [registered_singleton hcert]
        · rwa [hjson]
    · have htx : tx.type ≠ .certificates := fun ht =>
        hcert (strToTxType_eq_certificates.mp (htype.symm.trans ht))
      exact iff_of_true ⟨[], if_neg htx, by simp⟩ fun hc => absurd hc.2 hcert

/-- The certificates of a block are read in range exactly when every list of certificates has
an even number of items. -/
theorem certs_in_range_iff {txs : List Json} {transactions : List Transaction}
    (h : setTransactions env txs = .ok transactions) :
    ((∃ certs, extractUserCertsIf transactions = .ok certs) ∧ List.Forall₂ (ReadsCerts env) txs transactions) ↔
      ∀ j ∈ txs, CarriesCerts env j → (contentOf j).length % 2 = 0 := by
  have hread := mapM_eq_ok.mp h
  constructor
  · rintro ⟨hcerts, hreads⟩ j hj
    clear h hcerts
    induction hread with
    | nil => simp at hj
    | cons hone _ ih =>
      obtain ⟨hhead, htail⟩ := List.forall₂_cons.mp hreads
      rcases List.mem_cons.mp hj with rfl | hj
      · exact (readsCerts_iff hone).mp hhead
      · exact ih htail hj
  · intro heven
    have hreads : List.Forall₂ (ReadsCerts env) txs transactions := by
      clear h
      induction hread with
      | nil => exact .nil
      | cons hone _ ih =>
        exact .cons ((readsCerts_iff hone).mpr (heven _ (by simp))) (ih fun j hj => heven j (List.mem_cons_of_mem _ hj))
    have hcerts : ∀ tx ∈ transactions, ∃ pairs, tx.getCertsIf = .ok pairs := by
      intro tx htx
      obtain ⟨j, _, pairs, hpairs, _⟩ := exists_of_forall₂_left hreads.flip tx htx
      exact ⟨pairs, hpairs⟩
    obtain ⟨pairs, hpairs⟩ := exists_forall₂ hcerts
    exact ⟨⟨pairs.flatten, map_eq_ok.mpr ⟨pairs, mapM_eq_ok.mpr hpairs, rfl⟩⟩, hreads⟩

end Block

namespace Sample

/-- A block with a single transaction that registers certificates. -/
def certsRow (content : List Bytes) : Row :=
  ⟨[1], genesisBlockPrevId base, genesisBlockPrevHash base, 1, [good 1], [tx .certificates content]⟩

end Sample

open Sample

/-- Two certificates. -/
theorem Block.certs_in_range_two : ∃ transactions,
    setTransactions base [(tx .certificates [[1], [65], [2], [66]]).getJson base] = .ok transactions ∧
      ∃ certs, extractUserCertsIf transactions = .ok certs := by
  have hread : setTransactions base [(tx .certificates [[1], [65], [2], [66]]).getJson base] =
      .ok [tx .certificates [[1], [65], [2], [66]]] := by
    have hone := Transaction.setJson_getJson base (tx .certificates [[1], [65], [2], [66]]) {} (by decide +kernel) (by decide)
    exact mapM_eq_ok.mpr (.cons (by rw [readTransaction, hone]; rfl) .nil)
  refine ⟨_, hread, ((certs_in_range_iff hread).mpr fun j hj _ => ?_).1⟩
  rw [List.mem_singleton.mp hj]
  decide +kernel

/-- A user without a certificate: the schema takes the message, and reading it leaves the
content. -/
theorem Block.certs_out_of_range : ∃ body, validateSchema body MessageType.block.code = true ∧
    initializeBody (world [certsRow [[1], [65], [2]]]) body = .error .undefined := by
  refine ⟨message ((certsRow [[1], [65], [2]]).block 0), by decide +kernel, failsWith_eq_true.mp ?_⟩
  decide +kernel

end GruutMerger
