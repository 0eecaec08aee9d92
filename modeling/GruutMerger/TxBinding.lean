import GruutMerger.Lib.BigEndian
import GruutMerger.Sample

/-!
# What a transaction's signature covers

Time, requester and type stand in the signed bytes at places of their own. The items of
the content list are only put one after the other, so the bytes do not say where one ends
and the next begins.
-/
namespace GruutMerger

open ByteText

variable (env : Env)

namespace Transaction

/-- The first letters of the known types differ. -/
theorem txTypeToStr_append_inj {t t' : TransactionType} {x y : Bytes} (ht : t ≠ .unknown) (ht' : t' ≠ .unknown)
    (h : txTypeToStr t ++ x = txTypeToStr t' ++ y) : t = t' ∧ x = y := by
  have htype : t = t' := by
    have hhead := congrArg List.head? h
    have hne : ∀ s : TransactionType, (txTypeToStr s).head?.isSome = true := by
      intro s
      cases s <;> decide
    rw [List.head?_append, List.head?_append, Option.or_of_isSome (hne t), Option.or_of_isSome (hne t')] at hhead
    revert ht ht' hhead
    cases t <;> cases t' <;> decide
  subst htype
  exact ⟨rfl, List.append_cancel_left h⟩

/-- The parts of the signed bytes, for requesters of 8 bytes. -/
theorem signedBytes_inj {tx tx' : Transaction} (hr : tx.requestorId.length = 8) (hr' : tx'.requestorId.length = 8)
    (ht : tx.type ≠ .unknown) (ht' : tx'.type ≠ .unknown) (htime : tx.sentTime < 2 ^ 64) (htime' : tx'.sentTime < 2 ^ 64)
    (h : tx.signedBytes = tx'.signedBytes) : tx.sentTime = tx'.sentTime ∧ tx.requestorId = tx'.requestorId ∧
      tx.type = tx'.type ∧ tx.contentList.flatten = tx'.contentList.flatten := by
  unfold signedBytes at h
  rw [List.append_assoc, List.append_assoc, List.append_assoc, List.append_assoc] at h
  obtain ⟨hbytes, h⟩ := List.append_inj h (by simp [integerBytes])
  obtain ⟨hid, h⟩ := List.append_inj h (hr.trans hr'.symm)
  obtain ⟨htype, hcontent⟩ := txTypeToStr_append_inj ht ht' h
  exact ⟨BigEndian.write_injOn htime htime' hbytes, hid, htype, hcontent⟩

/-- Two transactions with the same id and the same signed bytes are the same but for the
places where one item of the content ends and the next begins. -/
theorem signed_bytes_bind {tx tx' : Transaction} (hr : tx.requestorId.length = 8) (hr' : tx'.requestorId.length = 8)
    (ht : tx.type ≠ .unknown) (ht' : tx'.type ≠ .unknown) (htime : tx.sentTime < 2 ^ 64) (htime' : tx'.sentTime < 2 ^ 64)
    (hid : tx.id = tx'.id) (h : tx.getBeforeDigestByte = tx'.getBeforeDigestByte) :
    (tx.sentTime = tx'.sentTime ∧ tx.requestorId = tx'.requestorId ∧ tx.type = tx'.type ∧
      tx.contentList = tx'.contentList) ↔ tx.contentList.map List.length = tx'.contentList.map List.length := by
  have hsigned : tx.signedBytes = tx'.signedBytes := by
    unfold getBeforeDigestByte at h
    rw [hid] at h
    exact List.append_cancel_left h
  obtain ⟨hsent, hreq, htype, hcontent⟩ := signedBytes_inj hr hr' ht ht' htime htime' hsigned
  constructor
  · rintro ⟨_, _, _, heq⟩
    rw [heq]
  · exact fun hlengths => ⟨hsent, hreq, htype, List.eq_iff_flatten_eq.mpr ⟨hcontent, hlengths⟩⟩

end Transaction

namespace Sample

/-- A digest transaction of a requester with an 8-byte id. -/
def boundTx (content : List Bytes) : Transaction :=
  let t : Transaction :=
    { sentTime := 5, requestorId := List.replicate 8 7, type := .digests, signature := [1], contentList := content }
  { t with id := t.buildTxId base }

end Sample

open Sample

/-- Another signature of the same transaction. -/
theorem Transaction.signed_bytes_bind_two : ∃ tx tx' : Transaction, tx ≠ tx' ∧ tx.id = tx'.id ∧
    tx.getBeforeDigestByte = tx'.getBeforeDigestByte ∧ tx.contentList = tx'.contentList := by
  refine ⟨boundTx [[1, 2], [3]], { boundTx [[1, 2], [3]] with signature := [2] }, fun h => ?_, rfl, rfl, ?_⟩
  · exact absurd (congrArg Transaction.signature h) (by decide)
  · exact ((Transaction.signed_bytes_bind rfl rfl (by decide) (by decide) (by decide) (by decide) rfl rfl).mpr rfl).2.2.2

/-- The same id and the same signature are valid for other contents. -/
theorem Transaction.signature_carried_over : ∃ tx tx' : Transaction, tx.requestorId.length = 8 ∧ tx'.requestorId.length = 8 ∧
    tx.type = .digests ∧ tx'.type = .digests ∧ tx.id = tx'.id ∧ tx.getBeforeDigestByte = tx'.getBeforeDigestByte ∧
    tx.signature = tx'.signature ∧ tx.isValid base [1] = true ∧ tx'.isValid base [1] = true ∧
    tx.contentList ≠ tx'.contentList :=
  ⟨boundTx [[1, 2], [3]], boundTx [[1], [2, 3]], by decide +kernel⟩

end GruutMerger
