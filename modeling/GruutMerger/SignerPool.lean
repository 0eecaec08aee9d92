import GruutMerger.Env
import Mathlib.Data.Finset.Card

/-!
# The signer pool

The signers of this merger in order of admission, no id twice.
-/
namespace GruutMerger

open ByteText

inductive SignerStatus where
  | unknown | temporary | error | good
  deriving DecidableEq

/-- A signer as the pool keeps it. -/
structure SignerEntry where
  userId : Bytes
  pkCert : Bytes
  hmacKey : Bytes
  lastUpdate : Nat
  status : SignerStatus
  deriving DecidableEq

namespace SignerEntry

/-- Change the first signer with an id. -/
def updateFirst (id : Bytes) (f : SignerEntry → SignerEntry) : List SignerEntry → List SignerEntry
  | [] => []
  | y :: ys => if y.userId = id then f y :: ys else y :: updateFirst id f ys

theorem map_userId_updateFirst (id : Bytes) (f : SignerEntry → SignerEntry) (hf : ∀ y, y.userId = id → (f y).userId = id)
    (ys : List SignerEntry) : (updateFirst id f ys).map userId = ys.map userId := by
  induction ys with
  | nil => rfl
  | cons y ys ih =>
    rw [updateFirst]
    split
    · rename_i hy
      rw [List.map_cons, List.map_cons, hf y hy, hy]
    · rw [List.map_cons, List.map_cons, ih]

theorem mem_updateFirst {id : Bytes} {f : SignerEntry → SignerEntry} {ys : List SignerEntry} {x : SignerEntry}
    (h : x ∈ updateFirst id f ys) : x ∈ ys ∨ ∃ y ∈ ys, y.userId = id ∧ x = f y := by
  induction ys with
  | nil => cases h
  | cons y ys ih =>
    rw [updateFirst] at h
    split at h
    · rename_i hy
      rcases List.mem_cons.mp h with rfl | h
      · exact Or.inr ⟨y, by simp, hy, rfl⟩
      · exact Or.inl (List.mem_cons_of_mem _ h)
    · rcases List.mem_cons.mp h with rfl | h
      · exact Or.inl (by simp)
      · rcases ih h with h | ⟨z, hz, hid, rfl⟩
        · exact Or.inl (List.mem_cons_of_mem _ h)
        · exact Or.inr ⟨z, List.mem_cons_of_mem _ hz, hid, rfl⟩

end SignerEntry

/-- `m_signer_pool` -/
structure SignerPool where
  signers : List SignerEntry
  nodup : (signers.map SignerEntry.userId).Nodup

namespace SignerPool

def empty : SignerPool := ⟨[], List.nodup_nil⟩

def find (p : SignerPool) (userId : Bytes) : Option SignerEntry := p.signers.find? (·.userId = userId)

def size (p : SignerPool) : Nat := p.signers.length

/-- A signer that is there already is replaced. -/
def pushSigner (p : SignerPool) (now : Nat) (userId pkCert hmacKey : Bytes) (status : SignerStatus) : SignerPool where
  signers := if userId ∈ p.signers.map SignerEntry.userId then
      SignerEntry.updateFirst userId (fun _ => ⟨userId, pkCert, hmacKey, now, status⟩) p.signers
    else p.signers ++ [⟨userId, pkCert, hmacKey, now, status⟩]
  nodup := by
    split
    · rw [SignerEntry.map_userId_updateFirst]
      · exact p.nodup
      · exact fun _ _ => rfl
    · rename_i hnew
      rw [List.map_append, List.nodup_append]
      refine ⟨p.nodup, by simp, ?_⟩
      rintro a ha b hb rfl
      rw [List.map_singleton, List.mem_singleton] at hb
      rw [hb] at ha
      exact hnew ha

def updateStatus (p : SignerPool) (now : Nat) (userId : Bytes) (status : SignerStatus) : SignerPool where
  signers := SignerEntry.updateFirst userId (fun y => { y with status := status, lastUpdate := now }) p.signers
  nodup := by
    rw [SignerEntry.map_userId_updateFirst]
    · exact p.nodup
    · exact fun _ h => h

def removeSigner (p : SignerPool) (userId : Bytes) : SignerPool where
  signers := p.signers.eraseP (·.userId = userId)
  nodup := p.nodup.sublist (List.eraseP_sublist.map _)

/-- The pool with at most one signer. -/
def only (p : SignerPool) (userId : Bytes) : SignerPool where
  signers := p.signers.filter (·.userId = userId)
  nodup := p.nodup.sublist (List.filter_sublist.map _)

/-- Empty for an unknown signer. -/
def getHmacKey (p : SignerPool) (userId : Bytes) : Bytes := ((p.find userId).map SignerEntry.hmacKey).getD []

def ids (p : SignerPool) : List Bytes := p.signers.map SignerEntry.userId

theorem size_eq (p : SignerPool) : p.size = p.ids.toFinset.card := by
  rw [ids, List.toFinset_card_of_nodup p.nodup, List.length_map, size]

variable {p : SignerPool} {now : Nat} {userId pkCert hmacKey : Bytes} {status : SignerStatus} {x : SignerEntry}

theorem mem_pushSigner (h : x ∈ (p.pushSigner now userId pkCert hmacKey status).signers) :
    x ∈ p.signers ∨ x = ⟨userId, pkCert, hmacKey, now, status⟩ := by
  unfold pushSigner at h
  simp only at h
  split at h
  · rcases SignerEntry.mem_updateFirst h with h | ⟨_, _, _, h⟩
    · exact Or.inl h
    · exact Or.inr h
  · simpa using h

theorem ids_pushSigner_new (h : userId ∉ p.ids) : (p.pushSigner now userId pkCert hmacKey status).ids = p.ids ++ [userId] := by
  have hnew : (p.pushSigner now userId pkCert hmacKey status).signers =
      p.signers ++ [⟨userId, pkCert, hmacKey, now, status⟩] := if_neg h
  rw [ids, hnew, List.map_append]
  rfl

theorem mem_updateStatus (h : x ∈ (p.updateStatus now userId status).signers) :
    x ∈ p.signers ∨ ∃ y ∈ p.signers, y.userId = userId ∧ x = { y with status := status, lastUpdate := now } :=
  SignerEntry.mem_updateFirst h

theorem mem_removeSigner (h : x ∈ (p.removeSigner userId).signers) : x ∈ p.signers := List.mem_of_mem_eraseP h

theorem ids_pushSigner : (p.pushSigner now userId pkCert hmacKey status).ids ⊆ userId :: p.ids := by
  intro id hid
  obtain ⟨x, hx, rfl⟩ := List.mem_map.mp hid
  rcases mem_pushSigner hx with hx | rfl
  · exact List.mem_cons_of_mem _ (List.mem_map_of_mem hx)
  · simp

theorem ids_updateStatus : (p.updateStatus now userId status).ids = p.ids := by
  rw [ids, updateStatus, SignerEntry.map_userId_updateFirst]
  · rfl
  · exact fun _ h => h

theorem ids_removeSigner : (p.removeSigner userId).ids ⊆ p.ids := by
  intro id hid
  obtain ⟨x, hx, rfl⟩ := List.mem_map.mp hid
  exact List.mem_map_of_mem (mem_removeSigner hx)

theorem find_updateFirst {id key : Bytes} (f : SignerEntry → SignerEntry) (ys : List SignerEntry)
    (hf : ∀ y, y.userId = id → (f y).userId = id) : (SignerEntry.updateFirst id f ys).find? (·.userId = key) =
      if id = key then (ys.find? (·.userId = key)).map f else ys.find? (·.userId = key) := by
  induction ys with
  | nil => simp [SignerEntry.updateFirst]
  | cons y ys ih =>
    rw [SignerEntry.updateFirst]
    by_cases hy : y.userId = id
    · by_cases hkey : id = key
      · simp [hy, hf y hy, hkey]
      · simp [hy, hf y hy, hkey]
    · by_cases hkey : y.userId = key
      · have hne : id ≠ key := fun heq => hy (hkey.trans heq.symm)
        simp [hkey, hne, Ne.symm hne]
      · simp [hy, hkey, ih]

theorem find_eraseP (id key : Bytes) (ys : List SignerEntry) (h : (ys.map SignerEntry.userId).Nodup) :
    (ys.eraseP (·.userId = id)).find? (·.userId = key) = if id = key then none else ys.find? (·.userId = key) := by
  induction ys with
  | nil => simp
  | cons y ys ih =>
    rw [List.map_cons, List.nodup_cons] at h
    by_cases hy : y.userId = id
    · by_cases hkey : id = key
      · subst hy hkey
        rw [List.eraseP_cons_of_pos (by simp), if_pos rfl, List.find?_eq_none]
        intro z hz hzy
        exact h.1 (of_decide_eq_true hzy ▸ List.mem_map_of_mem hz)
      · simp [hy, hkey]
    · by_cases hkey : y.userId = key
      · have hne : id ≠ key := fun heq => hy (hkey.trans heq.symm)
        simp [hkey, hne, Ne.symm hne]
      · simp [hy, hkey, ih h.2]

theorem find_pushSigner (key : Bytes) : (p.pushSigner now userId pkCert hmacKey status).find key =
    if userId = key then some ⟨userId, pkCert, hmacKey, now, status⟩ else p.find key := by
  by_cases hin : userId ∈ p.signers.map SignerEntry.userId
  · have hsigners : (p.pushSigner now userId pkCert hmacKey status).signers =
        SignerEntry.updateFirst userId (fun _ => ⟨userId, pkCert, hmacKey, now, status⟩) p.signers := if_pos hin
    rw [find, hsigners, find_updateFirst (fun _ => ⟨userId, pkCert, hmacKey, now, status⟩) p.signers fun _ _ => rfl]
    split
    · rename_i hkey
      obtain ⟨y, hy, hid⟩ := List.mem_map.mp hin
      have hsome : (p.signers.find? (·.userId = key)).isSome :=
        List.find?_isSome.mpr ⟨y, hy, decide_eq_true (hid.trans hkey)⟩
      obtain ⟨x, hx⟩ := Option.isSome_iff_exists.mp hsome
      rw [hx]
      rfl
    · rfl
  · have hsigners : (p.pushSigner now userId pkCert hmacKey status).signers =
        p.signers ++ [⟨userId, pkCert, hmacKey, now, status⟩] := if_neg hin
    rw [find, hsigners, List.find?_append]
    by_cases hkey : userId = key
    · subst hkey
      have hnone : p.signers.find? (·.userId = userId) = none := by
        rw [List.find?_eq_none]
        intro y hy hid
        exact hin (of_decide_eq_true hid ▸ List.mem_map_of_mem hy)
      simp [hnone]
    · simp [hkey, find]

theorem find_updateStatus (key : Bytes) : (p.updateStatus now userId status).find key =
    if userId = key then (p.find key).map fun y => { y with status := status, lastUpdate := now } else p.find key :=
  find_updateFirst (fun y => { y with status := status, lastUpdate := now }) p.signers fun _ h => h

theorem find_removeSigner (key : Bytes) : (p.removeSigner userId).find key = if userId = key then none else p.find key :=
  find_eraseP userId key p.signers p.nodup

theorem find_only (p : SignerPool) (key : Bytes) : (p.only key).find key = p.find key := by
  rw [find, only, List.find?_filter, find]
  simp

theorem ids_only (p : SignerPool) (key : Bytes) : (p.only key).ids ⊆ [key] := by
  intro id hid
  obtain ⟨x, hx, rfl⟩ := List.mem_map.mp hid
  exact List.mem_singleton.mpr (of_decide_eq_true (List.mem_filter.mp hx).2)

end SignerPool
end GruutMerger
