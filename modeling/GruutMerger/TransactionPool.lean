import GruutMerger.Transaction
import Mathlib.Data.List.Perm.Subperm
import Mathlib.Data.List.Nodup

/-!
# The transaction pool

A vector of transactions, and the ids of those that are still wanted. An entry
whose id is gone stays in the vector and is skipped. Transactions are taken out
from the back.
-/
namespace GruutMerger

open ByteText

def maxCollectTransactionSize : Nat := 4096

/-- Every id belongs to an entry of the vector. Ids are arrays of 32 bytes. -/
structure TransactionPool where
  entries : List Transaction
  ids : List Bytes
  nodup : ids.Nodup
  held : ∀ id ∈ ids, ∃ tx ∈ entries, tx.id = id
  length_ids : ∀ tx ∈ entries, tx.id.length = 32

namespace TransactionPool

def empty : TransactionPool := ⟨[], [], List.nodup_nil, by simp, by simp⟩

def size (p : TransactionPool) : Nat := p.ids.length

def isDuplicated (p : TransactionPool) (id : Bytes) : Bool := decide (id ∈ p.ids)

/-- An id that is known already is not pushed. -/
def push (p : TransactionPool) (tx : Transaction) (hlen : tx.id.length = 32) : Bool × TransactionPool :=
  if h : tx.id ∈ p.ids then (false, p)
  else (true,
    { entries := p.entries ++ [tx]
      ids := tx.id :: p.ids
      nodup := List.nodup_cons.mpr ⟨h, p.nodup⟩
      held := by
        intro id hid
        rcases List.mem_cons.mp hid with rfl | hid
        · exact ⟨tx, by simp, rfl⟩
        · obtain ⟨u, hu, hid⟩ := p.held id hid
          exact ⟨u, by simp [hu], hid⟩
      length_ids := by
        intro u hu
        rcases List.mem_append.mp hu with hu | hu
        · exact p.length_ids u hu
        · exact List.mem_singleton.mp hu ▸ hlen })

def clear (_ : TransactionPool) : TransactionPool := empty

/-- Only the ids go; the entries stay. -/
def retain (p : TransactionPool) (keep : Bytes → Bool) : TransactionPool where
  entries := p.entries
  ids := p.ids.filter keep
  nodup := p.nodup.filter keep
  held id hid := p.held id (List.mem_of_mem_filter hid)
  length_ids := p.length_ids

def removeDuplicatedTransactions (p : TransactionPool) (txIds : List Bytes) : TransactionPool :=
  p.retain fun id => decide (id ∉ txIds)

/-- The loop of `fetchLastN` over the entries from the back: what is fetched, and the ids
left over. The test for `n` comes after a transaction is fetched. -/
def fetchFrom (n : Nat) : List Transaction → List Bytes → List Transaction × List Bytes
  | [], ids => ([], ids)
  | tx :: rest, ids =>
    if tx.id ∈ ids then
      if n ≤ 1 then ([tx], ids.erase tx.id)
      else (tx :: (fetchFrom (n - 1) rest (ids.erase tx.id)).1, (fetchFrom (n - 1) rest (ids.erase tx.id)).2)
    else fetchFrom n rest ids

/-- The entries that the loop sees: its index is an int. -/
def visible (p : TransactionPool) : List Transaction := (p.entries.take (toInt32 p.entries.length).toNat).reverse

/-- `fetchLastN`, with the ids that remain. -/
def fetchLastN (p : TransactionPool) (n : Nat) : List Transaction × TransactionPool :=
  let r := fetchFrom n p.visible p.ids
  (r.1, p.retain fun id => decide (id ∈ r.2))

theorem fetchFrom_sublist (n : Nat) (txs : List Transaction) (ids : List Bytes) :
    (fetchFrom n txs ids).1.Sublist txs := by
  induction txs generalizing n ids with
  | nil => exact List.Sublist.refl _
  | cons tx rest ih =>
    rw [fetchFrom]
    split
    · split
      · exact List.Sublist.cons_cons tx (List.nil_sublist rest)
      · exact (ih (n - 1) (ids.erase tx.id)).cons_cons tx
    · exact (ih n ids).cons tx

theorem length_fetchFrom_le (n : Nat) (txs : List Transaction) (ids : List Bytes) :
    (fetchFrom n txs ids).1.length ≤ max n 1 := by
  induction txs generalizing n ids with
  | nil => simp [fetchFrom]
  | cons tx rest ih =>
    rw [fetchFrom]
    split
    · split
      · simp only [List.length_singleton]
        omega
      · have hle := ih (n - 1) (ids.erase tx.id)
        rw [List.length_cons]
        omega
    · exact ih n ids

/-- Fetched ids and ids left over are the ids from before. -/
theorem fetchFrom_perm (n : Nat) (txs : List Transaction) (ids : List Bytes) :
    ((fetchFrom n txs ids).1.map (·.id) ++ (fetchFrom n txs ids).2).Perm ids := by
  induction txs generalizing n ids with
  | nil => exact List.Perm.refl _
  | cons tx rest ih =>
    rw [fetchFrom]
    split
    · rename_i hmem
      have hcons := List.perm_cons_erase hmem
      split
      · exact hcons.symm
      · exact ((ih (n - 1) (ids.erase tx.id)).cons tx.id).trans hcons.symm
    · exact ih n ids

/-- As many as asked for, but at least one, as far as there are entries for the ids. -/
theorem length_fetchFrom {n : Nat} {txs : List Transaction} {ids : List Bytes}
    (h : ∀ id ∈ ids, ∃ tx ∈ txs, tx.id = id) (hd : ids.Nodup) :
    (fetchFrom n txs ids).1.length = min (max n 1) ids.length := by
  induction txs generalizing n ids with
  | nil =>
    obtain rfl : ids = [] := List.eq_nil_iff_forall_not_mem.mpr fun id hid => by simpa using h id hid
    simp [fetchFrom]
  | cons tx rest ih =>
    rw [fetchFrom]
    split
    · rename_i hmem
      have hlen := List.length_erase_of_mem hmem
      have hpos : 0 < ids.length := List.length_pos_of_mem hmem
      split
      · simp only [List.length_singleton]
        omega
      · have hrest : ∀ id ∈ ids.erase tx.id, ∃ u ∈ rest, u.id = id := by
          intro id hid
          obtain ⟨hne, hid⟩ := (hd.mem_erase_iff).mp hid
          obtain ⟨u, hu, hut⟩ := h id hid
          rcases List.mem_cons.mp hu with rfl | hu
          · exact absurd hut.symm hne
          · exact ⟨u, hu, hut⟩
        rw [List.length_cons, ih hrest (hd.erase tx.id)]
        omega
    · rename_i hmem
      refine ih (fun id hid => ?_) hd
      obtain ⟨u, hu, hut⟩ := h id hid
      rcases List.mem_cons.mp hu with rfl | hu
      · exact absurd (hut ▸ hid) hmem
      · exact ⟨u, hu, hut⟩

theorem visible_of_lt {p : TransactionPool} (h : p.entries.length < 2 ^ 31) : p.visible = p.entries.reverse := by
  rw [visible, toInt32_of_lt h, Int.toNat_natCast, List.take_length]

theorem fetchLastN_subset (p : TransactionPool) (n : Nat) : (p.fetchLastN n).1 ⊆ p.entries := by
  intro tx htx
  have hmem := (fetchFrom_sublist n p.visible p.ids).subset htx
  exact List.mem_of_mem_take (List.mem_reverse.mp hmem)

theorem fetchLastN_ids (p : TransactionPool) (n : Nat) : (p.fetchLastN n).1.map (·.id) ⊆ p.ids :=
  fun _ hid => (fetchFrom_perm n p.visible p.ids).subset (List.mem_append_left _ hid)

theorem nodup_fetchLastN (p : TransactionPool) (n : Nat) : ((p.fetchLastN n).1.map (·.id)).Nodup :=
  (List.nodup_append.mp ((fetchFrom_perm n p.visible p.ids).nodup_iff.mpr p.nodup)).1

theorem length_fetchLastN {p : TransactionPool} (h : p.entries.length < 2 ^ 31) (n : Nat) :
    (p.fetchLastN n).1.length = min (max n 1) p.size := by
  have hheld : ∀ id ∈ p.ids, ∃ tx ∈ p.visible, tx.id = id := by
    rw [visible_of_lt h]
    intro id hid
    obtain ⟨tx, htx, hid⟩ := p.held id hid
    exact ⟨tx, List.mem_reverse.mpr htx, hid⟩
  exact length_fetchFrom hheld p.nodup

/-- Everything is fetched exactly if that many are asked for. -/
theorem ids_subset_fetchLastN {p : TransactionPool} (h : p.entries.length < 2 ^ 31) (n : Nat) :
    p.ids ⊆ (p.fetchLastN n).1.map (·.id) ↔ p.size ≤ max n 1 := by
  have hlen := length_fetchLastN h n
  constructor
  · intro hsub
    have hle := (p.nodup.subperm hsub).length_le
    rw [List.length_map, hlen, size] at hle
    rw [size]
    omega
  · intro hle
    have hperm : ((p.fetchLastN n).1.map (·.id)).Perm p.ids := by
      refine ((nodup_fetchLastN p n).subperm (fetchLastN_ids p n)).perm_of_length_le ?_
      rw [List.length_map, hlen, size] at *
      omega
    exact hperm.symm.subset

section push

variable (p : TransactionPool) {tx : Transaction} (hlen : tx.id.length = 32)

theorem mem_ids_push (id : Bytes) : id ∈ (p.push tx hlen).2.ids ↔ id = tx.id ∨ id ∈ p.ids := by
  unfold push
  split
  · rename_i h
    exact ⟨Or.inr, fun hid => hid.elim (fun heq => heq ▸ h) fun hid => hid⟩
  · exact List.mem_cons

theorem mem_entries_push {u : Transaction} (h : u ∈ (p.push tx hlen).2.entries) :
    (u = tx ∧ (p.push tx hlen).1 = true) ∨ u ∈ p.entries := by
  unfold push at h ⊢
  split at h
  · exact Or.inr h
  · rename_i hnew
    rw [dif_neg hnew]
    rcases List.mem_append.mp h with h | h
    · exact Or.inr h
    · exact Or.inl ⟨List.mem_singleton.mp h, rfl⟩

theorem length_entries_push : (p.push tx hlen).2.entries.length ≤ p.entries.length + 1 := by
  unfold push
  split
  · exact Nat.le_succ _
  · simp

end push

end TransactionPool
end GruutMerger
