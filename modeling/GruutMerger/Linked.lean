import GruutMerger.Block
import GruutMerger.Lib.Trail

/-!
# Chains of blocks

Blocks each of which names the one before it by id and hash and stands one
higher, from a given block upwards.
-/
namespace GruutMerger

open ByteText

variable (env : Env)

/-- What a next block has to name: id, hash and height of the block below it. -/
structure Tip where
  id : Bytes
  hash : Bytes
  height : Nat
  deriving DecidableEq

def Block.tip (b : Block) : Tip := ⟨b.blockId, b.blockHash, b.height⟩

def genesisTip : Tip := ⟨genesisBlockPrevId env, genesisBlockPrevHash env, 0⟩

/-- A block on top of another. -/
def Follows (t : Tip) (b : Block) : Prop :=
  b.prevBlockId = t.id ∧ b.prevBlockHash = t.hash ∧ b.height = t.height + 1

/-- Blocks each on top of the one before. -/
def Linked : Tip → List Block → Prop := Trail.Valid Block.tip Follows

/-- The last of them. -/
def tipOf : Tip → List Block → Tip := Trail.finish Block.tip

theorem Linked.height_at {t : Tip} {bs : List Block} (h : Linked t bs) {k : Nat} {b : Block}
    (hk : bs[k]? = some b) : b.height = t.height + k + 1 := by
  induction bs generalizing t k with
  | nil => simp at hk
  | cons a bs ih =>
    cases k with
    | zero =>
      obtain rfl : a = b := by simpa using hk
      exact h.1.2.2
    | succ k =>
      have hb := ih h.2 (by simpa using hk)
      have ha : a.tip.height = t.height + 1 := h.1.2.2
      omega

/-- The blocks after the first are those above it. -/
theorem Linked.mem_tail_iff {t : Tip} {b : Block} {bs : List Block} (h : Linked t (b :: bs)) {c : Block} :
    c ∈ bs ↔ c ∈ b :: bs ∧ t.height + 1 < c.height := by
  have hb : b.height = t.height + 1 := h.1.2.2
  constructor
  · intro hc
    obtain ⟨k, hk⟩ := List.getElem?_of_mem hc
    have hheight := Linked.height_at h.2 hk
    have htip : b.tip.height = b.height := rfl
    exact ⟨List.mem_cons_of_mem _ hc, by omega⟩
  · rintro ⟨hc, habove⟩
    rcases List.mem_cons.mp hc with rfl | hc
    · omega
    · exact hc

theorem Linked.nodup_height {t : Tip} {bs : List Block} (h : Linked t bs) : (bs.map Block.height).Nodup := by
  induction bs generalizing t with
  | nil => exact List.nodup_nil
  | cons a bs ih =>
    refine List.nodup_cons.mpr ⟨fun hmem => ?_, ih h.2⟩
    obtain ⟨b, hb, heq⟩ := List.mem_map.mp hmem
    have habove := (h.mem_tail_iff.mp hb).2
    have ha : a.height = t.height + 1 := h.1.2.2
    omega

theorem Linked.height_tipOf {t : Tip} {bs : List Block} (h : Linked t bs) :
    (tipOf t bs).height = t.height + bs.length := by
  induction bs generalizing t with
  | nil => rfl
  | cons a bs ih =>
    have hb := ih h.2
    have ha : a.tip.height = t.height + 1 := h.1.2.2
    simp only [tipOf, Trail.finish_cons, List.length_cons] at hb ⊢
    omega

theorem Linked.height_le {t : Tip} {bs : List Block} (h : Linked t bs) {b : Block} (hb : b ∈ bs) :
    b.height ≤ (tipOf t bs).height := by
  obtain ⟨k, hk⟩ := List.mem_iff_getElem?.mp hb
  have hlt := (List.getElem?_eq_some_iff.mp hk).1
  rw [h.height_at hk, h.height_tipOf]
  omega

end GruutMerger
