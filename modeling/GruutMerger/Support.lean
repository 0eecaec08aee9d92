import GruutMerger.Resolve

/-!
# Support of a resolved block

`updateConfirmLevel` gives every entry the number of support signatures of
itself and of everything above it in the pool. They are counted as they stand
in the headers: neither who signed nor whether the signature verifies is
looked at.
-/
namespace GruutMerger

open ByteText Forest

variable (env : Env)

namespace Pool

/-- Number of support signatures of an entry. -/
def own (e : UnresolvedBlock) : Nat := e.block.getNumSSigs

theorem getElem?_credit (bin : Bin) (child : UnresolvedBlock) (j : Nat) :
    (credit bin child)[j]? = bin[j]?.map fun e =>
      { e with confirmLevel := e.confirmLevel + if child.prevVectorIdx = j then child.confirmLevel else 0 } := by
  unfold credit
  split
  · rename_i hpos
    rw [List.getElem?_modify]
    by_cases hj : child.prevVectorIdx = j
    · simp [hj]
    · have hn : ¬ child.prevVectorIdx.toNat = j := by omega
      simp [hn, hj]
  · rename_i hneg
    have hj : ¬ child.prevVectorIdx = j := by omega
    simp [hj]

/-- The levels of all children of one entry. -/
def credits (children : Bin) (j : Nat) : Nat :=
  ((children.filter fun c => decide (c.prevVectorIdx = (j : Int))).map (·.confirmLevel)).sum

theorem getElem?_credits (children bin : Bin) (j : Nat) :
    (children.foldl credit bin)[j]? =
      bin[j]?.map fun e => { e with confirmLevel := e.confirmLevel + credits children j } := by
  induction children generalizing bin with
  | nil => simp [credits]
  | cons c cs ih =>
    rw [List.foldl_cons, ih, getElem?_credit, Option.map_map]
    congr 1
    funext e
    by_cases hc : c.prevVectorIdx = j
    · simp [credits, hc, Nat.add_assoc]
    · simp [credits, hc]

/-- An entry with the level it carries. -/
def withLevel (x : UnresolvedBlock × Nat) : UnresolvedBlock := { x.1 with confirmLevel := x.2 }

theorem credits_carried (next : Bin) (rest : List Bin) (j : Nat) :
    credits ((carried UnresolvedBlock.prevVectorIdx own next rest).map withLevel) j =
      weight UnresolvedBlock.prevVectorIdx own (next :: rest) j := by
  rw [weight_cons, credits, List.filter_map, List.map_map]
  rfl

theorem updateConfirmLevel_credits (bin : Bin) (rest : List Bin) : updateConfirmLevel (bin :: rest) =
    ((updateConfirmLevel rest).headD []).foldl credit (resetConfirm bin) :: updateConfirmLevel rest := rfl

/-- The level of an entry is the number of signatures of itself and of everything
above it. -/
theorem updateConfirmLevel_cons (bin : Bin) (rest : List Bin) : updateConfirmLevel (bin :: rest) =
    (carried UnresolvedBlock.prevVectorIdx own bin rest).map withLevel :: updateConfirmLevel rest := by
  induction rest generalizing bin with
  | nil =>
    rw [updateConfirmLevel_credits]
    congr 1
    apply List.ext_getElem?
    intro j
    simp [updateConfirmLevel, resetConfirm, carried, withLevel, own, weight, preorder, Function.comp_def]
  | cons next rest ih =>
    -- the children already carry their levels
    rw [updateConfirmLevel_credits, ih next, List.headD_cons]
    congr 1
    apply List.ext_getElem?
    intro j
    rw [getElem?_credits, credits_carried]
    simp [resetConfirm, carried, withLevel, own, Function.comp_def]

/-- The signatures counted for entry `j` of the first bin: its own, then those of
everything above it, each with the block that carries it. -/
def countedFor (bins : List Bin) (j : Nat) (e : UnresolvedBlock) : List (Block × Signature) :=
  (e :: (preorder UnresolvedBlock.prevVectorIdx bins.tail j).map (·.2.2)).flatMap fun a =>
    a.block.ssigs.map fun s => (a.block, s)

theorem length_countedFor (bins : List Bin) (j : Nat) (e : UnresolvedBlock) :
    (countedFor bins j e).length = own e + weight UnresolvedBlock.prevVectorIdx own bins.tail j := by
  simp [countedFor, weight, own, Block.getNumSSigs, List.length_flatMap, Function.comp_def]

theorem mem_ssigs_of_countedFor {bins : List Bin} {j : Nat} {e : UnresolvedBlock} {x : Block × Signature}
    (h : x ∈ countedFor bins j e) : x.2 ∈ x.1.ssigs := by
  obtain ⟨a, _, hx⟩ := List.mem_flatMap.mp h
  obtain ⟨s, hs, rfl⟩ := List.mem_map.mp hx
  exact hs

/-- The entry that is resolved, in the pool as it was: enough signatures are
counted for it, and some block stands on top of it. -/
theorem resolvable_counted {p : Pool} {w : UnresolvedBlock} (h : resolvable p.counted.blockPool = some w) :
    ∃ j e, (p.bin 0)[j]? = some e ∧ e.block = w.block ∧
      w.confirmLevel = (countedFor p.blockPool j e).length ∧ blockConfirmLevel ≤ w.confirmLevel ∧
      ∃ child ∈ p.bin 1, child.prevVectorIdx = j := by
  obtain ⟨bin', next', rest', j, hbins, hw, _, hlevel, _, child, hchild, hidx⟩ := resolvable_some h
  cases hp : p.blockPool with
  | nil =>
    rw [counted, hp] at hbins
    cases hbins
  | cons bin rest =>
    simp only [counted, hp, updateConfirmLevel_cons] at hbins
    obtain ⟨hbin, hrest⟩ := List.cons.inj hbins
    rw [← hbin, List.getElem?_map] at hw
    obtain ⟨x, hx, rfl⟩ := Option.map_eq_some_iff.mp hw
    simp only [carried, List.getElem?_map, Option.map_eq_some_iff, List.getElem?_zipIdx] at hx
    obtain ⟨y, ⟨e, he, rfl⟩, rfl⟩ := hx
    refine ⟨j, e, by simpa [Pool.bin, hp] using he, rfl, ?_, hlevel, ?_⟩
    · simp [length_countedFor, withLevel]
    · -- the child is the same entry with its level set
      cases rest with
      | nil => cases hrest
      | cons next rest =>
        rw [updateConfirmLevel_cons] at hrest
        rw [← (List.cons.inj hrest).1] at hchild
        obtain ⟨y, hy, rfl⟩ := List.mem_map.mp hchild
        obtain ⟨z, hz, rfl⟩ := List.mem_map.mp hy
        exact ⟨z.1, by simpa [Pool.bin, hp] using List.mem_of_getElem? (List.mem_zipIdx_iff_getElem?.mp hz), hidx⟩

/-- The loop, started with the first pool, resolves an entry when the pool is the
second. -/
inductive ResolvedAt : Pool → Pool → UnresolvedBlock → Prop where
  | now {p : Pool} {w : UnresolvedBlock} (h : resolvable p.counted.blockPool = some w) : ResolvedAt p p w
  | later {p q : Pool} {w w' : UnresolvedBlock} (h : resolvable p.counted.blockPool = some w)
      (hr : ResolvedAt (p.counted.advance w) q w') : ResolvedAt p q w'

theorem ResolvedAt.resolvable {p q : Pool} {w : UnresolvedBlock} (h : ResolvedAt p q w) :
    Pool.resolvable q.counted.blockPool = some w := by
  induction h with
  | now h => exact h
  | later _ _ ih => exact ih

variable {env} in
theorem Resolves.resolvedAt {p p' : Pool} {ws : List UnresolvedBlock} {ds : List Bytes}
    (hr : Resolves env p ws ds p') {w : UnresolvedBlock} (hw : w ∈ ws) : ∃ q, ResolvedAt p q w := by
  induction hr with
  | stop _ => simp at hw
  | step h _ ih =>
    rcases List.mem_cons.mp hw with rfl | hw
    · exact ⟨_, .now h⟩
    · obtain ⟨q, hq⟩ := ih hw
      exact ⟨q, .later h hq⟩

end Pool
end GruutMerger
