import GruutMerger.BlockRequests
import GruutMerger.PoolRun

/-!
# Blocks that are turned away

`prepareBins` admits a height by 64-bit and int arithmetic, which is exact as
long as nothing wraps. A block that is admitted and then turned away can only
change a pool without bins: it leaves one empty bin behind.
-/
namespace GruutMerger

open ByteText Fallible

variable (env : Env)

namespace Pool

/-- The int of a difference is the difference only below 2^31. -/
theorem lt_of_binIdx {last height : Nat} (hl : last < height) (hh : height < 2 ^ 64)
    (h : binIdx last height = (height : Int) - last - 1) : height - last < 2 ^ 31 := by
  rw [binIdx, sub64_of_le (by omega) hh, toInt32] at h
  split at h <;> omega

/-- `prepareBins` and the bin index are exact for the heights that are too low, for those
that the product turns away even when it wraps, and for those whose product does not
wrap and whose difference fits an int. -/
theorem admission_exact {p : Pool} {now height : Nat} (ht : p.lastTime ≤ now) (hn : now < 2 ^ 64)
    (hh : height < 2 ^ 64) :
    ((∃ q, p.prepareBins now height = .ok (decide (p.lastHeight < height ∧
        ((height : Int) - p.lastHeight - 1) * bpInterval ≤ (now : Int) - p.lastTime), q)) ∧
      ∀ q, p.prepareBins now height = .ok (true, q) →
        binIdx p.lastHeight height = (height : Int) - p.lastHeight - 1) ↔
    (height ≤ p.lastHeight ∨ now - p.lastTime < (height - p.lastHeight - 1) * bpInterval % 2 ^ 64 ∨
      ((height - p.lastHeight - 1) * bpInterval < 2 ^ 64 ∧ height - p.lastHeight < 2 ^ 31)) := by
  by_cases hlow : p.lastHeight < height
  · have hearly := tooEarly_iff_mod ht hn hh hlow
    have hexact : ((height : Int) - p.lastHeight - 1) * bpInterval ≤ (now : Int) - p.lastTime ↔
        (height - p.lastHeight - 1) * bpInterval ≤ now - p.lastTime := by
      unfold bpInterval
      omega
    have hmod := Nat.mod_le ((height - p.lastHeight - 1) * bpInterval) (2 ^ 64)
    cases he : p.tooEarly now height with
    | true =>
      have hlt := hearly.mp he
      have hprep : p.prepareBins now height = .ok (false, p) := by
        rw [prepareBins, if_neg (Nat.not_le.mpr hlow), if_pos he]
      have hnot : ¬(p.lastHeight < height ∧
          ((height : Int) - p.lastHeight - 1) * bpInterval ≤ (now : Int) - p.lastTime) :=
        fun h => absurd (hexact.mp h.2) (by omega)
      rw [hprep, decide_eq_false hnot]
      exact ⟨fun _ => Or.inr (Or.inl hlt), fun _ => ⟨⟨p, rfl⟩, fun q hq => by cases hq⟩⟩
    | false =>
      have hge : ¬now - p.lastTime < (height - p.lastHeight - 1) * bpInterval % 2 ^ 64 :=
        fun h => by rw [hearly.mpr h] at he; cases he
      have hprep : p.prepareBins now height = if binIdx p.lastHeight height + 1 < 0 then .error .std
          else .ok (true, p.grow (binIdx p.lastHeight height + 1).toNat) := by
        rw [prepareBins, if_neg (Nat.not_le.mpr hlow), if_neg (by simp [he])]
      rw [hprep]
      constructor
      · rintro ⟨⟨q, hq⟩, hidx⟩
        split at hq
        · cases hq
        · rename_i hpos
          have hadmit := (Prod.mk.inj (Except.ok.inj hq)).1
          have hprod := hexact.mp (of_decide_eq_true hadmit.symm).2
          have hsize := lt_of_binIdx hlow hh (hidx _ (if_neg hpos))
          exact Or.inr (Or.inr ⟨by omega, hsize⟩)
      · rintro (hle | hlt | ⟨hprod, hsize⟩)
        · exact absurd hlow (Nat.not_lt.mpr hle)
        · exact absurd hlt hge
        · rw [Nat.mod_eq_of_lt hprod] at hge
          have hidx := binIdx_of_lt hlow hh hsize
          refine ⟨⟨p.grow (binIdx p.lastHeight height + 1).toNat, ?_⟩, fun q _ => by omega⟩
          rw [if_neg (by omega), decide_eq_true ⟨hlow, hexact.mpr (Nat.not_lt.mp hge)⟩]
  · have hle := Nat.not_lt.mp hlow
    have hprep : p.prepareBins now height = .ok (false, p) := by rw [prepareBins, if_pos hle]
    rw [hprep, decide_eq_false fun h => hlow h.1]
    exact ⟨fun _ => Or.inl hle, fun _ => ⟨⟨p, rfl⟩, fun q hq => by cases hq⟩⟩

theorem admission_exact_fresh : binIdx 0 3 = 2 ∧
    ∃ q, (fresh.setPool [] [] [] [] 0 0).prepareBins 20 3 = .ok (true, q) := by
  have h := (admission_exact (p := fresh.setPool [] [] [] [] 0 0) (Nat.zero_le 20) (by decide)
    (by decide : 3 < 2 ^ 64)).mpr (Or.inr (Or.inr ⟨by decide, by decide⟩))
  obtain ⟨q, hq⟩ := h.1
  exact ⟨h.2 q hq, q, hq⟩

/-- The product of a height that far up wraps to zero and the difference narrows to one:
it is admitted at once, into the first bin. The text `-9223372036854775807` is read
as this height. -/
theorem admission_wraps : Safe.parseDecimal (ascii "-9223372036854775807") = .ok (2 ^ 63 + 1) ∧
    (∃ q, (fresh.setPool [] [] [] [] 0 0).prepareBins 0 (2 ^ 63 + 1) = .ok (true, q)) ∧
    ¬(((2 ^ 63 + 1 : Nat) : Int) - (0 : Nat) - 1) * bpInterval ≤ ((0 : Nat) : Int) - (0 : Nat) ∧
    binIdx 0 (2 ^ 63 + 1) = 0 :=
  ⟨by decide +kernel, ⟨_, rfl⟩, by decide, by decide⟩

theorem grow_of_le {p : Pool} {n : Nat} (h : n ≤ p.blockPool.length) : p.grow n = p := by
  simp [grow, Nat.sub_eq_zero_of_le h]

theorem lt_of_mem_bin {p : Pool} {i : Nat} {e : UnresolvedBlock} (h : e ∈ p.bin i) : i < p.blockPool.length := by
  by_contra hle
  rw [bin, List.getD_eq_default _ _ (Nat.not_lt.mp hle)] at h
  cases h

/-- The first bin is made for a block that is high and late enough but not on top of the
last one, when there are no bins. -/
def Unlinkable (p : Pool) (now : Nat) (block : Block) : Prop :=
  p.blockPool = [] ∧ p.lastHeight < block.height ∧ p.tooEarly now block.height = false ∧ p.namesLast block = false

theorem push_turned_away {now : Nat} {p p' : Pool} {block : Block} {r : PushResult} {a : Option Accepted}
    (h : p.push env now block = .ok (r, p', a)) (hr : r.height = 0 ∨ r.duplicated = true) :
    a = none ∧ ((¬p.Unlinkable now block ∧ p' = p) ∨ (p.Unlinkable now block ∧ p' = p.grow 1)) := by
  rcases push_steps env h with ⟨ha, _, rfl, haway⟩ | ⟨i, hlow, hearly, hi, hbin⟩
  · refine ⟨ha, Or.inl ⟨fun hu => ?_, rfl⟩⟩
    rcases haway with hlow | hearly
    · exact absurd hu.2.1 (Nat.not_lt.mpr hlow)
    · simp [hu.2.2.1] at hearly
  rcases hbin with ⟨ha, _, rfl, e, he, _⟩ | ⟨_, ⟨ha, _, rfl, hprev⟩ | ⟨prev, acc, _, _, hacc⟩⟩
  · -- the duplicate is in its bin, so the bin was there
    have hlt := lt_of_mem_bin he
    refine ⟨ha, Or.inl ⟨fun hu => ?_, grow_of_le hlt⟩⟩
    rw [hu.1] at hlt
    exact absurd hlt (Nat.not_lt_zero i)
  · cases i with
    | succ i => cases hprev
    | zero =>
      simp only [prevQueueIdx, ite_eq_right_iff, reduceCtorEq, imp_false, Bool.not_eq_true] at hprev
      refine ⟨ha, ?_⟩
      by_cases hbins : p.blockPool = []
      · exact Or.inr ⟨⟨hbins, hlow, hearly, hprev⟩, rfl⟩
      · exact Or.inl ⟨fun hu => hbins hu.1, grow_of_le (List.length_pos_of_ne_nil hbins)⟩
  · -- an accepted block has its own height and is no duplicate
    rw [hacc.result] at hr
    rcases hr with hr | hr
    · exact absurd hr (by simp only; omega)
    · cases hr

/-- Two pools answer every query alike. -/
structure SameAnswers (p q : Pool) : Prop where
  empty : q.blockPool.isEmpty = p.blockPool.isEmpty
  size : q.blockPool.length = p.blockPool.length
  getBlock : ∀ height prevHash hash, q.getBlock height prevHash hash = p.getBlock height prevHash hash
  getBlockAt : ∀ height, q.getBlockAt height = p.getBlockAt height
  getBlockLayer : ∀ id, Pool.getBlockLayer env q.blockPool id = Pool.getBlockLayer env p.blockPool id
  getMostPossibleLink : q.getMostPossibleLink.map Prod.fst = p.getMostPossibleLink.map Prod.fst
  getUnresolvedLowestLink : q.getUnresolvedLowestLink.map Prod.fst = p.getUnresolvedLowestLink.map Prod.fst

theorem SameAnswers.refl (p : Pool) : p.SameAnswers env p :=
  ⟨rfl, rfl, fun _ _ _ => rfl, fun _ => rfl, fun _ => rfl, rfl, rfl⟩

end Pool

/-- Two chain states make a merger answer peers alike. -/
def ChainState.SameReplies (c c' : ChainState) : Prop := ∀ (m : Merger) (now : Nat) (body : Json),
  ({ m with chain := c' }.handleMsgReqStatus env now body).map Prod.snd =
      ({ m with chain := c }.handleMsgReqStatus env now body).map Prod.snd ∧
    { m with chain := c' }.handleMsgReqBlock env now body = { m with chain := c }.handleMsgReqBlock env now body ∧
    { m with chain := c' }.handleMsgRequestHeader env now body = { m with chain := c }.handleMsgRequestHeader env now body

/-- A block that is turned away leaves no trace exactly when it does not make the first
bin of a pool without bins. -/
theorem ChainState.rejection_leaves_no_trace {c c' : ChainState} {now : Nat} {block : Block} {isRestore : Bool}
    {r : PushResult} (h : c.push env now block isRestore = .ok (r, c')) (hr : r.height = 0 ∨ r.duplicated = true) :
    (c.pool.SameAnswers env c'.pool ∧ c.SameReplies env c') ↔ ¬c.pool.Unlinkable now block := by
  unfold ChainState.push at h
  obtain ⟨⟨r', p', a⟩, hp, h⟩ := bind_eq_ok.mp h
  cases a with
  | some a =>
    obtain ⟨layered, _, h⟩ := bind_eq_ok.mp h
    cases h
    exact absurd (Pool.push_turned_away env hp hr).1 (by simp)
  | none =>
    cases h
    rcases (Pool.push_turned_away env hp hr).2 with ⟨hlink, rfl⟩ | ⟨hlink, rfl⟩
    · exact ⟨fun _ => hlink, fun _ => ⟨.refl env _, fun _ _ _ => ⟨rfl, rfl, rfl⟩⟩⟩
    · constructor
      · intro hsame
        have hsize := hsame.1.size
        simp [Pool.grow, hlink.1] at hsize
      · exact fun hnot => absurd hlink hnot

/-- A block at the height of the last one is too old. -/
theorem ChainState.rejection_leaves_no_trace_old :
    Sample.initial.chain.push Sample.base 1000 (Sample.block 0 [1] [] [] 0 [] []) false =
        .ok (Pool.rejected, Sample.initial.chain) ∧
      Sample.initial.chain.pool.SameAnswers Sample.base Sample.initial.chain.pool ∧
      Sample.initial.chain.SameReplies Sample.base Sample.initial.chain := by
  have hpush : Sample.initial.chain.push Sample.base 1000 (Sample.block 0 [1] [] [] 0 [] []) false =
      .ok (Pool.rejected, Sample.initial.chain) := rfl
  exact ⟨hpush, (rejection_leaves_no_trace Sample.base hpush (Or.inl rfl)).mpr
    fun hu => absurd hu.2.1 (Nat.not_lt_zero _)⟩

/-- A block at height 1 that is not on top of the genesis values makes the first bin. The
pool is not empty any more, and the merger reports height 0 instead of an error. -/
theorem ChainState.rejection_leaves_bin : ∃ c' : ChainState,
    ChainState.Reachable Sample.base Sample.initial.chain ∧
    Sample.initial.chain.push Sample.base 1000 (Sample.block 0 [1] [7] [7] 1 [] []) false = .ok (Pool.rejected, c') ∧
    Sample.initial.chain.pool.blockPool.isEmpty = true ∧ c'.pool.blockPool.isEmpty = false ∧
    (Sample.initial.handleMsgReqStatus Sample.base 1000 .null).map (·.2.type) = .ok .errorMsg ∧
    (Merger.handleMsgReqStatus Sample.base 1000 { Sample.initial with chain := c' } .null).map (·.2.type) =
      .ok .resStatus :=
  ⟨_, .setPool _ _ [] _ _ _ _, rfl, rfl, rfl, rfl, rfl⟩

end GruutMerger
