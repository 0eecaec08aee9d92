import GruutMerger.Support
import GruutMerger.MergerRun

/-!
# What stands behind a saved block

A block is saved when the signatures counted for it reach the confirm level and
its own signatures verify. Those of the blocks above it are counted unchecked,
and one signer may be counted any number of times.
-/
namespace GruutMerger

open ByteText Fallible

variable (env : Env)

namespace ChainState

/-- `procResolvedBlocksIf` comes to an entry with this layered storage. -/
def ChecksAt (c : ChainState) (w : UnresolvedBlock) (ls : LayeredStorage) : Prop :=
  ∃ before after, (c.getResolvedBlocks env).1 = before ++ w :: after ∧
    before.foldlM (saveResolved env) ((c.getResolvedBlocks env).2.1.foldl LayeredStorage.dropLedger
      (c.getResolvedBlocks env).2.2.layered) = .ok ls

/-- The late check passes there, so the block is handed to `saveBlock`. -/
def SavesAt (c : ChainState) (w : UnresolvedBlock) (ls : LayeredStorage) : Prop :=
  ChecksAt env c w ls ∧ w.block.isValidLate env (getUserCert env ls) = .ok true

/-- Enough different signers, each with a signature that passes the check of the
block that carries it. -/
def RealSupport (getUserCert : Bytes → Nat → Except Failure Bytes) (counted : List (Block × Signature)) :
    Prop :=
  ∃ l : List (Block × Signature), l ⊆ counted ∧ blockConfirmLevel ≤ l.length ∧
    (l.map (·.2.signerId)).Nodup ∧ ∀ x ∈ l, Block.isValidSSig env getUserCert x.1 x.2 = .ok true

end ChainState

theorem Block.isValidSSig_of_allValid {getUserCert : Bytes → Nat → Except Failure Bytes} {b : Block}
    {ssigs : List Signature} (h : allValidSSigs env getUserCert b ssigs = .ok true) :
    ∀ s ∈ ssigs, isValidSSig env getUserCert b s = .ok true := by
  induction ssigs with
  | nil => simp
  | cons s rest ih =>
    obtain ⟨valid, hv, h⟩ := bind_eq_ok.mp h
    cases valid with
    | false => cases h
    | true =>
      intro t ht
      rcases List.mem_cons.mp ht with rfl | ht
      · exact hv
      · exact ih h t ht

namespace ChainState

/-- Behind every saved block: at the moment it was resolved, the signatures of
itself and of everything above it numbered at least the confirm level, some
block stood on top of it, and when it is saved each of its own signatures
verifies. If moreover no signer is counted twice and the signatures of the
blocks above verify too, the support is real. -/
theorem saved_block_support {c : ChainState} {w : UnresolvedBlock} {ls : LayeredStorage}
    (h : SavesAt env c w ls) : (∃ q, c.pool.ResolvedAt q w) ∧ ∀ q, c.pool.ResolvedAt q w →
      ∃ j e, (q.bin 0)[j]? = some e ∧ e.block = w.block ∧
        blockConfirmLevel ≤ (Pool.countedFor q.blockPool j e).length ∧
        (∃ child ∈ q.bin 1, child.prevVectorIdx = j) ∧
        (∀ s ∈ w.block.ssigs, Block.isValidSSig env (getUserCert env ls) w.block s = .ok true) ∧
        (((Pool.countedFor q.blockPool j e).map (·.2.signerId)).Nodup →
          (∀ x ∈ Pool.countedFor q.blockPool j e, x.1 ≠ w.block →
            Block.isValidSSig env (getUserCert env ls) x.1 x.2 = .ok true) →
          RealSupport env (getUserCert env ls) (Pool.countedFor q.blockPool j e)) := by
  obtain ⟨⟨before, after, hws, _⟩, hvalid⟩ := h
  have hmem : w ∈ (c.pool.resolve env).1 := by
    have heq : (c.pool.resolve env).1 = before ++ w :: after := hws
    rw [heq]
    simp
  refine ⟨(Pool.resolves_resolve env c.pool).resolvedAt hmem, fun q hq => ?_⟩
  obtain ⟨j, e, he, hblock, hlevel, hle, hchild⟩ := Pool.resolvable_counted hq.resolvable
  have hown := Block.isValidSSig_of_allValid env hvalid
  refine ⟨j, e, he, hblock, hlevel ▸ hle, hchild, hown, fun hnd habove => ?_⟩
  refine ⟨_, List.Subset.refl _, hlevel ▸ hle, hnd, fun x hx => ?_⟩
  by_cases hx1 : x.1 = w.block
  · rw [hx1]
    exact hown x.2 (hx1 ▸ Pool.mem_ssigs_of_countedFor hx)
  · exact habove x hx hx1

end ChainState

/-- The state in which a call of `handleMsgBlock` comes to `procResolvedBlocksIf`. -/
def Merger.ResolvesFrom (m : Merger) (now : Nat) (body : Json) (c : ChainState) : Prop :=
  ∃ block r c₁ link pool, Block.initializeBody env body = .ok (some block) ∧
    block.isValidEarly env = true ∧ m.chain.push env now block false = .ok (r, c₁) ∧ r.linked = true ∧
    c₁.pool.getMostPossibleLink = .ok (link, pool) ∧ c = { c₁ with pool := pool }

/-- Deliver some rows and stop where the delivery of one more comes to
`procResolvedBlocksIf`. -/
def Sample.upToResolve (rows : List Sample.Row) (now : Nat) (order : List Nat) (row : Nat) :
    Except Failure (Merger × PushResult × ChainState × NthLink × Pool) := do
  let m ← Sample.run rows now order Sample.initial
  match rows[row]? with
  | none => .error .undefined
  | some r => do
    let (result, c) ← m.chain.push (Sample.world rows) now (r.block row) false
    let (link, pool) ← c.pool.getMostPossibleLink
    return (m, result, c, link, pool)

theorem Sample.upToResolve_spec {rows : List Sample.Row} {now : Nat} {order : List Nat} {row : Nat}
    {m : Merger} {r : PushResult} {c : ChainState} {link : NthLink} {pool : Pool} (hg : Sample.Good rows)
    (hn : now < 2 ^ 64) (h : Sample.upToResolve rows now order row = .ok (m, r, c, link, pool))
    (hl : r.linked = true) :
    Merger.Run (Sample.world rows) (Merger.NoWrap (Sample.world rows)) Sample.initial m ∧
      ∃ body, m.ResolvesFrom (Sample.world rows) now body { c with pool := pool } := by
  obtain ⟨m', hrun, h⟩ := bind_eq_ok.mp h
  split at h
  · cases h
  rename_i row' hrow
  obtain ⟨⟨result, c'⟩, hp, h⟩ := bind_eq_ok.mp h
  obtain ⟨⟨link', pool'⟩, hq, h⟩ := bind_eq_ok.mp h
  cases h
  obtain ⟨hs, hh, ht⟩ := hg.2 row' (List.mem_of_getElem? hrow)
  have hinit := Sample.initializeBody_block hs (by omega) ht (Sample.tableOf_row hg hrow)
  exact ⟨Sample.run_is_run hg hn (Nat.zero_le _) hrun, _, _, _, _, _, _, hinit, Sample.block_valid ht _, hp, hl,
    hq, rfl⟩

/-- Layered storage when `procResolvedBlocksIf` comes to the first entry. -/
def ChainState.beforeSaving (c : ChainState) : LayeredStorage :=
  (c.getResolvedBlocks env).2.1.foldl LayeredStorage.dropLedger (c.getResolvedBlocks env).2.2.layered

theorem ChainState.savesAt_first {c : ChainState} {w : UnresolvedBlock} {ws : List UnresolvedBlock}
    (hw : (c.pool.resolve env).1 = w :: ws)
    (hv : w.block.isValidLate env (getUserCert env (c.beforeSaving env)) = .ok true) :
    SavesAt env c w (c.beforeSaving env) ∧ c.pool.ResolvedAt c.pool w := by
  have hres := Pool.resolves_resolve env c.pool
  rw [hw] at hres
  generalize (c.pool.resolve env).2.1 = ds at hres
  generalize (c.pool.resolve env).2.2 = p at hres
  cases hres with
  | step h _ => exact ⟨⟨⟨[], ws, hw, rfl⟩, hv⟩, .now h⟩

/-- One signer alone is no real support, however often it signs. -/
theorem ChainState.not_realSupport_of_one {getUserCert : Bytes → Nat → Except Failure Bytes} {signer : Bytes}
    {counted : List (Block × Signature)} (h : ∀ x ∈ counted, x.2.signerId = signer) :
    ¬ RealSupport env getUserCert counted := by
  rintro ⟨l, hsub, hlen, hnd, _⟩
  have hrep : l.map (·.2.signerId) = List.replicate l.length signer := by
    rw [List.eq_replicate_iff]
    exact ⟨by simp, fun b hb => by
      obtain ⟨x, hx, rfl⟩ := List.mem_map.mp hb
      exact h x (hsub hx)⟩
  rw [hrep, List.nodup_replicate] at hnd
  have hlevel : blockConfirmLevel = 3 := rfl
  omega

/-- One signer three times over. -/
def Sample.sameSignerRows : List Sample.Row :=
  [⟨[1], genesisBlockPrevId Sample.base, genesisBlockPrevHash Sample.base, 1,
      [Sample.good 1, Sample.good 1, Sample.good 1], [Sample.digestTx]⟩,
   ⟨[2], [1], Sample.hashOf 0, 2, [Sample.good 1], [Sample.digestTx]⟩]

/-- Three signers on two blocks. -/
def Sample.threeSignersRows : List Sample.Row :=
  [⟨[1], genesisBlockPrevId Sample.base, genesisBlockPrevHash Sample.base, 1,
      [Sample.good 1, Sample.good 2], [Sample.digestTx]⟩,
   ⟨[2], [1], Sample.hashOf 0, 2, [Sample.good 3], [Sample.digestTx]⟩]

/-- The delivery is linked, the first resolved block passes the late check, and a
test holds of the signatures counted for every entry of the first bin. -/
def Sample.savesFirst (rows : List Sample.Row) (test : LayeredStorage → List (Block × Signature) → Bool)
    (x : Merger × PushResult × ChainState × NthLink × Pool) : Bool :=
  let c : ChainState := { x.2.2.1 with pool := x.2.2.2.2 }
  let ls := c.beforeSaving (Sample.world rows)
  x.2.1.linked && ((c.pool.bin 0).zipIdx.all fun y => test ls (Pool.countedFor c.pool.blockPool y.2 y.1)) &&
    match (c.pool.resolve (Sample.world rows)).1 with
    | [] => false
    | w :: _ => okAnd id (w.block.isValidLate (Sample.world rows) (ChainState.getUserCert (Sample.world rows) ls))

theorem Sample.savesFirst_spec (rows : List Sample.Row) (order : List Nat) (row : Nat)
    (test : LayeredStorage → List (Block × Signature) → Bool) (hg : Sample.Good rows)
    (h : okAnd (Sample.savesFirst rows test) (Sample.upToResolve rows 1000 order row) = true) :
    ∃ m body c w, Merger.Run (Sample.world rows) (Merger.NoWrap (Sample.world rows)) Sample.initial m ∧
      m.ResolvesFrom (Sample.world rows) 1000 body c ∧
      ChainState.SavesAt (Sample.world rows) c w (c.beforeSaving (Sample.world rows)) ∧
      c.pool.ResolvedAt c.pool w ∧ ∀ j e, (c.pool.bin 0)[j]? = some e →
        test (c.beforeSaving (Sample.world rows)) (Pool.countedFor c.pool.blockPool j e) = true := by
  obtain ⟨⟨m, r, c, link, pool⟩, heq, htest⟩ := okAnd_eq_true.mp h
  simp only [Sample.savesFirst, Bool.and_eq_true, List.all_eq_true] at htest
  obtain ⟨⟨hl, hall⟩, hsave⟩ := htest
  obtain ⟨hrun, body, hres⟩ := Sample.upToResolve_spec hg (by decide) heq hl
  split at hsave
  · cases hsave
  rename_i w ws hw
  obtain ⟨valid, hv, hid⟩ := okAnd_eq_true.mp hsave
  obtain rfl : valid = true := hid
  obtain ⟨hsaves, hat⟩ := ChainState.savesAt_first _ hw hv
  exact ⟨m, body, _, w, hrun, hres, hsaves, hat, fun j e he =>
    hall (e, j) (List.mem_zipIdx_iff_getElem?.mpr he)⟩

def Sample.differentSigners (ls : LayeredStorage) (counted : List (Block × Signature)) : Bool :=
  decide (counted.map fun x => x.2.signerId).Nodup &&
    counted.all fun x => okAnd id (Block.isValidSSig env (ChainState.getUserCert env ls) x.1 x.2)

/-- Two blocks whose three signatures come from three signers. -/
theorem ChainState.saved_block_support_three : ∃ m body c w j e,
    Merger.Run (Sample.world Sample.threeSignersRows) (Merger.NoWrap (Sample.world Sample.threeSignersRows))
      Sample.initial m ∧
    m.ResolvesFrom (Sample.world Sample.threeSignersRows) 1000 body c ∧
    SavesAt (Sample.world Sample.threeSignersRows) c w (c.beforeSaving (Sample.world Sample.threeSignersRows)) ∧
    (c.pool.bin 0)[j]? = some e ∧
    RealSupport (Sample.world Sample.threeSignersRows) (getUserCert (Sample.world Sample.threeSignersRows)
      (c.beforeSaving (Sample.world Sample.threeSignersRows))) (Pool.countedFor c.pool.blockPool j e) := by
  obtain ⟨m, body, c, w, hrun, hres, hsaves, hat, htest⟩ := Sample.savesFirst_spec
    Sample.threeSignersRows [0] 1 (Sample.differentSigners (Sample.world Sample.threeSignersRows))
    (by decide +kernel) (by decide +kernel)
  obtain ⟨j, e, he, _, _, _, _, hreal⟩ := (ChainState.saved_block_support _ hsaves).2 _ hat
  have hcounted := htest j e he
  simp only [Sample.differentSigners, Bool.and_eq_true, decide_eq_true_eq, List.all_eq_true] at hcounted
  refine ⟨m, body, c, w, j, e, hrun, hres, hsaves, he, hreal hcounted.1 fun x hx _ => ?_⟩
  obtain ⟨valid, hv, hid⟩ := okAnd_eq_true.mp (hcounted.2 x hx)
  rw [hv, show valid = true from hid]

/-- A block saved on the word of one signer. -/
theorem ChainState.one_signer_finality : ∃ m body c w j e,
    Merger.Run (Sample.world Sample.sameSignerRows) (Merger.NoWrap (Sample.world Sample.sameSignerRows))
      Sample.initial m ∧
    m.ResolvesFrom (Sample.world Sample.sameSignerRows) 1000 body c ∧
    SavesAt (Sample.world Sample.sameSignerRows) c w (c.beforeSaving (Sample.world Sample.sameSignerRows)) ∧
    c.pool.ResolvedAt c.pool w ∧ (c.pool.bin 0)[j]? = some e ∧ e.block = w.block ∧
    ¬ RealSupport (Sample.world Sample.sameSignerRows) (getUserCert (Sample.world Sample.sameSignerRows)
      (c.beforeSaving (Sample.world Sample.sameSignerRows))) (Pool.countedFor c.pool.blockPool j e) := by
  obtain ⟨m, body, c, w, hrun, hres, hsaves, hat, htest⟩ := Sample.savesFirst_spec
    Sample.sameSignerRows [0] 1 (fun _ counted => counted.all fun x => decide (x.2.signerId = [1]))
    (by decide +kernel) (by decide +kernel)
  obtain ⟨j, e, he, hblock, _⟩ := Pool.resolvable_counted hat.resolvable
  have hcounted := htest j e he
  simp only [decide_eq_true_eq, List.all_eq_true] at hcounted
  exact ⟨m, body, c, w, j, e, hrun, hres, hsaves, hat, he, hblock,
    not_realSupport_of_one _ hcounted⟩

end GruutMerger
