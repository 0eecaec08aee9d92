import GruutMerger.BlockSynchronizer
import GruutMerger.ChainService
import GruutMerger.Restart

/-!
# The health check

At start the merger may read its stored blocks from below and check each one
again, and that it follows the one before. What a run has saved passes if the
support signatures still verify with the certificates that are registered by now.
-/
namespace GruutMerger

open ByteText Fallible

variable (env : Env)

def genesisBlockPrevB64 : Bytes := ascii "AAAAAAAAAAAAAAAAAAAAAAAAAAAAAAAAAAAAAAAAAAA="

namespace BlockHealthChecker

/-- The texts that the next block is compared with: the hash and the id of the block before it. -/
structure Prev where
  hashB64 : Bytes
  idB64 : Bytes

def Prev.genesis : Prev := ⟨genesisBlockPrevB64, genesisBlockPrevB64⟩

def Prev.of (b : Block) : Prev := ⟨env.base64.encode b.blockHash, env.base64.encode b.blockId⟩

/-- The condition of the loop, from left to right. -/
def isHealthy (getUserCert : Bytes → Nat → Except Failure Bytes) (prev : Prev) (b : Block) : Except Failure Bool := do
  if !b.isValidEarly env then
    return false
  if !(← b.isValidLate env getUserCert) then
    return false
  return decide (env.base64.encode b.prevBlockHash = prev.hashB64) && decide (env.base64.encode b.prevBlockId = prev.idB64)

/-- The loop, with so many heights to go. -/
def checkFrom (ls : LayeredStorage) : Nat → Nat → Prev → Except Failure Bool
  | 0, _, _ => .ok true
  | n + 1, height, prev => do
    let nth ← ls.storage.disk.readBlock env height
    match ← Block.initializeSaved env nth with
    -- raw bytes are the last that `initialize` sets, and the first that `isValidEarly` asks for
    | none => return false
    | some b =>
      if ← isHealthy env (ChainState.getUserCert env ls) prev b then
        checkFrom ls n (height + 1) (Prev.of env b)
      else return false

def toLower (b : UInt8) : UInt8 := if 65 ≤ b ∧ b ≤ 90 then b + 32 else b

/-- What the operator answers to a failed check; after `del` nothing is deleted. -/
def exitOf (command : Bytes) : ExitCode :=
  if command.map toLower = ascii "run" then .errorBlockHealthSkip
  else if command.map toLower = ascii "del" then .normal
  else .errorAbort

/-- `startHealthCheck`, with the line that is read if the check fails. -/
def startHealthCheck (ls : LayeredStorage) (command : Bytes) : Except Failure ExitCode := do
  let latest ← ls.storage.disk.getNthBlockLinkInfo env 0
  if latest.height = 0 then
    return .blockHealthSkip
  if ← checkFrom env ls latest.height 1 .genesis then
    return .normal
  else
    return exitOf command

/-- The block that is read at a height. -/
def ReadAs (ls : LayeredStorage) (height : Nat) (b : Block) : Prop :=
  ∃ nth, ls.storage.disk.readBlock env height = .ok nth ∧ Block.initializeSaved env nth = .ok (some b)

/-- A block that names the one before it. -/
def Names (prev : Prev) (b : Block) : Prop :=
  env.base64.encode b.prevBlockHash = prev.hashB64 ∧ env.base64.encode b.prevBlockId = prev.idB64

/-- The blocks from a height on are read, pass the early check and name one another. -/
structure Chained (ls : LayeredStorage) (height : Nat) (prev : Prev) (bs : List Block) : Prop where
  read : ∀ i b, bs[i]? = some b → ReadAs env ls (height + i) b
  early : ∀ b ∈ bs, b.isValidEarly env = true
  names : Trail.Valid (Prev.of env) (Names env) prev bs

/-- The late check of one block after the other, up to the first that fails. -/
def allLate (ls : LayeredStorage) : List Block → Except Failure Bool
  | [] => .ok true
  | b :: bs => do
    if ← b.isValidLate env (ChainState.getUserCert env ls) then allLate ls bs else return false

variable {env} {ls : LayeredStorage}

theorem isHealthy_eq {getUserCert : Bytes → Nat → Except Failure Bytes} {prev : Prev} {b : Block}
    (hearly : b.isValidEarly env = true) (hnames : Names env prev b) :
    isHealthy env getUserCert prev b = b.isValidLate env getUserCert := by
  simp only [isHealthy, hearly, hnames.1, hnames.2, Bool.not_true, Bool.false_eq_true, if_false]
  cases b.isValidLate env getUserCert with
  | error _ => rfl
  | ok late => cases late <;> rfl

theorem chained_cons {height : Nat} {prev : Prev} {b : Block} {bs : List Block} : Chained env ls height prev (b :: bs) ↔
    ReadAs env ls height b ∧ b.isValidEarly env = true ∧ Names env prev b ∧
      Chained env ls (height + 1) (Prev.of env b) bs := by
  constructor
  · intro h
    refine ⟨h.read 0 b rfl, h.early b (by simp), h.names.1, fun i a ha => ?_,
      fun a ha => h.early a (List.mem_cons_of_mem _ ha), h.names.2⟩
    rw [Nat.add_assoc, Nat.add_comm 1]
    exact h.read (i + 1) a ha
  · rintro ⟨hread, hearly, hnames, h⟩
    refine ⟨fun i a ha => ?_, List.forall_mem_cons.mpr ⟨hearly, h.early⟩, hnames, h.names⟩
    cases i with
    | zero =>
      cases ha
      exact hread
    | succ i =>
      rw [← Nat.add_assoc, Nat.add_right_comm]
      exact h.read i a ha

/-- On a chain the loop comes down to the late checks. -/
theorem Chained.checkFrom {height : Nat} {prev : Prev} {bs : List Block} (h : Chained env ls height prev bs) :
    checkFrom env ls bs.length height prev = allLate env ls bs := by
  induction bs generalizing height prev with
  | nil => rfl
  | cons b bs ih =>
    obtain ⟨⟨nth, hnth, hfound⟩, hearly, hnames, hbs⟩ := chained_cons.mp h
    simp only [List.length_cons, BlockHealthChecker.checkFrom, hnth, hfound, isHealthy_eq hearly hnames, ih hbs, allLate,
      bind, Except.bind]

variable (env) in
/-- The genesis text is the one that its bytes are written as. -/
def GenesisText : Prop := env.base64.encode (env.base64.decode genesisBlockPrevB64) = genesisBlockPrevB64

theorem names_of_linked (hg : GenesisText env) {bs : List Block} (h : Linked (genesisTip env) bs) :
    Trail.Valid (Prev.of env) (Names env) .genesis bs := by
  have hfirst : Prev.genesis = ⟨env.base64.encode (genesisTip env).hash, env.base64.encode (genesisTip env).id⟩ := by
    rw [Prev.genesis, Prev.mk.injEq]
    exact ⟨hg.symm, hg.symm⟩
  rw [hfirst]
  refine Trail.Valid.image (fun t : Tip => (⟨env.base64.encode t.hash, env.base64.encode t.id⟩ : Prev)) (fun _ => rfl) ?_ h
  rintro t b ⟨hid, hhash, _⟩
  exact ⟨congrArg _ hhash, congrArg _ hid⟩

end BlockHealthChecker

/-- What holds of every block that is taken in holds of the blocks in the pool and of the resolved ones. -/
theorem ChainState.Delivers.forall_blocks {env : Env} {c c' : ChainState} {now : Nat} {block : Block} {r : PushResult}
    {P : Block → Prop} (hd : c.Delivers env now block c' r) (hblock : P block)
    (hpool : ∀ b ∈ Pool.blocksOf c.pool.blockPool, P b) (hres : ∀ b ∈ resolvedIn c.layered.storage.log, P b) :
    (∀ b ∈ Pool.blocksOf c'.pool.blockPool, P b) ∧ ∀ b ∈ resolvedIn c'.layered.storage.log, P b := by
  have hpush : ∀ {c₁ : ChainState}, c.push env now block false = .ok (r, c₁) →
      (∀ b ∈ Pool.blocksOf c₁.pool.blockPool, P b) ∧ ∀ b ∈ resolvedIn c₁.layered.storage.log, P b := by
    intro c₁ hp
    obtain ⟨a, hp', _⟩ := (push_eq_ok env).mp hp
    refine ⟨fun b hb => ?_, ?_⟩
    · rcases Pool.mem_blocksOf_push env hp' hb with rfl | hb
      · exact hblock
      · exact hpool b hb
    · rw [(touches_push env hp).resolvedIn_eq]
      exact hres
  have hcache : ∀ {a b : ChainState}, a.Recached b →
      ((∀ x ∈ Pool.blocksOf a.pool.blockPool, P x) ∧ ∀ x ∈ resolvedIn a.layered.storage.log, P x) →
      (∀ x ∈ Pool.blocksOf b.pool.blockPool, P x) ∧ ∀ x ∈ resolvedIn b.layered.storage.log, P x := by
    rintro a b ⟨⟨_, _, _, hp⟩, hl⟩ h
    rw [hp, hl]
    exact h
  cases hd with
  | kept hp _ hc => exact hcache hc (hpush hp)
  | resolved hp _ hq hr hc =>
    obtain ⟨hpool₂, hres₂⟩ := hcache hq (hpush hp)
    obtain ⟨ws, ds, hws, ls, ht, _, hf⟩ := procResolved_cases env hr
    refine hcache hc ⟨fun b hb => hpool₂ b (hws.mem_blocksOf (Or.inr hb)), fun b hb => ?_⟩
    rw [(saving_foldlM env hf).resolved, ht.resolvedIn_eq, Storage.logResolved, resolvedIn_append, resolvedIn_resolved] at hb
    rcases List.mem_append.mp hb with hb | hb
    · exact hres₂ b hb
    · exact hpool₂ b (hws.mem_blocksOf (Or.inl hb))

theorem Merger.Run.forall_blocks {env : Env} {allowed : Merger → Nat → Json → Prop} {m₀ m : Merger} {P : Block → Prop}
    (hP : ∀ body b, Block.initializeBody env body = .ok (some b) → b.isValidEarly env = true → P b)
    (h₀ : m₀.chain = ChainState.initial env) (h : Merger.Run env allowed m₀ m) :
    (∀ b ∈ Pool.blocksOf m.chain.pool.blockPool, P b) ∧ ∀ b ∈ resolvedIn m.chain.layered.storage.log, P b := by
  induction h with
  | refl =>
    rw [h₀]
    exact ⟨by simp [ChainState.initial, Pool.setPool, Pool.fresh, Pool.blocksOf],
      by simp [ChainState.initial, Storage.empty, resolvedIn]⟩
  | step _ _ hs ih =>
    rcases Merger.handleMsgBlock_cases env hs with ⟨_, rfl⟩ | ⟨block, hread, hearly, hd⟩
    · exact ih
    · exact hd.forall_blocks (hP _ _ hread hearly) ih.1 ih.2

namespace BlockHealthChecker

variable {env : Env} {m₀ m : Merger} {ls : LayeredStorage}

section Saved

variable (hg : GenesisText env) (h₀ : m₀.chain = ChainState.initial env) (hrun : Merger.Run env (Merger.NoWrap env) m₀ m)
  (hall : AllSaved m.chain.layered.storage.log) (hrec : ∀ b ∈ resolvedIn m.chain.layered.storage.log, b.Recorded)
  (hsame : ∀ a ∈ resolvedIn m.chain.layered.storage.log, ∀ b ∈ resolvedIn m.chain.layered.storage.log, Storage.SameTxs a b)
  (hdisk : ls.storage.disk = m.chain.layered.storage.disk)

include hg h₀ hrun hall hrec hsame hdisk

/-- The resolved blocks of a run that saved them are a chain for the loop. -/
theorem chained_of_run : Chained env ls 1 .genesis (resolvedIn m.chain.layered.storage.log) := by
  have hrep := hrun.represents env h₀ hall
  obtain ⟨saved, hholds⟩ := hrun.holds h₀
  refine ⟨fun i b hb => ?_, (hrun.forall_blocks (fun _ _ _ h => h) h₀).2, names_of_linked hg hrep.linked⟩
  have hmem := List.mem_of_getElem? hb
  have hheight : b.height = 1 + i := by
    have hat := hrep.linked.height_at hb
    have htip : (genesisTip env).height = 0 := rfl
    omega
  obtain ⟨hsaved, hread⟩ := hholds.readBlock hrep hall.nodup hsame (fun b hb => (hrec b hb).time_lt) hmem
  rw [← hheight, ReadAs, hdisk]
  exact ⟨_, hread, (hholds.received b hsaved).initializeRaw_again env (hrec b hmem).txTimes_lt⟩

end Saved

end BlockHealthChecker

namespace Sample

open BlockHealthChecker

/-- A process that starts on what a merger has on disk. -/
def reopened (m : Merger) : LayeredStorage := ⟨⟨m.chain.layered.storage.disk, fun _ => [], []⟩, [], []⟩

theorem genesisText_base (rows : List Row) : GenesisText (world rows) := by
  change base.base64.encode (base.base64.decode genesisBlockPrevB64) = genesisBlockPrevB64
  decide +kernel

/-- What the theorems ask of the resolved blocks. -/
def Stands (m : Merger) : Prop :=
  AllSaved m.chain.layered.storage.log ∧
    (∀ b ∈ resolvedIn m.chain.layered.storage.log, b.blockId ≠ [] ∧ b.time < 2 ^ 63 ∧ ∀ tx ∈ b.transactions, tx.sentTime < 2 ^ 63) ∧
    (∀ a ∈ resolvedIn m.chain.layered.storage.log, ∀ b ∈ resolvedIn m.chain.layered.storage.log, Storage.SameTxs a b)

instance (m : Merger) : Decidable (Stands m) := inferInstanceAs (Decidable (_ ∧ _))

/-- Three resolved blocks that pass. -/
def PassesThree (m : Merger) : Bool :=
  decide (Stands m) && decide ((resolvedIn m.chain.layered.storage.log).length = 3) &&
    okAnd id (allLate (world chainRows) (reopened m) (resolvedIn m.chain.layered.storage.log))

theorem allLate_of_passes {m : Merger} (h : PassesThree m = true) :
    Stands m ∧ (resolvedIn m.chain.layered.storage.log).length = 3 ∧
      allLate (world chainRows) (reopened m) (resolvedIn m.chain.layered.storage.log) = .ok true := by
  simp only [PassesThree, Bool.and_eq_true, decide_eq_true_eq] at h
  obtain ⟨⟨hstands, hlen⟩, hlate⟩ := h
  obtain ⟨healthy, hlate, rfl : healthy = true⟩ := okAnd_eq_true.mp hlate
  exact ⟨hstands, hlen, hlate⟩

end Sample

end GruutMerger
