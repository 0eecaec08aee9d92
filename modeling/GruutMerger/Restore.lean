import GruutMerger.Backup
import GruutMerger.PushTotal

/-!
# Restoring the pool

A restart puts a fresh pool on the last stored block and pushes the blocks of the
backup list. With the clock late enough it takes in every block of the list that
is not too low and not beside the last block, and nothing else.
-/
namespace GruutMerger

open ByteText KeyValue Fallible

variable (env : Env)

namespace Pool

/-- The clock is late enough for the bins of all blocks of the pool, counted from a time of
the last block. -/
def AdmitsAll (p : Pool) (since : Nat) (clock : Nat → Nat) : Prop :=
  ∀ k, since ≤ clock k ∧ clock k < 2 ^ 64 ∧
    ∀ b ∈ blocksOf p.blockPool, (b.height - p.lastHeight - 1) * bpInterval ≤ clock k - since

/-- What the backup list gives back stands in the pool or is barred from it. -/
def Listed (p : Pool) (b : Block) : Prop := b ∈ blocksOf p.blockPool ∨ p.Barred b

theorem Barred.height_le {p : Pool} {b : Block} (h : p.Barred b) : b.height ≤ p.lastHeight + 1 := by
  rcases h with h | h <;> omega

/-- With such a clock nothing wraps, and no block of the pool is early. -/
theorem AdmitsAll.noWrap {p q : Pool} {clock : Nat → Nat} (h : p.AdmitsAll q.lastTime clock) (hn : p.Near)
    (hq : q.lastHeight = p.lastHeight) (hlast : p.lastHeight < 2 ^ 63) (k : Nat) {b : Block} (hb : p.Listed b) :
    q.NoWrap (clock k) b.height := by
  obtain ⟨htime, hclock, hadmit⟩ := h k
  have hheight : b.height < 2 ^ 64 ∧ b.height - p.lastHeight < 2 ^ 31 ∧
      (b.height - p.lastHeight - 1) * bpInterval < 2 ^ 64 := by
    rcases hb with hb | hb
    · have := hn b hb
      have := hadmit b hb
      exact ⟨by omega, by omega, by omega⟩
    · have hle := hb.height_le
      have hzero : b.height - p.lastHeight - 1 = 0 := by omega
      rw [hzero, Nat.zero_mul]
      exact ⟨by omega, by omega, by decide⟩
  unfold NoWrap
  rw [hq]
  exact ⟨htime, hclock, hheight.1, hheight.2.2, Or.inr hheight.2.1⟩

theorem AdmitsAll.not_early {p q : Pool} {clock : Nat → Nat} (h : p.AdmitsAll q.lastTime clock) (hn : p.Near)
    (hok : p.Ok) (hq : q.lastHeight = p.lastHeight) (hlast : p.lastHeight < 2 ^ 63) (k : Nat) {b : Block}
    (hb : b ∈ blocksOf p.blockPool) : q.lastHeight < b.height ∧ q.tooEarly (clock k) b.height = false := by
  obtain ⟨d, _, _, _, _, hd⟩ := hok.node_of_mem hb
  have hlt : q.lastHeight < b.height := by omega
  refine ⟨hlt, ?_⟩
  by_contra hearly
  rw [Bool.not_eq_false] at hearly
  have := ((h.noWrap hn hq hlast k (Or.inl hb)).tooEarly_iff hlt).mp hearly
  have := (h k).2.2 b hb
  rw [hq] at *
  omega

variable {env}

/-- A block that is neither low nor early is there already, barred, or taken in. -/
theorem push_outcome {p p' : Pool} {now : Nat} {block : Block} {r : PushResult} {a : Option Accepted}
    (hw : p.NoWrap now block.height) (hlow : p.lastHeight < block.height) (hearly : p.tooEarly now block.height = false)
    (h : p.push env now block = .ok (r, p', a)) :
    (∃ b ∈ blocksOf p.blockPool, b.height = block.height ∧ b.blockHash = block.blockHash) ∨ p.Barred block ∨ a.isSome := by
  have hidx := binIdx_of_lt hlow hw.2.2.1 (hw.lt_of_not_early hlow hearly)
  obtain ⟨i, hi⟩ : ∃ i, block.height - p.lastHeight - 1 = i := ⟨_, rfl⟩
  rw [hi] at hidx
  have hnot : ¬ p.lastHeight ≥ block.height := by omega
  have hpos : ¬ (i : Int) + 1 < 0 := by omega
  have hpos' : ¬ (i : Int) < 0 := by omega
  unfold push prepareBins at h
  simp only [if_neg hnot, hearly, Bool.false_eq_true, if_false, hidx, if_neg hpos, if_neg hpos', bind, Except.bind,
    Bool.not_true, Int.toNat_natCast] at h
  split at h
  · rename_i hsame
    obtain ⟨e, he, hsame⟩ := List.any_eq_true.mp hsame
    rw [bin_grow] at he
    simp only [Block.same, Bool.and_eq_true, decide_eq_true_eq] at hsame
    exact Or.inl ⟨e.block, mem_blocksOf.mpr ⟨i, e, he, rfl⟩, hsame.1, hsame.2⟩
  split at h
  · rename_i hprev
    refine Or.inr (Or.inl (Or.inr ?_))
    rw [prevQueueIdx_grow] at hprev
    cases i with
    | zero =>
      refine ⟨by omega, ?_⟩
      by_contra hlast
      simp [prevQueueIdx, hlast] at hprev
    | succ i => cases hprev
  · split at h
    · cases h
    · cases h
      exact Or.inr (Or.inr rfl)

theorem Barred.not_accepted {p p' : Pool} {now : Nat} {block : Block} {r : PushResult} {a : Accepted}
    (hb : p.Barred block) (hw : p.NoWrap now block.height) : p.push env now block ≠ .ok (r, p', some a) := by
  intro h
  obtain ⟨i, prev, hheight, _, hprev, _⟩ := push_accepted hw h
  rcases hb with hb | ⟨hb, hlast⟩
  · omega
  · obtain rfl : i = 0 := by omega
    simp [prevQueueIdx, hlast] at hprev

end Pool

namespace ChainState

open Storage

/-- A pool under restoration from a backup of another one. -/
structure Restoring (d : Records) (p q : Pool) (c : ChainState) : Prop where
  disk : c.layered.storage.disk = d
  last : q.SameLast c.pool
  ok : c.pool.Ok
  near : c.pool.Near
  blocks : ∀ b ∈ Pool.blocksOf c.pool.blockPool, b ∈ Pool.blocksOf p.blockPool ∧ d.Keeps env b

/-- What is left of a listed id: its block is in the pool or barred. -/
def Restored (d : Records) (p : Pool) (j : Json) (c : ChainState) : Prop :=
  Safe.getString j ≠ [] → ∃ a : Block, a.Restorable env ∧ j = .string (a.getBlockIdB64 env) ∧ d.Keeps env a ∧
    (a ∈ Pool.blocksOf c.pool.blockPool ∨ p.Barred a)

section Backup

variable {env} {d : Records} {p q : Pool} {clock : Nat → Nat}
  (honly : ∀ j ∈ d.readBackupIds, Safe.getString j ≠ [] → ∃ a : Block, a.Restorable env ∧
    j = .string (a.getBlockIdB64 env) ∧ d.Keeps env a ∧ p.Listed a)
  (hok : p.Ok) (hn : p.Near) (hlast : p.lastHeight < 2 ^ 63) (htip : q.tip = p.tip)
  (hclock : p.AdmitsAll q.lastTime clock)

/-- A turn with a listed id is a push of its block. -/
theorem restoreOne_listed {a : Block} (ha : a.Restorable env) (hk : d.Keeps env a) {now : Nat} {c : ChainState}
    (hd : c.layered.storage.disk = d) (hne : a.blockId ≠ []) :
    restoreOne env now c (.string (a.getBlockIdB64 env)) = (c.push env now a true).map (·.2) := by
  have hid : a.getBlockIdB64 env ≠ [] := Block.getBlockIdB64_ne env hne
  have hrecord : c.layered.storage.disk.readBackup (a.getBlockIdB64 env) = (backupRecord env a).value := by
    rw [hd]
    exact hk.2
  have hsome : ((backupRecord env a).value).isEmpty = false := rfl
  simp only [restoreOne, Safe.getString, if_neg hid, hrecord, hsome, ha.deserialize env, bind, Except.bind,
    Bool.false_eq_true, if_false]
  cases c.push env now a true <;> rfl

include honly hn hlast htip hclock

/-- A turn does nothing, or pushes a listed block. -/
theorem Restoring.turn {c : ChainState} (h : Restoring env d p q c) {j : Json} {k : Nat} (hj : j ∈ d.readBackupIds) :
    (Safe.getString j = [] ∧ restoreOne env (clock k) c j = .ok c) ∨
      ∃ a : Block, a.Restorable env ∧ j = .string (a.getBlockIdB64 env) ∧ d.Keeps env a ∧ p.Listed a ∧ a.blockId ≠ [] ∧
        c.pool.NoWrap (clock k) a.height ∧ restoreOne env (clock k) c j = (c.push env (clock k) a true).map (·.2) := by
  by_cases hempty : Safe.getString j = []
  · refine Or.inl ⟨hempty, ?_⟩
    simp only [restoreOne, hempty, if_true]
    rfl
  · obtain ⟨a, hrest, rfl, hk, hlisted⟩ := honly j hj hempty
    have hne : a.blockId ≠ [] := by
      intro hnil
      exact hempty (by simp [Safe.getString, Block.getBlockIdB64, hnil])
    have hw := h.last.noWrap (hclock.noWrap hn (congrArg Tip.height htip) hlast k hlisted)
    exact Or.inr ⟨a, hrest, rfl, hk, hlisted, hne, hw, restoreOne_listed hrest hk h.disk hne⟩

omit honly hn hlast hclock in
/-- A listed block that is taken in was in the pool before. -/
theorem Restoring.blocks_push {c : ChainState} (h : Restoring env d p q c) {a : Block} (hk : d.Keeps env a)
    (hlisted : p.Listed a) {now : Nat} (hw : c.pool.NoWrap now a.height) {r : PushResult} {p' : Pool}
    {acc : Option Pool.Accepted} (hp : c.pool.push env now a = .ok (r, p', acc)) :
    ∀ b ∈ Pool.blocksOf p'.blockPool, b ∈ Pool.blocksOf p.blockPool ∧ d.Keeps env b := by
  intro b hb
  rcases Pool.blocksOf_push env hp with ⟨_, hsame⟩ | ⟨hacc, hperm⟩
  · rw [hsame] at hb
    exact h.blocks b hb
  · obtain ⟨x, rfl⟩ := Option.isSome_iff_exists.mp hacc
    rcases List.mem_cons.mp (hperm.mem_iff.mp hb) with rfl | hb
    · refine ⟨hlisted.resolve_right fun hbar => ?_, hk⟩
      exact ((Pool.barred_of_tip (h.last.tip.trans htip)).mpr hbar).not_accepted hw hp
    · exact h.blocks b hb

include hok

omit honly in
/-- After its turn a listed block is in the pool, unless it is barred. -/
theorem Restoring.mem_push {c : ChainState} (h : Restoring env d p q c) {a : Block} (hlisted : p.Listed a) {k : Nat}
    (hw : c.pool.NoWrap (clock k) a.height) {r : PushResult} {p' : Pool} {acc : Option Pool.Accepted}
    (hp : c.pool.push env (clock k) a = .ok (r, p', acc)) : a ∈ Pool.blocksOf p'.blockPool ∨ p.Barred a := by
  rcases hlisted with hin | hbar
  · obtain ⟨hlow, hearly⟩ := hclock.not_early hn hok (congrArg Tip.height htip) hlast k hin
    have hearly' : c.pool.tooEarly (clock k) a.height = false := by
      unfold Pool.tooEarly at hearly ⊢
      rw [h.last.2.2.1, h.last.2.2.2]
      exact hearly
    rcases Pool.push_outcome hw (h.last.2.2.1 ▸ hlow) hearly' hp with ⟨b, hb, hbh, hbhash⟩ | hbar | hacc
    · -- the same height and hash, so it is the same block
      obtain rfl : b = a := hok.eq_of_hash (h.blocks b hb).1 hin hbh hbhash
      exact Or.inl (Pool.mem_blocksOf_of_push env hp hb)
    · exact Or.inr ((Pool.barred_of_tip (h.last.tip.trans htip)).mp hbar)
    · rcases Pool.blocksOf_push env hp with ⟨hnone, _⟩ | ⟨_, hperm⟩
      · rw [hnone] at hacc
        cases hacc
      · exact Or.inl (hperm.mem_iff.mpr (by simp))
  · exact Or.inr hbar

theorem Restoring.step {c c' : ChainState} (h : Restoring env d p q c) {j : Json} {k : Nat} (hj : j ∈ d.readBackupIds)
    (hs : restoreOne env (clock k) c j = .ok c') :
    Restoring env d p q c' ∧ Restored env d p j c' ∧ ∀ i, Restored env d p i c → Restored env d p i c' := by
  rcases h.turn honly hn hlast htip hclock hj with ⟨hempty, hc⟩ | ⟨a, hrest, rfl, hk, hlisted, _, hw, hpush⟩
  · obtain rfl : c = c' := Except.ok.inj (hc.symm.trans hs)
    exact ⟨h, fun hne => absurd hempty hne, fun _ hi => hi⟩
  · rw [hpush] at hs
    obtain ⟨⟨r, c''⟩, hp, rfl⟩ := map_eq_ok.mp hs
    obtain ⟨acc, hpool, _⟩ := (push_eq_ok env).mp hp
    refine ⟨⟨?_, h.last.trans (Pool.sameLast_push env hpool), h.ok.push env hw hpool, h.near.push hw hpool, ?_⟩, ?_, ?_⟩
    · exact (disk_of_restore_push env hp).trans h.disk
    · exact h.blocks_push htip hk hlisted hw hpool
    · exact fun _ => ⟨a, hrest, rfl, hk, h.mem_push hok hn hlast htip hclock hlisted hw hpool⟩
    · intro i hi hne
      obtain ⟨x, hrx, hx, hkx, hin⟩ := hi hne
      exact ⟨x, hrx, hx, hkx, hin.imp_left (Pool.mem_blocksOf_of_push env hpool)⟩

/-- A whole restoration. -/
theorem Restoring.all {c c' : ChainState} (h : Restoring env d p q c) (hr : c.restorePool env clock = .ok c') :
    Restoring env d p q c' ∧ ∀ j ∈ d.readBackupIds, Restored env d p j c' := by
  obtain ⟨hres, hall, _⟩ := foldlM_collects (P := Restoring env d p q) (R := fun x c => Restored env d p x.1 c)
    (fun s x t hx hs ht => by
      have hj : x.1 ∈ d.readBackupIds := by
        rw [h.disk] at hx
        exact List.mem_of_getElem? (List.mem_zipIdx_iff_getElem?.mp hx)
      obtain ⟨hres, hnow, hkeep⟩ := hs.step honly hok hn hlast htip hclock hj ht
      exact ⟨hres, hnow, fun y => hkeep y.1⟩) h hr
  refine ⟨hres, fun j hj => ?_⟩
  obtain ⟨k, hk⟩ := List.getElem?_of_mem hj
  refine hall (j, k) ?_
  rw [h.disk]
  exact List.mem_zipIdx_iff_getElem?.mpr hk

end Backup

end ChainState
end GruutMerger
