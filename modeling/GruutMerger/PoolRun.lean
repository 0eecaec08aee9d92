import GruutMerger.Resolve
import GruutMerger.Sample

/-!
# Runs of the pool

The states a pool can reach by any calls of its operations, with whatever the
rest of the merger does to storage and ledger in between, and the
representation invariant in all of them.
-/
namespace GruutMerger

open ByteText Forest Fallible

variable (env : Env)

/-- A query of the pool that leaves caches behind. -/
def Pool.Queried (p p' : Pool) : Prop :=
  (∃ link, p.getMostPossibleLink = .ok (link, p')) ∨
    (∃ layer, p.getMostPossibleBlockLayer env = .ok (layer, p')) ∨
    (∃ link, p.getUnresolvedLowestLink = .ok (link, p'))

namespace ChainState

/-- A block that the backup list and records give back. -/
def InBackup (d : Records) (b : Block) : Prop :=
  ∃ id ∈ d.readBackupIds, Block.deserialize env (d.readBackup (Safe.getString id)) = .ok (some b)

inductive Reachable : ChainState → Prop where
  | setPool (layered : LayeredStorage) (id prevId hash prevHash : Bytes) (height time : Nat) :
      Reachable ⟨Pool.fresh.setPool id prevId hash prevHash height time, layered⟩
  | push {c c' : ChainState} {now : Nat} {block : Block} {isRestore : Bool} {r : PushResult}
      (h : Reachable c) (hw : c.pool.NoWrap now block.height)
      (hp : c.push env now block isRestore = .ok (r, c')) : Reachable c'
  | getResolvedBlocks {c : ChainState} (h : Reachable c) : Reachable (c.getResolvedBlocks env).2.2
  | restorePool {c c' : ChainState} {clock : Nat → Nat} (h : Reachable c)
      (hw : ∀ b, InBackup env c.layered.storage.disk b → ∀ k, c.pool.NoWrap (clock k) b.height)
      (hr : c.restorePool env clock = .ok c') : Reachable c'
  | query {c : ChainState} {p : Pool} (h : Reachable c) (hq : c.pool.Queried env p) :
      Reachable { c with pool := p }
  | elsewhere {c : ChainState} (h : Reachable c) (layered : LayeredStorage) :
      Reachable { c with layered := layered }

end ChainState

namespace Pool

/-- The same last block. -/
def SameLast (p q : Pool) : Prop :=
  q.lastBlockId = p.lastBlockId ∧ q.lastHash = p.lastHash ∧ q.lastHeight = p.lastHeight ∧
    q.lastTime = p.lastTime

theorem SameLast.refl (p : Pool) : p.SameLast p := ⟨rfl, rfl, rfl, rfl⟩

theorem SameLast.trans {p q r : Pool} (h : p.SameLast q) (h' : q.SameLast r) : p.SameLast r :=
  ⟨h'.1.trans h.1, h'.2.1.trans h.2.1, h'.2.2.1.trans h.2.2.1, h'.2.2.2.trans h.2.2.2⟩

theorem SameLast.tip {p q : Pool} (h : p.SameLast q) : q.tip = p.tip := by
  rw [Pool.tip, Pool.tip, h.1, h.2.1, h.2.2.1]

theorem SameLast.noWrap {p q : Pool} (h : p.SameLast q) {now height : Nat} (hw : p.NoWrap now height) :
    q.NoWrap now height := by
  unfold NoWrap at hw ⊢
  rw [h.2.2.1, h.2.2.2]
  exact hw

theorem sameLast_push {p p' : Pool} {now : Nat} {block : Block} {r : PushResult} {a : Option Accepted}
    (h : p.push env now block = .ok (r, p', a)) : p.SameLast p' := by
  rcases push_cases env h with ⟨_, _, n, rfl⟩ | ⟨_, _, n, rfl⟩ | ⟨i, prev, acc, _, _, _, _, _, _, ha⟩
  · exact ⟨rfl, rfl, rfl, rfl⟩
  · exact ⟨rfl, rfl, rfl, rfl⟩
  · rw [ha.pool]
    exact ⟨rfl, rfl, rfl, rfl⟩

theorem getLongestBlockPos_snd (p : Pool) : ∃ pos, p.getLongestBlockPos.2 = { p with cachePos := pos } := by
  unfold Pool.getLongestBlockPos
  split
  · exact ⟨p.cachePos, rfl⟩
  · exact ⟨_, rfl⟩

/-- The queries cache what they computed, and a cached layer stays. -/
theorem Queried.cases {p p' : Pool} (h : p.Queried env p') :
    p' = p ∨ p' = p.getLongestBlockPos.2 ∨
      (p.cacheLink = none ∧ ∃ link, p.getMostPossibleLink.map Prod.fst = .ok link ∧
        (p' = { p with cacheLink := some link } ∨ p' = { p.getLongestBlockPos.2 with cacheLink := some link })) ∨
      (p.cacheBlockLayer = none ∧ ∃ ids, (p.getMostPossibleBlockLayer env).map Prod.fst = .ok ids ∧
        p' = { p.getLongestBlockPos.2 with cacheBlockLayer := some ids }) := by
  rcases h with ⟨link, h⟩ | ⟨ids, h⟩ | ⟨link, h⟩
  · have hfst : p.getMostPossibleLink.map Prod.fst = .ok link := by rw [h]; rfl
    unfold Pool.getMostPossibleLink at h
    split at h
    · cases h
      exact Or.inl rfl
    · rename_i hnone
      refine Or.inr (Or.inr (Or.inl ⟨hnone, link, hfst, ?_⟩))
      split at h
      · cases h
        exact Or.inl rfl
      · obtain ⟨l, _, h⟩ := bind_eq_ok.mp h
        cases h
        exact Or.inr rfl
  · have hfst : (p.getMostPossibleBlockLayer env).map Prod.fst = .ok ids := by rw [h]; rfl
    unfold Pool.getMostPossibleBlockLayer at h
    split at h
    · cases h
      exact Or.inl rfl
    · rename_i hnone
      obtain ⟨l, _, h⟩ := bind_eq_ok.mp h
      cases h
      exact Or.inr (Or.inr (Or.inr ⟨hnone, ids, hfst, rfl⟩))
  · refine Or.inr (Or.inl ?_)
    simp only [getUnresolvedLowestLink] at h
    repeat' split at h
    all_goals
      cases h
      try rfl

/-- A query changes nothing but caches. -/
theorem Queried.eq {p p' : Pool} (h : p.Queried env p') : ∃ link layer pos,
    p' = { p with cacheLink := link, cacheBlockLayer := layer, cachePos := pos } := by
  obtain ⟨pos, hsnd⟩ := p.getLongestBlockPos_snd
  rcases h.cases with h | h | ⟨_, _, _, h | h⟩ | ⟨_, _, _, h⟩
  all_goals
    try rw [hsnd] at h
    exact ⟨_, _, _, h⟩

theorem Ok.queried {p p' : Pool} (h : p.Ok) (hq : p.Queried env p') : p'.Ok := by
  obtain ⟨link, layer, pos, rfl⟩ := hq.eq env
  exact h

end Pool

namespace ChainState

/-- A push is the push of the pool, and for an accepted block its effects. -/
theorem push_eq_ok {c c' : ChainState} {now : Nat} {block : Block} {isRestore : Bool} {r : PushResult} :
    c.push env now block isRestore = .ok (r, c') ↔
      ∃ a, c.pool.push env now block = .ok (r, c'.pool, a) ∧
        match a with
        | none => c'.layered = c.layered
        | some a => applyAccepted env isRestore c.layered a = .ok c'.layered := by
  unfold push
  rw [bind_eq_ok]
  constructor
  · rintro ⟨⟨r', pool, a⟩, hp, h⟩
    cases a with
    | none =>
      cases h
      exact ⟨none, hp, rfl⟩
    | some a =>
      obtain ⟨ls, hls, h⟩ := bind_eq_ok.mp h
      cases h
      exact ⟨some a, hp, hls⟩
  · rintro ⟨a, hp, h⟩
    refine ⟨_, hp, ?_⟩
    cases a with
    | none =>
      simp only at h
      simp [← h]
    | some a => exact bind_eq_ok.mpr ⟨_, h, rfl⟩

theorem saveLedger_disk (s : LayeredStorage) (key : Bytes) (value : Value) (id : Bytes) :
    (s.saveLedger key value id).storage.disk = s.storage.disk := by
  unfold LayeredStorage.saveLedger
  split <;> rfl

/-- A ledger call only adds records to memory or to the batch. -/
theorem disk_of_forwardBlock {ls ls' : LayeredStorage} {f : Pool.Forward}
    (h : forwardBlock env ls f = .ok ls') : ls'.storage.disk = ls.storage.disk := by
  refine foldlM_invariant (P := fun s => s.storage.disk = ls.storage.disk) ?_ rfl h
  intro s x t _ hs ht
  obtain ⟨⟨count, number⟩, _, ht⟩ := bind_eq_ok.mp ht
  rw [← hs]
  simp only at ht
  split at ht
  · cases ht
    exact saveLedger_disk _ _ _ _
  · cases ht
    rw [saveLedger_disk, saveLedger_disk]

theorem disk_of_restoring {ls ls' : LayeredStorage} {a : Pool.Accepted}
    (h : applyAccepted env true ls a = .ok ls') : ls'.storage.disk = ls.storage.disk := by
  obtain ⟨storage, hs, h⟩ := bind_eq_ok.mp h
  cases hs
  obtain ⟨ls'', hf, h⟩ := bind_eq_ok.mp h
  cases h
  exact foldlM_invariant (P := fun s => s.storage.disk = ls.storage.disk)
    (fun s x t _ hs ht => (disk_of_forwardBlock env ht).trans hs) rfl hf

/-- One turn of restoring: nothing, or a push of a block from the backup. -/
theorem restoreOne_cases {c c' : ChainState} {now : Nat} {id : Json}
    (h : restoreOne env now c id = .ok c') :
    c' = c ∨ ∃ b r, Block.deserialize env (c.layered.storage.disk.readBackup (Safe.getString id)) =
      .ok (some b) ∧ c.push env now b true = .ok (r, c') := by
  unfold restoreOne at h
  simp only at h
  split at h
  · cases h
    exact Or.inl rfl
  split at h
  · cases h
    exact Or.inl rfl
  obtain ⟨b, hb, h⟩ := bind_eq_ok.mp h
  cases b with
  | none =>
    cases h
    exact Or.inl rfl
  | some b =>
    obtain ⟨⟨r, c''⟩, hp, h⟩ := bind_eq_ok.mp h
    cases h
    exact Or.inr ⟨b, r, hb, hp⟩

theorem disk_of_restore_push {c c' : ChainState} {now : Nat} {block : Block} {r : PushResult}
    (h : c.push env now block true = .ok (r, c')) :
    c'.layered.storage.disk = c.layered.storage.disk := by
  obtain ⟨a, _, ha⟩ := (push_eq_ok env).mp h
  cases a with
  | none => rw [ha]
  | some a => exact disk_of_restoring env ha

section Invariant

variable {env} {P : Pool → Prop}
  (hpush : ∀ {p p' : Pool} {now : Nat} {block : Block} {r : PushResult} {a : Option Pool.Accepted},
    P p → p.NoWrap now block.height → p.push env now block = .ok (r, p', a) → P p')

include hpush

theorem restorePool_invariant {c c' : ChainState} {clock : Nat → Nat} (h : P c.pool)
    (hw : ∀ b, InBackup env c.layered.storage.disk b → ∀ k, c.pool.NoWrap (clock k) b.height)
    (hr : c.restorePool env clock = .ok c') : P c'.pool := by
  -- pushes of restored blocks move neither the last block nor the disk
  refine (foldlM_invariant (P := fun s : ChainState => P s.pool ∧ c.pool.SameLast s.pool ∧
    s.layered.storage.disk = c.layered.storage.disk) ?_ ⟨h, .refl _, rfl⟩ hr).1
  rintro s ⟨id, k⟩ t hx ⟨hok, hlast, hdisk⟩ ht
  rcases restoreOne_cases env ht with rfl | ⟨b, r, hb, hp⟩
  · exact ⟨hok, hlast, hdisk⟩
  · obtain ⟨a, hpool, _⟩ := (push_eq_ok env).mp hp
    rw [hdisk] at hb
    have hin : InBackup env c.layered.storage.disk b :=
      ⟨id, List.mem_of_getElem? (List.mem_zipIdx_iff_getElem?.mp hx), hb⟩
    exact ⟨hpush hok (hlast.noWrap (hw b hin k)) hpool, hlast.trans (Pool.sameLast_push env hpool),
      (disk_of_restore_push env hp).trans hdisk⟩

/-- What a new pool has and every operation of the pool keeps holds in every reachable state. -/
theorem Reachable.invariant
    (hset : ∀ id prevId hash prevHash height time, P (Pool.fresh.setPool id prevId hash prevHash height time))
    (hresolve : ∀ {p : Pool}, P p → P (p.resolve env).2.2)
    (hquery : ∀ {p p' : Pool}, P p → p.Queried env p' → P p') {c : ChainState} (h : Reachable env c) :
    P c.pool := by
  induction h with
  | setPool layered id prevId hash prevHash height time => exact hset id prevId hash prevHash height time
  | push _ hw hp ih =>
    obtain ⟨a, hpool, _⟩ := (push_eq_ok env).mp hp
    exact hpush ih hw hpool
  | getResolvedBlocks _ ih => exact hresolve ih
  | restorePool _ hw hr ih => exact restorePool_invariant hpush ih hw hr
  | query _ hq ih => exact hquery ih hq
  | elsewhere _ layered ih => exact ih

end Invariant

/-- The representation invariant of the pool in every reachable state. -/
theorem Reachable.ok {c : ChainState} (h : Reachable env c) : c.pool.Ok :=
  h.invariant (fun hok hw hp => hok.push env hw hp) (fun _ _ _ _ _ _ => trivial)
    (fun hok => (Pool.resolves_resolve env _).ok hok) fun hok hq => hok.queried env hq

/-- Heights, hashes and parent indices of the pool, in every reachable state:
an entry of bin `i` has height `lastHeight + 1 + i`; hashes within a bin differ;
above the first bin the index is `k` exactly when entry `k` of the bin below is
the block named as previous, and -1 exactly when there is none; in the first
bin it says whether the entry names the last block. -/
theorem pool_representation {c : ChainState} (h : Reachable env c) :
    (∀ i, ∀ e ∈ c.pool.bin i, e.block.height = c.pool.lastHeight + 1 + i) ∧
    (∀ i, ((c.pool.bin i).map (·.block.blockHash)).Nodup) ∧
    (∀ i, ∀ e ∈ c.pool.bin (i + 1),
      (∀ k : Nat, e.prevVectorIdx = k ↔ ∃ parent, (c.pool.bin i)[k]? = some parent ∧
        parent.block.blockId = e.block.prevBlockId ∧ parent.block.blockHash = e.block.prevBlockHash) ∧
      (e.prevVectorIdx = -1 ↔ ∀ parent ∈ c.pool.bin i, ¬ (parent.block.blockId = e.block.prevBlockId ∧
        parent.block.blockHash = e.block.prevBlockHash))) ∧
    (∀ e ∈ c.pool.bin 0, e.prevVectorIdx =
      if e.block.prevBlockId = c.pool.lastBlockId ∧ e.block.prevBlockHash = c.pool.lastHash then 0
      else -1) := by
  have hok := h.ok
  refine ⟨fun i e he => hok.height_of_mem he, fun i => hok.nodup_hash i, fun i e he => ?_, fun e he => ?_⟩
  · rw [hok.link_of_mem he]
    constructor
    · intro k
      rw [Pool.linkIndex_eq_natCast (hok.nodup_hash i)]
      simp [Pool.namesPrev, Pool.bin]
    · rw [Pool.linkIndex_eq_neg_one]
      simp [Pool.namesPrev, Pool.bin]
  · rw [hok.root_of_mem he]
    simp [Pool.rootIndex, Pool.namesLast]

end ChainState
/-- Push the blocks of some rows. -/
def Sample.pushAll (rows : List Sample.Row) (now : Nat) (order : List Nat) (c : ChainState) :
    Except Failure ChainState :=
  order.foldlM (fun c row => match rows[row]? with
    | none => .ok c
    | some r => (c.push (Sample.world rows) now (r.block row) false).map (·.2)) c

theorem Sample.pushAll_invariant {P : ChainState → Prop} {rows : List Sample.Row} {now : Nat} {order : List Nat}
    {c c' : ChainState} (hg : Sample.Good rows) (hn : now < 2 ^ 64)
    (hpush : ∀ {s t : ChainState} {b : Block} {r : PushResult}, P s → s.pool.NoWrap now b.height →
      s.push (Sample.world rows) now b false = .ok (r, t) → P t)
    (ht : c.pool.lastTime ≤ now) (hc : P c) (h : Sample.pushAll rows now order c = .ok c') : P c' := by
  refine (foldlM_invariant (P := fun s : ChainState => P s ∧ s.pool.lastTime ≤ now) ?_ ⟨hc, ht⟩ h).1
  rintro s row t _ ⟨hs, htime⟩ hd
  split at hd
  · cases hd
    exact ⟨hs, htime⟩
  rename_i r hr
  obtain ⟨⟨res, t'⟩, hp, rfl⟩ := map_eq_ok.mp hd
  obtain ⟨a, hpool, _⟩ := (ChainState.push_eq_ok _).mp hp
  refine ⟨hpush hs (Sample.noWrap_row hg hr hn htime) hp, ?_⟩
  rw [(Pool.sameLast_push _ hpool).2.2.2]
  exact htime

theorem Sample.reachable_pushAll {rows : List Sample.Row} {now : Nat} {order : List Nat} {c c' : ChainState}
    (hg : Sample.Good rows) (hn : now < 2 ^ 64) (ht : c.pool.lastTime ≤ now)
    (hc : ChainState.Reachable (Sample.world rows) c) (h : Sample.pushAll rows now order c = .ok c') :
    ChainState.Reachable (Sample.world rows) c' :=
  Sample.pushAll_invariant hg hn (fun hs hw hp => hs.push hw hp) ht hc h

/-- A fork that arrives before its trunk, after one block is resolved. -/
theorem ChainState.pool_representation_fork : ∃ c, ChainState.Reachable (Sample.world Sample.forkRows) c ∧
    c.pool.lastHeight = 1 ∧ (c.pool.bin 0).length = 2 ∧
    ∀ e ∈ c.pool.bin 0, e.block.height = 2 ∧ e.prevVectorIdx = 0 := by
  have hrun : okAnd (fun c : ChainState =>
      decide ((c.getResolvedBlocks (Sample.world Sample.forkRows)).2.2.pool.lastHeight = 1) &&
      decide (((c.getResolvedBlocks (Sample.world Sample.forkRows)).2.2.pool.bin 0).length = 2) &&
      ((c.getResolvedBlocks (Sample.world Sample.forkRows)).2.2.pool.bin 0).all fun e =>
        decide (e.block.prevBlockId = (c.getResolvedBlocks (Sample.world Sample.forkRows)).2.2.pool.lastBlockId) &&
        decide (e.block.prevBlockHash = (c.getResolvedBlocks (Sample.world Sample.forkRows)).2.2.pool.lastHash))
      (Sample.pushAll Sample.forkRows 1000 [3, 4, 1, 0] Sample.initial.chain) = true := by decide +kernel
  obtain ⟨c, hc, htest⟩ := okAnd_eq_true.mp hrun
  simp only [Bool.and_eq_true, decide_eq_true_eq, List.all_eq_true] at htest
  obtain ⟨⟨hlast, hlen⟩, hnames⟩ := htest
  have hreach := (Sample.reachable_pushAll (by decide +kernel) (by decide) (by decide)
    (.setPool ⟨Storage.empty, [], []⟩ _ _ _ _ _ _) hc).getResolvedBlocks
  obtain ⟨hheight, _, _, hroot⟩ := ChainState.pool_representation _ hreach
  refine ⟨_, hreach, hlast, hlen, fun e he => ⟨?_, ?_⟩⟩
  · rw [hheight 0 e he, hlast]
  · rw [hroot e he, if_pos (hnames e he)]

end GruutMerger
