import GruutMerger.LongestChain
import GruutMerger.StoredBlocks

/-!
# The link of the longest chain

The link that is sent to others names the end of the longest chain. For a block
of the pool previous id and previous hash change places. For the last block
itself, the fields were set at the start, where the previous hash went into the
wrong one, or when it was resolved, where the time was left as it was.
-/
namespace GruutMerger

open ByteText Forest Fallible

variable (env : Env)

namespace Pool

variable {env}

theorem lastLink_push {p p' : Pool} {now : Nat} {block : Block} {r : PushResult} {a : Option Accepted}
    (h : p.push env now block = .ok (r, p', a)) : p'.lastLink = p.lastLink := by
  rcases push_cases env h with ⟨_, _, n, rfl⟩ | ⟨_, _, n, rfl⟩ | ⟨i, prev, acc, _, _, _, _, _, _, ha⟩
  · rfl
  · rfl
  · rw [ha.pool]
    rfl

theorem lastLink_advance {p : Pool} {w : UnresolvedBlock} (h : p.Ok) (hw : resolvable p.blockPool = some w) :
    (p.advance w).lastLink = { w.block.link with time := p.lastTime } := by
  obtain ⟨hid, hhash, _⟩ := h.follows hw
  simp only [lastLink, advance, Block.link, hid, hhash, tip]

theorem Resolves.lastLink {p p' : Pool} {ws : List UnresolvedBlock} {ds : List Bytes}
    (hr : Resolves env p ws ds p') (h : p.Ok) : p'.lastLink = match ws.getLast? with
      | none => p.lastLink
      | some w => { w.block.link with time := p.lastTime } := by
  induction hr with
  | stop _ => rfl
  | @step p p' w ws ds hw _ ih =>
    rw [ih (h.counted.advance hw)]
    cases hlast : ws.getLast? with
    | none =>
      rw [List.getLast?_eq_none_iff] at hlast
      subst hlast
      exact lastLink_advance h.counted hw
    | some w' =>
      rw [List.getLast?_cons, hlast]
      rfl

end Pool

namespace ChainState

/-- A run from the start on a stored link, with the blocks resolved since then. -/
inductive StartedRun (link : NthLink) : ChainState → List Block → Prop where
  | setPool (layered : LayeredStorage) : StartedRun link
      ⟨Pool.fresh.setPool link.id link.prevId link.hash link.prevHash link.height link.time, layered⟩ []
  | push {c c' : ChainState} {bs : List Block} {now : Nat} {block : Block} {isRestore : Bool} {r : PushResult}
      (h : StartedRun link c bs) (hw : c.pool.NoWrap now block.height)
      (hp : c.push env now block isRestore = .ok (r, c')) : StartedRun link c' bs
  | getResolvedBlocks {c : ChainState} {bs : List Block} (h : StartedRun link c bs) :
      StartedRun link (c.getResolvedBlocks env).2.2 (bs ++ (c.getResolvedBlocks env).1.map (·.block))
  | restorePool {c c' : ChainState} {bs : List Block} {clock : Nat → Nat} (h : StartedRun link c bs)
      (hw : ∀ b, InBackup env c.layered.storage.disk b → ∀ k, c.pool.NoWrap (clock k) b.height)
      (hr : c.restorePool env clock = .ok c') : StartedRun link c' bs
  | query {c : ChainState} {bs : List Block} {p : Pool} (h : StartedRun link c bs) (hq : c.pool.Queried env p) :
      StartedRun link { c with pool := p } bs
  | elsewhere {c : ChainState} {bs : List Block} (h : StartedRun link c bs) (layered : LayeredStorage) :
      StartedRun link { c with layered := layered } bs

/-- What the pool keeps as the link of its last block. -/
def keptLink (link : NthLink) (bs : List Block) : NthLink :=
  match bs.getLast? with
  | none => { link with prevId := link.prevHash, prevHash := [] }
  | some b => { b.link with time := link.time }

variable {env}

/-- The start on what is on disk is such a run. -/
theorem startedRun_start {clock : Nat → Nat} {disk : Records} {link : NthLink} {c : ChainState}
    (hl : disk.getNthBlockLinkInfo env 0 = .ok link)
    (hw : ∀ b, InBackup env disk b → ∀ k, Pool.NoWrap
      (Pool.fresh.setPool link.id link.prevId link.hash link.prevHash link.height link.time) (clock k) b.height)
    (h : start env clock disk = .ok c) : StartedRun env link c [] := by
  rw [start, hl] at h
  exact .restorePool (.setPool ⟨⟨disk, fun _ => [], []⟩, [], []⟩) hw h

theorem StartedRun.reachable {link : NthLink} {c : ChainState} {bs : List Block} (h : StartedRun env link c bs) :
    Reachable env c := by
  induction h with
  | setPool layered => exact .setPool layered _ _ _ _ _ _
  | push _ hw hp ih => exact ih.push hw hp
  | getResolvedBlocks _ ih => exact ih.getResolvedBlocks
  | restorePool _ hw hr ih => exact ih.restorePool hw hr
  | query _ hq ih => exact ih.query hq
  | elsewhere _ layered ih => exact ih.elsewhere layered

theorem StartedRun.lastLink {link : NthLink} {c : ChainState} {bs : List Block} (h : StartedRun env link c bs) :
    c.pool.lastLink = keptLink link bs := by
  induction h with
  | setPool layered => rfl
  | push _ _ hp ih =>
    obtain ⟨a, hpool, _⟩ := (push_eq_ok env).mp hp
    rw [Pool.lastLink_push hpool, ih]
  | @getResolvedBlocks c bs h ih =>
    have hlast := (Pool.resolves_resolve env c.pool).lastLink h.reachable.ok
    have htime : c.pool.lastTime = link.time := by
      have hkept := congrArg NthLink.time ih
      unfold keptLink at hkept
      split at hkept <;> exact hkept
    refine hlast.trans ?_
    simp only [keptLink, ChainState.getResolvedBlocks, List.getLast?_append, List.getLast?_map]
    cases (c.pool.resolve env).1.getLast? with
    | none => exact ih
    | some w =>
      rw [htime]
      rfl
  | @restorePool c c' bs clock _ hw hr ih =>
    rw [← ih]
    exact restorePool_invariant (P := fun p => p.lastLink = c.pool.lastLink)
      (fun hp _ hpush => (Pool.lastLink_push hpush).trans hp) rfl hw hr
  | query _ hq ih =>
    obtain ⟨_, _, _, rfl⟩ := hq.eq env
    exact ih
  | elsewhere _ layered ih => exact ih

/-- The link that is sent once nothing is remembered. -/
def Reports (c : ChainState) (link : NthLink) : Prop :=
  ∃ p', c.pool.invalidateCaches.getMostPossibleLink = .ok (link, p')

theorem reports_iff (env : Env) {c : ChainState} {link : NthLink} : c.Reports link ↔ c.pool.freshLink = .ok link := by
  have hclear : c.pool.invalidateCaches.Fresh env := Pool.fresh_invalidateCaches c.pool
  have hlink := hclear.getMostPossibleLink
  have hfresh : c.pool.invalidateCaches.freshLink = c.pool.freshLink := rfl
  rw [← hfresh, ← hlink, map_eq_ok]
  constructor
  · rintro ⟨p', hget⟩
    exact ⟨_, hget, rfl⟩
  · rintro ⟨⟨_, p'⟩, hget, rfl⟩
    exact ⟨p', hget⟩

/-- What is reported: the end of a longest chain with previous id and hash exchanged, or
the link that the pool keeps. -/
theorem StartedRun.reports {link : NthLink} {c : ChainState} {bs : List Block} (h : StartedRun env link c bs) :
    (c.pool.Longest [] ∧ ∀ l, c.Reports l ↔ l = keptLink link bs) ∨
      ∃ init b, c.pool.Longest (init ++ [b]) ∧
        ∀ l, c.Reports l ↔ l = { b.link with prevId := b.prevBlockHash, prevHash := b.prevBlockId } := by
  have hreach := h.reachable
  have hlast := h.lastLink
  simp only [reports_iff env, Pool.freshLink]
  generalize hpos : Pool.searchLongestPos c.pool.blockPool = pos
  rcases hreach.ok.longest hreach.near hpos with ⟨rfl, hnone⟩ | ⟨init, d, e, hfound, hnode, _, hlt, hidx, _⟩
  · refine Or.inl ⟨hnone, fun l => ?_⟩
    have hlink : Pool.linkAt c.pool.blockPool c.pool.lastLink (0, 0) = .ok c.pool.lastLink :=
      if_neg fun hn => Nat.not_lt_zero _ hn.1
    rw [hlink, ite_self, hlast, Except.ok.injEq, eq_comm]
  · refine Or.inr ⟨init, e.block, hfound, fun l => ?_⟩
    have hsome : c.pool.blockPool.isEmpty = false := by
      rw [List.isEmpty_eq_false_iff]
      rintro hnil
      simp [hnil] at hnode
    have hidx' : Pool.binIdx c.pool.lastLink.height pos.1 = d := hidx
    rw [hsome, if_neg Bool.false_ne_true, Pool.linkAt, hidx', if_pos ⟨hlt, by omega⟩, Int.toNat_natCast, hnode,
      Except.ok.injEq, eq_comm]
    rfl

end ChainState

/-- The link of a longest chain in the pool is reported exactly if the block at its end
names the same bytes as previous id and previous hash. With none in the pool, the stored
link is reported exactly if it has neither previous id nor previous hash, and that of the
last block resolved since the start exactly if its time is the time of the start; once
saved, that is what the storage reports of it. -/
theorem ChainState.reported_link {link : NthLink} {c : ChainState} {bs : List Block}
    (h : StartedRun env link c bs) :
    (¬ c.pool.Longest [] → ∃ init b, c.pool.Longest (init ++ [b]) ∧
      (c.Reports b.link ↔ b.prevBlockId = b.prevBlockHash)) ∧
    (c.pool.Longest [] →
      (bs = [] → (c.Reports link ↔ link.prevId = [] ∧ link.prevHash = [])) ∧
      ∀ b, bs.getLast? = some b → (c.Reports b.link ↔ b.time = link.time) ∧
        ∀ d, Storage.Stored env d b → Storage.Readable env b → b.height < 2 ^ 63 →
          d.getNthBlockIdB64 0 = b.getBlockIdB64 env → d.getNthBlockLinkInfo env 0 = .ok b.link) := by
  rcases h.reports with ⟨hnone, hreports⟩ | ⟨init, b, hfound, hreports⟩
  · refine ⟨fun hsome => absurd hnone hsome, fun _ => ⟨?_, fun b hb => ⟨?_, ?_⟩⟩⟩
    · rintro rfl
      rw [hreports, keptLink]
      constructor
      · intro heq
        have hprevHash : link.prevHash = [] := congrArg NthLink.prevHash heq
        exact ⟨(congrArg NthLink.prevId heq).trans hprevHash, hprevHash⟩
      · rintro ⟨hprevId, hprevHash⟩
        cases link
        simp_all
    · rw [hreports, keptLink, hb]
      constructor
      · intro heq
        exact congrArg NthLink.time heq
      · intro htime
        simp only [Block.link, ← htime]
    · intro d hstored hread hheight hid
      exact hstored.getNthBlockLinkInfo env hheight hread hid
  · refine ⟨fun _ => ⟨init, b, hfound, ?_⟩, fun hnone => ?_⟩
    · rw [hreports]
      constructor
      · intro heq
        exact congrArg NthLink.prevId heq
      · intro hsame
        simp only [Block.link, hsame]
    · have := hnone.length_eq hfound
      simp at this

namespace Sample

/-- What empty storage reports. -/
def noLink : NthLink := ⟨genesisBlockPrevId base, [], genesisBlockPrevHash base, [], 0, 0⟩

/-- The first blocks of a chain, on a merger that started on empty storage, and what their
ends name. -/
theorem started_chain (order : List Nat) (same : Bool)
    (hrun : okAnd (fun c : ChainState => decide (c.pool.lastHeight < (Pool.searchLongestPos c.pool.blockPool).1) &&
      (Pool.blocksOf c.pool.blockPool).all fun b => decide (b.height = (Pool.searchLongestPos c.pool.blockPool).1 →
        decide (b.prevBlockId = b.prevBlockHash) = same))
      (pushAll chainRows 1000 order initial.chain) = true) :
    ∃ c, ChainState.StartedRun (world chainRows) noLink c [] ∧ ¬ c.pool.Longest [] ∧
      ∀ init b, c.pool.Longest (init ++ [b]) → decide (b.prevBlockId = b.prevBlockHash) = same := by
  obtain ⟨c, hc, htest⟩ := okAnd_eq_true.mp hrun
  simp only [Bool.and_eq_true, decide_eq_true_eq, List.all_eq_true] at htest
  have hstart : ChainState.StartedRun (world chainRows) noLink c [] :=
    pushAll_invariant (P := fun c => ChainState.StartedRun (world chainRows) noLink c []) (by decide +kernel)
      (by decide) (fun hs hw hp => hs.push hw hp) (by decide) (.setPool ⟨Storage.empty, [], []⟩) hc
  have hreach := hstart.reachable
  refine ⟨c, hstart, fun hnone => ?_, fun init b hlongest => ?_⟩
  · have hheight := hreach.ok.height_of_longest hreach.near hnone
    rw [Nat.max_eq_right htest.1.le] at hheight
    exact absurd hheight htest.1.ne
  · refine htest.2 b (hlongest.1.1 b (by simp)) ?_
    have hheight := hreach.ok.height_of_longest hreach.near hlongest
    rw [Nat.max_eq_right htest.1.le, tipOf, Trail.finish_concat] at hheight
    exact hheight

end Sample

/-- The first block names the same bytes as previous id and hash. -/
theorem ChainState.reported_link_first : ∃ c, StartedRun (Sample.world Sample.chainRows) Sample.noLink c [] ∧
    ∃ init b, c.pool.Longest (init ++ [b]) ∧ c.Reports b.link := by
  obtain ⟨c, hstart, hsome, hsame⟩ := Sample.started_chain [0] true (by decide +kernel)
  obtain ⟨init, b, hlongest, hreports⟩ := (ChainState.reported_link _ hstart).1 hsome
  exact ⟨c, hstart, init, b, hlongest, hreports.mpr (of_decide_eq_true (hsame init b hlongest))⟩

/-- The second block does not, and its link is not reported. -/
theorem ChainState.reported_link_exchanged : ∃ c, StartedRun (Sample.world Sample.chainRows) Sample.noLink c [] ∧
    ∃ init b, c.pool.Longest (init ++ [b]) ∧ ¬ c.Reports b.link ∧
      c.Reports { b.link with prevId := b.prevBlockHash, prevHash := b.prevBlockId } := by
  obtain ⟨c, hstart, hsome, hsame⟩ := Sample.started_chain [0, 1] false (by decide +kernel)
  rcases hstart.reports with ⟨hnone, _⟩ | ⟨init, b, hlongest, hreports⟩
  · exact absurd hnone hsome
  · refine ⟨c, hstart, init, b, hlongest, fun hlink => ?_, (hreports _).mpr rfl⟩
    have hids : b.prevBlockId = b.prevBlockHash := congrArg NthLink.prevId ((hreports _).mp hlink)
    exact absurd hids (of_decide_eq_false (hsame init b hlongest))

end GruutMerger
