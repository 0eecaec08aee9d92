import GruutMerger.Footprint
import GruutMerger.StoredChain

/-!
# Runs of the block processor

One call of `handleMsgBlock` taken apart, runs of such calls, and what holds in
all of them as long as no height or time wraps: the pool is well linked, its
last block is the last of the blocks resolved so far, and these form a chain
from the genesis values.
-/
namespace GruutMerger

open ByteText KeyValue Fallible

variable (env : Env)

/-- Equal but for the caches. -/
def Pool.Recached (p p' : Pool) : Prop := ∃ link layer pos,
  p' = { p with cacheLink := link, cacheBlockLayer := layer, cachePos := pos }

def ChainState.Recached (c c' : ChainState) : Prop := c.pool.Recached c'.pool ∧ c'.layered = c.layered

theorem ChainState.Recached.refl (c : ChainState) : c.Recached c := ⟨⟨_, _, _, rfl⟩, rfl⟩

theorem Merger.recached_tryResolve {m m' : Merger} (h : m.tryResolveUnresolvedBlocksIf env = .ok m') :
    m.chain.Recached m'.chain := by
  obtain ⟨⟨⟨height, prevHash⟩, pool⟩, hq, h⟩ := bind_eq_ok.mp h
  have hpool : m.chain.pool.Recached pool := Pool.Queried.eq env (Or.inr (Or.inr ⟨_, hq⟩))
  simp only at h
  split at h
  all_goals
    cases h
    exact ⟨hpool, rfl⟩

/-- What the delivery of a block does to the pool and its storage: it is pushed,
and when it is linked the pool is resolved. -/
inductive ChainState.Delivers (now : Nat) (block : Block) (c c' : ChainState) (r : PushResult) : Prop where
  | kept {c₁ : ChainState} (hp : c.push env now block false = .ok (r, c₁)) (hl : r.linked = false)
      (hc : c₁.Recached c')
  | resolved {c₁ c₂ c₃ : ChainState} (hp : c.push env now block false = .ok (r, c₁))
      (hl : r.linked = true) (hq : c₁.Recached c₂) (hr : c₂.procResolvedBlocksIf env = .ok c₃)
      (hc : c₃.Recached c')

theorem Merger.delivers_of_processBlock {m m' : Merger} {now : Nat} {block : Block} {sender : Bytes}
    {r : PushResult} (h : m.processBlock env now block sender = .ok (r, m')) :
    m.chain.Delivers env now block m'.chain r := by
  obtain ⟨⟨result, c₁⟩, hp, h⟩ := bind_eq_ok.mp h
  -- a push that is not accepted reports no link
  have hunlinked : result.height = 0 ∨ result.duplicated = true → result.linked = false := by
    obtain ⟨a, hpool, _⟩ := (ChainState.push_eq_ok env).mp hp
    rcases Pool.push_cases env hpool with ⟨_, hr, _⟩ | ⟨_, hr, _⟩ | ⟨_, _, _, _, hlow, _, _, _, _, ha⟩
    · rw [hr]
      exact fun _ => rfl
    · rw [hr]
      exact fun _ => rfl
    · rw [ha.result]
      rintro (h0 | hd)
      · simp only at h0
        omega
      · cases hd
  simp only at h
  split at h
  · rename_i h0
    cases h
    exact .kept hp (hunlinked (Or.inl h0)) (.refl _)
  split at h
  · rename_i hd
    obtain ⟨m₁, ht, h⟩ := bind_eq_ok.mp h
    cases h
    exact .kept hp (hunlinked (Or.inr hd)) (Merger.recached_tryResolve env ht)
  obtain ⟨m₁, ha, h⟩ := bind_eq_ok.mp h
  obtain ⟨m₂, ht, h⟩ := bind_eq_ok.mp h
  cases h
  have hlast := Merger.recached_tryResolve env ht
  unfold announceIf at ha
  split at ha
  · rename_i hl
    cases ha
    exact .kept hp (by simpa using hl) hlast
  · rename_i hl
    obtain ⟨⟨link, pool⟩, hq, ha⟩ := bind_eq_ok.mp ha
    obtain ⟨c₃, hr, ha⟩ := bind_eq_ok.mp ha
    cases ha
    have hpool : c₁.Recached ⟨pool, c₁.layered⟩ := ⟨Pool.Queried.eq env (Or.inl ⟨_, hq⟩), rfl⟩
    exact .resolved hp (by simpa using hl) hpool hr hlast

/-- A call either rejects the message and leaves everything alone or delivers a block that
was read from it and passed the early check. -/
theorem Merger.handleMsgBlock_cases {m m' : Merger} {now : Nat} {body : Json} {r : PushResult}
    (h : m.handleMsgBlock env now body = .ok (r, m')) :
    (r = Pool.rejected ∧ m' = m) ∨ ∃ block, Block.initializeBody env body = .ok (some block) ∧ block.isValidEarly env = true ∧
      m.chain.Delivers env now block m'.chain r := by
  obtain ⟨block, hb, h⟩ := bind_eq_ok.mp h
  cases block with
  | none =>
    cases h
    exact Or.inl ⟨rfl, rfl⟩
  | some block =>
    simp only at h
    split at h
    · cases h
      exact Or.inl ⟨rfl, rfl⟩
    · rename_i hv
      exact Or.inr ⟨block, hb, by simpa using hv, delivers_of_processBlock env h⟩

/-- Calls one after the other, each in a state and with arguments that are
allowed; the calls are those that return. -/
inductive Merger.Run (allowed : Merger → Nat → Json → Prop) (m₀ : Merger) : Merger → Prop where
  | refl : Run allowed m₀ m₀
  | step {m m' : Merger} {now : Nat} {body : Json} {r : PushResult} (h : Run allowed m₀ m)
      (ha : allowed m now body) (hs : m.handleMsgBlock env now body = .ok (r, m')) : Run allowed m₀ m'

theorem Merger.Run.trans {allowed : Merger → Nat → Json → Prop} {m₀ m₁ m₂ : Merger}
    (h₁ : Merger.Run env allowed m₀ m₁) (h₂ : Merger.Run env allowed m₁ m₂) : Merger.Run env allowed m₀ m₂ := by
  induction h₂ with
  | refl => exact h₁
  | step _ ha hs ih => exact .step ih ha hs

theorem Merger.Run.mono {allowed allowed' : Merger → Nat → Json → Prop}
    (hle : ∀ m now body, allowed m now body → allowed' m now body) {m₀ m : Merger} (h : Merger.Run env allowed m₀ m) : Merger.Run env allowed' m₀ m := by
  induction h with
  | refl => exact .refl
  | step _ ha hs ih => exact .step ih (hle _ _ _ ha) hs

/-- No conversion wraps for the block that arrives. -/
def Merger.NoWrap (m : Merger) (now : Nat) (body : Json) : Prop :=
  ∀ block, Block.initializeBody env body = .ok (some block) → m.chain.pool.NoWrap now block.height

/-- The blocks that a log marks as resolved, oldest first. -/
def resolvedIn (log : List Event) : List Block :=
  log.filterMap fun
    | .resolved b => some b
    | _ => none

@[simp] theorem resolvedIn_append (l l' : List Event) : resolvedIn (l ++ l') = resolvedIn l ++ resolvedIn l' :=
  List.filterMap_append

@[simp] theorem resolvedIn_writes (ws : List DBWrite) : resolvedIn (ws.map .write) = [] := by
  simp [resolvedIn, List.filterMap_map]

@[simp] theorem resolvedIn_resolved (bs : List Block) : resolvedIn (bs.map .resolved) = bs := by
  simp [resolvedIn, List.filterMap_map]

theorem Storage.Touches.resolvedIn_eq {dbs : List DBType} {s s' : Storage} (h : s.Touches dbs s') :
    resolvedIn s'.log = resolvedIn s.log := by
  obtain ⟨ws, hlog, _⟩ := h
  rw [hlog]
  simp

namespace ChainState

/-- A resolved block is checked, and saved when it passes. -/
theorem saveResolved_cases {ls ls' : LayeredStorage} {e : UnresolvedBlock}
    (h : saveResolved env ls e = .ok ls') :
    (e.block.isValidLate env (getUserCert env ls) = .ok false ∧
      ls' = logEvent ls (.checked e.block false)) ∨
    (e.block.isValidLate env (getUserCert env ls) = .ok true ∧
      saveChecked env (logEvent ls (.checked e.block true)) e.block = .ok ls') := by
  obtain ⟨valid, hv, h⟩ := bind_eq_ok.mp h
  cases valid with
  | true => exact Or.inr ⟨hv, h⟩
  | false =>
    cases h
    exact Or.inl ⟨hv, rfl⟩

theorem saveChecked_eq_ok {ls ls' : LayeredStorage} {b : Block} (h : saveChecked env ls b = .ok ls') :
    ∃ answer storage, ls.storage.saveBlock env b.blockRaw (b.getBlockHeaderJson env)
      (.object (b.bodyFields env)) = (.ok answer, storage) ∧
      ls' = ({ ls with storage := storage }).moveToDiskLedger (b.getBlockIdB64 env) := by
  obtain ⟨body, hbody, h⟩ := bind_eq_ok.mp h
  obtain ⟨_, rfl⟩ := (Block.getBlockBodyJson_eq_ok env).mp hbody
  split at h
  · cases h
  · rename_i answer storage hsave
    cases h
    exact ⟨answer, storage, hsave, rfl⟩

theorem touches_saveChecked {ls ls' : LayeredStorage} {b : Block} (h : saveChecked env ls b = .ok ls') :
    ls.storage.Touches (.ledger :: Storage.commitOrder) ls'.storage := by
  obtain ⟨answer, storage, hsave, rfl⟩ := saveChecked_eq_ok env h
  have hblock := Storage.touches_saveBlock env ls.storage b.blockRaw (b.getBlockHeaderJson env)
    (.object (b.bodyFields env))
  rw [hsave] at hblock
  exact (hblock.mono (by simp)).trans
    ((LayeredStorage.touches_moveToDiskLedger _ _).mono (by simp))

theorem clean_saveChecked {ls ls' : LayeredStorage} {b : Block} (h : saveChecked env ls b = .ok ls') :
    ls'.storage.Clean := by
  obtain ⟨answer, storage, hsave, rfl⟩ := saveChecked_eq_ok env h
  obtain ⟨es, _, rfl⟩ := Storage.saveBlock_cases env hsave
  have hclean := Storage.clean_finishSave ls.storage es answer
  exact (LayeredStorage.touches_moveToDiskLedger _ _).clean (by decide) hclean

/-- What holds of storage in every turn, whatever the late checks say. -/
structure Saving (ls ls' : LayeredStorage) : Prop where
  clean : ls.storage.Clean → ls'.storage.Clean
  resolved : resolvedIn ls'.storage.log = resolvedIn ls.storage.log
  log : ls.storage.log <+: ls'.storage.log

theorem Saving.refl (ls : LayeredStorage) : Saving ls ls := ⟨id, rfl, List.prefix_refl _⟩

theorem Saving.trans {a b c : LayeredStorage} (h : Saving a b) (h' : Saving b c) : Saving a c :=
  ⟨fun hc => h'.clean (h.clean hc), h'.resolved.trans h.resolved, h.log.trans h'.log⟩

theorem saving_logEvent (ls : LayeredStorage) (b : Block) (valid : Bool) :
    Saving ls (logEvent ls (.checked b valid)) where
  clean h := h
  resolved := by
    rw [logEvent, resolvedIn_append]
    exact List.append_nil _
  log := List.prefix_append _ _

theorem saving_saveResolved {ls ls' : LayeredStorage} {e : UnresolvedBlock}
    (h : saveResolved env ls e = .ok ls') : Saving ls ls' := by
  rcases saveResolved_cases env h with ⟨_, rfl⟩ | ⟨_, hsave⟩
  · exact saving_logEvent ls e.block false
  · have ht := touches_saveChecked env hsave
    exact (saving_logEvent ls e.block true).trans
      ⟨fun _ => clean_saveChecked env hsave, ht.resolvedIn_eq, ht.log_extends⟩

theorem saving_foldlM {ls ls' : LayeredStorage} {es : List UnresolvedBlock}
    (h : es.foldlM (saveResolved env) ls = .ok ls') : Saving ls ls' :=
  foldlM_invariant (P := Saving ls) (fun _ _ _ _ hs ht => hs.trans (saving_saveResolved env ht)) (.refl ls) h

/-- The pool and the log after resolving, before anything is saved. -/
theorem getResolvedBlocks_eq (c : ChainState) : ∃ ws ds p, c.pool.Resolves env ws ds p ∧
    (c.getResolvedBlocks env).1 = ws ∧ (c.getResolvedBlocks env).2.1 = ds ∧
    (c.getResolvedBlocks env).2.2.pool = p ∧
    Storage.Touches [.blockBackup] (c.layered.storage.logResolved (ws.map (·.block)))
      (c.getResolvedBlocks env).2.2.layered.storage :=
  ⟨_, _, _, Pool.resolves_resolve env c.pool, rfl, rfl, rfl, Storage.touches_trimBackup _ _ _⟩

/-- `procResolvedBlocksIf` taken apart. -/
theorem procResolved_cases {c c' : ChainState} (h : c.procResolvedBlocksIf env = .ok c') :
    ∃ ws ds, c.pool.Resolves env ws ds c'.pool ∧ ∃ ls,
      Storage.Touches [.blockBackup] (c.layered.storage.logResolved (ws.map (·.block))) ls.storage ∧
      ls.memLedger = (c.layered.memLedger.filter fun r => decide (r.blockIdB64 ∉ ds)) ∧
      ws.foldlM (saveResolved env) ls = .ok c'.layered := by
  obtain ⟨layered, hf, h⟩ := bind_eq_ok.mp h
  cases h
  obtain ⟨ws, ds, p, hr, hws, hds, hp, ht⟩ := getResolvedBlocks_eq env c
  rw [hws] at hf
  refine ⟨ws, ds, ?_, _, ?_, ?_, hf⟩
  · rw [hp]
    exact hr
  · rw [LayeredStorage.storage_dropLedgers]
    exact ht
  · rw [LayeredStorage.memLedger_dropLedgers, hds]
    rfl

theorem lastTime_delivers {c c' : ChainState} {now : Nat} {block : Block} {r : PushResult}
    (hd : c.Delivers env now block c' r) : c'.pool.lastTime = c.pool.lastTime := by
  have hpush : ∀ {c₁ : ChainState}, c.push env now block false = .ok (r, c₁) →
      c₁.pool.lastTime = c.pool.lastTime := by
    intro c₁ hp
    obtain ⟨a, hpool, _⟩ := (push_eq_ok env).mp hp
    exact (Pool.sameLast_push env hpool).2.2.2
  have hcache : ∀ {a b : ChainState}, a.Recached b → b.pool.lastTime = a.pool.lastTime := by
    rintro a b ⟨⟨_, _, _, hp⟩, _⟩
    rw [hp]
  cases hd with
  | kept hp _ hc => rw [hcache hc, hpush hp]
  | resolved hp _ hq hr hc =>
    obtain ⟨_, _, hres, _⟩ := procResolved_cases env hr
    rw [hcache hc, hres.lastTime, hcache hq, hpush hp]

/-- A well-linked pool of received blocks on top of a chain of resolved ones. -/
structure Sane (c : ChainState) : Prop where
  ok : c.pool.Ok
  received : ∀ b ∈ Pool.blocksOf c.pool.blockPool, b.Received env
  clean : c.layered.storage.Clean
  linked : Linked (genesisTip env) (resolvedIn c.layered.storage.log)
  tip : c.pool.tip = tipOf (genesisTip env) (resolvedIn c.layered.storage.log)

theorem Sane.initial : Sane env (ChainState.initial env) where
  ok := trivial
  received := by simp [ChainState.initial, Pool.setPool, Pool.fresh, Pool.blocksOf]
  clean := fun _ _ => rfl
  linked := trivial
  tip := rfl

variable {env}

theorem Sane.recached {c c' : ChainState} (h : Sane env c) (hc : c.Recached c') : Sane env c' := by
  obtain ⟨⟨link, layer, pos, hp⟩, hl⟩ := hc
  refine ⟨?_, ?_, ?_, ?_, ?_⟩
  · rw [hp]
    exact h.ok
  · rw [hp]
    exact h.received
  · rw [hl]
    exact h.clean
  · rw [hl]
    exact h.linked
  · rw [hl, hp]
    exact h.tip

theorem Sane.push {c c' : ChainState} {now : Nat} {block : Block} {isRestore : Bool} {r : PushResult}
    (h : Sane env c) (hw : c.pool.NoWrap now block.height) (hb : block.Received env)
    (hp : c.push env now block isRestore = .ok (r, c')) : Sane env c' := by
  obtain ⟨a, hpool, _⟩ := (push_eq_ok env).mp hp
  have ht := touches_push env hp
  have hlast := Pool.sameLast_push env hpool
  refine ⟨h.ok.push env hw hpool, ?_, ht.clean (by decide) h.clean, ?_, ?_⟩
  · intro b hmem
    rcases Pool.mem_blocksOf_push env hpool hmem with rfl | hmem
    · exact hb
    · exact h.received b hmem
  · rw [ht.resolvedIn_eq]
    exact h.linked
  · rw [ht.resolvedIn_eq, ← h.tip, hlast.tip]

theorem Sane.procResolved {c c' : ChainState} (h : Sane env c) (hr : c.procResolvedBlocksIf env = .ok c') :
    Sane env c' := by
  obtain ⟨ws, ds, hres, ls, ht, _, hf⟩ := procResolved_cases env hr
  have hsave := saving_foldlM env hf
  obtain ⟨hlinked, htip⟩ := hres.linked h.ok
  have hlog : resolvedIn c'.layered.storage.log =
      resolvedIn c.layered.storage.log ++ ws.map (·.block) := by
    rw [hsave.resolved, ht.resolvedIn_eq, Storage.logResolved, resolvedIn_append, resolvedIn_resolved]
  rw [h.tip] at hlinked htip
  refine ⟨hres.ok h.ok, fun b hb => h.received b (hres.mem_blocksOf (Or.inr hb)),
    hsave.clean (ht.clean (by decide) h.clean), ?_, ?_⟩
  · rw [hlog]
    exact Trail.valid_append.mpr ⟨h.linked, hlinked⟩
  · rw [hlog, htip]
    exact (Trail.finish_append _ _ _ _).symm

theorem Sane.delivers {c c' : ChainState} {now : Nat} {block : Block} {r : PushResult} (h : Sane env c)
    (hw : c.pool.NoWrap now block.height) (hb : block.Received env)
    (hd : c.Delivers env now block c' r) : Sane env c' := by
  cases hd with
  | kept hp _ hc => exact (h.push hw hb hp).recached hc
  | resolved hp _ hq hr hc => exact (((h.push hw hb hp).recached hq).procResolved hr).recached hc

end ChainState

variable {env}

theorem Block.received_of_body {body : Json} {block : Block}
    (h : Block.initializeBody env body = .ok (some block)) : block.Received env := by
  obtain ⟨txs, _, h⟩ := bind_eq_ok.mp h
  exact ⟨_, txs, h⟩

theorem Merger.Run.sane {allowed : Merger → Nat → Json → Prop} {m₀ m : Merger}
    (hw : ∀ m now body, allowed m now body → m.NoWrap env now body) (h₀ : m₀.chain.Sane env)
    (h : Merger.Run env allowed m₀ m) : m.chain.Sane env := by
  induction h with
  | refl => exact h₀
  | step _ ha hs ih =>
    rcases Merger.handleMsgBlock_cases env hs with ⟨_, rfl⟩ | ⟨block, hb, _, hd⟩
    · exact ih
    · exact ih.delivers (hw _ _ _ ha block hb) (Block.received_of_body hb) hd

namespace Sample

/-- A delivery of a good row is a call of `handleMsgBlock`. -/
theorem deliver_eq_ok {rows : List Row} {now : Nat} {row : Nat} {r : Row} {s t : Merger} (hg : Good rows)
    (hn : now < 2 ^ 64) (htime : s.chain.pool.lastTime ≤ now) (hr : rows[row]? = some r)
    (hd : deliver rows now s row = .ok t) :
    Block.initializeBody (world rows) (message (r.block row)) = .ok (some (r.block row)) ∧
      s.chain.pool.NoWrap now (r.block row).height ∧
      (∃ res, s.handleMsgBlock (world rows) now (message (r.block row)) = .ok (res, t)) ∧
      t.chain.pool.lastTime ≤ now := by
  unfold deliver at hd
  rw [hr] at hd
  obtain ⟨⟨res, t'⟩, hp, rfl⟩ := map_eq_ok.mp hd
  obtain ⟨hs, hh, htx⟩ := hg.2 r (List.mem_of_getElem? hr)
  have hrow := tableOf_row hg hr
  have hmsg := handleMsgBlock_block now s hs (by omega) htx hrow
  have hinit := initializeBody_block hs (by omega) htx hrow
  rw [← Row.block] at hmsg hinit
  rw [hp] at hmsg
  refine ⟨hinit, noWrap_row hg hr hn htime, ⟨res, hmsg⟩, ?_⟩
  rcases Merger.handleMsgBlock_cases _ hmsg with ⟨_, rfl⟩ | ⟨b, _, _, hdel⟩
  · exact htime
  · rw [ChainState.lastTime_delivers _ hdel]
    exact htime

/-- Deliveries in a table of good rows are a run of `handleMsgBlock`, under any condition that
these calls meet. -/
theorem run_allowed {rows : List Row} {now : Nat} {order : List Nat} {m₀ m : Merger}
    {allowed : Merger → Nat → Json → Prop} (hg : Good rows) (hn : now < 2 ^ 64) (ht : m₀.chain.pool.lastTime ≤ now)
    (hallowed : ∀ (s : Merger) (row : Nat) (r : Row), rows[row]? = some r → s.chain.pool.NoWrap now (r.block row).height →
      Block.initializeBody (world rows) (message (r.block row)) = .ok (some (r.block row)) →
        allowed s now (message (r.block row)))
    (h : run rows now order m₀ = .ok m) : Merger.Run (world rows) allowed m₀ m := by
  refine (foldlM_invariant (P := fun s : Merger => Merger.Run (world rows) allowed m₀ s ∧ s.chain.pool.lastTime ≤ now)
    ?_ ⟨.refl, ht⟩ h).1
  rintro s row t _ ⟨hrun, htime⟩ hd
  cases hr : rows[row]? with
  | none =>
    rw [deliver, hr] at hd
    cases hd
    exact ⟨hrun, htime⟩
  | some r =>
    obtain ⟨hinit, hw, ⟨res, hmsg⟩, ht'⟩ := deliver_eq_ok hg hn htime hr hd
    exact ⟨.step hrun (hallowed s row r hr hw hinit) hmsg, ht'⟩

theorem run_is_run {rows : List Row} {now : Nat} {order : List Nat} {m₀ m : Merger} (hg : Good rows)
    (hn : now < 2 ^ 64) (ht : m₀.chain.pool.lastTime ≤ now) (h : run rows now order m₀ = .ok m) :
    Merger.Run (world rows) (Merger.NoWrap (world rows)) m₀ m := by
  refine run_allowed hg hn ht (fun s row r _ hw hinit b hb => ?_) h
  rw [hinit] at hb
  cases hb
  exact hw

end Sample
end GruutMerger
