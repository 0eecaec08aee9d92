import GruutMerger.ChainGap
import GruutMerger.MissingBlocks

/-!
# Catching up

A merger that starts on empty storage gets some block of a chain and asks for
the missing ones from below. Whatever is lost on the way, arrives twice or
overtakes something else, the merger goes on asking for the block above those it
can connect, and each exchange with a merger that carries the chain brings it
one block further, until it has resolved what the signatures allow and carries
the chain itself.
-/
namespace GruutMerger

open ByteText Fallible

namespace Merger

open ChainState

variable {env : Env} {cs ds : List Block} {m m' : Merger} {k : Nat}

variable (env cs) in
/-- One request for the block in the gap, if there is a gap. -/
def Asks (k top : Nat) (rs : List BlockRequest) : Prop :=
  if k < top then ∃ r, rs = [r] ∧ r.key = (k + 1, env.base64.encode (tipOf (genesisTip env) (cs.take k)).hash) ∧ r.hashB64 = []
  else rs = []

variable (env cs) in
/-- What holds while a merger catches up. -/
structure Catching (ds : List Block) (m : Merger) (k : Nat) : Prop where
  placed : Placed env cs ds m.chain k
  settled : Settled cs ds m.chain
  asks : Asks env cs k m.chain.pool.top m.requestList

theorem tryResolve_asks (hp : Placed env cs ds m.chain k) (hcs : Chain env cs) (hs : Settled cs ds m.chain)
    (hrs : m.requestList = [] ∨ k < m.chain.pool.top ∧ Asks env cs k m.chain.pool.top m.requestList)
    (h : m.tryResolveUnresolvedBlocksIf env = .ok m') : Catching env cs ds m' k := by
  obtain ⟨link, pool, hlink, hchain, _, hrequests⟩ := tryResolve_eq_ok h
  obtain ⟨pool', hlink'⟩ := hp.filling.lowest_link (continues_initial hcs) rfl hp.upto hp.steady.near hp.steady.inRange
    hp.position (hp.steady.lastHeight_lt hcs.toTame)
  rw [hlink] at hlink'
  cases hlink'
  have hq : m.chain.pool.Queried env pool := Or.inr (Or.inr ⟨_, hlink⟩)
  have htop : pool.top = m.chain.pool.top := by
    obtain ⟨_, _, _, hpool⟩ := Pool.Queried.eq env hq
    rw [hpool]
    rfl
  refine ⟨by rw [hchain]; exact hp.queried hq, by rw [hchain]; exact hs, ?_⟩
  rw [hchain, hrequests]
  simp only [htop]
  unfold Asks at hrs ⊢
  split
  · rename_i hgap
    rcases hrs with hnil | ⟨_, hasks⟩
    · rw [hnil, if_neg (by simp)]
      exact ⟨_, rfl, rfl, rfl⟩
    · rw [if_pos hgap] at hasks
      obtain ⟨r, hr, hkey, hhash⟩ := hasks
      rw [hr, if_pos (Or.inr ⟨r, by simp, hkey⟩)]
      exact ⟨r, rfl, hkey, hhash⟩
  · rename_i hgap
    rw [if_pos (Or.inl rfl)]
    exact hrs.resolve_right fun hlt => hgap hlt.1

/-- A new block closes the request for it and no other. -/
theorem Asks.filter {top k' : Nat} {rs : List BlockRequest} (h : Asks env cs k top rs) (hcs : Chain env cs) {b : Block}
    (hb : b ∈ cs) (hk : Upto cs ds k) (hk' : Upto cs (ds ++ [b]) k') :
    rs.filter (fun r => !answers env b r) = [] ∨
      k' < max top b.height ∧ Asks env cs k' (max top b.height) (rs.filter fun r => !answers env b r) := by
  unfold Asks at h ⊢
  split at h
  · rename_i hgap
    obtain ⟨r, rfl, hkey, hhash⟩ := h
    obtain ⟨hheight, hprev⟩ := Prod.mk.inj hkey
    have hat := (continues_initial hcs).at_height hb rfl
    by_cases hfills : b.height = k + 1
    · left
      rw [hfills, Nat.add_sub_cancel] at hat
      have hfollows : b.prevBlockHash = (tipOf (genesisTip env) (cs.take k)).hash := (Trail.Valid.at hcs.linked hat).2.1
      simp [answers, hheight, hfills, hhash, hprev, hfollows]
    · right
      have hsame : k' = k := by
        refine le_antisymm (hk'.mono ⟨hk.le, fun a ha => List.mem_append_left _ (hk.arrived a ha), fun a ha hmem => ?_⟩
          fun a ha => ha) (hk.mono hk' fun a ha => List.mem_append_left _ ha)
        rcases List.mem_append.mp hmem with hmem | hmem
        · exact hk.missing a ha hmem
        · obtain rfl := List.mem_singleton.mp hmem
          have := hcs.linked.height_at ha
          have htip : (genesisTip env).height = 0 := rfl
          omega
      have hopen : [r].filter (fun r => !answers env b r) = [r] := by
        have : r.height ≠ b.height := by omega
        simp [answers, this]
      have hlt : k < max top b.height := lt_of_lt_of_le hgap (le_max_left _ _)
      rw [hsame, hopen, if_pos hlt]
      exact ⟨hlt, r, rfl, hkey, hhash⟩
  · left
    rw [h]
    rfl

/-- Any block of the chain may arrive, at any time and again. -/
theorem Catching.processes (h : Catching env cs ds m k) (hcs : Chain env cs) {now : Nat} {b : Block} (hb : b ∈ cs)
    (hlate : (ChainState.initial env).pool.LateFor cs now) {sender : Bytes} {r : PushResult}
    (hp : m.processBlock env now b sender = .ok (r, m')) : ∃ k', k ≤ k' ∧ Catching env cs (ds ++ [b]) m' k' := by
  obtain ⟨c₁, hpush, hcases⟩ := processBlock_eq_ok hp
  by_cases hin : b ∈ ds
  · obtain ⟨rfl, hresult⟩ := h.placed.push_known hcs hb hin hpush
    have hsame : ∀ a, a ∈ ds ↔ a ∈ ds ++ [b] := by
      intro a
      rw [List.mem_append, List.mem_singleton]
      exact ⟨Or.inl, fun ha => ha.elim id fun heq => heq ▸ hin⟩
    have hplaced := h.placed.congr hsame
    have hsettled : Settled cs (ds ++ [b]) m.chain := fun hall => h.settled fun a ha => (hsame a).mpr (hall a ha)
    refine ⟨k, le_rfl, ?_⟩
    rcases hcases with ⟨_, rfl⟩ | ⟨_, htry⟩ | ⟨hheight, hdup, _⟩
    · exact ⟨hplaced, hsettled, h.asks⟩
    · refine tryResolve_asks hplaced hcs hsettled ?_ htry
      by_cases hgap : k < m.chain.pool.top
      · exact Or.inr ⟨hgap, h.asks⟩
      · have hasks := h.asks
        rw [Asks, if_neg hgap] at hasks
        exact Or.inl hasks
    · rcases hresult with hzero | htrue
      · exact absurd hzero hheight
      · exact absurd (hdup.symm.trans htrue) Bool.false_ne_true
  · obtain ⟨hheight, hdup, htop, hlinks, _, hpos, k', hk, hplaced⟩ := h.placed.push_new hcs hb hin hlate hpush
    rcases hcases with ⟨hzero, _⟩ | ⟨htrue, _⟩ | ⟨_, _, m₁, m₂, rfl, hfilter, _, ⟨hkept, _, hresolve⟩, htry⟩
    · exact absurd hzero hheight
    · exact absurd (hdup.symm.trans htrue) Bool.false_ne_true
    have hstate : Placed env cs (ds ++ [b]) m₂.chain k' ∧ Settled cs (ds ++ [b]) m₂.chain ∧
        m₂.chain.pool.top = max m.chain.pool.top b.height := by
      rw [← htop]
      rcases hresolve with ⟨hfalse, hchain⟩ | ⟨_, link, pool, hlink, hresolve⟩
      · rw [hchain]
        exact ⟨hplaced, fun hall => absurd (hfalse.symm.trans (hlinks hall)) Bool.false_ne_true, rfl⟩
      · have hq : m₁.chain.pool.Queried env pool := Or.inl ⟨_, hlink⟩
        obtain ⟨hplaced', hsettled, htop'⟩ := (hplaced.queried hq).procResolved hcs (hq.cachePos_isSome hpos) hresolve
        refine ⟨hplaced', hsettled, htop'.trans ?_⟩
        obtain ⟨_, _, _, hpool⟩ := Pool.Queried.eq env hq
        rw [hpool]
        rfl
    obtain ⟨hplaced', hsettled, htop'⟩ := hstate
    refine ⟨k', hk, tryResolve_asks hplaced' hcs hsettled ?_ htry⟩
    rw [hkept, hfilter, htop']
    exact h.asks.filter hcs hb h.placed.upto hplaced.upto

theorem Catching.initial (hm : m.chain = ChainState.initial env) (hr : m.requestList = []) : Catching env cs [] m 0 where
  placed := hm ▸ Placed.initial env cs
  settled hall := by
    obtain rfl : cs = [] := List.eq_nil_iff_forall_not_mem.mpr fun b hb => absurd (hall b hb) (List.not_mem_nil)
    rw [List.drop_nil]
    rfl
  asks := by
    have htop : ¬ 0 < m.chain.pool.top := by
      rw [hm]
      exact Nat.lt_irrefl 0
    rw [Asks, if_neg htop]
    exact hr

variable (env) in
/-- A request for a block, as the merger that gets it reads it. -/
structure Requests (body : Json) (c : Block) : Prop where
  height : Safe.getInt body "hgt" = .ok c.height
  prevHash : Safe.getBytesFromB64 env.base64 body "prevHash" = c.prevBlockHash
  hash : Safe.getBytesFromB64 env.base64 body "hash" = []

/-- The timer keeps what is asked for. -/
theorem Catching.timer (h : Catching env cs ds m k) (now : Nat) : Catching env cs ds (m.requestMissingBlock now).1 k := by
  refine ⟨h.placed, h.settled, ?_⟩
  change Asks env cs k m.chain.pool.top _
  have hasks := h.asks
  unfold Asks at hasks ⊢
  split at hasks
  · rename_i hgap
    obtain ⟨r, hr, hkey, hhash⟩ := hasks
    rw [if_pos hgap]
    refine ⟨if r.due now then r.retry now m.lastBlockSender else r, by simp [requestMissingBlock, hr], ?_⟩
    split
    · rw [BlockRequest.key_retry, BlockRequest.hashB64_retry]
      exact ⟨hkey, hhash⟩
    · exact ⟨hkey, hhash⟩
  · rename_i hgap
    rw [if_neg hgap]
    simp [requestMissingBlock, hasks]

theorem Catching.gap_at (h : Catching env cs ds m k) (hgap : k < m.chain.pool.top) : ∃ c, cs[k]? = some c := by
  have hle := h.placed.filling.top_le
  have hlen : k < cs.length := lt_of_lt_of_le hgap (hle.trans (by simp [ChainState.initial, Pool.setPool, Pool.fresh]))
  exact ⟨_, List.getElem?_eq_getElem hlen⟩

theorem requests_message (hcs : Chain env cs) {c : Block} (hc : cs[k]? = some c) {r : BlockRequest}
    (hkey : r.key = (k + 1, env.base64.encode (tipOf (genesisTip env) (cs.take k)).hash)) (hhash : r.hashB64 = [])
    (now : Nat) : Requests env (r.message env now).body c := by
  obtain ⟨hheight, hprev⟩ := Prod.mk.inj hkey
  have hmem := List.mem_of_getElem? hc
  have hc' : c.height = k + 1 := by
    have hat := hcs.linked.height_at hc
    have htip : (genesisTip env).height = 0 := rfl
    omega
  have hfollows : c.prevBlockHash = (tipOf (genesisTip env) (cs.take k)).hash := (Trail.Valid.at hcs.linked hc).2.1
  refine ⟨?_, ?_, ?_⟩
  · have htext : Safe.getInt (r.message env now).body "hgt" = Safe.parseDecimal (decimal r.height) := rfl
    rw [htext, hheight, ← hc', Safe.parseDecimal_decimal _ ((hcs.height_lt c hmem).trans (by decide))]
  · refine Safe.getBytesFromB64_encode ?_
    rw [hfollows, ← hprev]
    rfl
  · have htext : Safe.getStringOf (r.message env now).body "hash" = [] := hhash
    rw [Safe.getBytesFromB64, htext]
    rfl

/-- What the timer sends asks for the block in the gap. -/
theorem Catching.sent (h : Catching env cs ds m k) (hcs : Chain env cs) {now : Nat} {msg : OutputMsgEntry}
    (hsent : msg ∈ (m.requestMissingBlock now).2.map (BlockRequest.message env now)) :
    ∃ c, cs[k]? = some c ∧ Requests env msg.body c := by
  obtain ⟨r', hr', rfl⟩ := List.mem_map.mp hsent
  obtain ⟨r, hr, rfl⟩ := List.mem_map.mp hr'
  have hopen := (List.mem_filter.mp hr).1
  have hasks := h.asks
  unfold Asks at hasks
  split at hasks
  · rename_i hgap
    obtain ⟨r₀, hlist, hkey, hhash⟩ := hasks
    obtain rfl : r = r₀ := List.mem_singleton.mp (hlist ▸ hopen)
    obtain ⟨c, hc⟩ := h.gap_at hgap
    exact ⟨c, hc, requests_message hcs hc (by rw [BlockRequest.key_retry, hkey]) (by rw [BlockRequest.hashB64_retry, hhash]) now⟩
  · rw [hasks] at hopen
    cases hopen

theorem handle_chain (hcs : Chain env cs) {b : Block} (hb : b ∈ cs) {body : Json}
    (hbody : Block.initializeBody env body = .ok (some b)) (now : Nat) :
    m.handleMsgBlock env now body = m.processBlock env now b (Safe.getBytesFromB64 env.base64 body "mID") := by
  simp only [handleMsgBlock, hbody, bind, Except.bind, hcs.early b hb]
  rfl

/-- How far the exchange for one block has come. -/
inductive Phase where
  | idle
  | asked (msg : OutputMsgEntry)
  | replied (msg : OutputMsgEntry)

variable (env cs) in
/-- A merger that gets blocks of a chain in any order, some more than once, and calls its timer at any time. In
between, a request that the timer sends reaches a merger it is for, its answer comes back, and so one round after
another is completed. -/
inductive CatchRun (m₀ : Merger) : List Block → Nat → Phase → Merger → Prop
  | start : CatchRun m₀ [] 0 .idle m₀
  | timer {ds rounds phase m} (now : Nat) (h : CatchRun m₀ ds rounds phase m) :
      CatchRun m₀ ds rounds phase (m.requestMissingBlock now).1
  | arrives {ds rounds phase m now body b result m'} (h : CatchRun m₀ ds rounds phase m) (hb : b ∈ cs)
      (hbody : Block.initializeBody env body = .ok (some b)) (hlate : (ChainState.initial env).pool.LateFor cs now)
      (hs : m.handleMsgBlock env now body = .ok (result, m')) : CatchRun m₀ (ds ++ [b]) rounds phase m'
  | asks {ds rounds phase m now msg} (h : CatchRun m₀ ds rounds phase m)
      (hsent : msg ∈ (m.requestMissingBlock now).2.map (BlockRequest.message env now)) :
      CatchRun m₀ ds rounds (.asked msg) (m.requestMissingBlock now).1
  | answered {ds rounds m msg id peer now reply} (h : CatchRun m₀ ds rounds (.asked msg) m)
      (hto : msg.receivers = [] ∨ id ∈ msg.receivers) (hpeer : Carries env cs peer)
      (hr : peer.handleMsgReqBlock (env.asMerger id) now msg.body = .ok reply) :
      CatchRun m₀ ds rounds (.replied reply) m
  | received {ds rounds m reply now b result m'} (h : CatchRun m₀ ds rounds (.replied reply) m)
      (hbody : Block.initializeBody env reply.body = .ok (some b)) (hlate : (ChainState.initial env).pool.LateFor cs now)
      (hs : m.handleMsgBlock env now reply.body = .ok (result, m')) : CatchRun m₀ (ds ++ [b]) (rounds + 1) .idle m'

variable (env cs) in
/-- The block of the exchange under way is above all rounds so far and not above the gap. -/
def Phase.Sound (k rounds : Nat) : Phase → Prop
  | .idle => True
  | .asked msg => ∃ j c, rounds ≤ j ∧ j ≤ k ∧ cs[j]? = some c ∧ Requests env msg.body c
  | .replied reply => ∃ j c, rounds ≤ j ∧ j ≤ k ∧ cs[j]? = some c ∧ Block.initializeBody env reply.body = .ok (some c)

theorem Phase.Sound.mono {rounds k' : Nat} {phase : Phase} (h : phase.Sound env cs k rounds) (hk : k ≤ k') :
    phase.Sound env cs k' rounds := by
  cases phase with
  | idle => trivial
  | asked _ =>
    obtain ⟨j, c, hlow, hhigh, h⟩ := h
    exact ⟨j, c, hlow, hhigh.trans hk, h⟩
  | replied _ =>
    obtain ⟨j, c, hlow, hhigh, h⟩ := h
    exact ⟨j, c, hlow, hhigh.trans hk, h⟩

/-- A merger that carries the chain answers with the block asked for. -/
theorem Requests.answer (hcs : Chain env cs) {body : Json} {c : Block} (h : Requests env body c) (hc : c ∈ cs)
    {peer : Merger} (hpeer : Carries env cs peer) (id : Bytes) (now : Nat) :
    ∃ reply, peer.handleMsgReqBlock (env.asMerger id) now body = .ok reply ∧
      Block.initializeBody env reply.body = .ok (some c) :=
  ⟨_, (hpeer.asMerger id).answer (hcs.asMerger id) hc h.height h.prevHash h.hash now, hcs.initializeBody hc id _⟩

theorem CatchRun.catching (hcs : Chain env cs) {m₀ : Merger} (hm : m₀.chain = ChainState.initial env)
    (hr : m₀.requestList = []) {rounds : Nat} {phase : Phase} (hrun : CatchRun env cs m₀ ds rounds phase m) :
    ∃ k, rounds ≤ k ∧ Catching env cs ds m k ∧ phase.Sound env cs k rounds := by
  induction hrun with
  | start => exact ⟨0, le_rfl, .initial hm hr, trivial⟩
  | timer now _ ih =>
    obtain ⟨k, hk, h, hphase⟩ := ih
    exact ⟨k, hk, h.timer now, hphase⟩
  | arrives _ hb hbody hlate hs ih =>
    obtain ⟨k, hk, h, hphase⟩ := ih
    rw [handle_chain hcs hb hbody] at hs
    obtain ⟨k', hle, h'⟩ := h.processes hcs hb hlate hs
    exact ⟨k', hk.trans hle, h', hphase.mono hle⟩
  | asks _ hsent ih =>
    obtain ⟨k, hk, h, _⟩ := ih
    obtain ⟨c, hc, hreq⟩ := h.sent hcs hsent
    exact ⟨k, hk, h.timer _, k, c, hk, le_rfl, hc, hreq⟩
  | answered _ _ hpeer hanswer ih =>
    obtain ⟨k, hk, h, j, c, hlow, hhigh, hc, hreq⟩ := ih
    obtain ⟨reply, hreply, hbody⟩ := hreq.answer hcs (List.mem_of_getElem? hc) hpeer _ _
    rw [hanswer] at hreply
    cases hreply
    exact ⟨k, hk, h, j, c, hlow, hhigh, hc, hbody⟩
  | received _ hbody hlate hs ih =>
    obtain ⟨k, hk, h, j, c, hlow, hhigh, hc, hbody'⟩ := ih
    rw [hbody] at hbody'
    cases hbody'
    have hmem := List.mem_of_getElem? hc
    rw [handle_chain hcs hmem hbody] at hs
    obtain ⟨k', hle, h'⟩ := h.processes hcs hmem hlate hs
    -- the connected part now goes past the block that came
    have hpast : j < k' := by
      by_contra hnot
      obtain rfl : k' = j := by omega
      exact h'.placed.upto.missing _ hc (by simp)
    exact ⟨k', by omega, h', trivial⟩

variable (cs) in
/-- A merger at the end of the chain: nothing is asked for, everything that has enough signatures is resolved, in
order, and the rest of the chain is in the pool. -/
structure CaughtUp (m : Merger) : Prop where
  requests : m.requestList = []
  resolved : resolvedIn m.chain.layered.storage.log = cs.take (Pool.resolvedCount cs)
  pool : Pool.skeleton m.chain.pool.blockPool = Pool.chainBins (cs.drop (Pool.resolvedCount cs)) 0

theorem Catching.caughtUp (h : Catching env cs ds m k) (hcs : Chain env cs) (hall : ∀ c ∈ cs, c ∈ ds) :
    CaughtUp cs m := by
  have hfill := h.placed.filling
  have hk : k = cs.length := h.placed.upto.eq_length hall
  have htop : ¬ k < m.chain.pool.top := by
    intro hgap
    obtain ⟨c, hc⟩ := h.gap_at hgap
    exact h.placed.upto.missing c hc (hall c (List.mem_of_getElem? hc))
  have hasks := h.asks
  rw [Asks, if_neg htop] at hasks
  have hcount : m.chain.resolved.length = Pool.resolvedCount cs := by
    rw [hfill.count, h.settled hall, Nat.add_zero]
  have hskel := hfill.skeleton_full (continues_initial hcs) hall
  refine ⟨hasks, ?_, ?_⟩
  · rw [← hcount]
    conv_rhs => rw [hfill.split]
    exact List.take_left.symm
  · rw [hskel, hcount]
    simp [ChainState.initial, Pool.setPool, Pool.fresh]

variable (env cs) in
/-- The next round can be completed: the timer sends a request, every merger that it is for and that carries the chain
answers, and the answer is handled. -/
def Exchanges (m : Merger) (now : Nat) : Prop :=
  ∃ msg ∈ (m.requestMissingBlock now).2.map (BlockRequest.message env now),
    ∀ (id : Bytes) (peer : Merger) (t : Nat), (msg.receivers = [] ∨ id ∈ msg.receivers) → Carries env cs peer →
      ∃ reply, peer.handleMsgReqBlock (env.asMerger id) t msg.body = .ok reply ∧
        ∀ t', (ChainState.initial env).pool.LateFor cs t' →
          ∃ result m', (m.requestMissingBlock now).1.handleMsgBlock env t' reply.body = .ok (result, m')

theorem Catching.exchanges (h : Catching env cs ds m k) (hcs : Chain env cs) (hgap : k < m.chain.pool.top) {now : Nat}
    (hdue : ∀ r ∈ m.requestList, r.due now = true) : Exchanges env cs m now := by
  obtain ⟨c, hc⟩ := h.gap_at hgap
  have hmem := List.mem_of_getElem? hc
  have hasks := h.asks
  rw [Asks, if_pos hgap] at hasks
  obtain ⟨r, hr, hkey, hhash⟩ := hasks
  have hreq := requests_message hcs hc (r := r.retry now m.lastBlockSender) (by rw [BlockRequest.key_retry, hkey])
    (by rw [BlockRequest.hashB64_retry, hhash]) now
  refine ⟨_, List.mem_map_of_mem (List.mem_map_of_mem (List.mem_filter.mpr ⟨?_, hdue r ?_⟩)), ?_⟩
  · rw [hr]
    exact List.mem_singleton_self r
  · rw [hr]
    exact List.mem_singleton_self r
  intro id peer t _ hpeer
  obtain ⟨reply, hreply, hbody⟩ := hreq.answer hcs hmem hpeer id t
  refine ⟨reply, hreply, fun t' hlate => ?_⟩
  rw [handle_chain hcs hmem hbody]
  have hplaced := (h.timer now).placed
  have hrest := hplaced.filling.mem_rest hmem (hplaced.upto.missing c hc)
  obtain ⟨result, m', hprocess, _⟩ := processBlock_returns hplaced.steady hcs.toTame hmem (hcs.received c hmem)
    (hplaced.filling.admits (continues_initial hcs) hrest hlate).1 _
  exact ⟨result, m', hprocess⟩

theorem Catching.noWrap (h : Catching env cs ds m k) (hcs : Chain env cs) {now : Nat} {b : Block} (hb : b ∈ cs)
    (hlate : (ChainState.initial env).pool.LateFor cs now) : m.chain.pool.NoWrap now b.height := by
  have hlt := hcs.height_lt b hb
  have htime : m.chain.pool.lastTime ≤ now := by
    rw [h.placed.filling.time]
    exact hlate.1
  have hinterval : (b.height - m.chain.pool.lastHeight - 1) * bpInterval < 2 ^ 64 := by
    rw [bpInterval]
    omega
  exact ⟨htime, hlate.2.1, by omega, hinterval, Or.inr (by omega)⟩

/-- As long as no late check fails, what is resolved is in storage. -/
theorem CatchRun.represents (hcs : Chain env cs) {m₀ : Merger} (hm : m₀.chain = ChainState.initial env)
    (hr : m₀.requestList = []) {rounds : Nat} {phase : Phase} (hrun : CatchRun env cs m₀ ds rounds phase m)
    (hall : AllSaved m.chain.layered.storage.log) :
    Storage.Represents env m.chain.layered.storage.disk (resolvedIn m.chain.layered.storage.log) := by
  have hhandle : ∀ {ds rounds phase m now body b result m'}, CatchRun env cs m₀ ds rounds phase m → b ∈ cs →
      Block.initializeBody env body = .ok (some b) → (ChainState.initial env).pool.LateFor cs now →
      m.handleMsgBlock env now body = .ok (result, m') →
      (AllSaved m.chain.layered.storage.log →
        Storage.Represents env m.chain.layered.storage.disk (resolvedIn m.chain.layered.storage.log)) →
      AllSaved m'.chain.layered.storage.log →
      Storage.Represents env m'.chain.layered.storage.disk (resolvedIn m'.chain.layered.storage.log) := by
    intro ds rounds phase m now body b result m' hrun hb hbody hlate hs ih hall
    obtain ⟨k, _, h, _⟩ := hrun.catching hcs hm hr
    rcases Merger.handleMsgBlock_cases env hs with ⟨_, rfl⟩ | ⟨block, hblock, _, hd⟩
    · exact ih hall
    · rw [hbody] at hblock
      cases hblock
      exact ChainState.represents_delivers env h.placed.steady.sane (h.noWrap hcs hb hlate) (hcs.received b hb) ih hd hall
  induction hrun with
  | start =>
    rw [hm]
    exact Storage.Represents.empty env
  | timer _ _ ih => exact ih hall
  | arrives h hb hbody hlate hs ih => exact hhandle h hb hbody hlate hs ih hall
  | asks _ _ ih => exact ih hall
  | answered _ _ _ _ ih => exact ih hall
  | received h hbody hlate hs ih =>
    obtain ⟨_, _, _, j, c, _, _, hc, hbody'⟩ := h.catching hcs hm hr
    rw [hbody] at hbody'
    cases hbody'
    exact hhandle h (List.mem_of_getElem? hc) hbody hlate hs ih hall

theorem Catching.carries (h : Catching env cs ds m k) (hcs : Chain env cs) (hall : ∀ c ∈ cs, c ∈ ds)
    (hrep : Storage.Represents env m.chain.layered.storage.disk m.chain.resolved) : Carries env cs m := by
  have hfill := h.placed.filling
  obtain ⟨saved, hholds⟩ := h.placed.steady.holds
  have hsub : ∀ b ∈ saved, b ∈ cs := fun b hb => h.placed.steady.resolved b (hholds.sublist.subset hb)
  have hbegin : m.chain.resolved.Sublist cs := by
    conv_rhs => rw [hfill.split]
    exact List.sublist_append_left _ _
  have hid : (saved.map Block.blockId).Nodup := hcs.ids.sublist ((hholds.sublist.trans hbegin).map _)
  have hheights : (saved.map Block.height).Nodup := hcs.linked.nodup_height.sublist ((hholds.sublist.trans hbegin).map _)
  have hlength : cs.length < 2 ^ 31 := by
    cases hlast : cs.getLast? with
    | none =>
      rw [List.getLast?_eq_none_iff.mp hlast]
      decide
    | some c =>
      have hc := List.mem_of_getLast? hlast
      rw [List.getLast?_eq_getElem?] at hlast
      have hat := hcs.linked.height_at hlast
      have hlt := hcs.height_lt c hc
      have hpos := List.length_pos_of_mem hc
      omega
  have htop : m.chain.pool.lastHeight + m.chain.pool.blockPool.length ≤ cs.length :=
    hfill.top_le.trans (by simp [ChainState.initial, Pool.setPool, Pool.fresh])
  refine ⟨hfill.ok, ⟨by omega, by omega⟩, fun b hb => List.mem_of_mem_drop ((hfill.mem b).mp hb).2, fun c hc => ?_⟩
  have hsplit := hc
  rw [hfill.split] at hsplit
  rcases List.mem_append.mp hsplit with hresolved | hrest
  · right
    obtain ⟨hmem, hread⟩ := hholds.readBlock hrep (hcs.ids.sublist (hbegin.map _))
      (fun a ha b hb => hcs.sameTxs a (hbegin.subset ha) b (hbegin.subset hb))
      (fun b hb => hcs.time_lt b (hbegin.subset hb)) hresolved
    refine ⟨storageEmpty_of_saved hholds hid hheights (fun a ha => ?_) (List.ne_nil_of_mem hmem), hread⟩
    exact ⟨⟨(hcs.savable a (hsub a ha)).id_ne, hcs.time_lt a (hsub a ha), hcs.txTimes_lt a (hsub a ha)⟩,
      hcs.height_pos (hsub a ha)⟩
  · left
    exact (hfill.mem c).mpr ⟨hall c hc, hrest⟩

/-- The resolved blocks of a chain can be saved side by side. -/
theorem Catching.allSaved (h : Catching env cs ds m k) (hcs : Chain env cs)
    (hvalid : ∀ b, .checked b false ∉ m.chain.layered.storage.log) : AllSaved m.chain.layered.storage.log := by
  have hbegin : m.chain.resolved.Sublist cs := by
    conv_rhs => rw [h.placed.filling.split]
    exact List.sublist_append_left _ _
  exact ⟨hvalid, fun b hb => hcs.savable b (hbegin.subset hb), hcs.ids.sublist (hbegin.map _)⟩

/-- A merger that starts with nothing and asks mergers that carry a chain gets it: each completed round brings it at
least one block further, and as long as a block is missing below one that came, the next round can be completed. Once
all blocks came, nothing is asked for and the chain is resolved as far as its signatures allow; if no late check
failed, the merger then carries the chain itself. -/
theorem catch_up (hcs : Chain env cs) {m₀ : Merger} (hm : m₀.chain = ChainState.initial env) (hr : m₀.requestList = [])
    {rounds : Nat} {phase : Phase} (hrun : CatchRun env cs m₀ ds rounds phase m) :
    (∀ c ∈ cs, c.height ≤ rounds → c ∈ ds) ∧
      ((∃ c ∈ ds, ∃ b ∈ cs, b.height < c.height ∧ b ∉ ds) →
        ∀ now, (∀ r ∈ m.requestList, r.due now = true) → Exchanges env cs m now) ∧
      ((∀ c ∈ cs, c ∈ ds) → CaughtUp cs m ∧
        ((∀ b, .checked b false ∉ m.chain.layered.storage.log) → Carries env cs m)) := by
  obtain ⟨k, hk, h, _⟩ := hrun.catching hcs hm hr
  have hlow : ∀ c ∈ cs, c.height ≤ k → c ∈ ds := by
    intro c hc hle
    have hat := (continues_initial hcs).at_height hc rfl
    have hpos := hcs.height_pos hc
    exact h.placed.upto.arrived c (mem_take_of_getElem? hat (by omega))
  refine ⟨fun c hc hle => hlow c hc (hle.trans hk), ?_, fun hall => ⟨h.caughtUp hcs hall, fun hvalid => ?_⟩⟩
  · rintro ⟨c, hc, b, hb, hlt, hmissing⟩ now hdue
    refine h.exchanges hcs ?_ hdue
    have htop := h.placed.filling.top c hc
    have hbelow : k < b.height := by
      by_contra hnot
      exact hmissing (hlow b hb (not_lt.mp hnot))
    exact lt_of_lt_of_le (hbelow.trans hlt) htop
  · exact h.carries hcs hall (hrun.represents hcs hm hr (h.allSaved hcs hvalid))

end Merger

namespace Sample

theorem mem_tableOf {rows : List Row} {c : Block} (hc : c ∈ tableOf rows) :
    ∃ (row : Nat) (r : Row), rows[row]? = some r ∧ c = r.block row := by
  obtain ⟨⟨r, row⟩, hx, rfl⟩ := List.mem_map.mp hc
  exact ⟨row, r, (List.mem_zipIdx_iff_getElem?.mp hx), rfl⟩

theorem chain_chainRows : Chain (world chainRows) (tableOf chainRows) where
  ids := by decide
  savable := by decide
  time_lt := by decide
  height_lt := by decide
  fits := by decide
  certs := by
    have hnone : ∀ b ∈ tableOf chainRows, CertificateLedger.registeredBy (world chainRows) b = [] := by decide +kernel
    intro b hb entry hentry
    rw [hnone b hb] at hentry
    cases hentry
  room := by decide +kernel
  answers _ _ _ _ _ _ _ _ := ⟨_, rfl⟩
  linked := by decide +kernel
  received := by
    intro c hc
    have hg : Good chainRows := by decide +kernel
    obtain ⟨row, r, hr, rfl⟩ := mem_tableOf hc
    obtain ⟨hs, hh, htx⟩ := hg.2 r (List.mem_of_getElem? hr)
    exact Block.received_of_body (initializeBody_block hs (by omega) htx (tableOf_row hg hr))
  early := by
    intro c hc
    have hg : Good chainRows := by decide +kernel
    obtain ⟨row, r, hr, rfl⟩ := mem_tableOf hc
    have htx : GoodTxs r.txs := (hg.2 r (List.mem_of_getElem? hr)).2.2
    rw [Row.block]
    exact block_valid htx (tableOf chainRows)
  txTimes_lt := by decide
  sameTxs := by decide +kernel

theorem lateFor_chainRows : (ChainState.initial (world chainRows)).pool.LateFor (tableOf chainRows) 1000 := by
  refine ⟨by decide, by decide, by decide⟩

def blockOf (row : Fin 4) : Block := (chainRows.get row).block row

theorem tableOf_chainRows : tableOf chainRows = [0, 1, 2, 3].map blockOf := rfl

theorem blockOf_mem (row : Fin 4) : blockOf row ∈ tableOf chainRows :=
  tableOf_chainRows ▸ List.mem_map_of_mem (by revert row; decide)

/-- Deliveries in a row of four are a run without an exchange. -/
theorem catchRun_of_run {order : List (Fin 4)} {m : Merger}
    (h : run chainRows 1000 (order.map Fin.val) initial = .ok m) :
    Merger.CatchRun (world chainRows) (tableOf chainRows) initial (order.map blockOf) 0 .idle m := by
  have hg : Good chainRows := by decide +kernel
  induction order using List.reverseRecOn generalizing m with
  | nil =>
    cases h
    exact .start
  | append_singleton order row ih =>
    rw [run, List.map_append, List.foldlM_append] at h
    obtain ⟨m₁, hm₁, h⟩ := bind_eq_ok.mp h
    obtain ⟨m₂, hd, h⟩ := foldlM_cons_eq_ok.mp h
    cases h
    have hrun := ih hm₁
    obtain ⟨_, _, hcatching, _⟩ := hrun.catching chain_chainRows rfl rfl
    have htime : m₁.chain.pool.lastTime ≤ 1000 := by
      rw [hcatching.placed.filling.time]
      decide
    have hrow : chainRows[row.val]? = some (chainRows.get row) := List.getElem?_eq_getElem row.isLt
    obtain ⟨hinit, _, ⟨_, hs⟩, _⟩ := deliver_eq_ok hg (by decide) htime hrow hd
    rw [List.map_append]
    exact hrun.arrives (blockOf_mem row) hinit lateFor_chainRows hs

end Sample

open Sample in
/-- The last of four blocks arrives at one merger and all four at another, which then carries them; one exchange
between the two brings the first block. -/
theorem Merger.catch_up_chain : ∃ (peer m : Merger) (msg : OutputMsgEntry),
    run chainRows 1000 [0, 1, 2, 3] initial = .ok peer ∧ Carries (world chainRows) (tableOf chainRows) peer ∧
    run chainRows 1000 [3] initial = .ok m ∧ msg.receivers = [[9]] ∧
    msg ∈ (m.requestMissingBlock 1000).2.map (BlockRequest.message (world chainRows) 1000) ∧
    ∃ reply result m', peer.handleMsgReqBlock ((world chainRows).asMerger [9]) 1000 msg.body = .ok reply ∧
      (m.requestMissingBlock 1000).1.handleMsgBlock (world chainRows) 1000 reply.body = .ok (result, m') ∧
      ∃ ds, CatchRun (world chainRows) (tableOf chainRows) initial ds 1 .idle m' ∧ blockOf 0 ∈ ds := by
  have hpeer : okAnd (fun m : Merger => decide (AllSaved m.chain.layered.storage.log))
      (run chainRows 1000 (([0, 1, 2, 3] : List (Fin 4)).map Fin.val) initial) = true := by decide +kernel
  have hfirst : okAnd (fun m : Merger => decide (∀ r ∈ m.requestList, r.due 1000 = true) &&
      decide (∀ r ∈ (m.requestMissingBlock 1000).2, r.recvId = [9]))
      (run chainRows 1000 (([3] : List (Fin 4)).map Fin.val) initial) = true := by decide +kernel
  obtain ⟨peer, hpeerRun, hsaved⟩ := okAnd_eq_true.mp hpeer
  obtain ⟨m, hmRun, htest⟩ := okAnd_eq_true.mp hfirst
  simp only [Bool.and_eq_true, decide_eq_true_eq] at hsaved htest
  obtain ⟨_, _, hfull⟩ := Merger.catch_up chain_chainRows rfl rfl (catchRun_of_run hpeerRun)
  have hcarries := (hfull fun c hc => tableOf_chainRows ▸ hc).2 hsaved.valid
  have hrun := catchRun_of_run hmRun
  obtain ⟨_, hgap, _⟩ := Merger.catch_up chain_chainRows rfl rfl hrun
  have hmissing : ∃ c ∈ [blockOf 3], ∃ b ∈ tableOf chainRows, b.height < c.height ∧ b ∉ [blockOf 3] := by
    refine ⟨_, List.mem_singleton_self _, blockOf 0, blockOf_mem 0, by decide, fun hin => ?_⟩
    exact absurd (congrArg Block.height (List.mem_singleton.mp hin)) (by decide)
  obtain ⟨msg, hsent, hexchange⟩ := hgap hmissing 1000 htest.1
  have hreceivers : msg.receivers = [[9]] := by
    obtain ⟨r, hr, rfl⟩ := List.mem_map.mp hsent
    rw [BlockRequest.message, htest.2 r hr]
    rfl
  have hto : msg.receivers = [] ∨ [9] ∈ msg.receivers := Or.inr (by rw [hreceivers]; exact List.mem_singleton_self _)
  obtain ⟨reply, hreply, hhandle⟩ := hexchange [9] peer 1000 hto hcarries
  obtain ⟨result, m', hs⟩ := hhandle 1000 lateFor_chainRows
  have hreplied := (hrun.asks hsent).answered hto hcarries hreply
  obtain ⟨_, _, _, _, b, _, _, _, hbody⟩ := hreplied.catching chain_chainRows rfl rfl
  have hreceived := hreplied.received hbody lateFor_chainRows hs
  exact ⟨peer, m, msg, hpeerRun, hcarries, hmRun, hreceivers, hsent, reply, result, m', hreply, hs, _, hreceived,
    (Merger.catch_up chain_chainRows rfl rfl hreceived).1 (blockOf 0) (blockOf_mem 0) (by decide)⟩

end GruutMerger
