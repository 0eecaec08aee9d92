import GruutMerger.BlockRequests

/-!
# Requests for missing blocks

A timer sends the open requests again, each some seconds after its last attempt:
first to the merger that sent the last block, and after a few attempts to all.
An accepted block closes the requests it answers. Over any interleaving of
received blocks and timer calls the attempts for one block follow one another
in this way, and no request is lost before it is answered.
-/
namespace GruutMerger

open ByteText Fallible

variable (env : Env)

def brocProcessorReqWait : Nat := 3
def maxUnicastMissingBlock : Nat := 4

namespace BlockRequest

/-- A request is told by the block it asks for. -/
def key (r : BlockRequest) : Nat × Bytes := (r.height, r.prevHashB64)

/-- The request that the block processor opens for a block. -/
def opened (key : Nat × Bytes) : BlockRequest := ⟨[], key.2, key.1, [], 0, 0⟩

def due (now : Nat) (r : BlockRequest) : Bool :=
  decide (r.requestTime < now) && decide (brocProcessorReqWait + r.requestTime < now)

/-- The request as it is sent and kept. -/
def retry (now : Nat) (lastBlockSender : Bytes) (r : BlockRequest) : BlockRequest :=
  let r := { r with requestTime := now }
  let r := if r.numRetry ≤ maxUnicastMissingBlock ∧ r.recvId ≠ lastBlockSender then
    { r with recvId := lastBlockSender } else r
  let r := if maxUnicastMissingBlock < r.numRetry ∧ r.recvId ≠ [] then { r with recvId := [] } else r
  { r with numRetry := r.numRetry + 1 }

/-- Nobody in particular is everybody. -/
def message (now : Nat) (r : BlockRequest) : OutputMsgEntry where
  type := .reqBlock
  body := .object [("mID", .string (env.base64.encode env.myId)), ("time", .string (decimal now)), ("mCert", .string []),
    ("hgt", .string (decimal r.height)), ("prevHash", .string r.prevHashB64), ("hash", .string r.hashB64),
    ("mSig", .string [])]
  receivers := if r.recvId.isEmpty then [] else [r.recvId]

theorem due_iff {now : Nat} {r : BlockRequest} : r.due now = true ↔ brocProcessorReqWait + r.requestTime < now := by
  rw [due, Bool.and_eq_true, decide_eq_true_eq, decide_eq_true_eq, brocProcessorReqWait]
  omega

/-- What a further attempt changes: the time, the number and the receiver. -/
theorem retry_eq (now : Nat) (sender : Bytes) (r : BlockRequest) : r.retry now sender =
    { r with
      requestTime := now
      numRetry := r.numRetry + 1
      recvId := if r.numRetry ≤ maxUnicastMissingBlock then sender else [] } := by
  obtain ⟨hash, prevHash, height, recvId, time, n⟩ := r
  by_cases hn : n ≤ maxUnicastMissingBlock
  · have hlate : ¬ maxUnicastMissingBlock < n := by omega
    by_cases hs : recvId = sender
    · simp [retry, hn, hlate, hs]
    · simp [retry, hn, hlate, hs]
  · have hlate : maxUnicastMissingBlock < n := by omega
    by_cases hs : recvId = []
    · simp [retry, hn, hlate, hs]
    · simp [retry, hn, hlate, hs]

@[simp] theorem key_retry (now : Nat) (sender : Bytes) (r : BlockRequest) : (r.retry now sender).key = r.key := by
  rw [retry_eq]
  rfl

@[simp] theorem hashB64_retry (now : Nat) (sender : Bytes) (r : BlockRequest) :
    (r.retry now sender).hashB64 = r.hashB64 := by
  rw [retry_eq]

end BlockRequest

namespace Merger

/-- The timer of the block processor: what is kept, and what is sent this time. -/
def requestMissingBlock (now : Nat) (m : Merger) : Merger × List BlockRequest :=
  ({ m with requestList := m.requestList.map fun r =>
      if r.due now then r.retry now m.lastBlockSender else r },
   (m.requestList.filter (·.due now)).map (·.retry now m.lastBlockSender))

variable {env} {m m' : Merger}

/-- A look at what is missing asks the pool, and opens at most one request. -/
theorem tryResolve_eq_ok (h : m.tryResolveUnresolvedBlocksIf env = .ok m') : ∃ link pool,
    m.chain.pool.getUnresolvedLowestLink = .ok (link, pool) ∧ m'.chain = { m.chain with pool := pool } ∧
      m'.lastBlockSender = m.lastBlockSender ∧
      m'.requestList = if link.1 = 0 ∨ ∃ r ∈ m.requestList, r.key = (link.1, env.base64.encode link.2) then m.requestList
        else m.requestList ++ [.opened (link.1, env.base64.encode link.2)] := by
  obtain ⟨⟨⟨height, prevHash⟩, pool⟩, hlink, h⟩ := bind_eq_ok.mp h
  have hany : m.requestList.any (fun r => decide (r.height = height) &&
      decide (r.prevHashB64 = env.base64.encode prevHash)) = true ↔
      ∃ r ∈ m.requestList, r.key = (height, env.base64.encode prevHash) := by
    simp only [List.any_eq_true, Bool.and_eq_true, decide_eq_true_eq, BlockRequest.key, Prod.mk.injEq]
  refine ⟨_, pool, hlink, ?_⟩
  simp only [hany] at h
  split at h
  · rename_i hcond
    cases h
    exact ⟨rfl, rfl, (if_pos hcond).symm⟩
  · rename_i hcond
    cases h
    exact ⟨rfl, rfl, (if_neg hcond).symm⟩

/-- What is accepted and linked is announced, and then blocks may be resolved. -/
def Announces (env : Env) (linked : Bool) (m m' : Merger) : Prop :=
  m'.requestList = m.requestList ∧ m'.lastBlockSender = m.lastBlockSender ∧
    ((linked = false ∧ m'.chain = m.chain) ∨ (linked = true ∧ ∃ link pool, m.chain.pool.getMostPossibleLink = .ok (link, pool) ∧
      ({ m.chain with pool := pool } : ChainState).procResolvedBlocksIf env = .ok m'.chain))

theorem announceIf_eq_ok {linked : Bool} (h : m.announceIf env linked = .ok m') : Announces env linked m m' := by
  unfold announceIf at h
  cases linked with
  | false =>
    cases h
    exact ⟨rfl, rfl, Or.inl ⟨rfl, rfl⟩⟩
  | true =>
    obtain ⟨⟨link, pool⟩, hlink, h⟩ := bind_eq_ok.mp h
    obtain ⟨chain, hchain, h⟩ := bind_eq_ok.mp h
    cases h
    exact ⟨rfl, rfl, Or.inr ⟨rfl, link, pool, hlink, hchain⟩⟩

/-- The three ways through `processBlock`. -/
theorem processBlock_eq_ok {now : Nat} {b : Block} {sender : Bytes} {r : PushResult}
    (h : m.processBlock env now b sender = .ok (r, m')) : ∃ c₁, m.chain.push env now b false = .ok (r, c₁) ∧
    ((r.height = 0 ∧ m' = { m with chain := c₁ }) ∨
      (r.duplicated = true ∧ ({ m with chain := c₁ } : Merger).tryResolveUnresolvedBlocksIf env = .ok m') ∨
      r.height ≠ 0 ∧ r.duplicated = false ∧ ∃ m₁ m₂ : Merger, m₁.chain = c₁ ∧
        m₁.requestList = m.requestList.filter (fun r => !answers env b r) ∧ m₁.lastBlockSender = sender ∧
        Announces env r.linked m₁ m₂ ∧ m₂.tryResolveUnresolvedBlocksIf env = .ok m') := by
  obtain ⟨⟨result, c₁⟩, hp, h⟩ := bind_eq_ok.mp h
  simp only at h
  split at h
  · rename_i hzero
    cases h
    exact ⟨c₁, hp, Or.inl ⟨hzero, rfl⟩⟩
  rename_i hheight
  split at h
  · rename_i hdup
    obtain ⟨m₁, ht, h⟩ := bind_eq_ok.mp h
    cases h
    exact ⟨c₁, hp, Or.inr (Or.inl ⟨hdup, ht⟩)⟩
  rename_i hdup
  obtain ⟨m₁, ha, h⟩ := bind_eq_ok.mp h
  obtain ⟨m₂, ht, h⟩ := bind_eq_ok.mp h
  cases h
  have hannounces := announceIf_eq_ok ha
  exact ⟨c₁, hp, Or.inr (Or.inr ⟨hheight, eq_false_of_ne_true hdup,
    { m with
      chain := c₁
      requestList := m.requestList.filter fun r => !answers env b r
      lastBlockSender := sender },
    { m₁ with pendingTxIds := m₁.pendingTxIds.filter fun id => decide (id ∉ b.getTxIds) },
    rfl, rfl, rfl, hannounces, ht⟩)⟩

/-- The requests of a merger after a look at what is missing: at most one more, for a block
that was not asked for. -/
inductive Opens (before after : List BlockRequest) : Prop where
  | same (h : after = before)
  | opened (key : Nat × Bytes) (hnew : ∀ r ∈ before, r.key ≠ key) (h : after = before ++ [.opened key])

theorem tryResolve_requests (h : m.tryResolveUnresolvedBlocksIf env = .ok m') :
    Opens m.requestList m'.requestList ∧ m'.lastBlockSender = m.lastBlockSender := by
  obtain ⟨link, pool, _, _, hsender, hlist⟩ := tryResolve_eq_ok h
  refine ⟨?_, hsender⟩
  rw [hlist]
  split
  · exact .same rfl
  · rename_i hnone
    exact .opened _ (fun r hr hkey => hnone (Or.inr ⟨r, hr, hkey⟩)) rfl

/-- A call takes a block in: it was accepted, and not known before. -/
def Takes (result : PushResult) : Prop := result.height ≠ 0 ∧ result.duplicated = false

instance (result : PushResult) : Decidable (Takes result) := inferInstanceAs (Decidable (_ ∧ _))

/-- A block that is not taken in leaves the open requests open; one that is closes those it
answers. -/
theorem handleMsgBlock_requests {now : Nat} {body : Json} {result : PushResult}
    (h : m.handleMsgBlock env now body = .ok (result, m')) :
    (¬ Takes result ∧ Opens m.requestList m'.requestList ∧ m'.lastBlockSender = m.lastBlockSender) ∨
    (Takes result ∧ ∃ block, Block.initializeBody env body = .ok (some block) ∧
      Opens (m.requestList.filter fun r => !answers env block r) m'.requestList ∧
      m'.lastBlockSender = Safe.getBytesFromB64 env.base64 body "mID") := by
  obtain ⟨read, hread, h⟩ := bind_eq_ok.mp h
  cases read with
  | none =>
    cases h
    exact Or.inl ⟨fun ht => ht.1 rfl, .same rfl, rfl⟩
  | some block =>
    simp only at h
    split at h
    · cases h
      exact Or.inl ⟨fun ht => ht.1 rfl, .same rfl, rfl⟩
    obtain ⟨c₁, _, ⟨h0, rfl⟩ | ⟨hdup, ht⟩ | ⟨h0, hdup, m₁, m₂, _, hlist, hsender, ⟨hlist₂, hsender₂, _⟩, ht⟩⟩ :=
      processBlock_eq_ok h
    · exact Or.inl ⟨fun ht => ht.1 h0, .same rfl, rfl⟩
    · obtain ⟨hopens, hlast⟩ := tryResolve_requests ht
      exact Or.inl ⟨fun htakes => Bool.false_ne_true (htakes.2.symm.trans hdup), hopens, hlast⟩
    · obtain ⟨hopens, hlast⟩ := tryResolve_requests ht
      rw [hlist₂, hlist] at hopens
      exact Or.inr ⟨⟨h0, hdup⟩, block, hread, hopens, hlast.trans (hsender₂.trans hsender)⟩

end Merger

/-- What can be seen of the requests: an attempt, and a block that is taken in with its sender. -/
inductive RequestEvent where
  | sent (now : Nat) (request : BlockRequest)
  | took (block : Block) (sender : Bytes)

/-- Received blocks and timer calls in any order, with whatever else happens to the pool and
the storage in between. -/
inductive Merger.RequestRun (m₀ : Merger) : List RequestEvent → Merger → Prop where
  | start : RequestRun m₀ [] m₀
  | timer {trace : List RequestEvent} {m : Merger} (now : Nat) (h : RequestRun m₀ trace m) :
      RequestRun m₀ (trace ++ (m.requestMissingBlock now).2.map (.sent now)) (m.requestMissingBlock now).1
  | took {trace : List RequestEvent} {m m' : Merger} {now : Nat} {body : Json} {result : PushResult} {block : Block}
      (h : RequestRun m₀ trace m) (hs : m.handleMsgBlock env now body = .ok (result, m')) (ht : Merger.Takes result)
      (hb : Block.initializeBody env body = .ok (some block)) :
      RequestRun m₀ (trace ++ [.took block (Safe.getBytesFromB64 env.base64 body "mID")]) m'
  | passed {trace : List RequestEvent} {m m' : Merger} {now : Nat} {body : Json} {result : PushResult}
      (h : RequestRun m₀ trace m) (hs : m.handleMsgBlock env now body = .ok (result, m')) (ht : ¬ Merger.Takes result) :
      RequestRun m₀ trace m'
  | elsewhere {trace : List RequestEvent} {m m' : Merger} (h : RequestRun m₀ trace m)
      (hr : m'.requestList = m.requestList) (hl : m'.lastBlockSender = m.lastBlockSender) : RequestRun m₀ trace m'

namespace RequestEvent

/-- Time and number of the last attempt for a block, none if it was answered since. -/
def attemptAfter (key : Nat × Bytes) (last : Option (Nat × Nat)) : RequestEvent → Option (Nat × Nat)
  | .sent now r => if r.key = key then some (now, r.numRetry) else last
  | .took block _ => if Merger.answers env block (.opened key) then none else last

def lastAttempt (key : Nat × Bytes) (trace : List RequestEvent) : Option (Nat × Nat) :=
  trace.foldl (attemptAfter env key) none

/-- The sender of the last block taken in. -/
def senderAfter (last : Bytes) : RequestEvent → Bytes
  | .sent _ _ => last
  | .took _ sender => sender

def lastSender (first : Bytes) (trace : List RequestEvent) : Bytes := trace.foldl senderAfter first

variable {env}

theorem lastAttempt_append (key : Nat × Bytes) (trace more : List RequestEvent) :
    lastAttempt env key (trace ++ more) = more.foldl (attemptAfter env key) (lastAttempt env key trace) :=
  List.foldl_append

theorem lastSender_append (first : Bytes) (trace more : List RequestEvent) :
    lastSender first (trace ++ more) = more.foldl senderAfter (lastSender first trace) := List.foldl_append

/-- Attempts for other blocks change nothing for this one. -/
theorem attemptAfter_sents_other {key : Nat × Bytes} {now : Nat} {sents : List BlockRequest}
    (h : ∀ r ∈ sents, r.key ≠ key) (last : Option (Nat × Nat)) :
    (sents.map (.sent now)).foldl (attemptAfter env key) last = last := by
  induction sents with
  | nil => rfl
  | cons r rest ih =>
    rw [List.map_cons, List.foldl_cons, attemptAfter, if_neg (h r (by simp))]
    exact ih fun x hx => h x (List.mem_cons_of_mem _ hx)

theorem attemptAfter_sents {now : Nat} {sents : List BlockRequest} (hnd : (sents.map BlockRequest.key).Nodup)
    {r : BlockRequest} (hr : r ∈ sents) (last : Option (Nat × Nat)) :
    (sents.map (.sent now)).foldl (attemptAfter env r.key) last = some (now, r.numRetry) := by
  obtain ⟨front, back, rfl⟩ := List.append_of_mem hr
  rw [List.map_append, List.map_cons, List.nodup_append, List.nodup_cons] at hnd
  rw [List.map_append, List.map_cons, List.foldl_append, List.foldl_cons, attemptAfter, if_pos rfl]
  refine attemptAfter_sents_other (fun x hx heq => hnd.2.1.1 ?_) _
  rw [← heq]
  exact List.mem_map_of_mem hx

theorem senderAfter_sents (now : Nat) (sents : List BlockRequest) (last : Bytes) :
    (sents.map (.sent now)).foldl senderAfter last = last := by
  induction sents with
  | nil => rfl
  | cons r rest ih => exact ih

variable (env) in
/-- An attempt in its place: it is the first for its block, or it follows the last one by more
than the wait and carries the next number; up to the fifth it goes to the sender of the last
block, later ones go to nobody in particular. -/
structure InPlace (first : Bytes) (before : List RequestEvent) (now : Nat) (r : BlockRequest) : Prop where
  hash : r.hashB64 = []
  time : r.requestTime = now
  fresh : lastAttempt env r.key before = none → r.numRetry = 1
  next : ∀ t n, lastAttempt env r.key before = some (t, n) → t + brocProcessorReqWait < now ∧ r.numRetry = n + 1
  unicast : r.numRetry ≤ maxUnicastMissingBlock + 1 → r.recvId = lastSender first before
  broadcast : maxUnicastMissingBlock + 1 < r.numRetry → r.recvId = []

variable (env) in
/-- Every attempt of a trace is in its place. -/
def Disciplined (first : Bytes) (trace : List RequestEvent) : Prop :=
  ∀ before now r after, trace = before ++ .sent now r :: after → InPlace env first before now r

/-- A trace goes on in its discipline. -/
theorem Disciplined.append {first : Bytes} {trace more : List RequestEvent} (h : Disciplined env first trace)
    (hmore : ∀ before now r after, more = before ++ .sent now r :: after →
      InPlace env first (trace ++ before) now r) : Disciplined env first (trace ++ more) := by
  intro before now r after heq
  rcases List.append_eq_append_iff.mp heq with ⟨rest, rfl, hrest⟩ | ⟨rest, htrace, hrest⟩
  · exact hmore rest now r after hrest
  · cases rest with
    | nil =>
      rw [List.append_nil] at htrace
      have hat := hmore [] now r after hrest.symm
      rwa [List.append_nil, htrace] at hat
    | cons e rest =>
      obtain ⟨rfl, rfl⟩ := List.cons.inj hrest
      exact h before now r rest htrace

end RequestEvent

namespace Merger

open RequestEvent

variable {env}

/-- A list of requests is what the trace says is open. -/
structure Open (env : Env) (trace : List RequestEvent) (rs : List BlockRequest) : Prop where
  nodup : (rs.map BlockRequest.key).Nodup
  hash : ∀ r ∈ rs, r.hashB64 = []
  attempt : ∀ r ∈ rs, (lastAttempt env r.key trace).getD (0, 0) = (r.requestTime, r.numRetry)
  kept : ∀ key, (lastAttempt env key trace).isSome → ∃ r ∈ rs, r.key = key

variable {trace : List RequestEvent} {rs rs' : List BlockRequest}

theorem Open.opens (h : Open env trace rs) (ho : Opens rs rs') : Open env trace rs' := by
  cases ho with
  | same heq =>
    rw [heq]
    exact h
  | opened key hnew heq =>
    rw [heq]
    have hnone : lastAttempt env key trace = none := by
      by_contra hsome
      obtain ⟨r, hr, hkey⟩ := h.kept key (Option.isSome_iff_ne_none.mpr hsome)
      exact hnew r hr hkey
    refine ⟨?_, fun r hr => ?_, fun r hr => ?_, fun k hk => ?_⟩
    · rw [List.map_append, List.nodup_append]
      refine ⟨h.nodup, by simp, ?_⟩
      rintro a ha b hb rfl
      obtain ⟨r, hr, rfl⟩ := List.mem_map.mp ha
      exact hnew r hr (List.mem_singleton.mp hb)
    · rcases List.mem_append.mp hr with hr | hr
      · exact h.hash r hr
      · rw [List.mem_singleton.mp hr]
        rfl
    · rcases List.mem_append.mp hr with hr | hr
      · exact h.attempt r hr
      · rw [List.mem_singleton.mp hr]
        change (lastAttempt env key trace).getD (0, 0) = (0, 0)
        rw [hnone]
        rfl
    · obtain ⟨r, hr, hkey⟩ := h.kept k hk
      exact ⟨r, List.mem_append_left _ hr, hkey⟩

/-- Whether a block answers a request depends on what is asked for alone. -/
theorem answers_opened {block : Block} {r : BlockRequest} (h : r.hashB64 = []) :
    answers env block (.opened r.key) = answers env block r := by
  rw [answers, answers, h]
  rfl

/-- A block that is taken in closes what it answers. -/
theorem Open.took (h : Open env trace rs) (block : Block) (sender : Bytes) :
    Open env (trace ++ [.took block sender]) (rs.filter fun r => !answers env block r) := by
  have hlast (key : Nat × Bytes) : lastAttempt env key (trace ++ [.took block sender]) =
      if answers env block (.opened key) then none else lastAttempt env key trace := by
    rw [lastAttempt_append]
    rfl
  have hmem : ∀ r ∈ rs.filter (fun r => !answers env block r), r ∈ rs ∧ answers env block r = false := by
    intro r hr
    simpa using List.mem_filter.mp hr
  refine ⟨h.nodup.sublist (List.filter_sublist.map _), fun r hr => h.hash r (hmem r hr).1, fun r hr => ?_,
    fun key hkey => ?_⟩
  · obtain ⟨hin, hnot⟩ := hmem r hr
    rw [hlast, answers_opened (h.hash r hin), hnot, if_neg Bool.false_ne_true]
    exact h.attempt r hin
  · rw [hlast] at hkey
    split at hkey
    · cases hkey
    · rename_i hnot
      obtain ⟨r, hr, rfl⟩ := h.kept key hkey
      rw [answers_opened (h.hash r hr)] at hnot
      exact ⟨r, List.mem_filter.mpr ⟨hr, by simpa using hnot⟩, rfl⟩

section Timer

variable (h : Open env trace rs) (now : Nat) (sender : Bytes)

/-- What the timer sends of a list of requests. -/
def sentsOf (now : Nat) (sender : Bytes) (rs : List BlockRequest) : List BlockRequest :=
  (rs.filter (·.due now)).map (·.retry now sender)

include h

theorem Open.nodup_sents : ((sentsOf now sender rs).map BlockRequest.key).Nodup := by
  have hkeys : (sentsOf now sender rs).map BlockRequest.key = (rs.filter (·.due now)).map BlockRequest.key := by
    simp only [sentsOf, List.map_map, Function.comp_def, BlockRequest.key_retry]
  rw [hkeys]
  exact h.nodup.sublist (List.filter_sublist.map _)

/-- A request that is not due is not sent, nor is any other for its block. -/
theorem Open.not_sent {r : BlockRequest} (hr : r ∈ rs) (hdue : r.due now = false) :
    ∀ x ∈ sentsOf now sender rs, x.key ≠ r.key := by
  intro x hx hkey
  obtain ⟨y, hy, rfl⟩ := List.mem_map.mp hx
  obtain ⟨hin, hy⟩ := List.mem_filter.mp hy
  rw [BlockRequest.key_retry] at hkey
  rw [List.inj_on_of_nodup_map h.nodup hin hr hkey, hdue] at hy
  cases hy

/-- The attempt for a request, once the timer has sent what is due. -/
theorem Open.attempt_after {r : BlockRequest} (hr : r ∈ rs) :
    lastAttempt env r.key (trace ++ (sentsOf now sender rs).map (.sent now)) =
      if r.due now then some (now, r.numRetry + 1) else lastAttempt env r.key trace := by
  rw [lastAttempt_append]
  by_cases hdue : r.due now = true
  · have hin : r.retry now sender ∈ sentsOf now sender rs :=
      List.mem_map_of_mem (List.mem_filter.mpr ⟨hr, hdue⟩)
    have hsent := @attemptAfter_sents env now _ (h.nodup_sents now sender) _ hin
      (lastAttempt env r.key trace)
    rw [BlockRequest.key_retry] at hsent
    rw [hsent, if_pos hdue, BlockRequest.retry_eq]
  · rw [if_neg hdue]
    exact attemptAfter_sents_other (h.not_sent now sender hr (by simpa using hdue)) _

theorem Open.timer : Open env (trace ++ (sentsOf now sender rs).map (.sent now))
    (rs.map fun r => if r.due now then r.retry now sender else r) := by
  have hkey (r : BlockRequest) : (if r.due now then r.retry now sender else r).key = r.key := by
    split
    · exact BlockRequest.key_retry now sender r
    · rfl
  have hkeys : (rs.map fun r => if r.due now then r.retry now sender else r).map BlockRequest.key =
      rs.map BlockRequest.key := by
    simp only [List.map_map, Function.comp_def, hkey]
  refine ⟨by rw [hkeys]; exact h.nodup, fun r hr => ?_, fun r hr => ?_, fun key hsome => ?_⟩
  · obtain ⟨x, hx, rfl⟩ := List.mem_map.mp hr
    split
    · rw [BlockRequest.hashB64_retry]
      exact h.hash x hx
    · exact h.hash x hx
  · obtain ⟨x, hx, rfl⟩ := List.mem_map.mp hr
    rw [hkey, h.attempt_after now sender hx]
    split
    · rw [BlockRequest.retry_eq]
      rfl
    · exact h.attempt x hx
  · have hopen : ∃ r ∈ rs, r.key = key := by
      by_contra hnone
      rw [lastAttempt_append, attemptAfter_sents_other] at hsome
      · exact hnone (h.kept key hsome)
      · intro x hx hxkey
        obtain ⟨y, hy, rfl⟩ := List.mem_map.mp hx
        rw [BlockRequest.key_retry] at hxkey
        exact hnone ⟨y, (List.mem_filter.mp hy).1, hxkey⟩
    obtain ⟨r, hr, rfl⟩ := hopen
    exact ⟨_, List.mem_map_of_mem hr, hkey r⟩

/-- Each request that the timer sends is in its place after those sent before it. -/
theorem Open.inPlace {first : Bytes} (hsender : lastSender first trace = sender) {front back : List BlockRequest}
    {x : BlockRequest} (hsplit : sentsOf now sender rs = front ++ x :: back) :
    InPlace env first (trace ++ front.map (.sent now)) now x := by
  have hx : x ∈ sentsOf now sender rs := hsplit ▸ List.mem_append_right _ (List.mem_cons_self ..)
  obtain ⟨r, hr, rfl⟩ := List.mem_map.mp hx
  obtain ⟨hin, hdue⟩ := List.mem_filter.mp hr
  -- no other request of this call is for the same block
  have hnd := h.nodup_sents now sender
  rw [hsplit, List.map_append, List.map_cons, List.nodup_append] at hnd
  have hlast : lastAttempt env r.key (trace ++ front.map (.sent now)) = lastAttempt env r.key trace := by
    rw [lastAttempt_append]
    refine attemptAfter_sents_other (fun y hy hkey => ?_) _
    exact hnd.2.2 _ (List.mem_map_of_mem hy) _ (List.mem_cons_self ..) (by rw [hkey, BlockRequest.key_retry])
  have hfront : lastSender first (trace ++ front.map (.sent now)) = sender := by
    rw [lastSender_append, senderAfter_sents, hsender]
  have hattempt := h.attempt r hin
  rw [BlockRequest.due_iff] at hdue
  refine ⟨?_, ?_, fun hnone => ?_, fun t n hsome => ?_, fun hfew => ?_, fun hmany => ?_⟩
  · rw [BlockRequest.hashB64_retry]
    exact h.hash r hin
  · rw [BlockRequest.retry_eq]
  · rw [BlockRequest.key_retry, hlast] at hnone
    rw [hnone] at hattempt
    have hzero : 0 = r.numRetry := (Prod.mk.inj hattempt).2
    rw [BlockRequest.retry_eq, ← hzero]
  · rw [BlockRequest.key_retry, hlast] at hsome
    rw [hsome] at hattempt
    obtain ⟨htime, hcount⟩ := Prod.mk.inj hattempt
    rw [BlockRequest.retry_eq]
    simp only at htime hcount ⊢
    omega
  · rw [BlockRequest.retry_eq] at hfew ⊢
    rw [hfront]
    exact if_pos (by simp only at hfew; omega)
  · rw [BlockRequest.retry_eq] at hmany ⊢
    exact if_neg (by simp only at hmany; omega)

end Timer

theorem Open.disciplined {first : Bytes} (h : Open env trace rs) (hd : Disciplined env first trace) (now : Nat)
    {sender : Bytes} (hsender : lastSender first trace = sender) :
    Disciplined env first (trace ++ (sentsOf now sender rs).map (.sent now)) := by
  refine hd.append fun before t r after heq => ?_
  obtain ⟨front, rest, hsplit, rfl, hrest⟩ := List.map_eq_append_iff.mp heq
  obtain ⟨x, back, rfl, hx, rfl⟩ := List.map_eq_cons_iff.mp hrest
  obtain ⟨rfl, rfl⟩ := RequestEvent.sent.inj hx
  exact h.inPlace _ _ hsender hsplit

/-- What holds along every run: the attempts are in their places, and the open requests are
those that the trace says are open. -/
theorem RequestRun.discipline {m₀ m : Merger} (h₀ : m₀.requestList = []) (h : Merger.RequestRun env m₀ trace m) :
    Disciplined env m₀.lastBlockSender trace ∧ Open env trace m.requestList ∧
      m.lastBlockSender = lastSender m₀.lastBlockSender trace := by
  induction h with
  | start =>
    refine ⟨fun before now r after heq => ?_, ?_, rfl⟩
    · cases before <;> cases heq
    · rw [h₀]
      exact ⟨List.nodup_nil, by simp, by simp, fun key hkey => by cases hkey⟩
  | timer now _ ih =>
    obtain ⟨hd, ho, hs⟩ := ih
    refine ⟨ho.disciplined hd now hs.symm, ho.timer now _, ?_⟩
    rw [lastSender_append, senderAfter_sents]
    exact hs
  | @took trace m m' now body result block _ hcall ht hb ih =>
    obtain ⟨hd, ho, hs⟩ := ih
    rcases handleMsgBlock_requests hcall with ⟨hnot, _⟩ | ⟨_, b, hb', hopens, hsender⟩
    · exact absurd ht hnot
    · rw [hb] at hb'
      cases hb'
      refine ⟨hd.append fun before now r after heq => ?_, (ho.took block _).opens hopens, ?_⟩
      · rcases List.append_eq_singleton_iff.mp heq.symm with ⟨_, hcons⟩ | ⟨_, hcons⟩
        · cases hcons
        · cases hcons
      · rw [lastSender_append]
        exact hsender
  | passed _ hcall hnot ih =>
    obtain ⟨hd, ho, hs⟩ := ih
    rcases handleMsgBlock_requests hcall with ⟨_, hopens, hsender⟩ | ⟨ht, _⟩
    · exact ⟨hd, ho.opens hopens, hsender.trans hs⟩
    · exact absurd ht hnot
  | elsewhere _ hr hl ih =>
    rw [hr, hl]
    exact ih

/-- In every run from no open requests the attempts for each block are in their places, no
two open requests ask for the same block, a request that was sent stays open until a block
that answers it is taken in, and a timer call sends exactly the open requests whose last
attempt is longer ago than the wait. -/
theorem missing_blocks_requested {m₀ m : Merger} (h₀ : m₀.requestList = [])
    (h : Merger.RequestRun env m₀ trace m) :
    Disciplined env m₀.lastBlockSender trace ∧ (m.requestList.map BlockRequest.key).Nodup ∧
    (∀ key, (lastAttempt env key trace).isSome → ∃ r ∈ m.requestList, r.key = key) ∧
    ∀ now key, (∃ r ∈ (m.requestMissingBlock now).2, r.key = key) ↔ (∃ r ∈ m.requestList, r.key = key) ∧
      ((lastAttempt env key trace).getD (0, 0)).1 + brocProcessorReqWait < now := by
  obtain ⟨hd, ho, _⟩ := RequestRun.discipline h₀ h
  refine ⟨hd, ho.nodup, ho.kept, fun now key => ⟨?_, ?_⟩⟩
  · rintro ⟨x, hx, rfl⟩
    obtain ⟨r, hr, rfl⟩ := List.mem_map.mp hx
    obtain ⟨hin, hdue⟩ := List.mem_filter.mp hr
    rw [BlockRequest.key_retry, ho.attempt r hin]
    rw [BlockRequest.due_iff, Nat.add_comm] at hdue
    exact ⟨⟨r, hin, rfl⟩, hdue⟩
  · rintro ⟨⟨r, hr, rfl⟩, htime⟩
    rw [ho.attempt r hr, Nat.add_comm] at htime
    exact ⟨r.retry now m.lastBlockSender, List.mem_map_of_mem (List.mem_filter.mpr ⟨hr, BlockRequest.due_iff.mpr htime⟩),
      BlockRequest.key_retry _ _ _⟩

/-- The third block of a chain comes first: the first block is asked for, and four seconds
later again. -/
theorem missing_blocks_requested_again : ∃ trace m, Merger.RequestRun (Sample.world Sample.chainRows) Sample.initial trace m ∧
    Disciplined (Sample.world Sample.chainRows) [] trace ∧ (m.requestMissingBlock 1004).2.map BlockRequest.numRetry = [2] ∧
    ∃ key r, r ∈ (m.requestMissingBlock 1004).2 ∧ r.key = key ∧
      ((lastAttempt (Sample.world Sample.chainRows) key trace).getD (0, 0)).1 + brocProcessorReqWait < 1004 := by
  have hg : Sample.Good Sample.chainRows := by decide +kernel
  have hrow : Sample.chainRows[2]? = some ⟨[3], [2], Sample.hashOf 1, 3, [Sample.good 1, Sample.good 2, Sample.good 3],
    [Sample.digestTx]⟩ := rfl
  have hrun : okAnd (fun y => decide (Takes y.1) &&
      decide (((y.2.requestMissingBlock 1000).1.requestMissingBlock 1004).2.map BlockRequest.numRetry = [2]))
      (Sample.initial.processBlock (Sample.world Sample.chainRows) 1000
        (Sample.Row.block ⟨[3], [2], Sample.hashOf 1, 3, [Sample.good 1, Sample.good 2, Sample.good 3],
          [Sample.digestTx]⟩ 2) [9]) = true := by decide +kernel
  obtain ⟨⟨result, m⟩, hm, htest⟩ := okAnd_eq_true.mp hrun
  simp only [Bool.and_eq_true, decide_eq_true_eq] at htest
  have hmsg := Sample.handleMsgBlock_block 1000 Sample.initial (by decide) (by decide) (by decide +kernel)
    (Sample.tableOf_row hg hrow)
  have hinit := Sample.initializeBody_block (by decide) (by decide) (by decide +kernel) (Sample.tableOf_row hg hrow)
  rw [Sample.Row.block] at hm
  rw [hm] at hmsg
  have hfirst := RequestRun.timer 1000 (.took .start hmsg htest.1 hinit)
  obtain ⟨hd, _, _, hsent⟩ := missing_blocks_requested rfl hfirst
  obtain ⟨r, hr⟩ : ∃ r, r ∈ ((m.requestMissingBlock 1000).1.requestMissingBlock 1004).2 := by
    refine List.exists_mem_of_ne_nil _ fun hnil => ?_
    rw [hnil] at htest
    cases htest.2
  exact ⟨_, _, hfirst, hd, htest.2, r.key, r, hr, rfl, ((hsent 1004 r.key).mp ⟨r, hr, rfl⟩).2⟩

end Merger
end GruutMerger
