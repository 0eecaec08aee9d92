import GruutMerger.MergerRun
import GruutMerger.MessageValidator
import GruutMerger.BpScheduler
import GruutMerger.Sample

/-!
# The block synchroniser

At start the merger asks the others for their heights, then for the last block,
and notes for each height above its own whether a block of it came. When all are
there the synchronisation is over.
-/
namespace GruutMerger

open ByteText Fallible SortedTable

variable (env : Env)

inductive ExitCode where
  | normal | errorAbort | errorCommon | errorSyncAlone | errorSyncFail | errorSkipStage | blockHealthSkip
  | errorBlockHealthSkip
  deriving DecidableEq

structure OtherStatusData where
  hashB64 : Bytes
  height : Nat

structure BlockSynchronizer where
  merger : Merger
  linkFrom : NthLink
  syncFlags : List Bool
  /-- `m_chain_status`, by the text of the merger id -/
  chainStatus : List (Bytes × OtherStatusData)
  isSyncBegin : Bool
  isSyncDone : Bool
  /-- what `m_sync_finish_callback` was called with -/
  finished : Option ExitCode

/-- `BlockProcessor::handleMsgReqStatus` -/
def Merger.handleMsgReqStatus (now : Nat) (m : Merger) (body : Json) : Except Failure (Merger × OutputMsgEntry) := do
  let sender := Safe.getBytesFromB64 env.base64 body "mID"
  let myId := Json.string (env.base64.encode env.myId)
  if m.chain.pool.blockPool.isEmpty && (m.chain.layered.storage.disk.getText .blockLatest (ascii "bID")).isEmpty then
    return (m, ⟨.errorMsg, .object [("sender", myId), ("time", .string (decimal now)),
      ("type", .string (decimal ErrorMsgType.bsyncNoBlock.code)), ("info", .string (ascii "no block!"))], [sender]⟩)
  let (link, pool) ← m.chain.pool.getMostPossibleLink
  return ({ m with chain := { m.chain with pool := pool } },
    ⟨.resStatus, .object [("mID", myId), ("time", .string (decimal now)), ("mCert", .string []),
      ("hgt", .string (decimal link.height)), ("hash", .string (env.base64.encode link.hash)), ("mSig", .string [])],
      [sender]⟩)

namespace BlockSynchronizer

/-- `startBlockSync`: the link that the synchronisation starts from. -/
def startBlockSync (m : Merger) : Except Failure BlockSynchronizer := do
  let (link, pool) ← m.chain.pool.getMostPossibleLink
  return ⟨{ m with chain := { m.chain with pool := pool } }, link, [], [], false, false, none⟩

/-- Only the first call reaches the callback. -/
def syncFinish (s : BlockSynchronizer) (exitCode : ExitCode) : BlockSynchronizer :=
  { s with isSyncDone := true, finished := s.finished.or (some exitCode) }

def blockSyncControl (s : BlockSynchronizer) : BlockSynchronizer :=
  if s.isSyncDone || !s.isSyncBegin then s
  else if s.syncFlags.all id then s.syncFinish .normal else s

/-- `resize`, where the vector is shorter. -/
def growFlags (flags : List Bool) (size : Nat) : List Bool := flags ++ List.replicate (size - flags.length) false

/-- Note that a block of the height is there. -/
def noteHeight (s : BlockSynchronizer) (height : Nat) : BlockSynchronizer :=
  if 0 < height ∧ s.linkFrom.height < height then
    let size := height - s.linkFrom.height
    { s with syncFlags := (growFlags s.syncFlags size).set (size - 1) true }
  else s

/-- The first status of a merger counts, until the last block is asked for. -/
def collectingStatus (s : BlockSynchronizer) (body : Json) : Except Failure BlockSynchronizer :=
  if s.isSyncBegin then .ok s
  else do
    let mergerId := Safe.getStringOf body "mID"
    let height ← Safe.getSize (Safe.getStringOf body "hgt")
    if s.chainStatus.any fun e => e.1 = mergerId then return s
    return { s with chainStatus := upsert s.chainStatus mergerId ⟨Safe.getStringOf body "hash", height⟩ }

def checkMsgFromSigner (type : MessageType) : Bool :=
  decide (type = .join ∨ type = .response1 ∨ type = .leave)

def sendErrorToSigner (now : Nat) (body : Json) : List OutputMsgEntry :=
  let signerId := Safe.getBytesFromB64 env.base64 body "sID"
  if signerId = [] then []
  else [⟨.errorMsg, .object [("sender", .string (env.base64.encode env.myId)), ("time", .string (decimal now)),
    ("type", .string (decimal ErrorMsgType.mergerBootstrap.code)),
    ("info", .string (ascii "Merger is in bootstrapping. Please, wait."))], [signerId]⟩]

/-- A message taken from the input queue. -/
def messageFetch (now : Nat) (s : BlockSynchronizer) (type : MessageType) (body : Json) :
    Except Failure (BlockSynchronizer × List OutputMsgEntry) :=
  if s.isSyncDone then .ok (s, [])
  else
    let out := if checkMsgFromSigner type then sendErrorToSigner env now body else []
    match type with
    | .errorMsg =>
      if Safe.getStringOf body "type" = decimal ErrorMsgType.bsyncNoBlock.code then .ok (s.syncFinish .normal, out)
      else .ok (s, out)
    | .block => do
      let (result, merger) ← s.merger.handleMsgBlock env now body
      return (({ s with merger := merger }).noteHeight result.height, out)
    | .resStatus => do return (← s.collectingStatus body, out)
    | .reqStatus => do
      let (merger, reply) ← s.merger.handleMsgReqStatus env now body
      return ({ s with merger := merger }, out ++ [reply])
    | _ => .ok (s, out)

/-- The highest status, the first one of several. -/
def highest (status : List (Bytes × OtherStatusData)) : Bytes × OtherStatusData :=
  status.foldl (fun best e => if best.2.height < e.2.height then e else best) ([], ⟨[], 0⟩)

def requestMessage (now height : Nat) (hashB64 merger : Bytes) : OutputMsgEntry where
  type := .reqBlock
  body := .object [("mID", .string (env.base64.encode env.myId)), ("time", .string (decimal now)), ("mCert", .string []),
    ("hgt", .string (decimal height)), ("prevHash", .string []), ("hash", .string hashB64), ("mSig", .string [])]
  receivers := [merger]

def sendRequestLastBlock (now : Nat) (s : BlockSynchronizer) : BlockSynchronizer × List OutputMsgEntry :=
  let (mergerId, last) := highest s.chainStatus
  let request := requestMessage env now last.height last.hashB64 (env.base64.decode mergerId)
  if last.height = 0 then (s.syncFinish .errorSyncAlone, [])
  else if last.height < s.linkFrom.height ∨
      (s.linkFrom.height = last.height ∧ env.base64.encode s.linkFrom.hash = last.hashB64) then
    (s.syncFinish .normal, [])
  else if s.linkFrom.height = last.height then (s.syncFinish .normal, [request])
  else ({ s with syncFlags := growFlags s.syncFlags (last.height - s.linkFrom.height), isSyncBegin := true }, [request])

/-- A task of the synchroniser, or whatever else happens to the merger in between. -/
inductive SyncTask where
  | messageFetch (now : Nat) (type : MessageType) (body : Json)
  | sendRequestLastBlock (now : Nat)
  | blockSyncControl
  | elsewhere (merger : Merger)

def step (s : BlockSynchronizer) : SyncTask → Except Failure BlockSynchronizer
  | .messageFetch now type body => (s.messageFetch env now type body).map Prod.fst
  | .sendRequestLastBlock now => .ok (s.sendRequestLastBlock env now).1
  | .blockSyncControl => .ok s.blockSyncControl
  | .elsewhere merger => .ok { s with merger := merger }

def run (s : BlockSynchronizer) (ts : List SyncTask) : Except Failure BlockSynchronizer := ts.foldlM (step env) s

/-- The pool took a block of the height in, or knew it. -/
def Took (m : Merger) (now : Nat) (body : Json) (height : Nat) : Prop :=
  ∃ block r p a, Block.initializeBody env body = .ok (some block) ∧ block.height = height ∧
    m.chain.pool.push env now block = .ok (r, p, a) ∧ (a.isSome = true ∨ r.duplicated = true)

/-- Some message of a run, handled before it was over, brought a block of the height. -/
def Brought (s : BlockSynchronizer) (ts : List SyncTask) (height : Nat) : Prop :=
  ∃ before now body after t, ts = before ++ .messageFetch now .block body :: after ∧ run env s before = .ok t ∧
    t.isSyncDone = false ∧ Took env t.merger now body height

variable {env}

theorem handleMsgBlock_took {m m' : Merger} {now : Nat} {body : Json} {r : PushResult}
    (h : m.handleMsgBlock env now body = .ok (r, m')) (hr : 0 < r.height) : Took env m now body r.height := by
  rcases Merger.handleMsgBlock_cases env h with ⟨rfl, _⟩ | ⟨block, hb, _, hd⟩
  · cases hr
  · obtain ⟨c, hp⟩ : ∃ c, m.chain.push env now block false = .ok (r, c) := by
      cases hd with
      | kept hp _ _ => exact ⟨_, hp⟩
      | resolved hp _ _ _ _ => exact ⟨_, hp⟩
    obtain ⟨a, hpool, _⟩ := (ChainState.push_eq_ok env).mp hp
    rcases Pool.push_cases env hpool with ⟨_, rfl, _⟩ | ⟨_, rfl, _⟩ | ⟨_, _, acc, rfl, _, _, _, _, _, ha⟩
    · cases hr
    · exact ⟨block, _, _, _, hb, rfl, hpool, Or.inr rfl⟩
    · refine ⟨block, _, _, _, hb, ?_, hpool, Or.inl rfl⟩
      rw [ha.result]

variable (env) in
/-- What a task can do. -/
inductive Steps (s : BlockSynchronizer) (t : SyncTask) : BlockSynchronizer → Prop where
  | noted {now height : Nat} {body : Json} (merger : Merger) (ht : t = .messageFetch now .block body)
      (hopen : s.isSyncDone = false) (htook : Took env s.merger now body height) (hlow : s.linkFrom.height < height) : Steps s t
      { s with
        merger := merger
        syncFlags := (growFlags s.syncFlags (height - s.linkFrom.height)).set (height - s.linkFrom.height - 1) true }
  | begun {now : Nat} (ht : t = .sendRequestLastBlock now) : Steps s t
      { s with
        syncFlags := growFlags s.syncFlags ((highest s.chainStatus).2.height - s.linkFrom.height)
        isSyncBegin := true }
  | ended (exitCode : ExitCode) : Steps s t (s.syncFinish exitCode)
  | kept (merger : Merger) (status : List (Bytes × OtherStatusData)) (ht : ∀ now, t ≠ .sendRequestLastBlock now) :
      Steps s t { s with merger := merger, chainStatus := status }

variable {s s' : BlockSynchronizer}

theorem steps_messageFetch {now : Nat} {type : MessageType} {body : Json} {out : List OutputMsgEntry}
    (h : s.messageFetch env now type body = .ok (s', out)) : Steps env s (.messageFetch now type body) s' := by
  have hsame : Steps env s (.messageFetch now type body) s := .kept s.merger s.chainStatus fun _ ht => nomatch ht
  rw [messageFetch] at h
  split at h
  · cases h
    exact hsame
  rename_i hopen
  simp only at h
  split at h
  · split at h
    · cases h
      exact .ended .normal
    · cases h
      exact hsame
  · obtain ⟨⟨r, merger⟩, hr, h⟩ := bind_eq_ok.mp h
    cases h
    rw [noteHeight]
    split
    · rename_i hheight
      exact .noted merger rfl (by simpa using hopen) (handleMsgBlock_took hr hheight.1) hheight.2
    · exact .kept merger s.chainStatus fun _ ht => nomatch ht
  · obtain ⟨t, ht, h⟩ := bind_eq_ok.mp h
    cases h
    unfold collectingStatus at ht
    split at ht
    · cases ht
      exact hsame
    · obtain ⟨height, _, ht⟩ := bind_eq_ok.mp ht
      split at ht
      · cases ht
        exact hsame
      · cases ht
        exact .kept s.merger _ fun _ ht => nomatch ht
  · obtain ⟨⟨merger, reply⟩, _, h⟩ := bind_eq_ok.mp h
    cases h
    exact .kept merger s.chainStatus fun _ ht => nomatch ht
  · cases h
    exact hsame

theorem steps {t : SyncTask} (h : s.step env t = .ok s') : Steps env s t s' := by
  cases t with
  | messageFetch now type body =>
    obtain ⟨⟨s₁, out⟩, hm, rfl⟩ := map_eq_ok.mp h
    exact steps_messageFetch hm
  | sendRequestLastBlock now =>
    cases h
    rw [sendRequestLastBlock]
    simp only
    split
    · exact .ended .errorSyncAlone
    split
    · exact .ended .normal
    split
    · exact .ended .normal
    · exact .begun rfl
  | blockSyncControl =>
    cases h
    rw [blockSyncControl]
    have hsame : Steps env s .blockSyncControl s := .kept s.merger s.chainStatus fun _ ht => nomatch ht
    split
    · exact hsame
    split
    · exact .ended .normal
    · exact hsame
  | elsewhere merger =>
    cases h
    exact .kept merger s.chainStatus fun _ ht => nomatch ht

theorem length_growFlags (flags : List Bool) (size : Nat) :
    flags.length ≤ (growFlags flags size).length ∧ size ≤ (growFlags flags size).length := by
  rw [growFlags, List.length_append, List.length_replicate]
  omega

theorem getElem?_growFlags {flags : List Bool} {size i : Nat} (h : (growFlags flags size)[i]? = some true) :
    flags[i]? = some true := by
  rw [growFlags, List.getElem?_append] at h
  split at h
  · exact h
  · rw [List.getElem?_replicate] at h
    split at h <;> cases h

theorem Steps.length_le {t : SyncTask} (h : Steps env s t s') : s.syncFlags.length ≤ s'.syncFlags.length := by
  cases h with
  | noted merger ht hopen htook hlow =>
    rw [List.length_set]
    exact (length_growFlags _ _).1
  | begun ht => exact (length_growFlags _ _).1
  | ended exitCode => exact le_rfl
  | kept merger status ht => exact le_rfl

theorem Steps.done {t : SyncTask} (h : Steps env s t s') (hd : s.isSyncDone = true) : s'.isSyncDone = true := by
  cases h with
  | noted merger ht hopen htook hlow => exact hd
  | begun ht => exact hd
  | ended exitCode => rfl
  | kept merger status ht => exact hd

theorem run_nil : run env s [] = .ok s' ↔ s' = s := foldlM_nil_eq_ok

theorem run_append {ts us : List SyncTask} :
    run env s (ts ++ us) = .ok s' ↔ ∃ t, run env s ts = .ok t ∧ run env t us = .ok s' := foldlM_append_eq_ok

theorem run_cons {t : SyncTask} {ts : List SyncTask} :
    run env s (t :: ts) = .ok s' ↔ ∃ s₁, s.step env t = .ok s₁ ∧ run env s₁ ts = .ok s' := foldlM_cons_eq_ok

/-- A run never takes back what it noted, nor that it is over. -/
theorem run_mono {ts : List SyncTask} (h : run env s ts = .ok s') :
    s.syncFlags.length ≤ s'.syncFlags.length ∧ (s.isSyncDone = true → s'.isSyncDone = true) := by
  induction ts generalizing s with
  | nil =>
    obtain rfl := run_nil.mp h
    exact ⟨le_rfl, id⟩
  | cons t ts ih =>
    obtain ⟨s₁, hs₁, hrest⟩ := run_cons.mp h
    obtain ⟨hlen, hdone⟩ := ih hrest
    exact ⟨(steps hs₁).length_le.trans hlen, fun hd => hdone ((steps hs₁).done hd)⟩

theorem Brought.concat {ts : List SyncTask} {t : SyncTask} {height : Nat} (h : Brought env s ts height) :
    Brought env s (ts ++ [t]) height := by
  obtain ⟨before, now, body, after, u, rfl, hrun, hopen, htook⟩ := h
  exact ⟨before, now, body, after ++ [t], u, by simp, hrun, hopen, htook⟩

variable (env) in
/-- What holds after a run: each flag stands for a height above the first link. -/
structure Synced (s₀ : BlockSynchronizer) (ts : List SyncTask) (s : BlockSynchronizer) : Prop where
  link : s.linkFrom = s₀.linkFrom
  flags : ∀ i, s.syncFlags[i]? = some true → Brought env s₀ ts (s₀.linkFrom.height + 1 + i)
  begun : s.isSyncBegin = true → ∃ now, .sendRequestLastBlock now ∈ ts
  notOver : s.isSyncDone = false → s.finished = none

theorem Synced.step {s₀ : BlockSynchronizer} {ts : List SyncTask} {t : SyncTask} (h : Synced env s₀ ts s)
    (hrun : run env s₀ ts = .ok s) (ht : Steps env s t s') : Synced env s₀ (ts ++ [t]) s' := by
  have hflags : ∀ i, s.syncFlags[i]? = some true → Brought env s₀ (ts ++ [t]) (s₀.linkFrom.height + 1 + i) :=
    fun i hi => (h.flags i hi).concat
  have hbegun : s.isSyncBegin = true → ∃ now, .sendRequestLastBlock now ∈ ts ++ [t] := by
    intro hb
    obtain ⟨now, hin⟩ := h.begun hb
    exact ⟨now, List.mem_append_left _ hin⟩
  cases ht with
  | @noted now height body merger ht hopen htook hlow =>
    refine ⟨h.link, fun i hi => ?_, hbegun, h.notOver⟩
    rw [List.getElem?_set] at hi
    split at hi
    · -- the flag of the height that came
      rename_i hidx
      subst ht
      rw [h.link] at hidx hlow
      obtain rfl : height = s₀.linkFrom.height + 1 + i := by omega
      exact ⟨ts, now, body, [], s, rfl, hrun, hopen, htook⟩
    · exact hflags i (getElem?_growFlags hi)
  | begun ht =>
    exact ⟨h.link, fun i hi => hflags i (getElem?_growFlags hi),
      fun _ => ⟨_, List.mem_append_right _ (List.mem_singleton.mpr ht.symm)⟩, h.notOver⟩
  | ended exitCode => exact ⟨h.link, hflags, hbegun, fun hd => nomatch hd⟩
  | kept merger status ht => exact ⟨h.link, hflags, hbegun, h.notOver⟩

theorem synced_run {s₀ : BlockSynchronizer} {ts : List SyncTask} (h₀ : Synced env s₀ [] s₀)
    (hrun : run env s₀ ts = .ok s) : Synced env s₀ ts s := by
  induction ts using List.reverseRecOn generalizing s with
  | nil =>
    obtain rfl := run_nil.mp hrun
    exact h₀
  | append_singleton ts t ih =>
    obtain ⟨u, hu, hlast⟩ := run_append.mp hrun
    obtain ⟨s₁, hs₁, hnil⟩ := run_cons.mp hlast
    obtain rfl := run_nil.mp hnil
    exact (ih hu).step hu (steps hs₁)

theorem synced_start {m : Merger} {s₀ : BlockSynchronizer} (h : startBlockSync m = .ok s₀) : Synced env s₀ [] s₀ := by
  obtain ⟨⟨link, pool⟩, _, h⟩ := bind_eq_ok.mp h
  cases h
  exact ⟨rfl, by simp, fun hb => (nomatch hb), fun _ => rfl⟩

theorem le_highest {status : List (Bytes × OtherStatusData)} {e : Bytes × OtherStatusData} (he : e ∈ status) :
    e.2.height ≤ (highest status).2.height := by
  -- the best so far only rises
  have hrise : ∀ (xs : List (Bytes × OtherStatusData)) (best : Bytes × OtherStatusData),
      best.2.height ≤ (xs.foldl (fun best e => if best.2.height < e.2.height then e else best) best).2.height ∧
      ∀ x ∈ xs, x.2.height ≤ (xs.foldl (fun best e => if best.2.height < e.2.height then e else best) best).2.height := by
    intro xs
    induction xs with
    | nil => exact fun best => ⟨le_rfl, by simp⟩
    | cons x xs ih =>
      intro best
      rw [List.foldl_cons]
      obtain ⟨hbest, hrest⟩ := ih (if best.2.height < x.2.height then x else best)
      have hboth : best.2.height ≤ (if best.2.height < x.2.height then x else best).2.height ∧
          x.2.height ≤ (if best.2.height < x.2.height then x else best).2.height := by
        split <;> omega
      refine ⟨hboth.1.trans hbest, fun y hy => ?_⟩
      rcases List.mem_cons.mp hy with rfl | hy
      · exact hboth.2.trans hbest
      · exact hrest y hy
  exact (hrise status _).2 e he

/-- After the last block was asked for there is a flag for every height reported by then. -/
theorem length_of_sent {now : Nat} {u : BlockSynchronizer} (h : s.step env (.sendRequestLastBlock now) = .ok u)
    (hopen : u.isSyncDone = false) : (highest s.chainStatus).2.height - s.linkFrom.height ≤ u.syncFlags.length := by
  cases steps h with
  | noted merger ht hopen htook hlow => cases ht
  | begun ht => exact (length_growFlags _ _).2
  | ended exitCode => cases hopen
  | kept merger status ht => exact absurd rfl (ht now)

/-- If `blockSyncControl` ends the synchronisation, it ends it with `NORMAL`, the last block
had been asked for, and for every height from the first link to those reported by then the
pool had taken in or known a block. -/
theorem sync_complete {m : Merger} {s₀ : BlockSynchronizer} (h₀ : startBlockSync m = .ok s₀) {ts : List SyncTask}
    (hrun : run env s₀ ts = .ok s) (hopen : s.isSyncDone = false) (hfinish : s.blockSyncControl.isSyncDone = true) :
    s.blockSyncControl.finished = some .normal ∧ (∃ now, .sendRequestLastBlock now ∈ ts) ∧
    ∀ before now after t, ts = before ++ .sendRequestLastBlock now :: after → run env s₀ before = .ok t →
      ∀ e ∈ t.chainStatus, ∀ h, s₀.linkFrom.height < h → h ≤ e.2.height → Brought env s₀ ts h := by
  have hsync := synced_run (synced_start h₀) hrun
  rw [blockSyncControl] at hfinish ⊢
  split at hfinish
  · rw [hopen] at hfinish
    cases hfinish
  rename_i hbegin
  split at hfinish
  swap
  · rw [hopen] at hfinish
    cases hfinish
  rename_i hall
  rw [if_neg hbegin, if_pos hall]
  have hbegun : s.isSyncBegin = true := by simpa [hopen] using hbegin
  refine ⟨by simp [syncFinish, hsync.notOver hopen], hsync.begun hbegun, ?_⟩
  rintro before now after t rfl hbefore e he h hlow hle
  obtain ⟨t', ht', hrest⟩ := run_append.mp hrun
  rw [hbefore] at ht'
  cases ht'
  obtain ⟨u, hu, hafter⟩ := run_cons.mp hrest
  obtain ⟨hgrown, hdone⟩ := run_mono hafter
  have hopen' : u.isSyncDone = false := by
    cases hd : u.isSyncDone
    · rfl
    · rw [hdone hd] at hopen
      cases hopen
  have hlen := length_of_sent hu hopen'
  rw [(synced_run (synced_start h₀) hbefore).link] at hlen
  have hheight := le_highest he
  have hlt : h - s₀.linkFrom.height - 1 < s.syncFlags.length := by omega
  have hflag := hsync.flags (h - s₀.linkFrom.height - 1) (by
    rw [List.getElem?_eq_getElem hlt]
    exact congrArg some (List.all_eq_true.mp hall _ (List.getElem_mem hlt)))
  rwa [show s₀.linkFrom.height + 1 + (h - s₀.linkFrom.height - 1) = h by omega] at hflag

end BlockSynchronizer

namespace Sample

open BlockSynchronizer

/-- Another merger reports height 1. -/
def reported : SyncTask := .messageFetch 1000 .resStatus
  (.object [("mID", .string (ascii "AQ==")), ("hash", .string []), ("hgt", .string (ascii "1"))])

/-- The first block of the chain comes. -/
def firstRow : Row :=
  ⟨[1], genesisBlockPrevId base, genesisBlockPrevHash base, 1, [good 1, good 2, good 3], [digestTx]⟩

def blockTask : SyncTask := .messageFetch 1000 .block (message (firstRow.block 0))

theorem step_blockTask {s : BlockSynchronizer} {r : PushResult} {m : Merger} (hopen : s.isSyncDone = false)
    (h : s.merger.processBlock (world chainRows) 1000 (firstRow.block 0) [9] = .ok (r, m)) :
    s.step (world chainRows) blockTask = .ok (({ s with merger := m }).noteHeight r.height) := by
  have hg : Good chainRows := by decide +kernel
  have hrow : (tableOf chainRows)[(UInt8.ofNat 0).toNat]? = some (firstRow.block 0) := tableOf_row hg rfl
  have hmsg := handleMsgBlock_block 1000 s.merger (by decide) (by decide) (by decide +kernel) hrow
  have hopen' : ¬ s.isSyncDone = true := by rw [hopen]; exact Bool.false_ne_true
  rw [Row.block] at h
  rw [blockTask, BlockSynchronizer.step, messageFetch, if_neg hopen']
  simp only [Row.block]
  rw [hmsg, h]
  rfl

end Sample

theorem BlockSynchronizer.sync_complete_one : ∃ s₀ s t e, startBlockSync Sample.initial = .ok s₀ ∧
    run (Sample.world Sample.chainRows) s₀ [Sample.reported, .sendRequestLastBlock 1000, Sample.blockTask] = .ok s ∧
    s.isSyncDone = false ∧ s.blockSyncControl.isSyncDone = true ∧
    run (Sample.world Sample.chainRows) s₀ [Sample.reported] = .ok t ∧ e ∈ t.chainStatus ∧
    s₀.linkFrom.height < e.2.height ∧ Brought (Sample.world Sample.chainRows) s₀
      [Sample.reported, .sendRequestLastBlock 1000, Sample.blockTask] e.2.height := by
  have hrun : okAnd (fun s₀ => okAnd (fun t => (t.chainStatus.any fun e => decide (s₀.linkFrom.height < e.2.height)) &&
        decide ((t.sendRequestLastBlock (Sample.world Sample.chainRows) 1000).1.isSyncDone = false) &&
        okAnd (fun y => decide ((({ (t.sendRequestLastBlock (Sample.world Sample.chainRows) 1000).1 with
            merger := y.2 }).noteHeight y.1.height).isSyncDone = false ∧
          (({ (t.sendRequestLastBlock (Sample.world Sample.chainRows) 1000).1 with
            merger := y.2 }).noteHeight y.1.height).blockSyncControl.isSyncDone = true))
          (t.merger.processBlock (Sample.world Sample.chainRows) 1000 (Sample.firstRow.block 0) [9]))
        (s₀.step (Sample.world Sample.chainRows) Sample.reported)) (startBlockSync Sample.initial) = true := by
    decide +kernel
  obtain ⟨s₀, h₀, hrun⟩ := okAnd_eq_true.mp hrun
  obtain ⟨t, ht, htest⟩ := okAnd_eq_true.mp hrun
  simp only [Bool.and_eq_true, List.any_eq_true, decide_eq_true_eq] at htest
  obtain ⟨⟨⟨e, he, hlow⟩, hopen⟩, hblock⟩ := htest
  obtain ⟨⟨r, m⟩, hm, hafter⟩ := okAnd_eq_true.mp hblock
  obtain ⟨hopen', hfinish⟩ := of_decide_eq_true hafter
  have hmerger : (t.sendRequestLastBlock (Sample.world Sample.chainRows) 1000).1.merger = t.merger := by
    rw [sendRequestLastBlock]
    simp only
    repeat' split
    all_goals rfl
  rw [← hmerger] at hm
  have hfirst := run_cons.mpr ⟨t, ht, run_nil.mpr rfl⟩
  have hsend : t.step (Sample.world Sample.chainRows) (.sendRequestLastBlock 1000) =
      .ok (t.sendRequestLastBlock (Sample.world Sample.chainRows) 1000).1 := rfl
  have hs := run_cons.mpr ⟨t, ht, run_cons.mpr ⟨_, hsend, run_cons.mpr ⟨_, Sample.step_blockTask hopen hm, run_nil.mpr rfl⟩⟩⟩
  obtain ⟨_, _, hall⟩ := sync_complete h₀ hs hopen' hfinish
  exact ⟨s₀, _, t, e, h₀, hs, hopen', hfinish, hfirst, he, hlow, hall [Sample.reported] 1000 _ t rfl hfirst e he _ hlow le_rfl⟩

end GruutMerger
