import GruutMerger.Restart

/-!
# A crash during a call

A call writes the backup of the pool first, then the backup list without the
resolved ids, then the resolved blocks. What a crash leaves on disk is what the
writes up to it have made. After the first write and after the last one nothing
that was resolved is lost; in between, a block can be off the list and not yet
saved.
-/
namespace GruutMerger

open ByteText KeyValue Fallible

variable {env : Env}

/-- The writes of a log, oldest first. -/
def writesIn (log : List Event) : List DBWrite :=
  log.filterMap fun
    | .write w => some w
    | _ => none

@[simp] theorem writesIn_append (l l' : List Event) : writesIn (l ++ l') = writesIn l ++ writesIn l' :=
  List.filterMap_append

@[simp] theorem writesIn_writes (ws : List DBWrite) : writesIn (ws.map .write) = ws := by
  simp [writesIn, List.filterMap_map]

@[simp] theorem writesIn_resolved (bs : List Block) : writesIn (bs.map .resolved) = [] := by
  simp [writesIn, List.filterMap_map]

theorem writesIn_mono {l l' : List Event} (h : l <+: l') : writesIn l <+: writesIn l' := by
  obtain ⟨t, rfl⟩ := h
  exact ⟨_, (writesIn_append l t).symm⟩

theorem resolvedIn_mono {l l' : List Event} (h : l <+: l') : resolvedIn l <+: resolvedIn l' := by
  obtain ⟨t, rfl⟩ := h
  exact ⟨_, (resolvedIn_append l t).symm⟩

/-- What is on disk when a crash leaves this much of the log. -/
def diskAt (log : List Event) : Records := Storage.empty.disk.replay (writesIn log)

namespace Storage

/-- The disk is what the writes of the log have made of an empty one. -/
def Logged (s : Storage) : Prop := s.disk = diskAt s.log

theorem Logged.touches {s s' : Storage} {dbs : List DBType} (h : s.Logged) (ht : Touches dbs s s') : s'.Logged := by
  obtain ⟨ws, hlog, hdisk, _⟩ := ht
  rw [Logged, diskAt, hlog, writesIn_append, writesIn_writes, replay_append, hdisk]
  exact congrArg (Disk.replay · ws) h

theorem Logged.logResolved {s : Storage} (h : s.Logged) (bs : List Block) : (s.logResolved bs).Logged := by
  rw [Logged, diskAt, Storage.logResolved, writesIn_append, writesIn_resolved, List.append_nil]
  exact h

theorem diskAt_congr {l l' : List Event} (h : writesIn l = writesIn l') : diskAt l = diskAt l' :=
  congrArg Storage.empty.disk.replay h

end Storage

namespace ChainState

open Storage

theorem logged_saveResolved {ls ls' : LayeredStorage} {e : UnresolvedBlock} (hl : ls.storage.Logged)
    (h : saveResolved env ls e = .ok ls') : ls'.storage.Logged := by
  have hevent : ∀ valid, (logEvent ls (.checked e.block valid)).storage.Logged := by
    intro valid
    rw [Logged, diskAt, logEvent, writesIn_append, show writesIn [.checked e.block valid] = [] from rfl, List.append_nil]
    exact hl
  rcases saveResolved_cases env h with ⟨_, rfl⟩ | ⟨_, hsave⟩
  · exact hevent false
  · exact (hevent true).touches (touches_saveChecked env hsave)

theorem logged_delivers {c c' : ChainState} {now : Nat} {block : Block} {r : PushResult} (hl : c.layered.storage.Logged)
    (hd : c.Delivers env now block c' r) : c'.layered.storage.Logged := by
  cases hd with
  | kept hp _ hc =>
    rw [hc.2]
    exact hl.touches (touches_push env hp)
  | resolved hp _ hq hr hc =>
    obtain ⟨ws, ds, _, ls, ht, _, hf⟩ := procResolved_cases env hr
    rw [hq.2] at ht
    have hmarked := ((hl.touches (touches_push env hp)).logResolved (ws.map (·.block))).touches ht
    rw [hc.2]
    exact foldlM_invariant (P := fun s : LayeredStorage => s.storage.Logged)
      (fun _ _ _ _ hs hstep => logged_saveResolved hs hstep) hmarked hf

theorem log_forwardBlock {ls ls' : LayeredStorage} {f : Pool.Forward} (h : forwardBlock env ls f = .ok ls') :
    ls'.storage.log = ls.storage.log := by
  have hsave : ∀ (s : LayeredStorage) key value id, (s.saveLedger key value id).storage.log = s.storage.log := by
    intro s key value id
    unfold LayeredStorage.saveLedger
    split <;> rfl
  refine foldlM_invariant (P := fun s : LayeredStorage => s.storage.log = ls.storage.log) (fun s entry t _ hs ht => ?_) rfl h
  obtain ⟨⟨count, number⟩, _, ht⟩ := bind_eq_ok.mp ht
  simp only at ht
  split at ht
  · cases ht
    rw [hsave, hs]
  · cases ht
    rw [hsave, hsave, hs]

/-- A push writes the backup, once, or nothing. -/
theorem push_log {c c' : ChainState} {now : Nat} {block : Block} {r : PushResult}
    (h : c.push env now block false = .ok (r, c')) :
    (r.linked = false ∧ c'.layered.storage.log = c.layered.storage.log) ∨
      ∃ w, c'.layered.storage.log = c.layered.storage.log ++ [.write w] := by
  obtain ⟨a, hpool, ha⟩ := (push_eq_ok env).mp h
  cases a with
  | none =>
    refine Or.inl ⟨?_, by rw [ha]⟩
    rcases Pool.push_cases env hpool with ⟨_, hr, _⟩ | ⟨_, hr, _⟩ | ⟨_, _, _, hsome, _⟩
    · rw [hr]
      rfl
    · rw [hr]
    · cases hsome
  | some a =>
    obtain ⟨s, hs, ha⟩ := bind_eq_ok.mp ha
    obtain ⟨forwarded, hf, ha⟩ := bind_eq_ok.mp ha
    have hlayered : c'.layered = { forwarded with blockLayer := a.layer } := (pure_eq_ok.mp ha).symm
    obtain ⟨_, hs⟩ := (backupPool_eq_ok env).mp hs
    have hlog : forwarded.storage.log = s.log :=
      foldlM_invariant (P := fun ls : LayeredStorage => ls.storage.log = s.log)
        (fun _ _ _ _ hs ht => (log_forwardBlock ht).trans hs) rfl hf
    obtain ⟨w, hw⟩ : ∃ w, s.log = c.layered.storage.log ++ [.write w] := by
      rw [hs]
      exact ⟨_, rfl⟩
    refine Or.inr ⟨w, ?_⟩
    rw [hlayered]
    exact hlog.trans hw

/-- What a call has resolved was connected to the last block after the push. -/
theorem Delivers.log {c c' : ChainState} {now : Nat} {block : Block} {r : PushResult} (hd : c.Delivers env now block c' r) :
    ∃ c₁, c.push env now block false = .ok (r, c₁) ∧ c₁.layered.storage.log <+: c'.layered.storage.log ∧
      (r.linked = false → c'.layered.storage.log = c₁.layered.storage.log) ∧
      (c₁.pool.Ok → ∀ b ∈ resolvedIn c'.layered.storage.log, b ∈ resolvedIn c₁.layered.storage.log ∨ c₁.pool.Rooted b) := by
  cases hd with
  | @kept c₁ hp _ hc =>
    have hsame : c'.layered.storage.log = c₁.layered.storage.log := congrArg (·.storage.log) hc.2
    exact ⟨c₁, hp, ⟨[], by rw [hsame, List.append_nil]⟩, fun _ => hsame, fun _ b hb => Or.inl (hsame ▸ hb)⟩
  | @resolved c₁ c₂ c₃ hp hl hq hr hc =>
    have hextends := log_procResolved env hr
    rw [hq.2] at hextends
    refine ⟨c₁, hp, by rw [hc.2]; exact hextends, fun hunlinked => ?_, fun hok b hb => ?_⟩
    · rw [hl] at hunlinked
      cases hunlinked
    · obtain ⟨ws, ds, hres, ls, ht, _, hf⟩ := procResolved_cases env hr
      rw [hc.2, (saving_foldlM env hf).resolved, ht.resolvedIn_eq, Storage.logResolved, resolvedIn_append,
        resolvedIn_resolved, hq.2] at hb
      refine (List.mem_append.mp hb).imp_right fun hw => ?_
      obtain ⟨⟨link, layer, pos, hpool⟩, _⟩ := hq
      have hok₂ : c₂.pool.Ok := by
        rw [hpool]
        exact hok
      -- the resolved blocks are a chain on top of the last block
      have hrises : c₂.pool.Rises (ws.map (·.block)) :=
        ⟨fun a ha => hres.mem_blocksOf (Or.inl ha), (hres.linked hok₂).1⟩
      rw [hpool] at hrises
      exact hrises.rooted_of_mem hw

/-- A push keeps everything durable. -/
theorem Durable.push {c c' : ChainState} {now : Nat} {block : Block} {r : PushResult} (h : c.Durable env)
    (hw : c.pool.NoWrap now block.height) (hb : block.Received env) (ht : ∀ tx ∈ block.transactions, tx.sentTime < 2 ^ 63)
    (hp : c.push env now block false = .ok (r, c')) : c'.Durable env := by
  have htouch := touches_push env hp
  obtain ⟨a, hpool, _⟩ := (push_eq_ok env).mp hp
  refine ⟨h.sane.push hw hb hp, h.near.push hw hpool, ?_, ?_⟩
  · rw [htouch.resolvedIn_eq]
    exact backed_push h.backed hb ht hp
  · rw [htouch.resolvedIn_eq]
    exact h.stored.congr env (htouch.blocks_eq (by decide))

end ChainState

/-- A block is read at its height and becomes a block of the same bytes. -/
def Records.Serves (env : Env) (d : Records) (b : Block) : Prop :=
  ∃ found sent, d.readBlock env b.height = .ok found ∧ found.height = b.height ∧ found.hash = b.blockHash ∧
    Block.initializeSaved env found = .ok (some sent) ∧ sent.blockRaw = b.blockRaw

theorem Records.Serves.congr {d d' : Records} {b : Block} (h : d.Serves env b) (hd : d'.Agree d) : d'.Serves env b := by
  obtain ⟨found, sent, hread, hfound⟩ := h
  exact ⟨found, sent, (hd.readBlock b.height).trans hread, hfound⟩

/-- A run that saves what it resolves serves all of it. -/
theorem Merger.Run.serves {m₀ m : Merger} (h₀ : m₀.chain = ChainState.initial env)
    (h : Merger.Run env (Merger.NoWrap env) m₀ m) (hall : AllSaved m.chain.layered.storage.log)
    (hrec : ∀ b ∈ resolvedIn m.chain.layered.storage.log, b.Recorded) {b : Block}
    (hb : b ∈ resolvedIn m.chain.layered.storage.log) : m.chain.layered.storage.disk.Serves env b := by
  have hlinked := (h.sane (fun _ _ _ hw => hw) (h₀ ▸ ChainState.Sane.initial env)).linked
  have hstored := h.represents env h₀ hall
  obtain ⟨saved, hholds⟩ := h.holds h₀
  obtain ⟨s', run, hagree⟩ := hholds.records
  have hsub := hholds.sublist
  have hpos : b.height ≠ 0 := by
    obtain ⟨k, hk⟩ := List.getElem?_of_mem hb
    have := hlinked.height_at hk
    omega
  -- something is recorded at the height, so a block of this height was saved
  have hrecord : s'.disk.getNthBlockIdB64 b.height ≠ [] := by
    rw [← hagree.getNthBlockIdB64, (hstored.stored b hb).getNthBlockIdB64 env hpos]
    exact (hstored.sound b hb).idB64_ne
  obtain ⟨a, ha, hheight⟩ := run.height_of_record hpos hrecord
  obtain rfl : a = b := List.inj_on_of_nodup_map hlinked.nodup_height (hsub.subset ha) hb hheight
  obtain ⟨found, sent, hread, hfh, hfhash, _, hinit, hraw, _⟩ := run.served ((hsub.map _).nodup hall.nodup)
    ((hsub.map _).nodup hlinked.nodup_height) (fun x hx => ⟨hholds.received x hx, hrec x (hsub.subset hx)⟩) ha hpos
  exact ⟨found, sent, (hagree.readBlock a.height).trans hread, hfh, hfhash, hinit, hraw⟩

namespace Merger

/-- The states of a call in which disk and pool belong together: before it, after the push
and after it. -/
inductive Settled (env : Env) (m : Merger) (now : Nat) (body : Json) (m' : Merger) : ChainState → Prop where
  | before : Settled env m now body m' m.chain
  | pushed {block : Block} {r : PushResult} {c : ChainState} (hb : Block.initializeBody env body = .ok (some block))
      (hp : m.chain.push env now block false = .ok (r, c)) : Settled env m now body m' c
  | after : Settled env m now body m' m'.chain

/-- A crash that leaves at most the first write of a call, or all of them. -/
def Harmless (m m' : Merger) (pre : List Event) : Prop :=
  (writesIn pre).length ≤ (writesIn m.chain.layered.storage.log).length + 1 ∨
    writesIn pre = writesIn m'.chain.layered.storage.log

/-- What a restart on this disk makes of the blocks resolved before a crash: each is served
from storage or is in the pool again. -/
def Recovers (env : Env) (clock : Nat → Nat) (pre : List Event) : Prop :=
  ∃ c, ChainState.start env clock (diskAt pre) = .ok c ∧
    ∀ b ∈ resolvedIn pre, (diskAt pre).Serves env b ∨ b ∈ Pool.blocksOf c.pool.blockPool

theorem Run.logged {m₀ m : Merger} {allowed : Merger → Nat → Json → Prop} (h₀ : m₀.chain = ChainState.initial env)
    (h : Merger.Run env allowed m₀ m) : m.chain.layered.storage.Logged := by
  induction h with
  | refl =>
    rw [h₀]
    rfl
  | step _ _ hs ih =>
    rcases Merger.handleMsgBlock_cases env hs with ⟨_, rfl⟩ | ⟨block, _, _, hd⟩
    · exact ih
    · exact ChainState.logged_delivers ih hd

/-- A restart on the disk of a settled state. -/
theorem recovers_of_durable {c : ChainState} {clock : Nat → Nat} {pre : List Event} (hdur : c.Durable env)
    (hre : c.Restartable env clock) (hdisk : c.layered.storage.disk = diskAt pre)
    (hall : ∀ b ∈ resolvedIn pre, c.layered.storage.disk.Serves env b ∨ c.pool.Rooted b) : Recovers env clock pre := by
  obtain ⟨c', hc', hsame⟩ := hdur.restart hre
  refine ⟨c', hdisk ▸ hc', fun b hb => ?_⟩
  rw [← hdisk]
  refine (hall b hb).imp_right fun hroot => ?_
  obtain ⟨d, j, e, hconnected, rfl⟩ := (hsame.blocks b).mpr (hdur.sane.ok.rooted_iff.mp hroot)
  exact Pool.mem_blocksOf_of_node hconnected.node_eq

/-- No resolved block is lost in a crash that leaves at most the first write of the call in
which it falls, or all of them. -/
theorem nothing_lost (hpad : env.base64.Padded) {m₀ m m' : Merger} {now : Nat} {body : Json} {r : PushResult}
    (h₀ : m₀.chain = ChainState.initial env) (h : Merger.Run env (Writable env) m₀ m) (hw : Writable env m now body)
    (hs : m.handleMsgBlock env now body = .ok (r, m')) (hall : AllSaved m'.chain.layered.storage.log)
    (hrec : ∀ b ∈ resolvedIn m'.chain.layered.storage.log, b.Recorded) {clock : Nat → Nat}
    (hre : ∀ c, Settled env m now body m' c → c.Restartable env clock) {pre : List Event}
    (hpre : m.chain.layered.storage.log <+: pre) (hpost : pre <+: m'.chain.layered.storage.log)
    (hpoint : Harmless m m' pre) : Recovers env clock pre := by
  have h' : Merger.Run env (Writable env) m₀ m' := .step h hw hs
  have hlog := hpre.trans hpost
  have hall₀ := hall.of_prefix hlog
  have hserves {b : Block} (hb : b ∈ resolvedIn m.chain.layered.storage.log) : m.chain.layered.storage.disk.Serves env b :=
    (h.mono env fun _ _ _ hw => hw.1).serves h₀ hall₀ (fun a ha => hrec a ((resolvedIn_mono hlog).subset ha)) hb
  rcases Merger.handleMsgBlock_cases env hs with ⟨_, rfl⟩ | ⟨block, hb, _, hd⟩
  · -- nothing happens in the call
    obtain rfl : pre = m'.chain.layered.storage.log := hpost.eq_of_length (Nat.le_antisymm hpost.length_le hpre.length_le)
    exact recovers_of_durable (h.durable hpad h₀ hall) (hre _ .before) (h.logged h₀) fun b hb => Or.inl (hserves hb)
  rcases hpoint with hfew | hmost
  · obtain ⟨c₁, hp, hextends, hunlinked, hrooted⟩ := hd.log
    have hdur := h.durable hpad h₀ hall₀
    have hstart : pre = m.chain.layered.storage.log → Recovers env clock pre := by
      rintro rfl
      exact recovers_of_durable hdur (hre _ .before) (h.logged h₀) fun b hb => Or.inl (hserves hb)
    have htouch := ChainState.touches_push env hp
    rcases ChainState.push_log hp with ⟨hlinked, hsame⟩ | ⟨w, hwrite⟩
    · -- nothing was written
      rw [hunlinked hlinked, hsame] at hpost
      exact hstart (hpost.eq_of_length (Nat.le_antisymm hpost.length_le hpre.length_le))
    · by_cases hpushed : c₁.layered.storage.log <+: pre
      · -- the backup is written, and what is resolved since then is on its list
        have hwrites : writesIn c₁.layered.storage.log = writesIn pre := by
          refine (writesIn_mono hpushed).eq_of_length (Nat.le_antisymm (writesIn_mono hpushed).length_le ?_)
          rw [hwrite, writesIn_append, List.length_append]
          exact hfew
        have hagree : c₁.layered.storage.disk.Agree m.chain.layered.storage.disk := htouch.blocks_eq (by decide)
        have hdur₁ := hdur.push (hw.1 block hb) (Block.received_of_body hb) (hw.2 block hb) hp
        refine recovers_of_durable hdur₁ (hre _ (.pushed hb hp))
          (((h.logged h₀).touches htouch).trans (Storage.diskAt_congr hwrites)) fun b hmem => ?_
        rcases hrooted hdur₁.sane.ok b ((resolvedIn_mono hpost).subset hmem) with hold | hroot
        · rw [htouch.resolvedIn_eq] at hold
          exact Or.inl ((hserves hold).congr hagree)
        · exact Or.inr hroot
      · -- not even the backup
        have hshort := (List.prefix_or_prefix_of_prefix hpost hextends).resolve_right hpushed
        have hlen : pre.length ≠ c₁.layered.storage.log.length := fun heq =>
          hpushed (hshort.eq_of_length heq ▸ List.prefix_refl _)
        have hle := hshort.length_le
        rw [hwrite, List.length_append, List.length_singleton] at hlen hle
        refine hstart (hpre.eq_of_length (Nat.le_antisymm hpre.length_le ?_)).symm
        omega
  · -- everything is saved
    refine recovers_of_durable (h'.durable hpad h₀ hall) (hre _ .after)
      ((h'.logged h₀).trans (Storage.diskAt_congr hmost.symm)) fun b hb => Or.inl ?_
    exact (h'.mono env fun _ _ _ hw => hw.1).serves h₀ hall hrec ((resolvedIn_mono hpost).subset hb)

end Merger

open Sample

/-- The delivery of one more row of a table. -/
theorem Sample.next_delivery {rows : List Row} {now : Nat} {order : List Nat} {row : Nat} {r : Row} {m m' : Merger}
    (hg : Good rows) (hn : now < 2 ^ 64) (hm : run rows now order initial = .ok m) (hr : rows[row]? = some r)
    (htime : m.chain.pool.lastTime ≤ now) (hm' : deliver rows now m row = .ok m') :
    Block.initializeBody (world rows) (message (r.block row)) = .ok (some (r.block row)) ∧
      Merger.Writable (world rows) m now (message (r.block row)) ∧
      (∃ res, m.handleMsgBlock (world rows) now (message (r.block row)) = .ok (res, m')) ∧
      m.chain.layered.storage.log <+: m'.chain.layered.storage.log := by
  obtain ⟨hinit, hw, ⟨res, hs⟩, _⟩ := deliver_eq_ok hg hn htime hr hm'
  refine ⟨hinit, writable_message hg hr hw hinit, ⟨res, hs⟩, ?_⟩
  rcases Merger.handleMsgBlock_cases _ hs with ⟨_, rfl⟩ | ⟨block, _, _, hd⟩
  · exact List.prefix_refl _
  · obtain ⟨c₁, hp, hextends, _⟩ := hd.log
    exact (ChainState.touches_push _ hp).log_extends.trans hextends

/-- The last block of the row of four, and the one at height 2. -/
def Sample.fourthRow : Row := ⟨[4], [3], hashOf 2, 4, [good 1], [digestTx]⟩

def Sample.secondRow : Row := ⟨[2], [1], hashOf 0, 2, [good 1, good 2, good 3], [digestTx]⟩

/-- The third block of four is resolved when the fourth arrives. A crash before the list is
written again leaves it in the pool. -/
theorem Merger.nothing_lost_chain : ∃ m m' r pre, Merger.Run (world chainRows) (Writable (world chainRows)) initial m ∧
    m.handleMsgBlock (world chainRows) 1000 (message (fourthRow.block 3)) = .ok (r, m') ∧
    (resolvedIn m.chain.layered.storage.log).map Block.blockId = [[1], [2]] ∧
    (resolvedIn pre).map Block.blockId = [[1], [2], [3]] ∧ Recovers (world chainRows) (fun _ => 1000) pre := by
  have hrun : okAnd (fun m : Merger => okAnd (fun m' : Merger => okAnd (fun x : PushResult × ChainState =>
      decide (Restarts (world chainRows) 1000 m.chain) && decide (Restarts (world chainRows) 1000 x.2) &&
      decide (Restarts (world chainRows) 1000 m'.chain) && decide (AllSaved m'.chain.layered.storage.log) &&
      (resolvedIn m'.chain.layered.storage.log).all (fun b => decide (b.blockId ≠ [] ∧ b.time < 2 ^ 63 ∧
        ∀ tx ∈ b.transactions, tx.sentTime < 2 ^ 63)) &&
      decide (m.chain.pool.lastTime ≤ 1000) &&
      decide ((resolvedIn m.chain.layered.storage.log).map Block.blockId = [[1], [2]]) &&
      decide ((resolvedIn (m'.chain.layered.storage.log.take (m.chain.layered.storage.log.length + 2))).map Block.blockId =
        [[1], [2], [3]]) &&
      decide ((writesIn (m'.chain.layered.storage.log.take (m.chain.layered.storage.log.length + 2))).length ≤
        (writesIn m.chain.layered.storage.log).length + 1))
      (m.chain.push (world chainRows) 1000 (fourthRow.block 3) false))
      (deliver chainRows 1000 m 3)) (Sample.run chainRows 1000 [0, 1, 2] initial) = true := by decide +kernel
  obtain ⟨m, hm, hrun⟩ := okAnd_eq_true.mp hrun
  obtain ⟨m', hm', hrun⟩ := okAnd_eq_true.mp hrun
  obtain ⟨⟨r₁, c₁⟩, hpush, htest⟩ := okAnd_eq_true.mp hrun
  simp only [Bool.and_eq_true, decide_eq_true_eq, List.all_eq_true] at htest
  obtain ⟨⟨⟨⟨⟨⟨⟨⟨hbefore, hpushed⟩, hafter⟩, hall⟩, hrec⟩, htime⟩, hold⟩, hnew⟩, hfew⟩ := htest
  have hgood : Good chainRows := by decide +kernel
  have h := run_writable hgood (by decide) hm
  obtain ⟨hinit, hw, ⟨r, hs⟩, hlog⟩ :=
    next_delivery hgood (by decide) hm (show chainRows[3]? = some fourthRow from rfl) htime hm'
  have hsettled : ∀ c, Settled (world chainRows) m 1000 (message (fourthRow.block 3)) m' c →
      c.Restartable (world chainRows) fun _ => 1000 := by
    intro c hc
    cases hc with
    | before => exact hbefore.restartable (by decide)
    | pushed hb hp =>
      rw [hinit] at hb
      cases hb
      rw [hpush] at hp
      cases hp
      exact hpushed.restartable (by decide)
    | after => exact hafter.restartable (by decide)
  exact ⟨m, m', r, _, h, hs, hold, hnew, nothing_lost Base64.padded_padded (initial_chain _) h hw hs hall
    (fun b hb => ⟨(hrec b hb).1, (hrec b hb).2.1, (hrec b hb).2.2⟩) hsettled
    (List.prefix_take_iff.mpr ⟨hlog, Nat.le_add_right _ _⟩) (List.take_prefix _ _) (Or.inl hfew)⟩

/-- The first block is resolved when the second arrives. A crash right after the list was
written again finds it neither in storage nor in the pool. -/
theorem Merger.trimmed_block_lost : ∃ m m' r pre c b, Merger.Run (world chainRows) (Writable (world chainRows)) initial m ∧
    m.handleMsgBlock (world chainRows) 1000 (message (secondRow.block 1)) = .ok (r, m') ∧
    AllSaved m'.chain.layered.storage.log ∧ m.chain.layered.storage.log <+: pre ∧ pre <+: m'.chain.layered.storage.log ∧
    b ∈ resolvedIn pre ∧ ChainState.start (world chainRows) (fun _ => 1000) (diskAt pre) = .ok c ∧
    ¬ (diskAt pre).Serves (world chainRows) b ∧ b ∉ Pool.blocksOf c.pool.blockPool := by
  have hrun : okAnd (fun m : Merger => okAnd (fun m' : Merger =>
      decide (AllSaved m'.chain.layered.storage.log) && decide (m.chain.pool.lastTime ≤ 1000) &&
      (resolvedIn (m'.chain.layered.storage.log.take (m.chain.layered.storage.log.length + 3))).any
        (fun b => decide (b.height = 1 ∧ b.blockHash ≠ [])) &&
      okAnd (fun found : StorageBlock => decide (found.hash = []))
        ((diskAt (m'.chain.layered.storage.log.take (m.chain.layered.storage.log.length + 3))).readBlock (world chainRows) 1) &&
      okAnd (fun c : ChainState => (Pool.blocksOf c.pool.blockPool).all fun b => decide (b.height ≠ 1))
        (ChainState.start (world chainRows) (fun _ => 1000)
          (diskAt (m'.chain.layered.storage.log.take (m.chain.layered.storage.log.length + 3)))))
      (deliver chainRows 1000 m 1)) (Sample.run chainRows 1000 [0] initial) = true := by decide +kernel
  obtain ⟨m, hm, hrun⟩ := okAnd_eq_true.mp hrun
  obtain ⟨m', hm', htest⟩ := okAnd_eq_true.mp hrun
  simp only [Bool.and_eq_true, decide_eq_true_eq, List.all_eq_true, List.any_eq_true, okAnd_eq_true] at htest
  obtain ⟨⟨⟨⟨hall, htime⟩, b, hb, hheight, hhash⟩, found, hfound, hempty⟩, c, hc, hpool⟩ := htest
  have hgood : Good chainRows := by decide +kernel
  obtain ⟨_, _, ⟨r, hs⟩, hlog⟩ := next_delivery hgood (by decide) hm (show chainRows[1]? = some secondRow from rfl) htime hm'
  refine ⟨m, m', r, _, c, b, run_writable hgood (by decide) hm, hs, hall,
    List.prefix_take_iff.mpr ⟨hlog, Nat.le_add_right _ _⟩, List.take_prefix _ _, hb, hc, ?_, fun hmem => hpool b hmem hheight⟩
  rintro ⟨found', _, hread, _, hsame, _⟩
  rw [hheight, hfound] at hread
  cases hread
  exact hhash (hsame.symm.trans hempty)

end GruutMerger
