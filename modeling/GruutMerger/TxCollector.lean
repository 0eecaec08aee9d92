import GruutMerger.BpScheduler

/-!
# When a merger makes a block

Near the end of a slot the scheduler tells the transaction collector the status
of the next slot, and at the start of a slot the collector looks whether it has
to make a block of what it collected. The decision is made up to two slots
ahead, in a queue of three jobs that every status change patches and every slot
shifts.
-/
namespace GruutMerger

open ByteText Fallible

inductive BpJobStatus where
  | doJob
  | dont
  | unknown
  deriving DecidableEq

structure TxCollector where
  currentTxStatus : BpStatus := .inBootWait
  nextTxStatus : BpStatus := .unknown
  bpjobSequence : List BpJobStatus := []
  timerOnce : Bool := false
  currentBlockProducers : List Bytes := []
  nextBlockProducers : List Bytes := []

namespace TxCollector

/-- Only the first call does something. -/
def turnOnTimer (c : TxCollector) : TxCollector :=
  if c.timerOnce then c
  else { c with timerOnce := true, bpjobSequence := c.bpjobSequence ++ [.dont, .unknown, .unknown] }

/-- The patches of the queue for the nine status changes. -/
def patch (current next : BpStatus) (jobs : List BpJobStatus) : List BpJobStatus :=
  match current with
  | .primary =>
    match next with
    | .primary => jobs.set 1 .doJob
    | .secondary => (jobs.set 1 .dont).set 2 .doJob
    | _ => jobs.set 1 .dont
  | .secondary =>
    match next with
    | .primary => jobs.set 1 .doJob
    | _ => jobs
  | _ =>
    match next with
    | .primary => jobs.set 1 .doJob
    | .secondary => (jobs.set 1 .dont).set 2 .doJob
    | _ => jobs

def setTxCollectStatus (c : TxCollector) (stat : BpStatus) (blockProducers : List Bytes) : TxCollector :=
  let on := turnOnTimer { c with nextTxStatus := stat }
  { on with
    bpjobSequence := patch on.currentTxStatus on.nextTxStatus on.bpjobSequence
    nextBlockProducers := blockProducers }

/-- The job at hand; on `doJob` signatures are requested, if there are transactions. -/
def checkBpJob (c : TxCollector) : Except Failure (BpJobStatus × TxCollector) :=
  match c.bpjobSequence with
  | [] => .error .undefined
  | job :: rest =>
    .ok (job, { c with
      currentTxStatus := c.nextTxStatus
      currentBlockProducers := c.nextBlockProducers
      bpjobSequence := rest ++ [.unknown] })

def isRunnable (c : TxCollector) : Bool := c.currentTxStatus = .primary || c.currentTxStatus = .secondary

/-- The end of one slot and the start of the next, with the status in force before. -/
def slot (c : TxCollector) (stat : BpStatus) (blockProducers : List Bytes) :
    Except Failure ((BpStatus × BpJobStatus) × TxCollector) :=
  (c.setTxCollectStatus stat blockProducers).checkBpJob.map fun r => ((c.currentTxStatus, r.1), r.2)

/-- A slot for each decision of the scheduler; for each the status that was in force and
the job that was found. -/
def slots (c : TxCollector) : List (BpStatus × List Bytes) → Except Failure (List (BpStatus × BpJobStatus))
  | [] => .ok []
  | d :: ds => do
    let (job, c') ← c.slot d.1 d.2
    let jobs ← slots c' ds
    return job :: jobs

/-- The queue at the start of a slot, after two slots with the given statuses. -/
structure Queued (c : TxCollector) (older old : BpStatus) : Prop where
  timer : c.timerOnce = true
  jobs : ∃ now next, c.bpjobSequence = [now, next, .unknown] ∧
    (now = .doJob ↔ c.currentTxStatus = .primary ∨ (old = .secondary ∧ older ≠ .secondary)) ∧
    (next = .doJob ↔ c.currentTxStatus = .secondary ∧ old ≠ .secondary)

/-- What a patch makes of the second and third job. -/
theorem patch_cases (current next : BpStatus) (a b : BpJobStatus) {old : BpStatus}
    (hb : b = .doJob ↔ current = .secondary ∧ old ≠ .secondary) :
    ∃ b' c', patch current next [a, b, .unknown] = [a, b', c'] ∧
      (b' = .doJob ↔ next = .primary ∨ (current = .secondary ∧ old ≠ .secondary)) ∧
      (c' = .doJob ↔ next = .secondary ∧ current ≠ .secondary) := by
  cases current <;> cases next <;> simp_all [patch]

theorem Queued.slot {c : TxCollector} {older old : BpStatus} (h : c.Queued older old) (stat : BpStatus)
    (blockProducers : List Bytes) :
    ∃ job c', c.slot stat blockProducers = .ok ((c.currentTxStatus, job), c') ∧ c'.currentTxStatus = stat ∧
      (job = .doJob ↔ c.currentTxStatus = .primary ∨ (old = .secondary ∧ older ≠ .secondary)) ∧
      c'.Queued old c.currentTxStatus := by
  obtain ⟨now, next, hseq, hnow, hnext⟩ := h.jobs
  obtain ⟨b', c', hpatch, hb, hc⟩ := patch_cases c.currentTxStatus stat now next hnext
  have hset : c.setTxCollectStatus stat blockProducers =
      { c with nextTxStatus := stat, bpjobSequence := [now, b', c'], nextBlockProducers := blockProducers } := by
    simp [setTxCollectStatus, turnOnTimer, h.timer, hseq, hpatch]
  refine ⟨now, { c with currentTxStatus := stat, nextTxStatus := stat, bpjobSequence := [b', c', .unknown]
                        currentBlockProducers := blockProducers, nextBlockProducers := blockProducers },
    ?_, rfl, hnow, ⟨h.timer, b', c', rfl, hb, hc⟩⟩
  rw [TxCollector.slot, hset]
  rfl

/-- The rule by which jobs come up in a run: as primary, and two slots after a merger has
become secondary. -/
def JobRule (jobs : List (BpStatus × BpJobStatus)) (older old : BpStatus) : Prop :=
  ∀ (t : Nat) (status : BpStatus) (job : BpJobStatus), jobs[t]? = some (status, job) →
    (job = .doJob ↔ status = .primary ∨
      (((old :: jobs.map Prod.fst)[t]? = some .secondary) ∧ ((older :: old :: jobs.map Prod.fst)[t]? ≠ some .secondary)))

theorem Queued.slots {c : TxCollector} {older old : BpStatus} (h : c.Queued older old)
    (ds : List (BpStatus × List Bytes)) :
    ∃ jobs, c.slots ds = .ok jobs ∧ jobs.map Prod.fst = ((c.currentTxStatus :: ds.map Prod.fst).take ds.length) ∧
      JobRule jobs older old := by
  induction ds generalizing c older old with
  | nil => exact ⟨[], rfl, rfl, by simp [JobRule]⟩
  | cons d ds ih =>
    obtain ⟨job, c', hslot, hstatus, hjob, hqueued⟩ := h.slot d.1 d.2
    obtain ⟨jobs, hjobs, hmap, hrule⟩ := ih hqueued
    refine ⟨(c.currentTxStatus, job) :: jobs, ?_, ?_, ?_⟩
    · rw [TxCollector.slots, hslot]
      simp [bind, Except.bind, hjobs, pure, Except.pure]
    · simp [hmap, hstatus]
    · rintro (_ | t) status job' hget
      · simp only [List.getElem?_cons_zero, Option.some.injEq, Prod.mk.injEq] at hget ⊢
        obtain ⟨rfl, rfl⟩ := hget
        simpa using hjob
      · simpa using hrule t status job' hget

theorem slot_turnOnTimer (c : TxCollector) (stat : BpStatus) (blockProducers : List Bytes) :
    c.turnOnTimer.slot stat blockProducers = c.slot stat blockProducers := by
  cases ht : c.timerOnce <;> simp [slot, setTxCollectStatus, turnOnTimer, ht]

theorem slots_turnOnTimer (c : TxCollector) (ds : List (BpStatus × List Bytes)) :
    c.turnOnTimer.slots ds = c.slots ds := by
  cases ds with
  | nil => rfl
  | cons d ds => rw [slots, slot_turnOnTimer, slots]

/-- Statuses in force in a run: the initial one, then the decisions of the scheduler. -/
def inForce (ds : List (BpStatus × List Bytes)) : List BpStatus :=
  (BpStatus.inBootWait :: ds.map Prod.fst).take ds.length

/-- A merger that becomes secondary is primary in the next slot. -/
def Promotes (statuses : List BpStatus) : Prop :=
  ∀ t : Nat, statuses[t]? ≠ some .secondary → statuses[t + 1]? = some .secondary →
    ∀ status, statuses[t + 2]? = some status → status = .primary

/-- In every run the jobs follow the rule, and they are those of the primary exactly if a
merger that becomes secondary always is primary next. -/
theorem jobs_of_primary (ds : List (BpStatus × List Bytes)) :
    ∃ jobs, TxCollector.slots {} ds = .ok jobs ∧ jobs.map Prod.fst = inForce ds ∧
      JobRule jobs .inBootWait .inBootWait ∧
      ((∀ status job, (status, job) ∈ jobs → (job = .doJob ↔ status = .primary)) ↔ Promotes (inForce ds)) := by
  have hqueued : (turnOnTimer {}).Queued .inBootWait .inBootWait :=
    ⟨rfl, .dont, .unknown, rfl, by decide, by decide⟩
  obtain ⟨jobs, hjobs, hmap, hrule⟩ := hqueued.slots ds
  rw [slots_turnOnTimer] at hjobs
  have hstatuses : jobs.map Prod.fst = inForce ds := hmap
  refine ⟨jobs, hjobs, hstatuses, hrule, fun hall t hfirst hsecond status hthird => ?_, fun hpromotes status job hmem => ?_⟩
  · rw [← hstatuses] at hfirst hsecond hthird
    rw [List.getElem?_map, Option.map_eq_some_iff] at hthird
    obtain ⟨⟨_, job⟩, hjob, rfl⟩ := hthird
    have hdo := (hrule (t + 2) _ job hjob).mpr (.inr ⟨hsecond, hfirst⟩)
    exact (hall _ job (List.mem_of_getElem? hjob)).mp hdo
  · obtain ⟨t, ht⟩ := List.mem_iff_getElem?.mp hmem
    rw [hrule t status job ht]
    refine ⟨fun hor => hor.elim id fun hsec => ?_, .inl⟩
    match t with
    | 0 => simp at hsec
    | 1 =>
      -- the first status is the one of a merger that has just started
      have hboot : ∀ x, (inForce ds)[0]? = some x → x = .inBootWait := by
        cases ds with
        | nil => simp [inForce]
        | cons d ds => simp [inForce]
      rw [List.getElem?_cons_succ, hstatuses] at hsec
      exact absurd (hboot _ hsec.1) (by decide)
    | t + 2 =>
      rw [List.getElem?_cons_succ, List.getElem?_cons_succ, List.getElem?_cons_succ, hstatuses] at hsec
      refine hpromotes t hsec.2 hsec.1 status ?_
      rw [← hstatuses, List.getElem?_map, ht, Option.map_some]

/-- A merger that becomes secondary and is idle again makes a block two slots later. -/
theorem job_while_idle : ∃ jobs,
    TxCollector.slots {} [(.idle, []), (.secondary, []), (.idle, []), (.idle, [])] = .ok jobs ∧
      jobs[3]? = some (.idle, .doJob) := ⟨_, rfl, rfl⟩

end TxCollector
end GruutMerger
