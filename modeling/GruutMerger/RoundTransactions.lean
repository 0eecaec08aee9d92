import GruutMerger.RoundTrip
import GruutMerger.SignatureRound

/-!
# The transactions of a round

A round empties the transaction pool before it is known whether a block comes
out of it. Which transactions survive a round, in a block or in the pool.
-/
namespace GruutMerger

open ByteText

namespace TransactionPool

/-- A transaction that was just pushed is the first to be fetched. -/
theorem mem_fetchLastN_push {p : TransactionPool} {tx : Transaction} (hlen : tx.id.length = 32)
    (h : p.entries.length + 1 < 2 ^ 31) (hnew : tx.id ∉ p.ids) (n : Nat) :
    tx ∈ ((p.push tx hlen).2.fetchLastN n).1 := by
  have hentries : (p.push tx hlen).2.entries = p.entries ++ [tx] := by simp [push, hnew]
  have hvisible : (p.push tx hlen).2.visible = tx :: p.entries.reverse := by
    rw [visible_of_lt (by rw [hentries]; simpa using h), hentries]
    simp
  have hmem : tx.id ∈ (p.push tx hlen).2.ids := (mem_ids_push p hlen tx.id).mpr (Or.inl rfl)
  simp only [fetchLastN, hvisible, fetchFrom, if_pos hmem]
  split <;> simp

end TransactionPool

variable (env : Env) (maker : Maker) (hchain : env.myChainId.length = 8)

namespace RoundInput

variable {env maker}

/-- The certificate transaction costs at most one place. -/
theorem length_withCertificates (i : RoundInput) (p : TransactionPool) :
    (i.withCertificates env maker p).entries.length ≤ p.entries.length + 1 := by
  unfold withCertificates
  split
  · exact Nat.le_succ _
  · exact TransactionPool.length_entries_push _ _

theorem ids_subset_withCertificates (i : RoundInput) (p : TransactionPool) :
    p.ids ⊆ (i.withCertificates env maker p).ids := by
  intro id hid
  unfold withCertificates
  split
  · exact hid
  · exact (TransactionPool.mem_ids_push _ _ _).mpr (Or.inr hid)

/-- All transactions of the pool are fetched exactly if they fit into a block together
with the certificate transaction. -/
theorem ids_subset_fetched (i : RoundInput) {p : TransactionPool} (h : p.entries.length + 1 < 2 ^ 31) :
    p.ids ⊆ (i.fetched env maker p).map (·.id) ↔
      (i.withCertificates env maker p).size ≤ maxCollectTransactionSize := by
  have hlt : (i.withCertificates env maker p).entries.length < 2 ^ 31 :=
    Nat.lt_of_le_of_lt (i.length_withCertificates p) h
  have hall := TransactionPool.ids_subset_fetchLastN hlt
    (min (i.withCertificates env maker p).size maxCollectTransactionSize)
  have hsize : (i.withCertificates env maker p).size ≤
      max (min (i.withCertificates env maker p).size maxCollectTransactionSize) 1 ↔
        (i.withCertificates env maker p).size ≤ maxCollectTransactionSize := by
    have hpos : 1 ≤ maxCollectTransactionSize := by decide
    omega
  rw [← hsize, ← hall]
  constructor
  · -- the certificate transaction itself is always among the fetched ones
    intro hsub
    by_cases hnew : i.newSigners = []
    · have hsame : i.withCertificates env maker p = p := if_pos hnew
      rw [fetched, hsame] at hsub
      rwa [hsame]
    · have hpush : i.withCertificates env maker p =
          (p.push (genCertificateTransaction env maker i.certTime i.newSigners) (length_bytesToArray env _ _)).2 :=
        if_neg hnew
      rw [fetched, hpush] at hsub
      rw [hpush]
      intro id hid
      rcases (TransactionPool.mem_ids_push _ _ _).mp hid with rfl | hid
      · by_cases hold : (genCertificateTransaction env maker i.certTime i.newSigners).id ∈ p.ids
        · exact hsub hold
        · exact List.mem_map_of_mem (TransactionPool.mem_fetchLastN_push _ h hold _)
      · exact hsub hid
  · exact fun hsub id hid => hsub (i.ids_subset_withCertificates p hid)

end RoundInput

namespace Rounds

/-- The tasks that come between a request and the job. -/
def Collecting : Task → Prop
  | .ssig _ _ => True
  | .timeout => True
  | .check => True
  | _ => False

/-- A whole round: the request, the collection of signatures, the job. -/
def round (s : Rounds) (i : RoundInput) (tasks : List Task) : Except Failure (Option Block × Rounds) :=
  if i.starts then do
    let t ← (s.requestSignatures env maker hchain i).run env maker hchain tasks
    t.job env maker
  else .ok (none, s)

/-- Every transaction of the pool is in the block or still in the pool. -/
def Kept (p : TransactionPool) (r : Option Block × Rounds) : Prop :=
  ∀ id ∈ p.ids, id ∈ r.2.txPool.ids ∨ ∃ b ∈ r.1, id ∈ b.getTxIds

variable {env maker hchain}

/-- Collecting signatures leaves the transactions alone. -/
theorem collecting_frame {s t : Rounds} {task : Task} (hc : Collecting task)
    (h : s.step env maker hchain task = .ok t) : t.txPool = s.txPool ∧ t.basicInfo = s.basicInfo := by
  cases task with
  | ssig pkCertOf body =>
    cases h
    simp only [handleSsig]
    split <;> exact ⟨rfl, rfl⟩
  | timeout =>
    cases h
    unfold timeout
    split <;> exact ⟨rfl, rfl⟩
  | check =>
    cases h
    unfold check
    split <;> exact ⟨rfl, rfl⟩
  | request _ => exact absurd hc (by simp [Collecting])
  | job => exact absurd hc (by simp [Collecting])
  | tx _ _ _ => exact absurd hc (by simp [Collecting])

theorem collecting_run_frame {s t : Rounds} {tasks : List Task} (hc : ∀ task ∈ tasks, Collecting task)
    (h : s.run env maker hchain tasks = .ok t) : t.txPool = s.txPool ∧ t.basicInfo = s.basicInfo :=
  Fallible.foldlM_invariant (P := fun u : Rounds => u.txPool = s.txPool ∧ u.basicInfo = s.basicInfo)
    (fun _ task _ hm hu hstep =>
      have hf := collecting_frame (hc task hm) hstep
      ⟨hf.1.trans hu.1, hf.2.trans hu.2⟩) ⟨rfl, rfl⟩ h

/-- A round loses no transaction exactly if it does not start, finds none, or makes a
block that has room for all. -/
theorem round_kept_iff {s : Rounds} {i : RoundInput} {tasks : List Task} {r : Option Block × Rounds}
    (hlen : s.txPool.entries.length + 1 < 2 ^ 31) (hc : ∀ task ∈ tasks, Collecting task)
    (h : s.round env maker hchain i tasks = .ok r) :
    Kept s.txPool r ↔ i.starts = false ∨ s.txPool.ids = [] ∨
      (r.1.isSome = true ∧ (i.withCertificates env maker s.txPool).size ≤ maxCollectTransactionSize) := by
  unfold round at h
  by_cases hstart : i.starts = true
  · rw [if_pos hstart] at h
    obtain ⟨t, ht, hjob⟩ := Fallible.bind_eq_ok.mp h
    obtain ⟨hpool, hinfo⟩ := collecting_run_frame hc ht
    obtain ⟨info, hfacts, heq⟩ := requestSignatures_starts env maker hchain (s := s) hstart
    rw [heq] at hpool hinfo
    have hempty : t.txPool.ids = [] := by
      rw [hpool]
      rfl
    have htxs : t.basicInfo.transactions = i.fetched env maker s.txPool := by
      rw [hinfo]
      exact hfacts.transactions
    have hno : ¬ i.starts = false := by simp [hstart]
    rcases job_eq_ok env maker hjob with ⟨_, b, hb, hmade, hrest⟩ | ⟨_, hmade, hrest⟩
    · obtain ⟨made, u⟩ := r
      obtain rfl : made = some b := hmade
      obtain rfl := hrest
      have hkept : Kept s.txPool (some b, { t with
          jobs := t.jobs - 1, sigPool := t.sigPool.clear, made := t.made ++ [b] }) ↔
            s.txPool.ids ⊆ (i.fetched env maker s.txPool).map (·.id) := by
        have hids : b.getTxIds = (i.fetched env maker s.txPool).map (·.id) := by
          rw [Block.getTxIds, (makeBlock_eq_ok env hb).transactions, htxs]
        simp only [Kept, hempty, List.not_mem_nil, false_or, Option.mem_def, Option.some.injEq,
          exists_eq_left', hids]
        exact Iff.rfl
      rw [hkept, i.ids_subset_fetched hlen]
      refine ⟨fun hle => Or.inr (Or.inr ⟨rfl, hle⟩), fun hor => ?_⟩
      rcases hor with hfalse | hnil | ⟨_, hle⟩
      · exact absurd hfalse hno
      · exact (i.ids_subset_fetched hlen).mp (by simp [hnil])
      · exact hle
    · obtain ⟨made, u⟩ := r
      obtain rfl : made = none := hmade
      obtain rfl := hrest
      simp only [Kept, hempty, List.not_mem_nil, false_or, Option.mem_def, reduceCtorEq, false_and,
        exists_false, hno, Option.isSome_none, Bool.false_eq_true, or_false]
      exact List.eq_nil_iff_forall_not_mem.symm
  · rw [if_neg hstart] at h
    cases h
    simp only [Bool.not_eq_true] at hstart
    exact ⟨fun _ => Or.inl hstart, fun _ id hid => Or.inl hid⟩

end Rounds

namespace Sample

/-- One transaction waits. -/
def waiting : Rounds :=
  { Rounds.initial base rfl with txPool := (TransactionPool.empty.push digestTx (by decide +kernel)).2 }

/-- A request that finds one signer, whom the ledger knows, and an empty chain. -/
def oneSigner : RoundInput where
  hasUnresolved := false
  signers := [⟨[1], [1]⟩]
  getCertificate _ := [1]
  certTime := 40
  time := 50
  link := ⟨genesisBlockPrevId base, [], genesisBlockPrevHash base, [], 0, 0⟩

/-- A support signature that verifies. -/
def ssigBody (signer : UInt8) : Json :=
  .object [("sID", .string (base.base64.encode [signer])), ("sig", .string (base.base64.encode [1]))]

end Sample

open Sample in
theorem Rounds.round_kept_signed : ∃ r,
    waiting.round base Sample.maker rfl oneSigner [.ssig (fun _ => [1]) (ssigBody 1), .check] = .ok r ∧
    r.1.isSome = true ∧ Rounds.Kept waiting.txPool r := by
  have hrun : Fallible.okAnd (fun r => r.1.isSome)
      (waiting.round base Sample.maker rfl oneSigner [.ssig (fun _ => [1]) (ssigBody 1), .check]) = true := by
    decide +kernel
  obtain ⟨r, hr, hsome⟩ := Fallible.okAnd_eq_true.mp hrun
  exact ⟨r, hr, hsome, (Rounds.round_kept_iff (by decide +kernel) (by simp [Rounds.Collecting]) hr).mpr
    (Or.inr (Or.inr ⟨hsome, by decide +kernel⟩))⟩

open Sample in
/-- Without a signature the round is given up, and the transaction is gone. -/
theorem Rounds.round_cancelled : ∃ r, waiting.round base Sample.maker rfl oneSigner [.timeout] = .ok r ∧
    waiting.txPool.ids = [digestTx.id] ∧ r.1.isSome = false ∧ ¬ Rounds.Kept waiting.txPool r := by
  have hrun : Fallible.okAnd (fun r => !r.1.isSome && decide (r.2.txPool.ids = []))
      (waiting.round base Sample.maker rfl oneSigner [.timeout]) = true := by decide +kernel
  obtain ⟨r, hr, htest⟩ := Fallible.okAnd_eq_true.mp hrun
  simp only [Bool.and_eq_true, Bool.not_eq_true', decide_eq_true_eq] at htest
  refine ⟨r, hr, by decide +kernel, htest.1, fun hkept => ?_⟩
  have hmem : digestTx.id ∈ waiting.txPool.ids := by decide +kernel
  rcases hkept _ hmem with hid | ⟨b, hb, _⟩
  · simp [htest.2] at hid
  · rw [Option.mem_def.mp hb] at htest
    simp at htest

end GruutMerger
