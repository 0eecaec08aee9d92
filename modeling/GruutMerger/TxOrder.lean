import GruutMerger.TransactionPool
import GruutMerger.Lib.BigEndian
import GruutMerger.Lib.Fallible
import GruutMerger.Lib.LazyStack

/-!
# The transaction pool as an ordered set

To its callers the pool is a set of transactions with different ids, ordered by when each was
pushed last. Removing a transaction leaves its copy in the vector; a copy whose id is pushed
again later is never served in place of the new one.
-/
namespace GruutMerger

open ByteText Fallible LazyStack

/-- Transactions with different ids, newest first. -/
@[ext] structure TxSet where
  txs : List Transaction
  nodup : (txs.map (·.id)).Nodup

/-- A call of the pool, with arguments it may have. -/
inductive PoolCall where
  | push (tx : Transaction) (hlen : tx.id.length = 32)
  | pop
  | fetchLastN (n : Nat) (hn : 1 ≤ n)
  | removeDuplicatedTransactions (txIds : List Bytes)
  | isDuplicated (txId : Bytes)
  | size
  | clear

/-- What a call returns. -/
inductive PoolAnswer where
  | done
  | flag (b : Bool)
  | popped (tx : Option Transaction)
  | fetched (txs : List Transaction)
  | count (n : Nat)

namespace TxSet

def empty : TxSet := ⟨[], List.nodup_nil⟩

/-- The transactions with some ids only. -/
def retain (s : TxSet) (keep : Bytes → Bool) : TxSet :=
  ⟨s.txs.filter fun tx => keep tx.id, s.nodup.sublist (List.filter_sublist.map _)⟩

def take (s : TxSet) (n : Nat) : List Transaction := s.txs.take n

def drop (s : TxSet) (n : Nat) : TxSet := ⟨s.txs.drop n, s.nodup.sublist ((List.drop_sublist _ _).map _)⟩

def call (s : TxSet) : PoolCall → PoolAnswer × TxSet
  | .push tx _ => if h : tx.id ∈ s.txs.map (·.id) then (.flag false, s)
    else (.flag true, ⟨tx :: s.txs, List.nodup_cons.mpr ⟨h, s.nodup⟩⟩)
  | .pop => (.popped s.txs.head?, s.drop 1)
  | .fetchLastN n _ => (.fetched (s.take n), s.drop n)
  | .removeDuplicatedTransactions txIds => (.done, s.retain fun id => decide (id ∉ txIds))
  | .isDuplicated txId => (.flag (decide (txId ∈ s.txs.map (·.id))), s)
  | .size => (.count s.txs.length, s)
  | .clear => (.done, empty)

/-- One call after others, with the answers so far. -/
def step (s : List PoolAnswer × TxSet) (c : PoolCall) : List PoolAnswer × TxSet :=
  (s.1 ++ [(s.2.call c).1], (s.2.call c).2)

end TxSet

namespace TransactionPool

/-- `pop` takes the last entry whose id is there. -/
def pop (p : TransactionPool) : Option Transaction × TransactionPool :=
  if p.size = 0 then (none, p)
  else match p.visible.find? fun tx => decide (tx.id ∈ p.ids) with
    | some tx => (some tx, p.retain fun id => decide (id ≠ tx.id))
    | none => (none, p)

/-- The index of the last entry is an int, one less than the size as an int. -/
def indexOverflows (p : TransactionPool) : Bool := decide (toInt32 p.entries.length = -2 ^ 31)

def call (p : TransactionPool) : PoolCall → Except Failure (PoolAnswer × TransactionPool)
  | .push tx hlen => .ok (.flag (p.push tx hlen).1, (p.push tx hlen).2)
  | .pop => if p.size ≠ 0 ∧ p.indexOverflows then .error .undefined else .ok (.popped p.pop.1, p.pop.2)
  | .fetchLastN n _ =>
    if p.indexOverflows then .error .undefined else .ok (.fetched (p.fetchLastN n).1, (p.fetchLastN n).2)
  | .removeDuplicatedTransactions txIds => .ok (.done, p.removeDuplicatedTransactions txIds)
  | .isDuplicated txId => .ok (.flag (p.isDuplicated txId), p)
  | .size => .ok (.count p.size, p)
  | .clear => .ok (.done, p.clear)

def step (s : List PoolAnswer × TransactionPool) (c : PoolCall) : Except Failure (List PoolAnswer × TransactionPool) := do
  let (answer, p) ← s.2.call c
  return (s.1 ++ [answer], p)

/-- The entries that count, newest first. -/
def toSet (p : TransactionPool) : TxSet := ⟨live (·.id) p.entries.reverse p.ids, nodup_live _ p.nodup⟩

/-- An int finds the last entry, and every entry whose id is there. -/
def InReach (p : TransactionPool) : Prop :=
  p.indexOverflows = false ∧ ∀ tx ∈ p.entries.drop (toInt32 p.entries.length).toNat, tx.id ∉ p.ids

/-- What has to hold before a call. -/
def Answerable (p : TransactionPool) : PoolCall → Prop
  | .pop => p.size = 0 ∨ p.InReach
  | .fetchLastN _ _ => p.InReach
  | _ => True

theorem inReach_of_lt {p : TransactionPool} (h : p.entries.length < 2 ^ 31) : p.InReach := by
  refine ⟨?_, ?_⟩
  · rw [indexOverflows, toInt32_of_lt h, decide_eq_false_iff_not]
    omega
  · rw [toInt32_of_lt h, Int.toNat_natCast, List.drop_length]
    simp

/-- What the loops see counts as everything does. -/
theorem InReach.live_visible {p : TransactionPool} (h : p.InReach) : live (·.id) p.visible p.ids = p.toSet.txs := by
  have hsplit : p.entries.reverse = (p.entries.drop (toInt32 p.entries.length).toNat).reverse ++ p.visible := by
    rw [visible, ← List.reverse_append, List.take_append_drop]
  have hstale : ∀ tx ∈ (p.entries.drop (toInt32 p.entries.length).toNat).reverse, tx.id ∉ p.ids :=
    fun tx htx => h.2 tx (List.mem_reverse.mp htx)
  have hlive := live_append_stale hstale p.visible
  rw [← hsplit] at hlive
  exact hlive.symm

theorem mem_toSet_ids (p : TransactionPool) (id : Bytes) : id ∈ p.toSet.txs.map (·.id) ↔ id ∈ p.ids := by
  constructor
  · intro h
    obtain ⟨tx, htx, rfl⟩ := List.mem_map.mp h
    exact key_mem_of_live htx
  · intro h
    refine exists_live p.nodup h ?_
    obtain ⟨tx, htx, heq⟩ := p.held id h
    exact ⟨tx, List.mem_reverse.mpr htx, heq⟩

theorem length_toSet (p : TransactionPool) : p.toSet.txs.length = p.size := by
  have hperm : (p.toSet.txs.map (·.id)).Perm p.ids :=
    (List.perm_ext_iff_of_nodup p.toSet.nodup p.nodup).mpr p.mem_toSet_ids
  rw [← List.length_map (·.id), hperm.length_eq, size]

theorem toSet_retain (p : TransactionPool) (keep : Bytes → Bool) : (p.retain keep).toSet = p.toSet.retain keep :=
  TxSet.ext (live_filter _ p.nodup keep)

/-- Without the ids of the newest, the others are left. -/
theorem toSet_retain_take {p : TransactionPool} {n : Nat} {keep : Bytes → Bool}
    (h : ∀ id ∈ p.ids, keep id = decide (id ∉ (p.toSet.txs.take n).map (·.id))) :
    (p.retain keep).toSet = p.toSet.drop n := by
  rw [toSet_retain]
  apply TxSet.ext
  have hsame : p.toSet.txs.filter (fun tx => keep tx.id) =
      p.toSet.txs.filter fun tx => decide (tx.id ∉ (p.toSet.txs.take n).map (·.id)) :=
    List.filter_congr fun tx htx => h tx.id (key_mem_of_live htx)
  exact hsame.trans (filter_notMem_take p.toSet.nodup n)

/-- The loop of `fetchLastN` takes the newest. -/
theorem fetchFrom_fst (n : Nat) (txs : List Transaction) (ids : List Bytes) :
    (fetchFrom n txs ids).1 = (live (·.id) txs ids).take (max n 1) := by
  induction txs generalizing n ids with
  | nil => simp [fetchFrom, live]
  | cons tx rest ih =>
    rw [fetchFrom, live]
    split
    · split
      · rename_i hn
        rw [Nat.max_eq_right hn, List.take_succ_cons, List.take_zero]
      · rename_i hn
        simp only [ih]
        rw [Nat.max_eq_left (by omega), Nat.max_eq_left (by omega), ← List.take_succ_cons,
          show n - 1 + 1 = n by omega]
    · exact ih n ids

theorem mem_fetchFrom_snd {n : Nat} {txs : List Transaction} {ids : List Bytes} (hd : ids.Nodup) {id : Bytes}
    (hid : id ∈ ids) : id ∈ (fetchFrom n txs ids).2 ↔ id ∉ (fetchFrom n txs ids).1.map (·.id) := by
  have hperm := fetchFrom_perm n txs ids
  have hsplit := List.nodup_append.mp (hperm.nodup_iff.mpr hd)
  constructor
  · exact fun hright hleft => hsplit.2.2 id hleft id hright rfl
  · exact fun hleft => (List.mem_append.mp (hperm.mem_iff.mpr hid)).resolve_left hleft

theorem push_refines (p : TransactionPool) (tx : Transaction) (hlen : tx.id.length = 32) :
    p.toSet.call (.push tx hlen) = (.flag (p.push tx hlen).1, (p.push tx hlen).2.toSet) := by
  unfold TxSet.call push
  by_cases h : tx.id ∈ p.ids
  · simp only [p.mem_toSet_ids, h, dite_true]
  · simp only [p.mem_toSet_ids, h, dite_false]
    congr 1
    apply TxSet.ext
    simp only [toSet, List.reverse_append, List.reverse_singleton, List.singleton_append]
    exact (live_push _).symm

theorem fetchLastN_refines {p : TransactionPool} (h : p.InReach) {n : Nat} (hn : 1 ≤ n) :
    p.toSet.call (.fetchLastN n hn) = (.fetched (p.fetchLastN n).1, (p.fetchLastN n).2.toSet) := by
  have hfetched : (p.fetchLastN n).1 = p.toSet.txs.take n := by
    rw [fetchLastN, fetchFrom_fst, h.live_visible, Nat.max_eq_left hn]
  have hleft : (p.fetchLastN n).2.toSet = p.toSet.drop n := by
    refine toSet_retain_take fun id hid => ?_
    rw [← hfetched]
    exact decide_eq_decide.mpr (mem_fetchFrom_snd p.nodup hid)
  rw [hfetched, hleft]
  rfl

theorem pop_refines {p : TransactionPool} (h : p.size = 0 ∨ p.InReach) :
    p.toSet.call .pop = (.popped p.pop.1, p.pop.2.toSet) := by
  by_cases hsize : p.size = 0
  · have hnil : p.toSet.txs = [] := List.eq_nil_of_length_eq_zero (p.length_toSet.trans hsize)
    have hdrop : p.toSet.drop 1 = p.toSet := TxSet.ext (by simp only [TxSet.drop, hnil, List.drop_nil])
    rw [pop, if_pos hsize, TxSet.call, hdrop, hnil]
    rfl
  · have hreach := h.resolve_left hsize
    have hfirst : (live (·.id) p.visible p.ids).head? = p.visible.find? fun tx => decide (tx.id ∈ p.ids) := head?_live _ _
    rw [hreach.live_visible] at hfirst
    rw [pop, if_neg hsize]
    cases hs : p.toSet.txs with
    | nil => exact absurd (by rw [← p.length_toSet, hs]; rfl) hsize
    | cons tx rest =>
      rw [hs, List.head?_cons] at hfirst
      have hleft : (p.retain fun id => decide (id ≠ tx.id)).toSet = p.toSet.drop 1 :=
        toSet_retain_take fun id _ => by simp [hs]
      rw [← hfirst, TxSet.call, hs, List.head?_cons]
      simp only [hleft]

theorem call_refines {p : TransactionPool} {c : PoolCall} (h : p.Answerable c) :
    ∃ q, p.call c = .ok ((p.toSet.call c).1, q) ∧ q.toSet = (p.toSet.call c).2 := by
  cases c with
  | push tx hlen =>
    rw [push_refines]
    exact ⟨_, rfl, rfl⟩
  | pop =>
    rw [pop_refines h]
    refine ⟨_, if_neg ?_, rfl⟩
    rintro ⟨hsize, hover⟩
    exact absurd hover (by rw [(Or.resolve_left h hsize).1]; decide)
  | fetchLastN n hn =>
    rw [fetchLastN_refines h hn]
    refine ⟨_, if_neg ?_, rfl⟩
    rw [h.1]
    decide
  | removeDuplicatedTransactions txIds => exact ⟨_, rfl, p.toSet_retain _⟩
  | isDuplicated txId =>
    refine ⟨p, ?_, rfl⟩
    rw [TxSet.call, call, isDuplicated]
    simp only [p.mem_toSet_ids]
  | size =>
    refine ⟨p, ?_, rfl⟩
    rw [TxSet.call, call, p.length_toSet]
  | clear => exact ⟨_, rfl, rfl⟩

theorem step_refines {s : List PoolAnswer × TransactionPool} {c : PoolCall} (h : s.2.Answerable c) :
    ∃ t, step s c = .ok t ∧ (t.1, t.2.toSet) = TxSet.step (s.1, s.2.toSet) c := by
  obtain ⟨q, hcall, hset⟩ := call_refines h
  refine ⟨(s.1 ++ [(s.2.toSet.call c).1], q), ?_, ?_⟩
  · rw [step, hcall]
    rfl
  · rw [hset]
    rfl

theorem run_refines {s : List PoolAnswer × TransactionPool} {calls : List PoolCall}
    (h : EachStep step (fun s c => s.2.Answerable c) s calls) :
    ∃ t, calls.foldlM step s = .ok t ∧ (t.1, t.2.toSet) = calls.foldl TxSet.step (s.1, s.2.toSet) :=
  h.simulates (fun s => (s.1, s.2.toSet)) fun _ _ => step_refines

/-- In any sequence of calls in which `pop` and `fetchLastN` are called with what they have to
find in reach, every call is answered as by an ordered set, and the pool ends as that set. -/
theorem ordered_set {calls : List PoolCall}
    (h : EachStep step (fun s c => s.2.Answerable c) ([], TransactionPool.empty) calls) :
    ∃ p, calls.foldlM step ([], TransactionPool.empty) = .ok ((calls.foldl TxSet.step ([], TxSet.empty)).1, p) ∧
      p.toSet = (calls.foldl TxSet.step ([], TxSet.empty)).2 := by
  obtain ⟨⟨answers, p⟩, hrun, habs⟩ := run_refines h
  obtain ⟨hanswers, hset⟩ := Prod.mk.inj habs
  refine ⟨p, ?_, hset⟩
  rw [hrun]
  exact congrArg (fun a => Except.ok (a, p)) hanswers

theorem length_entries_call {p q : TransactionPool} {c : PoolCall} {a : PoolAnswer} (h : p.call c = .ok (a, q)) :
    q.entries.length ≤ p.entries.length + 1 := by
  cases c with
  | push tx hlen =>
    cases h
    exact p.length_entries_push hlen
  | pop =>
    rw [call] at h
    split at h
    · cases h
    · cases h
      unfold pop
      split
      · exact Nat.le_succ _
      · split <;> exact Nat.le_succ _
  | fetchLastN n hn =>
    rw [call] at h
    split at h
    · cases h
    · cases h
      exact Nat.le_succ _
  | clear =>
    cases h
    exact Nat.zero_le _
  | _ =>
    cases h
    exact Nat.le_succ _

/-- As long as not more than 2^31 - 1 calls are made, everything is in reach. -/
theorem eachStep_of_length {s : List PoolAnswer × TransactionPool} {calls : List PoolCall}
    (h : s.2.entries.length + calls.length < 2 ^ 31) : EachStep step (fun s c => s.2.Answerable c) s calls := by
  induction calls generalizing s with
  | nil => trivial
  | cons c calls ih =>
    rw [List.length_cons] at h
    have hreach : s.2.InReach := inReach_of_lt (by omega)
    refine ⟨?_, fun t ht => ih ?_⟩
    · cases c with
      | pop => exact Or.inr hreach
      | fetchLastN n hn => exact hreach
      | _ => trivial
    · obtain ⟨⟨a, q⟩, hcall, hstep⟩ := bind_eq_ok.mp ht
      cases hstep
      have hle := length_entries_call hcall
      simp only
      omega

/-- A transaction with a number for an id. -/
def numbered (i : Nat) (content : List Bytes) : Transaction := { id := BigEndian.write 32 i, contentList := content }

theorem length_id_numbered (i : Nat) (content : List Bytes) : (numbered i content).id.length = 32 :=
  BigEndian.length_write 32 i

def pushNumbered (i : Nat) (content : List Bytes) : PoolCall := .push (numbered i content) (length_id_numbered i content)

/-- Transaction 1 is removed and comes back with another content; it is the newest then. -/
def comingBack : List PoolCall :=
  [pushNumbered 1 [[5]], pushNumbered 2 [], pushNumbered 2 [], .removeDuplicatedTransactions [BigEndian.write 32 1],
   pushNumbered 1 [[6]], .fetchLastN 1 le_rfl, .size, .pop, .pop]

theorem ordered_set_comingBack : ∃ p, comingBack.foldlM step ([], TransactionPool.empty) =
      .ok ([.flag true, .flag true, .flag false, .done, .flag true, .fetched [numbered 1 [[6]]], .count 1,
        .popped (some (numbered 2 [])), .popped none], p) ∧ p.toSet.txs = [] := by
  have hreach : EachStep step (fun s c => s.2.Answerable c) ([], TransactionPool.empty) comingBack :=
    eachStep_of_length (by decide)
  obtain ⟨p, hrun, hset⟩ := ordered_set hreach
  exact ⟨p, hrun.trans rfl, congrArg TxSet.txs hset⟩

def pushes (n : Nat) : List PoolCall := (List.range n).map fun i => pushNumbered i []

theorem pushes_succ (n : Nat) : pushes (n + 1) = pushes n ++ [pushNumbered n []] := by
  rw [pushes, pushes, List.range_succ, List.map_append]
  rfl

/-- Transactions with different numbers are all taken in. -/
theorem run_pushes {n : Nat} (hn : n ≤ 256 ^ 32) : ∃ answers p,
    (pushes n).foldlM step ([], TransactionPool.empty) = .ok (answers, p) ∧ p.entries.length = n ∧
      ∀ id, id ∈ p.ids ↔ ∃ i < n, id = BigEndian.write 32 i := by
  induction n with
  | zero => exact ⟨[], TransactionPool.empty, rfl, rfl, by simp [TransactionPool.empty]⟩
  | succ n ih =>
    obtain ⟨answers, p, hrun, hlen, hids⟩ := ih (by omega)
    have hnew : (numbered n []).id ∉ p.ids := by
      intro hmem
      obtain ⟨i, hi, heq⟩ := (hids _).mp hmem
      have := BigEndian.write_injOn (show n < 256 ^ 32 by omega) (show i < 256 ^ 32 by omega) heq
      omega
    have hpush : (p.push (numbered n []) (length_id_numbered n [])).2.entries = p.entries ++ [numbered n []] := by
      rw [push, dif_neg hnew]
    refine ⟨answers ++ [.flag (p.push (numbered n []) (length_id_numbered n [])).1],
      (p.push (numbered n []) (length_id_numbered n [])).2, ?_, ?_, fun id => ?_⟩
    · rw [pushes_succ, List.foldlM_append, hrun]
      rfl
    · rw [hpush, List.length_append, hlen]
      rfl
    · rw [p.mem_ids_push, hids]
      constructor
      · rintro (rfl | ⟨i, hi, rfl⟩)
        · exact ⟨n, Nat.lt_succ_self n, rfl⟩
        · exact ⟨i, Nat.lt_succ_of_lt hi, rfl⟩
      · rintro ⟨i, hi, rfl⟩
        by_cases heq : i = n
        · exact Or.inl (by rw [heq]; rfl)
        · exact Or.inr ⟨i, by omega, rfl⟩

theorem eachStep_pushes (n : Nat) (s : List PoolAnswer × TransactionPool) :
    EachStep step (fun s c => s.2.Answerable c) s (pushes n) := by
  rw [pushes]
  generalize List.range n = is
  induction is generalizing s with
  | nil => trivial
  | cons i is ih => exact ⟨trivial, fun t _ => ih t⟩

/-- From 2^31 entries on, the size as an int is negative and the loop has no turn. -/
theorem pop_eq_none {p : TransactionPool} (hlow : 2 ^ 31 < p.entries.length) (hhigh : p.entries.length < 2 ^ 32) :
    p.call .pop = .ok (.popped none, p) := by
  have hint : toInt32 p.entries.length = (p.entries.length : Int) - 2 ^ 32 := by
    unfold toInt32
    omega
  have hover : p.indexOverflows = false := by
    rw [indexOverflows, hint, decide_eq_false_iff_not]
    omega
  have hvisible : p.visible = [] := by
    have hneg : ((p.entries.length : Int) - 2 ^ 32).toNat = 0 := by omega
    rw [visible, hint, hneg]
    rfl
  rw [call, if_neg (by rw [hover]; simp), pop, hvisible]
  split <;> rfl

def overfull : List PoolCall := pushes (2 ^ 31 + 1) ++ [PoolCall.pop]

/-- With 2^31 + 1 transactions in it the pool says that there is none. -/
theorem ordered_set_overfull : ∃ answers p tx,
    overfull.foldlM step ([], TransactionPool.empty) = .ok (answers ++ [PoolAnswer.popped none], p) ∧
      (overfull.foldl TxSet.step ([], TxSet.empty)).1 = answers ++ [PoolAnswer.popped (some tx)] := by
  obtain ⟨answers, p, hrun, hlen, hids⟩ := run_pushes (show 2 ^ 31 + 1 ≤ 256 ^ 32 by decide)
  obtain ⟨t, ht, hset⟩ := run_refines (eachStep_pushes (2 ^ 31 + 1) ([], TransactionPool.empty))
  obtain rfl : t = (answers, p) := Except.ok.inj (ht.symm.trans hrun)
  have hmem : BigEndian.write 32 0 ∈ p.toSet.txs.map (·.id) := (p.mem_toSet_ids _).mpr ((hids _).mpr ⟨0, by omega, rfl⟩)
  have hne : p.toSet.txs ≠ [] := by
    intro hnil
    rw [hnil] at hmem
    cases hmem
  obtain ⟨tx, rest, hs⟩ := List.exists_cons_of_ne_nil hne
  refine ⟨answers, p, tx, ?_, ?_⟩
  · rw [overfull, List.foldlM_append, hrun]
    have hpop := pop_eq_none (p := p) (by omega) (by omega)
    simp only [bind, Except.bind, List.foldlM_cons, List.foldlM_nil, step, hpop, pure, Except.pure]
  · rw [overfull, List.foldl_append]
    have hstart : ([], TransactionPool.empty.toSet) = (([] : List PoolAnswer), TxSet.empty) := rfl
    rw [← hstart, ← hset]
    simp only [List.foldl_cons, List.foldl_nil, TxSet.step, TxSet.call, hs, List.head?_cons]

end TransactionPool
end GruutMerger
