import GruutMerger.SaveBlock
import GruutMerger.Sample
import Mathlib.Algebra.Order.BigOperators.Group.List
import Mathlib.Algebra.Order.Group.Nat

/-!
# Saves that fail

A `saveBlock` that answers false takes back every entry that waits in the batches,
its own and earlier ones. One that ends in an exception leaves its entries to the
next commit.
-/
namespace GruutMerger

open ByteText KeyValue

variable (env : Env)

namespace Storage

theorem Puts.mem_and {a b : Puts} {e : Entry} (h : e ∈ (a.and b).1) : e ∈ a.1 ∨ e ∈ b.1 := by
  unfold Puts.and at h
  split at h
  · exact List.mem_append.mp h
  · exact Or.inl h

/-- `a && b` for the outcomes alone. -/
def andThen (a b : Except Failure Bool) : Except Failure Bool :=
  match a with
  | .ok true => b
  | _ => a

theorem Puts.and_snd (a b : Puts) : (a.and b).2 = andThen a.2 b.2 := by
  obtain ⟨es, r⟩ := a
  cases r with
  | error e => rfl
  | ok ok => cases ok <;> rfl

@[simp] theorem andThen_true_left (b : Except Failure Bool) : andThen (.ok true) b = b := rfl

@[simp] theorem andThen_true_right (a : Except Failure Bool) : andThen a (.ok true) = a := by
  unfold andThen
  split <;> simp_all

theorem andThen_eq_error {a b : Except Failure Bool} : (∃ e, andThen a b = .error e) ↔
    (∃ e, a = .error e) ∨ (a = .ok true ∧ ∃ e, b = .error e) := by
  cases a with
  | error e => simp [andThen]
  | ok ok => cases ok <;> simp [andThen]

theorem andThen_eq_true {a b : Except Failure Bool} : andThen a b = .ok true ↔ a = .ok true ∧ b = .ok true := by
  cases a with
  | error e => simp [andThen]
  | ok ok => cases ok <;> simp [andThen]

theorem putHeaderItem_plain (header : Json) (id : Bytes) (name suffix : String)
    (h : name ≠ "SSig" ∧ name ≠ "txids") : (putHeaderItem header id (name, suffix)).2 = .ok true := by
  simp [putHeaderItem, h.1, h.2]

/-- The signatures must be an array. -/
theorem putHeaderItem_ssig (header : Json) (id : Bytes) :
    ((∃ e, (putHeaderItem header id ("SSig", "_ssig")).2 = .error e) ↔ ∃ e, header.field "SSig" = .error e) ∧
      ((putHeaderItem header id ("SSig", "_ssig")).2 = .ok true ↔ ∃ xs, header.field "SSig" = .ok (.array xs)) := by
  cases hf : header.field "SSig" with
  | error e => simp [putHeaderItem, hf]
  | ok j => cases j <;> simp [putHeaderItem, hf]

/-- The transaction ids must be an array that can be dumped. -/
theorem putHeaderItem_txids (header : Json) (id : Bytes) :
    ((∃ e, (putHeaderItem header id ("txids", "_txids")).2 = .error e) ↔ (∃ e, header.field "txids" = .error e) ∨
      ∃ xs, header.field "txids" = .ok (.array xs) ∧ ¬(Json.array xs).dumps) ∧
      ((putHeaderItem header id ("txids", "_txids")).2 = .ok true ↔
        ∃ xs, header.field "txids" = .ok (.array xs) ∧ (Json.array xs).dumps) := by
  cases hf : header.field "txids" with
  | error e => simp [putHeaderItem, hf]
  | ok j =>
    cases j with
    | array xs => by_cases hd : (Json.array xs).dumps <;> simp [putHeaderItem, hf, hd]
    | _ => simp [putHeaderItem, hf]

/-- How the loop over the header ends: only the signatures and the transaction ids matter. -/
theorem putBlockHeader_snd (header : Json) (id : Bytes) : (putBlockHeader header id).2 =
    andThen (putHeaderItem header id ("SSig", "_ssig")).2 (putHeaderItem header id ("txids", "_txids")).2 := by
  simp only [putBlockHeader, dbBlockHeaderSuffix, List.foldl_cons, List.foldl_nil, Puts.and_snd,
    putHeaderItem_plain header id "bID" "_bID" (by decide), putHeaderItem_plain header id "ver" "_ver" (by decide),
    putHeaderItem_plain header id "cID" "_cID" (by decide), putHeaderItem_plain header id "time" "_time" (by decide),
    putHeaderItem_plain header id "hgt" "_hgt" (by decide), putHeaderItem_plain header id "mID" "_mID" (by decide),
    putHeaderItem_plain header id "prevbID" "_prevbID" (by decide),
    putHeaderItem_plain header id "prevH" "_prevH" (by decide),
    putHeaderItem_plain header id "txrt" "_txrt" (by decide), andThen_true_left, andThen_true_right]

/-- A save throws on a header without fields. With arrays of signatures and of
transaction ids it also throws when the ids cannot be dumped, the latest block cannot
be read, the height is no number, the body has no fields, or its `mtree` cannot be
dumped. -/
def Throws (d : Records) (header body : Json) : Prop :=
  (∃ e, header.field "SSig" = .error e) ∨
    ((∃ xs, header.field "SSig" = .ok (.array xs)) ∧ ∃ xs, header.field "txids" = .ok (.array xs) ∧
      (¬(Json.array xs).dumps ∨ (∃ e, d.getNthBlockLinkInfo env 0 = .error e) ∨
        (∃ e, Safe.getInt header "hgt" = .error e) ∨ (∃ e, body.field "tx" = .error e) ∨
        ∃ txs, body.field "tx" = .ok (.array txs) ∧ ¬((body.find "mtree").getD .null).dumps))

/-- Either every field can be asked for or none. -/
theorem field_error_iff (j : Json) (key key' : String) : (∃ e, j.field key = .error e) ↔ ∃ e, j.field key' = .error e := by
  cases j <;> simp [Json.field]

theorem putLatestBlockHeader_snd (d : Records) (header : Json) :
    ((∃ e, (putLatestBlockHeader env d header).2 = .error e) ↔
      (∃ e, d.getNthBlockLinkInfo env 0 = .error e) ∨ ∃ e, Safe.getInt header "hgt" = .error e) ∧
    ((putLatestBlockHeader env d header).2 = .ok true ↔
      ¬((∃ e, d.getNthBlockLinkInfo env 0 = .error e) ∨ ∃ e, Safe.getInt header "hgt" = .error e)) := by
  unfold putLatestBlockHeader
  cases d.getNthBlockLinkInfo env 0 with
  | error e => simp
  | ok latest =>
    cases Safe.getInt header "hgt" with
    | error e => simp
    | ok height => by_cases hle : latest.height ≥ height <;> simp [hle]

theorem putTransaction_error_iff (body : Json) (id : Bytes) :
    (∃ e, (putTransaction body id).2 = .error e) ↔ (∃ e, body.field "tx" = .error e) ∨
      ∃ txs, body.field "tx" = .ok (.array txs) ∧ ¬((body.find "mtree").getD .null).dumps := by
  unfold putTransaction
  cases body.field "tx" with
  | error e => simp
  | ok j =>
    cases j with
    | array txs => by_cases hd : ((body.find "mtree").getD .null).dumps <;> simp [hd]
    | _ => simp

theorem putBlock_throws_iff (d : Records) (raw : Bytes) (header body : Json) :
    (∃ e, (putBlock env d raw header body).2 = .error e) ↔ Throws env d header body := by
  have hheight (id : Bytes) : (putBlockHeight header id).2 = .ok true := rfl
  have hraw (id : Bytes) : (putBlockRaw env raw id).2 = .ok true := rfl
  have hssig := putHeaderItem_ssig header
  have htxids := putHeaderItem_txids header
  have hlatest := putLatestBlockHeader_snd env d header
  have hfield := field_error_iff header "txids" "SSig"
  simp only [putBlock, Puts.and_snd, hheight, hraw, putBlockHeader_snd, andThen_true_right, andThen_eq_error,
    andThen_eq_true, (hssig _).1, (hssig _).2, (htxids _).1, (htxids _).2, hlatest.1, hlatest.2,
    putTransaction_error_iff, Throws, hfield]
  -- what is left only rearranges these conditions
  generalize (∃ e, d.getNthBlockLinkInfo env 0 = .error e) = noLink
  generalize (∃ e, Safe.getInt header "hgt" = .error e) = noHeight
  generalize ((∃ e, body.field "tx" = .error e) ∨
    ∃ txs, body.field "tx" = .ok (.array txs) ∧ ¬((body.find "mtree").getD .null).dumps) = noBody
  by_cases harray : ∃ xs, header.field "txids" = .ok (.array xs)
  · obtain ⟨xs, hxs⟩ := harray
    have hsome : ¬∃ e, header.field "SSig" = .error e := by
      rw [← hfield]
      simp [hxs]
    simp only [hxs, hsome, Except.ok.injEq, Json.array.injEq, exists_eq_left']
    by_cases hd : (Json.array xs).dumps
    · grind
    · grind
  · have hnone (P : List Json → Prop) : ¬∃ xs, header.field "txids" = .ok (.array xs) ∧ P xs :=
      fun h => harray (h.imp fun xs hxs => hxs.1)
    simp only [hnone]
    grind

structure SaveCall where
  raw : Bytes
  header : Json
  body : Json

/-- The answers of a sequence of saves, and the storage after them. -/
def saveBlocks (s : Storage) : List SaveCall → List (Except Failure Bool) × Storage
  | [] => ([], s)
  | call :: calls =>
    let r := s.saveBlock env call.raw call.header call.body
    let rest := saveBlocks r.2 calls
    (r.1 :: rest.1, rest.2)

theorem saveBlocks_cons {s s' : Storage} {call : SaveCall} {r : Except Failure Bool}
    (h : s.saveBlock env call.raw call.header call.body = (r, s')) (calls : List SaveCall) :
    saveBlocks env s (call :: calls) = (r :: (saveBlocks env s' calls).1, (saveBlocks env s' calls).2) := by
  rw [saveBlocks, h]

/-- No later save answers differently, and after any of them every read finds the same. -/
def SameLater (s t : Storage) : Prop := ∀ calls : List SaveCall,
  (saveBlocks env t calls).1 = (saveBlocks env s calls).1 ∧
    (saveBlocks env t calls).2.disk = (saveBlocks env s calls).2.disk

/-- What the next commit would leave in a database. -/
def pending (s : Storage) (what : DBType) : Store Bytes Value := (s.disk what).write (s.batch what)

theorem pending_addBatch (s : Storage) (es : List Entry) (what : DBType) :
    (s.addBatch es).pending what = (s.pending what).write (opsOn what es) := write_append _ _ _

theorem pending_of_clean {s : Storage} (h : s.Clean) {what : DBType} (hw : what ∈ commitOrder) :
    s.pending what = s.disk what := by
  rw [pending, h what hw, write_nil]

/-- The latest block cannot be read, so no save can succeed. -/
def Stuck (d : Records) : Prop := ∃ e, d.getNthBlockLinkInfo env 0 = .error e

/-- The two storages cannot be told apart by saves. -/
structure Alike (s t : Storage) : Prop where
  disk : t.disk = s.disk
  pending : Stuck env s.disk ∨ ∀ what ∈ commitOrder, t.pending what = s.pending what

theorem Alike.of_clean {s t : Storage} (hs : s.Clean) (ht : t.Clean) (hdisk : t.disk = s.disk) : Alike env s t := by
  refine ⟨hdisk, Or.inr fun what hw => ?_⟩
  rw [pending_of_clean hs hw, pending_of_clean ht hw]
  exact congrFun hdisk what

theorem putBlock_of_stuck {d : Records} (h : Stuck env d) (raw : Bytes) (header body : Json) :
    (putBlock env d raw header body).2 ≠ .ok true := by
  intro htrue
  simp only [putBlock, Puts.and_snd, andThen_eq_true] at htrue
  exact ((putLatestBlockHeader_snd env d header).2.mp htrue.1.1.2) (Or.inl h)

theorem Alike.saveBlock {s t : Storage} (h : Alike env s t) (raw : Bytes) (header body : Json) :
    (t.saveBlock env raw header body).1 = (s.saveBlock env raw header body).1 ∧
      Alike env (s.saveBlock env raw header body).2 (t.saveBlock env raw header body).2 := by
  obtain ⟨es, r, hputs⟩ : ∃ es r, putBlock env s.disk raw header body = (es, r) := ⟨_, _, rfl⟩
  rw [saveBlock_eq env hputs, saveBlock_eq env (s := t) (h.disk ▸ hputs)]
  refine ⟨rfl, ?_⟩
  cases r with
  | error e =>
    refine ⟨h.disk, h.pending.imp_right fun hp what hw => ?_⟩
    rw [finishSave, finishSave, pending_addBatch, pending_addBatch, hp what hw]
  | ok ok =>
    cases ok with
    | false => exact .of_clean env (clean_clearBatchAll _) (clean_clearBatchAll _) h.disk
    | true =>
      have hp : ∀ what ∈ commitOrder, t.pending what = s.pending what :=
        h.pending.resolve_left fun hstuck => putBlock_of_stuck env hstuck raw header body (by rw [hputs])
      refine .of_clean env (clean_clearBatchAll _) (clean_clearBatchAll _) (funext fun what => ?_)
      change (t.addBatch es).commitBatchAll.disk what = (s.addBatch es).commitBatchAll.disk what
      rw [disk_commitBatchAll, disk_commitBatchAll]
      split
      · rename_i hw
        have hpend := pending_addBatch t es what
        rwa [hp what hw, ← pending_addBatch] at hpend
      · exact congrFun h.disk what

theorem Alike.sameLater {s t : Storage} (h : Alike env s t) : SameLater env s t := by
  intro calls
  induction calls generalizing s t with
  | nil => exact ⟨rfl, h.disk⟩
  | cons call calls ih =>
    obtain ⟨hanswer, hstates⟩ := h.saveBlock env call.raw call.header call.body
    obtain ⟨hanswers, hdisk⟩ := ih hstates
    exact ⟨congrArg₂ List.cons hanswer hanswers, hdisk⟩

/-- A block with no transactions under a long id, at height 0 and a height text as long. -/
def freshHeader (n : Nat) : Json :=
  .object [("SSig", .array []), ("bID", .string (List.replicate n 95)),
    ("hgt", .string (48 :: List.replicate n 95)), ("txids", .array [])]

def freshCall (n : Nat) : SaveCall := ⟨[], freshHeader n, .object [("tx", .array [])]⟩

theorem getInt_freshHeader (n : Nat) : Safe.getInt (freshHeader n) "hgt" = .ok 0 := by
  have hdigits : (48 :: List.replicate n (95 : UInt8)).takeWhile isDigit = [48] := by
    cases n <;> simp [List.replicate_succ, isDigit]
  have hread : readInt (48 :: List.replicate n 95) = some 0 := by
    simp [readInt, readDigits, hdigits, isSpace, digitsValue]
  have hstoll : stoll (48 :: List.replicate n 95) = some 0 := by
    rw [stoll, readBounded, hread]
    rfl
  have htext : Safe.getStringOf (freshHeader n) "hgt" = 48 :: List.replicate n 95 := rfl
  rw [Safe.getInt, htext, Safe.parseDecimal, if_neg (by simp), hstoll]
  rfl

theorem putLatestBlockHeader_fresh {d : Records} (h : ¬Stuck env d) (n : Nat) :
    putLatestBlockHeader env d (freshHeader n) = ([], .ok true) := by
  rw [putLatestBlockHeader, getInt_freshHeader]
  cases hd : d.getNthBlockLinkInfo env 0 with
  | error e => exact absurd ⟨e, hd⟩ h
  | ok latest => simp

theorem long_putHeaderItem (header : Json) (id : Bytes) (item : String × String) :
    ∀ e ∈ (putHeaderItem header id item).1, id.length ≤ e.key.length := by
  unfold putHeaderItem
  split
  · split <;> simp
  · split
    · split
      · simp
      · split <;> simp
      · simp
    · simp

theorem long_putBlockHeader (header : Json) (id : Bytes) :
    ∀ e ∈ (putBlockHeader header id).1, id.length ≤ e.key.length := by
  unfold putBlockHeader
  refine List.foldlRecOn (motive := fun r : Puts => ∀ e ∈ r.1, id.length ≤ e.key.length) _ _ (by simp) ?_
  intro r hr item _ e he
  exact (Puts.mem_and he).elim (hr e) (long_putHeaderItem header id item e)

theorem putBlock_fresh {d : Records} (h : ¬Stuck env d) (n : Nat) :
    ∃ es, putBlock env d (freshCall n).raw (freshCall n).header (freshCall n).body = (es, .ok true) ∧
      ∀ e ∈ es, n ≤ e.key.length := by
  have hid : Safe.getStringOf (freshHeader n) "bID" = List.replicate n 95 := rfl
  have hheight : Safe.getStringOf (freshHeader n) "hgt" = 48 :: List.replicate n 95 := rfl
  have hssig := (putHeaderItem_ssig (freshHeader n) (List.replicate n 95)).2.mpr ⟨[], rfl⟩
  have htxids := (putHeaderItem_txids (freshHeader n) (List.replicate n 95)).2.mpr ⟨[], rfl, by simp [Json.dumps, Json.dumpsAll]⟩
  have hlong := long_putBlockHeader (freshHeader n) (List.replicate n 95)
  have hsnd := putBlockHeader_snd (freshHeader n) (List.replicate n 95)
  rw [hssig, htxids, andThen_true_left] at hsnd
  have htx (id : Bytes) : putTransaction (.object [("tx", .array [])]) id =
      ([⟨.transaction, id ++ ascii "_mtree", .dump .null⟩, ⟨.transaction, id ++ ascii "_txCnt", .text []⟩], .ok true) := rfl
  obtain ⟨es, hes⟩ : ∃ es, putBlockHeader (freshHeader n) (List.replicate n 95) = (es, .ok true) := ⟨_, Prod.ext rfl hsnd⟩
  rw [hes] at hlong
  simp only [freshCall, putBlock, hid, hes, putLatestBlockHeader_fresh env h n, htx, putBlockHeight, hheight, putBlockRaw,
    Puts.and_ok]
  refine ⟨_, rfl, fun e he => ?_⟩
  simp only [List.mem_append, List.mem_cons, List.not_mem_nil, or_false, or_assoc] at he
  rcases he with he | rfl | rfl | rfl | rfl | rfl
  · simpa using hlong e he
  all_goals simp

/-- Where saves can succeed, storages with the same disk that the next commits would
leave different are told apart by one more save. -/
theorem SameLater.alike {s t : Storage} (h : SameLater env s t) : Alike env s t := by
  have hdisk : t.disk = s.disk := (h []).2
  refine ⟨hdisk, or_iff_not_imp_left.mpr fun hfree what hw => ?_⟩
  -- no key of the batches is as long as the keys of the fresh block
  obtain ⟨n, hn⟩ : ∃ n, ∀ o ∈ s.batch what ++ t.batch what, o.key.length ≤ n :=
    ⟨_, fun o ho => List.le_sum_of_mem (List.mem_map_of_mem (f := fun o => o.key.length) ho)⟩
  obtain ⟨es, hputs, hlong⟩ := putBlock_fresh env hfree n
  have hfresh : ∀ o ∈ s.batch what ++ t.batch what, ∀ o' ∈ opsOn what es, o.key ≠ o'.key := by
    intro o ho o' ho' heq
    obtain ⟨e, he, rfl⟩ := List.mem_map.mp ho'
    have hkey := hlong e (List.mem_of_mem_filter he)
    have hlen := hn o ho
    rw [heq, Entry.put, Op.key, List.length_append] at hlen
    have hprefix : 0 < (getPrefix e.what).length := by cases e.what <;> decide
    omega
  have hsaved := congrFun (h [freshCall n]).2 what
  rw [saveBlocks_cons env (saveBlock_eq env hputs),
    saveBlocks_cons env (saveBlock_eq env (s := t) (hdisk.symm ▸ hputs))] at hsaved
  change (t.addBatch es).commitBatchAll.disk what = (s.addBatch es).commitBatchAll.disk what at hsaved
  rw [disk_commitBatchAll, disk_commitBatchAll, if_pos hw, if_pos hw] at hsaved
  have hsame := write_left_cancel (s.disk what) (a := t.batch what) (b := s.batch what) (c := opsOn what es)
    (fun o ho => hfresh o (List.mem_append_right _ ho)) (fun o ho => hfresh o (List.mem_append_left _ ho))
    (hdisk ▸ hsaved)
  rw [pending, pending, hdisk]
  exact hsame

/-- What a save has put into the batches when it throws: an exception comes while the
entries for the header, the latest block or the transactions are made. -/
def thrownEntries (d : Records) (header body : Json) : List Entry :=
  let id := Safe.getStringOf header "bID"
  ((((putBlockHeader header id).and (putBlockHeight header id)).and (putLatestBlockHeader env d header)).and
    (putTransaction body id)).1

theorem Puts.and_eq_error {a b : Puts} {es : List Entry} {e : Failure} (h : a.and b = (es, .error e)) :
    a = (es, .error e) ∨ a.2 = .ok true ∧ ∃ fs, b = (fs, .error e) ∧ es = a.1 ++ fs := by
  unfold Puts.and at h
  split at h
  · rename_i ha
    obtain ⟨rfl, hb⟩ := Prod.mk.inj h
    exact Or.inr ⟨ha, b.1, Prod.ext rfl hb, rfl⟩
  · exact Or.inl h

theorem thrownEntries_of_error {d : Records} {raw : Bytes} {header body : Json} {es : List Entry} {e : Failure}
    (h : putBlock env d raw header body = (es, .error e)) : es = thrownEntries env d header body := by
  rcases Puts.and_eq_error h with h | ⟨_, fs, hraw, _⟩
  · exact (congrArg Prod.fst h).symm
  · cases (congrArg Prod.snd hraw)

/-- After a failed save everything goes on as if it had not been made exactly when no
save can succeed any more, when it throws but what it put is what the next commit
would leave anyway, or when it does not throw and nothing new was waiting before. -/
theorem failed_save_leaves_no_trace {s s' : Storage} {raw : Bytes} {header body : Json} {r : Except Failure Bool}
    (h : s.saveBlock env raw header body = (r, s')) (hr : r ≠ .ok true) :
    SameLater env s s' ↔ Stuck env s.disk ∨
      (Throws env s.disk header body ∧
        ∀ what ∈ commitOrder, (s.pending what).write (opsOn what (thrownEntries env s.disk header body)) = s.pending what) ∨
      (¬Throws env s.disk header body ∧ ∀ what ∈ commitOrder, s.pending what = s.disk what) := by
  have halike : SameLater env s s' ↔ Alike env s s' := ⟨SameLater.alike env, Alike.sameLater env⟩
  obtain ⟨es, hputs, rfl⟩ := saveBlock_cases env h
  have hthrows := putBlock_throws_iff env s.disk raw header body
  rw [halike]
  cases r with
  | error e =>
    have ht : Throws env s.disk header body := hthrows.mp ⟨e, by rw [hputs]⟩
    obtain rfl := thrownEntries_of_error env hputs
    have hpend (what : DBType) := pending_addBatch s (thrownEntries env s.disk header body) what
    constructor
    · intro hs
      refine hs.pending.imp_right fun hp => Or.inl ⟨ht, fun what hw => ?_⟩
      rw [← hpend]
      exact hp what hw
    · rintro (hstuck | ⟨_, hp⟩ | ⟨hnot, _⟩)
      · exact ⟨rfl, Or.inl hstuck⟩
      · exact ⟨rfl, Or.inr fun what hw => (hpend what).trans (hp what hw)⟩
      · exact absurd ht hnot
  | ok ok =>
    cases ok with
    | true => exact absurd rfl hr
    | false =>
      have ht : ¬Throws env s.disk header body := fun ht => by
        obtain ⟨e, he⟩ := hthrows.mpr ht
        simp [hputs] at he
      have hclean {what : DBType} (hw : what ∈ commitOrder) :
          (s.finishSave es (.ok false)).pending what = s.disk what :=
        pending_of_clean (clean_clearBatchAll (s.addBatch es)) hw
      constructor
      · intro hs
        exact hs.pending.imp_right fun hp => Or.inr ⟨ht, fun what hw => (hp what hw).symm.trans (hclean hw)⟩
      · rintro (hstuck | ⟨hyes, _⟩ | ⟨_, hp⟩)
        · exact ⟨rfl, Or.inl hstuck⟩
        · exact absurd hyes ht
        · exact ⟨rfl, Or.inr fun what hw => (hclean hw).trans (hp what hw).symm⟩

end Storage

namespace Sample

/-- A header with everything that a save asks for, and no transactions. -/
def plainHeader (id height : String) : Json :=
  .object [("SSig", .array []), ("bID", .string (ascii id)), ("hgt", .string (ascii height)),
    ("time", .string (ascii "5")), ("txids", .array [])]

def plainSave (id height : String) : Storage.SaveCall :=
  ⟨[1], plainHeader id height, .object [("tx", .array [])]⟩

end Sample

open Sample

/-- A header without an array of signatures is refused. -/
theorem Storage.failed_save_leaves_no_trace_null :
    ∃ s', empty.saveBlock base [2] .null .null = (.ok false, s') ∧ SameLater base empty s' := by
  have hsave : empty.saveBlock base [2] .null .null = (.ok false, (empty.saveBlock base [2] .null .null).2) := rfl
  refine ⟨_, hsave, (failed_save_leaves_no_trace base hsave (by decide)).mpr (Or.inr (Or.inr ⟨?_, fun _ _ => rfl⟩))⟩
  rintro (⟨e, he⟩ | ⟨⟨xs, hxs⟩, _⟩)
  · cases he
  · cases hxs

/-- A body that is no object throws after the header, the height and the latest block
are in the batches. The next block takes them along, so a block that was never
saved is found at its height. -/
theorem Storage.leftovers_committed :
    (saveBlocks base empty [⟨[2], plainHeader "AQID" "5", .string []⟩, plainSave "BAUG" "1"]).1 =
        [.error .json, .ok true] ∧
      (saveBlocks base empty [⟨[2], plainHeader "AQID" "5", .string []⟩,
        plainSave "BAUG" "1"]).2.disk.getNthBlockIdB64 5 = ascii "AQID" ∧
      (saveBlocks base empty [plainSave "BAUG" "1"]).1 = [.ok true] ∧
      (saveBlocks base empty [plainSave "BAUG" "1"]).2.disk.getNthBlockIdB64 5 = [] :=
  ⟨rfl, by decide +kernel, rfl, by decide +kernel⟩

end GruutMerger
