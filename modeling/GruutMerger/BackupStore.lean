import GruutMerger.Storage

/-!
# The backup store

Saves and deletions of backup records wait in a batch for the next flush. A save
and a read put the letter of the database in front of the key, a deletion does
not, so it misses the record it is meant for.
-/
namespace GruutMerger

open ByteText KeyValue

/-- The key of a record in the database. -/
def backupKey (key : Bytes) : Bytes := Storage.getPrefix .blockBackup ++ key

theorem backupKey_eq (key : Bytes) : backupKey key = 83 :: key := rfl

theorem backupKey_injective {a b : Bytes} (h : backupKey a = backupKey b) : a = b := List.append_cancel_left h

theorem Records.readBackup_eq (d : Records) (key : Bytes) :
    d.readBackup key = (d .blockBackup (backupKey key)).getD (.text []) := rfl

namespace Storage

theorem flushBackup_eq (s : Storage) : s.flushBackup.disk .blockBackup = (s.disk .blockBackup).write (s.batch .blockBackup) ∧
    s.flushBackup.batch .blockBackup = [] := by
  constructor
  · simp [flushBackup, writeBatch, clearBatch]
  · simp [flushBackup, clearBatch]

theorem batch_addBatch {s : Storage} (es : List Entry) {what : DBType} (h : ∀ e ∈ es, e.what = what) :
    (s.addBatch es).batch what = s.batch what ++ es.map Entry.put := by
  have hall : es.filter (·.what = what) = es := List.filter_eq_self.mpr fun e he => by simp [h e he]
  change s.batch what ++ (es.filter (·.what = what)).map Entry.put = _
  rw [hall]

inductive BackupCall where
  | saveBackup (key : Bytes) (value : Value)
  | delBackup (key : Bytes)
  | clearBackup
  | flushBackup

namespace BackupCall

def run (s : Storage) : BackupCall → Storage
  | saveBackup key value => s.saveBackup key value
  | delBackup key => s.delBackup key
  | clearBackup => s.clearBackup
  | flushBackup => s.flushBackup

/-- The saves and deletions that flushes have made effective and those that still
wait for one, under the keys of the caller. -/
def settle (ops : Batch Bytes Value × Batch Bytes Value) : BackupCall → Batch Bytes Value × Batch Bytes Value
  | saveBackup key value => (ops.1, ops.2 ++ [.put key value])
  | delBackup key => (ops.1, ops.2 ++ [.delete key])
  | clearBackup => (ops.1, [])
  | flushBackup => (ops.1 ++ ops.2, [])

def effective (calls : List BackupCall) : Batch Bytes Value := (calls.foldl settle ([], [])).1

/-- What a map answers: the value of the last save of a key, the empty string when
there is none or a deletion came later. -/
def lastSaved (ops : Batch Bytes Value) (key : Bytes) : Value :=
  match ops.reverse.find? fun o => decide (o.key = key) with
  | some (.put _ value) => value
  | _ => .text []

/-- What an operation of the caller is in the database. -/
def stored : Op Bytes Value → Batch Bytes Value
  | .put key value => [.put (backupKey key) value]
  | .delete key => if key = [] then [] else [.delete key]

/-- A storage that started with the records `d`, after the operations `ops`. -/
def Follows (d : Store Bytes Value) (ops : Batch Bytes Value × Batch Bytes Value) (s : Storage) : Prop :=
  s.disk .blockBackup = d.write (ops.1.flatMap stored) ∧ s.batch .blockBackup = ops.2.flatMap stored

theorem Follows.step {d : Store Bytes Value} {ops : Batch Bytes Value × Batch Bytes Value} {s : Storage}
    (h : Follows d ops s) (call : BackupCall) : Follows d (settle ops call) (call.run s) := by
  obtain ⟨hdisk, hbatch⟩ := h
  cases call with
  | saveBackup key value =>
    refine ⟨hdisk, ?_⟩
    have hadd : (s.saveBackup key value).batch .blockBackup = _ :=
      batch_addBatch [⟨.blockBackup, key, value⟩] (by simp)
    simp only [run, hadd, hbatch, settle, List.flatMap_append, List.flatMap_singleton]
    rfl
  | delBackup key =>
    by_cases hkey : key = []
    · simp [Follows, run, settle, stored, Storage.delBackup, hkey, hdisk, hbatch]
    · simp [Follows, run, settle, stored, Storage.delBackup, hkey, hdisk, hbatch]
  | clearBackup =>
    refine ⟨hdisk, ?_⟩
    simp [run, Storage.clearBackup, clearBatch, settle]
  | flushBackup =>
    obtain ⟨hwritten, hcleared⟩ := flushBackup_eq s
    refine ⟨?_, hcleared⟩
    rw [run, hwritten, hdisk, hbatch, settle, List.flatMap_append, write_append]

theorem Follows.run {d : Store Bytes Value} {ops : Batch Bytes Value × Batch Bytes Value} {s : Storage}
    (h : Follows d ops s) (calls : List BackupCall) :
    Follows d (calls.foldl settle ops) (calls.foldl BackupCall.run s) := by
  induction calls generalizing ops s with
  | nil => exact h
  | cons call calls ih => exact ih (h.step call)

theorem lastSaved_of_last {front back : Batch Bytes Value} {o : Op Bytes Value}
    (h : ∀ o' ∈ back, o'.key ≠ o.key) : lastSaved (front ++ o :: back) o.key = o.value.getD (.text []) := by
  have hback : back.reverse.find? (fun o' => decide (o'.key = o.key)) = none := by
    simpa [List.find?_eq_none] using h
  rw [lastSaved, List.reverse_append, List.reverse_cons, List.append_assoc, List.find?_append, hback]
  cases o <;> simp [Op.key, Op.value]

theorem lastSaved_of_noSave {ops : Batch Bytes Value} {key : Bytes} (h : ∀ v, Op.put key v ∉ ops) :
    lastSaved ops key = .text [] := by
  by_cases hop : ∃ o ∈ ops, o.key = key
  · obtain ⟨front, o, back, rfl, rfl, hback⟩ := exists_last hop
    rw [lastSaved_of_last hback]
    cases o with
    | put key v => exact absurd (by simp [Op.key]) (h v)
    | delete key => rfl
  · have hnone : ops.reverse.find? (fun o => decide (o.key = key)) = none := by
      simpa [List.find?_eq_none] using hop
    rw [lastSaved, hnone]

/-- The operations that reach the record of a key: its saves, and the deletions of
the key with the letter of the database in front. -/
theorem key_of_mem_stored {o o' : Op Bytes Value} {key : Bytes} (h : o' ∈ stored o) (hkey : o'.key = backupKey key) :
    (∃ v, o = .put key v) ∨ o = .delete (backupKey key) := by
  cases o with
  | put key' v =>
    rw [List.mem_singleton.mp h] at hkey
    exact Or.inl ⟨v, by rw [backupKey_injective hkey]⟩
  | delete key' =>
    by_cases hnil : key' = []
    · simp [stored, hnil] at h
    · simp only [stored, if_neg hnil, List.mem_singleton] at h
      rw [h] at hkey
      exact Or.inr (by rw [← hkey, Op.key])

theorem stored_delete (key : Bytes) : stored (.delete (backupKey key)) = [.delete (backupKey key)] := by
  rw [stored, if_neg (by simp [backupKey_eq])]

/-- What the database holds under a key, as the empty string if it is nothing. -/
def held (ops : Batch Bytes Value) (key : Bytes) : Value :=
  (Store.write (fun _ => none) (ops.flatMap stored) (backupKey key)).getD (.text [])

/-- Without a save only a deletion of the key with the letter in front hits the record. -/
theorem write_of_noSave (s : Store Bytes Value) {ops : Batch Bytes Value} {key : Bytes} (h : ∀ v, Op.put key v ∉ ops) :
    (Op.delete (backupKey key) ∈ ops → s.write (ops.flatMap stored) (backupKey key) = none) ∧
      (Op.delete (backupKey key) ∉ ops → s.write (ops.flatMap stored) (backupKey key) = s (backupKey key)) := by
  constructor
  · intro hdel
    have hmem : Op.delete (backupKey key) ∈ ops.flatMap stored :=
      List.mem_flatMap.mpr ⟨_, hdel, by rw [stored_delete]; exact List.mem_singleton.mpr rfl⟩
    obtain ⟨o, ho, hkey, hval⟩ := write_named s _ _ ⟨_, hmem, rfl⟩
    obtain ⟨a, ha, hoa⟩ := List.mem_flatMap.mp ho
    rcases key_of_mem_stored hoa hkey with ⟨v, rfl⟩ | rfl
    · exact absurd ha (h v)
    · rw [stored_delete, List.mem_singleton] at hoa
      exact hval.trans (by rw [hoa]; rfl)
  · intro hdel
    refine write_other _ _ _ fun o ho hkey => ?_
    obtain ⟨a, ha, hoa⟩ := List.mem_flatMap.mp ho
    rcases key_of_mem_stored hoa hkey with ⟨v, rfl⟩ | rfl
    · exact h v ha
    · exact hdel ha

theorem held_of_noSave {ops : Batch Bytes Value} {key : Bytes} (h : ∀ v, Op.put key v ∉ ops) :
    held ops key = .text [] := by
  unfold held
  by_cases hdel : Op.delete (backupKey key) ∈ ops
  · rw [(write_of_noSave _ h).1 hdel]
    rfl
  · rw [(write_of_noSave _ h).2 hdel]
    rfl

/-- The value of the last save of a key, and the operations after it. -/
def sinceLastSave (key : Bytes) : Batch Bytes Value → Option (Value × Batch Bytes Value)
  | [] => none
  | .put key' value :: ops => (sinceLastSave key ops).or (if key' = key then some (value, ops) else none)
  | .delete _ :: ops => sinceLastSave key ops

theorem sinceLastSave_none {key : Bytes} {ops : Batch Bytes Value} (h : sinceLastSave key ops = none) :
    ∀ v, Op.put key v ∉ ops := by
  induction ops with
  | nil => simp
  | cons o ops ih =>
    cases o with
    | delete key' => simpa using ih h
    | put key' value =>
      rw [sinceLastSave, Option.or_eq_none_iff] at h
      have hkey : key' ≠ key := by
        rintro rfl
        simp at h
      simpa [hkey.symm] using ih h.1

theorem sinceLastSave_some {key : Bytes} {ops back : Batch Bytes Value} {v : Value}
    (h : sinceLastSave key ops = some (v, back)) :
    ∃ front, ops = front ++ .put key v :: back ∧ ∀ v', Op.put key v' ∉ back := by
  induction ops with
  | nil => cases h
  | cons o ops ih =>
    cases o with
    | delete key' =>
      obtain ⟨front, rfl, hback⟩ := ih h
      exact ⟨.delete key' :: front, rfl, hback⟩
    | put key' value =>
      cases hrest : sinceLastSave key ops with
      | some r =>
        rw [sinceLastSave, hrest, Option.some_or] at h
        obtain ⟨front, rfl, hback⟩ := ih (hrest.trans h)
        exact ⟨.put key' value :: front, rfl, hback⟩
      | none =>
        rw [sinceLastSave, hrest, Option.none_or] at h
        split at h
        · rename_i hkey
          cases h
          exact ⟨[], by rw [hkey]; rfl, sinceLastSave_none hrest⟩
        · cases h

section LastSave

variable {front back : Batch Bytes Value} {key : Bytes} {v : Value} (hback : ∀ v', Op.put key v' ∉ back)

include hback

theorem lastSaved_deleted (h : Op.delete key ∈ back) : lastSaved (front ++ .put key v :: back) key = .text [] := by
  obtain ⟨first, o, last, rfl, hkey, hlast⟩ := exists_last (p := fun o : Op Bytes Value => o.key = key) ⟨_, h, rfl⟩
  subst hkey
  cases o with
  | put key v' => exact absurd (by simp [Op.key]) (hback v')
  | delete key =>
    have hdeleted : lastSaved ((front ++ .put key v :: first) ++ .delete key :: last) key = .text [] :=
      lastSaved_of_last hlast
    rw [List.append_assoc] at hdeleted
    exact hdeleted

theorem lastSaved_kept (h : Op.delete key ∉ back) : lastSaved (front ++ .put key v :: back) key = v := by
  refine lastSaved_of_last (o := .put key v) fun o ho hkey => ?_
  subst hkey
  cases o with
  | put key v' => exact hback v' ho
  | delete key => exact h ho

theorem held_deleted (h : Op.delete (backupKey key) ∈ back) : held (front ++ .put key v :: back) key = .text [] := by
  rw [held, List.flatMap_append, List.flatMap_cons, write_append, write_append, (write_of_noSave _ hback).1 h]
  rfl

theorem held_kept (h : Op.delete (backupKey key) ∉ back) : held (front ++ .put key v :: back) key = v := by
  rw [held, List.flatMap_append, List.flatMap_cons, write_append, write_append, (write_of_noSave _ hback).2 h]
  simp [stored, Store.apply, Op.key, Op.value]

end LastSave

/-- Reading a key gives what a map would give exactly when, after the last flushed save of
it, the flushed deletions hit the key and the key with an `S` in front both or
neither. -/
theorem backup_is_map {s : Storage} (hdisk : s.disk .blockBackup = fun _ => none)
    (hbatch : s.batch .blockBackup = []) (calls : List BackupCall) (key : Bytes) :
    (calls.foldl run s).disk.readBackup key = lastSaved (effective calls) key ↔
      ∀ v back, sinceLastSave key (effective calls) = some (v, back) → v ≠ .text [] →
        (.delete key ∈ back ↔ .delete (backupKey key) ∈ back) := by
  have hstart : Follows (fun _ => none) ([], []) s := ⟨hdisk, hbatch⟩
  have hread : (calls.foldl run s).disk.readBackup key = held (effective calls) key := by
    rw [Records.readBackup_eq, (hstart.run calls).1]
    rfl
  rw [hread]
  generalize effective calls = ops
  cases hsince : sinceLastSave key ops with
  | none =>
    rw [held_of_noSave (sinceLastSave_none hsince), lastSaved_of_noSave (sinceLastSave_none hsince)]
    simp
  | some r =>
    obtain ⟨v, back⟩ := r
    obtain ⟨front, rfl, hback⟩ := sinceLastSave_some hsince
    simp only [Option.some.injEq, Prod.mk.injEq, and_imp, forall_apply_eq_imp_iff, forall_eq']
    by_cases hmap : Op.delete key ∈ back
    · by_cases hdb : Op.delete (backupKey key) ∈ back
      · simp [held_deleted hback hdb, lastSaved_deleted hback hmap, hmap, hdb]
      · simp [held_kept hback hdb, lastSaved_deleted hback hmap, hmap, hdb]
    · by_cases hdb : Op.delete (backupKey key) ∈ back
      · simp [held_deleted hback hdb, lastSaved_kept hback hmap, hmap, hdb, eq_comm]
      · simp [held_kept hback hdb, lastSaved_kept hback hmap, hmap, hdb]

theorem backup_is_map_saved :
    ([saveBackup (ascii "a") (.text [1]), flushBackup, delBackup (ascii "b"), saveBackup (ascii "a") (.text [2]),
      clearBackup, flushBackup].foldl run Storage.empty).disk.readBackup (ascii "a") = .text [1] := by
  refine ((backup_is_map rfl rfl _ _).mpr fun v back hsince _ => ?_).trans rfl
  have hback : back = [] := (congrArg Prod.snd (Option.some.inj hsince)).symm
  simp [hback]

/-- A flushed deletion leaves the record, and the deletion of another key takes it. -/
theorem deletion_misses_record :
    ([saveBackup (ascii "a") (.text [1]), flushBackup, delBackup (ascii "a"), flushBackup].foldl run
        Storage.empty).disk.readBackup (ascii "a") = .text [1] ∧
      lastSaved (effective [saveBackup (ascii "a") (.text [1]), flushBackup, delBackup (ascii "a"), flushBackup])
        (ascii "a") = .text [] ∧
      ([saveBackup (ascii "a") (.text [1]), flushBackup, delBackup (ascii "Sa"), flushBackup].foldl run
        Storage.empty).disk.readBackup (ascii "a") = .text [] :=
  ⟨rfl, rfl, rfl⟩

end BackupCall

end Storage

end GruutMerger
