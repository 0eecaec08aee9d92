import GruutMerger.Sample
import Mathlib.Data.List.AList
import Mathlib.Data.List.MinMax

/-!
# The highest mergers

The tracker answers with records of mergers, their heights among them. At the start a
merger asks for the greatest height and those who have it and decides whether it has to
catch up. A height is noted only if its record has a field `merger`, which records of
mergers do not have; so the answer is right exactly when those with the greatest height
happen to be noted.
-/
namespace GruutMerger

open ByteText Fallible

structure MergerInfo where
  id : Bytes
  address : Bytes
  port : Bytes
  cert : Bytes
  connStatus : Bool

/-- The connection manager, with the certificates of `CertificatePool`. -/
structure ConnManager where
  mergerInfo : AList fun _ : Bytes => MergerInfo
  certMap : AList fun _ : Bytes => Bytes
  enabledMergerCheck : Bool
  /-- `m_init_block_hgt_list` -/
  initBlockHgtList : List (Bytes × Nat)

variable (env : Env)

namespace ConnManager

def setMergerInfo (c : ConnManager) (info : MergerInfo) (connStatus : Bool) : ConnManager :=
  { c with mergerInfo := c.mergerInfo.insert (env.base64.encode info.id) { info with connStatus := connStatus } }

/-- `CertificatePool::pushCert` -/
def pushCert (c : ConnManager) (id cert : Bytes) : ConnManager :=
  { c with certMap := c.certMap.insert (env.base64.encode id) cert }

def setMergerBlockHgt (c : ConnManager) (id : Bytes) (height : Nat) : ConnManager :=
  { c with initBlockHgtList := c.initBlockHgtList ++ [(id, height)] }

/-- The body of the loop of `setMultiMergerInfo`. -/
def setOneMergerInfo (c : ConnManager) (merger : Json) : Except Failure ConnManager := do
  let mergerIdB64 := Safe.getStringOf merger "mID"
  let mergerId := env.base64.decode mergerIdB64
  if mergerIdB64 = env.base64.encode env.myId then return c
  let info : MergerInfo :=
    { id := mergerId
      address := Safe.getStringOf merger "ip"
      port := Safe.getStringOf merger "port"
      cert := Safe.getStringOf merger "mCert"
      connStatus := false }
  let c := (c.pushCert env mergerId info.cert).setMergerInfo env info true
  if (merger.find "merger").isSome then
    return c.setMergerBlockHgt mergerId (← Safe.getInt merger "hgt")
  return c

def setMultiMergerInfo (c : ConnManager) (mergerList : List Json) : Except Failure ConnManager :=
  mergerList.foldlM (setOneMergerInfo env) c

/-- `std::max_element`: the first of the greatest. -/
def maxElement (x : Bytes × Nat) (xs : List (Bytes × Nat)) : Bytes × Nat :=
  xs.foldl (fun best e => if best.2 < e.2 then e else best) x

def getMaxBlockHgtMergers (c : ConnManager) : Nat × List Bytes :=
  match c.initBlockHgtList with
  | [] => (0, [])
  | x :: xs =>
    let maxHeight := (maxElement x xs).2
    (maxHeight, ((x :: xs).filter fun info => info.2 = maxHeight).map Prod.fst)

/-- A merger that is not known is not connected. -/
def getMergerStatus (c : ConnManager) (id : Bytes) : Bool :=
  !c.enabledMergerCheck || ((c.mergerInfo.lookup (env.base64.encode id)).map (·.connStatus)).getD false

def clearBlockHgtList (c : ConnManager) : ConnManager := { c with initBlockHgtList := [] }

end ConnManager

/-- How `selfCheckUp` goes on. -/
inductive SyncDecision where
  /-- synchronisation, without knowing of a height -/
  | notSure
  /-- no synchronisation: high enough -/
  | noNeed
  /-- synchronisation with one of the highest -/
  | connected
  /-- no synchronisation: none of the highest was connected in time -/
  | noConnection
  deriving DecidableEq

def SyncDecision.skips : SyncDecision → Bool
  | noNeed | noConnection => true
  | _ => false

/-- `polls` is the connection manager as it is found while waiting for one of the highest
mergers. -/
def selfCheckUp (height : Nat) (c : ConnManager) (polls : List ConnManager) : SyncDecision × ConnManager :=
  let (maxBlockHeight, mids) := c.getMaxBlockHgtMergers
  let decision :=
    if mids = [] then .notSure
    else if maxBlockHeight ≤ height then .noNeed
    else if polls.any fun p => mids.any (p.getMergerStatus env) then .connected
    else .noConnection
  (decision, c.clearBlockHgtList)

/-- A record with an id and a height in decimal. -/
def IsRecord (r : Json) : Prop :=
  ∃ mid hgt, r.find "mID" = some (.string mid) ∧ r.find "hgt" = some (.string hgt) ∧ Digits hgt

def recordId (r : Json) : Bytes := env.base64.decode (Safe.getStringOf r "mID")

def recordHeight (r : Json) : Nat := digitsValue (Safe.getStringOf r "hgt") 0

/-- A record of another merger with the greatest height among those. -/
def Highest (records : List Json) (r : Json) : Prop :=
  (r ∈ records ∧ recordId env r ≠ env.myId) ∧
    ∀ q ∈ records, recordId env q ≠ env.myId → recordHeight q ≤ recordHeight r

/-- The greatest height among the others and the ids of those who have it, or nothing if
there are no others. -/
structure Tells (records : List Json) (answer : Nat × List Bytes) : Prop where
  height : ∀ r, Highest env records r → answer.1 = recordHeight r
  ids : ∀ id, id ∈ answer.2 ↔ ∃ r, Highest env records r ∧ recordId env r = id
  none : (∀ r ∈ records, recordId env r = env.myId) → answer = (0, [])

/-- The records are taken up without an exception, the answer is right, and synchronisation
is skipped only by a merger that is as high as the highest. -/
def KnowsHighest (c : ConnManager) (records : List Json) (height : Nat) (polls : List ConnManager) : Prop :=
  ∃ c', c.setMultiMergerInfo env records = .ok c' ∧ Tells env records c'.getMaxBlockHgtMergers ∧
    ((selfCheckUp env height c' polls).1.skips = true → ∀ r, Highest env records r → recordHeight r ≤ height)

/-- The record's height is noted: its id is not spelled as the own one is, and there is a
field `merger`. -/
def Noted (r : Json) : Prop :=
  Safe.getStringOf r "mID" ≠ env.base64.encode env.myId ∧ (r.find "merger").isSome = true

instance (r : Json) : Decidable (Noted env r) := inferInstanceAs (Decidable (_ ∧ _))

/-- Of what is noted every height fits 63 bits, the highest are among it, and what is noted
of the merger itself, in another spelling of its id, is not as high. -/
structure NotedRight (records : List Json) : Prop where
  fits : ∀ r ∈ records, Noted env r → recordHeight r < 2 ^ 63
  highest : ∀ r, Highest env records r →
    ∃ q ∈ records, Noted env q ∧ recordId env q = recordId env r ∧ recordHeight q = recordHeight r
  own : ∀ q ∈ records, Noted env q → recordId env q = env.myId →
    ∃ r, Highest env records r ∧ recordHeight q < recordHeight r

/-- Whoever is lower than the highest finds one of them connected. -/
def Reaches (records : List Json) (height : Nat) (polls : List ConnManager) : Prop :=
  ∀ r, Highest env records r → recordHeight r ≤ height ∨
    ∃ p ∈ polls, ∃ q, Highest env records q ∧ p.getMergerStatus env (recordId env q) = true

variable {env} {c c' : ConnManager} {records : List Json} {r : Json}

theorem getInt_of_isRecord (hr : IsRecord r) {n : Nat} :
    Safe.getInt r "hgt" = .ok n ↔ recordHeight r < 2 ^ 63 ∧ n = recordHeight r := by
  obtain ⟨_, hgt, _, hfind, hdigits⟩ := hr
  have htext : Safe.getStringOf r "hgt" = hgt := by rw [Safe.getStringOf, hfind]; rfl
  rw [Safe.getInt, recordHeight, htext, Safe.parseDecimal_of_digits hdigits]

/-- A record that is noted adds its id and height, any other adds nothing. -/
theorem setOneMergerInfo_eq_ok (hr : IsRecord r) (h : c.setOneMergerInfo env r = .ok c') :
    (Noted env r → recordHeight r < 2 ^ 63) ∧
      c'.initBlockHgtList = c.initBlockHgtList ++ if Noted env r then [(recordId env r, recordHeight r)] else [] := by
  simp only [ConnManager.setOneMergerInfo] at h
  split at h
  · rename_i hown
    cases h
    rw [if_neg fun hn => hn.1 hown]
    exact ⟨fun hn => absurd hown hn.1, (List.append_nil _).symm⟩
  · rename_i hother
    split at h
    · rename_i hfield
      obtain ⟨height, hheight, h⟩ := bind_eq_ok.mp h
      obtain ⟨hfits, rfl⟩ := (getInt_of_isRecord hr).mp hheight
      cases h
      rw [if_pos ⟨hother, hfield⟩]
      exact ⟨fun _ => hfits, rfl⟩
    · rename_i hfield
      cases h
      rw [if_neg fun hn => hfield hn.2]
      exact ⟨fun hn => absurd hn.2 hfield, (List.append_nil _).symm⟩

theorem exists_setOneMergerInfo (hr : IsRecord r) (hfits : Noted env r → recordHeight r < 2 ^ 63) :
    ∃ c', c.setOneMergerInfo env r = .ok c' := by
  simp only [ConnManager.setOneMergerInfo]
  split
  · exact ⟨_, rfl⟩
  · rename_i hother
    split
    · rename_i hfield
      exact ⟨_, bind_eq_ok.mpr ⟨_, (getInt_of_isRecord hr).mpr ⟨hfits ⟨hother, hfield⟩, rfl⟩, rfl⟩⟩
    · exact ⟨_, rfl⟩

variable (env) in
/-- What is noted of a list of records. -/
def notedHeights (records : List Json) : List (Bytes × Nat) :=
  (records.filter fun r => Noted env r).map fun r => (recordId env r, recordHeight r)

theorem mem_notedHeights {id : Bytes} {height : Nat} :
    (id, height) ∈ notedHeights env records ↔
      ∃ q ∈ records, Noted env q ∧ recordId env q = id ∧ recordHeight q = height := by
  simp only [notedHeights, List.mem_map, List.mem_filter, decide_eq_true_eq, Prod.mk.injEq, and_assoc]

/-- The loop ends when every height that is noted can be read, and appends them in order. -/
theorem setMultiMergerInfo_iff (hrecords : ∀ r ∈ records, IsRecord r) :
    (∃ c', c.setMultiMergerInfo env records = .ok c') ↔ ∀ r ∈ records, Noted env r → recordHeight r < 2 ^ 63 := by
  induction records generalizing c with
  | nil => exact ⟨fun _ => by simp, fun _ => ⟨c, rfl⟩⟩
  | cons r records ih =>
    have hr := hrecords r (by simp)
    have hrest : ∀ q ∈ records, IsRecord q := fun q hq => hrecords q (by simp [hq])
    rw [List.forall_mem_cons]
    constructor
    · rintro ⟨c', h⟩
      obtain ⟨c₁, h₁, h⟩ := foldlM_cons_eq_ok.mp h
      exact ⟨(setOneMergerInfo_eq_ok hr h₁).1, (ih hrest).mp ⟨c', h⟩⟩
    · rintro ⟨hfits, hall⟩
      obtain ⟨c₁, h₁⟩ := exists_setOneMergerInfo (c := c) hr hfits
      obtain ⟨c', h⟩ := (ih (c := c₁) hrest).mpr hall
      exact ⟨c', foldlM_cons_eq_ok.mpr ⟨c₁, h₁, h⟩⟩

theorem heights_setMultiMergerInfo (hrecords : ∀ r ∈ records, IsRecord r)
    (h : c.setMultiMergerInfo env records = .ok c') :
    c'.initBlockHgtList = c.initBlockHgtList ++ notedHeights env records := by
  induction records generalizing c with
  | nil =>
    cases h
    exact (List.append_nil _).symm
  | cons r records ih =>
    obtain ⟨c₁, h₁, h⟩ := foldlM_cons_eq_ok.mp h
    rw [ih (fun q hq => hrecords q (by simp [hq])) h, (setOneMergerInfo_eq_ok (hrecords r (by simp)) h₁).2,
      List.append_assoc, notedHeights, notedHeights, List.filter_cons]
    by_cases hn : Noted env r
    · simp [hn]
    · simp [hn]

/-- The greatest is one of them, and none is greater. -/
theorem maxElement_spec (x : Bytes × Nat) (xs : List (Bytes × Nat)) :
    ConnManager.maxElement x xs ∈ x :: xs ∧ ∀ e ∈ x :: xs, e.2 ≤ (ConnManager.maxElement x xs).2 := by
  induction xs generalizing x with
  | nil => simp [ConnManager.maxElement]
  | cons y xs ih =>
    rw [ConnManager.maxElement, List.foldl_cons]
    split
    · rename_i hlt
      obtain ⟨hmem, hle⟩ := ih y
      refine ⟨List.mem_cons_of_mem _ hmem, fun e he => ?_⟩
      rcases List.mem_cons.mp he with rfl | he
      · exact hlt.le.trans (hle y (by simp))
      · exact hle e he
    · rename_i hnot
      obtain ⟨hmem, hle⟩ := ih x
      refine ⟨?_, fun e he => ?_⟩
      · rcases List.mem_cons.mp hmem with heq | hmem
        · exact List.mem_cons.mpr (.inl heq)
        · exact List.mem_cons_of_mem _ (List.mem_cons_of_mem _ hmem)
      · rcases List.mem_cons.mp he with rfl | he
        · exact hle e (by simp)
        · rcases List.mem_cons.mp he with rfl | he
          · exact (Nat.not_lt.mp hnot).trans (hle x (by simp))
          · exact hle e (by simp [he])

theorem getMax_nil (h : c.initBlockHgtList = []) : c.getMaxBlockHgtMergers = (0, []) := by
  rw [ConnManager.getMaxBlockHgtMergers, h]

/-- The answer, if there is a height to choose from. -/
theorem getMax_spec (h : c.initBlockHgtList ≠ []) :
    (∃ id, (id, c.getMaxBlockHgtMergers.1) ∈ c.initBlockHgtList) ∧
      (∀ e ∈ c.initBlockHgtList, e.2 ≤ c.getMaxBlockHgtMergers.1) ∧
      ∀ id, id ∈ c.getMaxBlockHgtMergers.2 ↔ (id, c.getMaxBlockHgtMergers.1) ∈ c.initBlockHgtList := by
  unfold ConnManager.getMaxBlockHgtMergers
  split
  · rename_i hnil
    exact absurd hnil h
  · rename_i x xs hcons
    obtain ⟨hmem, hle⟩ := maxElement_spec x xs
    rw [hcons]
    refine ⟨⟨_, hmem⟩, hle, fun id => ?_⟩
    simp only [List.mem_map, List.mem_filter, decide_eq_true_eq]
    constructor
    · rintro ⟨⟨id, height⟩, ⟨he, rfl⟩, rfl⟩
      exact he
    · intro he
      exact ⟨_, ⟨he, rfl⟩, rfl⟩

/-- Among others there is a highest one. -/
theorem exists_highest (h : ∃ r ∈ records, recordId env r ≠ env.myId) : ∃ r, Highest env records r := by
  obtain ⟨q, hq, hother⟩ := h
  have hmem : q ∈ records.filter fun r => recordId env r ≠ env.myId := List.mem_filter.mpr ⟨hq, decide_eq_true hother⟩
  obtain ⟨r, hr⟩ := Option.ne_none_iff_exists'.mp fun hnone =>
    List.ne_nil_of_mem hmem ((List.argmax_eq_none (f := recordHeight)).mp hnone)
  obtain ⟨hrmem, hrother⟩ := List.mem_filter.mp (List.argmax_mem hr)
  refine ⟨r, ⟨hrmem, of_decide_eq_true hrother⟩, fun p hp hpother => ?_⟩
  exact List.le_of_mem_argmax (List.mem_filter.mpr ⟨hp, decide_eq_true hpother⟩) hr

theorem Highest.height_eq {q : Json} (hr : Highest env records r) (hq : Highest env records q) :
    recordHeight q = recordHeight r :=
  Nat.le_antisymm (hr.2 q hq.1.1 hq.1.2) (hq.2 r hr.1.1 hr.1.2)

section Answer

variable (hlist : c.initBlockHgtList = notedHeights env records)
include hlist

/-- The ids of the answer are among what is noted. -/
theorem Tells.highest_noted (h : Tells env records c.getMaxBlockHgtMergers) (hr : Highest env records r) :
    ∃ q ∈ records, Noted env q ∧ recordId env q = recordId env r ∧ recordHeight q = recordHeight r := by
  have hid := (h.ids _).mpr ⟨r, hr, rfl⟩
  have hne : c.initBlockHgtList ≠ [] := by
    intro hnil
    rw [getMax_nil hnil] at hid
    cases hid
  have hmem := ((getMax_spec hne).2.2 _).mp hid
  rwa [hlist, h.height r hr, mem_notedHeights] at hmem

theorem Tells.own_lower (h : Tells env records c.getMaxBlockHgtMergers) {q : Json} (hq : q ∈ records)
    (hnoted : Noted env q) (hown : recordId env q = env.myId) :
    ∃ r, Highest env records r ∧ recordHeight q < recordHeight r := by
  have hmem : (env.myId, recordHeight q) ∈ c.initBlockHgtList := by
    rw [hlist]
    exact mem_notedHeights.mpr ⟨q, hq, hnoted, hown, rfl⟩
  obtain ⟨⟨id, hid⟩, hle, hids⟩ := getMax_spec (List.ne_nil_of_mem hmem)
  by_cases hothers : ∃ r ∈ records, recordId env r ≠ env.myId
  · obtain ⟨r, hr⟩ := exists_highest hothers
    refine ⟨r, hr, ?_⟩
    rw [← h.height r hr]
    refine lt_of_le_of_ne (hle _ hmem) fun heq => ?_
    -- as high as the highest, the merger itself would be among the ids
    obtain ⟨p, hp, hpown⟩ := (h.ids env.myId).mp ((hids _).mpr (heq ▸ hmem))
    exact hp.1.2 hpown
  · push Not at hothers
    have hid' := (hids id).mpr hid
    rw [h.none hothers] at hid'
    cases hid'

/-- Where a highest one is noted, and nothing as high of the merger itself. -/
theorem tells_of_highest (hr : Highest env records r)
    (hhighest : ∀ r, Highest env records r →
      ∃ q ∈ records, Noted env q ∧ recordId env q = recordId env r ∧ recordHeight q = recordHeight r)
    (hown : ∀ q ∈ records, Noted env q → recordId env q = env.myId → recordHeight q < recordHeight r) :
    Tells env records c.getMaxBlockHgtMergers := by
  have hmem : (recordId env r, recordHeight r) ∈ c.initBlockHgtList := by
    rw [hlist]
    exact mem_notedHeights.mpr (hhighest r hr)
  have hle_of_noted : ∀ q ∈ records, Noted env q → recordHeight q ≤ recordHeight r := by
    intro q hq hnoted
    by_cases hqown : recordId env q = env.myId
    · exact (hown q hq hnoted hqown).le
    · exact hr.2 q hq hqown
  obtain ⟨⟨id, hid⟩, hle, hids⟩ := getMax_spec (List.ne_nil_of_mem hmem)
  have hmax : c.getMaxBlockHgtMergers.1 = recordHeight r := by
    refine Nat.le_antisymm ?_ (hle _ hmem)
    rw [hlist] at hid
    obtain ⟨q, hq, hnoted, _, hheight⟩ := mem_notedHeights.mp hid
    rw [← hheight]
    exact hle_of_noted q hq hnoted
  refine ⟨fun q hq => hmax.trans (hq.height_eq hr), fun id => ?_, fun hall => absurd (hall r hr.1.1) hr.1.2⟩
  rw [hids, hmax, hlist, mem_notedHeights]
  constructor
  · rintro ⟨q, hq, hnoted, hqid, hqheight⟩
    have hqother : recordId env q ≠ env.myId := fun hqown => (hown q hq hnoted hqown).ne hqheight
    exact ⟨q, ⟨⟨hq, hqother⟩, fun p hp hpother => hqheight ▸ hr.2 p hp hpother⟩, hqid⟩
  · rintro ⟨q, hq, rfl⟩
    rw [← hr.height_eq hq]
    exact hhighest q hq

theorem tells_of_nothing_noted (hothers : ∀ r ∈ records, recordId env r = env.myId)
    (hnoted : ∀ q ∈ records, ¬ Noted env q) : Tells env records c.getMaxBlockHgtMergers := by
  have hnone : ∀ r, ¬ Highest env records r := fun r hr => hr.1.2 (hothers r hr.1.1)
  have hnil : c.initBlockHgtList = [] := by
    rw [hlist]
    refine List.eq_nil_iff_forall_not_mem.mpr fun e he => ?_
    obtain ⟨q, hq, hq', _⟩ := mem_notedHeights.mp he
    exact hnoted q hq hq'
  rw [getMax_nil hnil]
  exact ⟨fun r hr => absurd hr (hnone r), fun id => by simp [hnone], fun _ => rfl⟩

/-- What is right to note for the answer to be right. -/
theorem tells_iff :
    Tells env records c.getMaxBlockHgtMergers ↔
      (∀ r, Highest env records r →
        ∃ q ∈ records, Noted env q ∧ recordId env q = recordId env r ∧ recordHeight q = recordHeight r) ∧
      ∀ q ∈ records, Noted env q → recordId env q = env.myId →
        ∃ r, Highest env records r ∧ recordHeight q < recordHeight r := by
  constructor
  · intro h
    exact ⟨fun r hr => h.highest_noted hlist hr, fun q hq => h.own_lower hlist hq⟩
  · rintro ⟨hhighest, hown⟩
    by_cases hothers : ∃ r ∈ records, recordId env r ≠ env.myId
    · obtain ⟨r, hr⟩ := exists_highest hothers
      refine tells_of_highest hlist hr hhighest fun q hq hnoted hqown => ?_
      obtain ⟨p, hp, hlt⟩ := hown q hq hnoted hqown
      exact hr.height_eq hp ▸ hlt
    · push Not at hothers
      refine tells_of_nothing_noted hlist hothers fun q hq hnoted => ?_
      obtain ⟨r, hr, _⟩ := hown q hq hnoted (hothers q hq)
      exact hr.1.2 (hothers r hr.1.1)

end Answer

/-- With the right answer, synchronisation is skipped wrongly only for want of a connection. -/
theorem Tells.skips_iff (h : Tells env records c.getMaxBlockHgtMergers) {height : Nat} {polls : List ConnManager} :
    ((selfCheckUp env height c polls).1.skips = true → ∀ r, Highest env records r → recordHeight r ≤ height) ↔
      Reaches env records height polls := by
  by_cases hothers : ∃ r, Highest env records r
  · obtain ⟨r, hr⟩ := hothers
    have hne : c.getMaxBlockHgtMergers.2 ≠ [] := List.ne_nil_of_mem ((h.ids _).mpr ⟨r, hr, rfl⟩)
    have hseen : (polls.any fun p => c.getMaxBlockHgtMergers.2.any (p.getMergerStatus env)) = true ↔
        ∃ p ∈ polls, ∃ q, Highest env records q ∧ p.getMergerStatus env (recordId env q) = true := by
      simp only [List.any_eq_true, h.ids]
      refine exists_congr fun p => and_congr_right fun _ => ?_
      constructor
      · rintro ⟨_, ⟨q, hq, rfl⟩, hstatus⟩
        exact ⟨q, hq, hstatus⟩
      · rintro ⟨q, hq, hstatus⟩
        exact ⟨_, ⟨q, hq, rfl⟩, hstatus⟩
    have hall : (∀ q, Highest env records q → recordHeight q ≤ height) ↔ recordHeight r ≤ height :=
      ⟨fun hall => hall r hr, fun hle q hq => hr.height_eq hq ▸ hle⟩
    have hreaches : Reaches env records height polls ↔ recordHeight r ≤ height ∨
        ∃ p ∈ polls, ∃ q, Highest env records q ∧ p.getMergerStatus env (recordId env q) = true :=
      ⟨fun hreach => hreach r hr, fun hor q hq => hr.height_eq hq ▸ hor⟩
    rw [hall, hreaches, ← hseen, selfCheckUp]
    simp only [hne, if_false, h.height r hr]
    by_cases hle : recordHeight r ≤ height
    · simp [hle]
    · rw [if_neg hle]
      split
      · rename_i hconn
        simp [hconn, SyncDecision.skips]
      · rename_i hconn
        simp [hle, hconn, SyncDecision.skips]
  · push Not at hothers
    exact ⟨fun _ r hr => absurd hr (hothers r), fun _ _ r hr => absurd hr (hothers r)⟩

section Cleared

variable (hrecords : ∀ r ∈ records, IsRecord r) (hclear : c.initBlockHgtList = []) {height : Nat}
  {polls : List ConnManager}

include hrecords hclear

theorem heights_of_cleared (h : c.setMultiMergerInfo env records = .ok c') :
    c'.initBlockHgtList = notedHeights env records := by
  rw [heights_setMultiMergerInfo hrecords h, hclear, List.nil_append]

theorem KnowsHighest.notedRight (h : KnowsHighest env c records height polls) :
    NotedRight env records ∧ Reaches env records height polls := by
  obtain ⟨c', hset, htells, hskips⟩ := h
  obtain ⟨hhighest, hown⟩ := (tells_iff (heights_of_cleared hrecords hclear hset)).mp htells
  exact ⟨⟨(setMultiMergerInfo_iff hrecords).mp ⟨c', hset⟩, hhighest, hown⟩, htells.skips_iff.mp hskips⟩

theorem NotedRight.knowsHighest (h : NotedRight env records) (hreach : Reaches env records height polls) :
    KnowsHighest env c records height polls := by
  obtain ⟨c', hset⟩ := (setMultiMergerInfo_iff hrecords).mpr h.fits
  have htells := (tells_iff (heights_of_cleared hrecords hclear hset)).mpr ⟨h.highest, h.own⟩
  exact ⟨c', hset, htells, htells.skips_iff.mpr hreach⟩

/-- From a cleared list of heights the highest mergers are known exactly when they are noted
as they should be, and one of them can be reached by a merger that is lower. -/
theorem highest_known_iff (height : Nat) (polls : List ConnManager) :
    KnowsHighest env c records height polls ↔ NotedRight env records ∧ Reaches env records height polls :=
  ⟨fun h => h.notedRight hrecords hclear, fun h => h.1.knowsHighest hrecords hclear h.2⟩

end Cleared

namespace Sample

/-- A record of a merger, with further fields. -/
def mergerRecord (mid hgt : String) (fields : List (String × Json)) : Json :=
  .object ([("mID", .string (ascii mid)), ("hgt", .string (ascii hgt))] ++ fields)

def higherMerger (fields : List (String × Json)) : Json := mergerRecord "AQ==" "7" fields

def startingUp : ConnManager := ⟨∅, ∅, true, []⟩

theorem isRecord_higherMerger (fields : List (String × Json)) : ∀ r ∈ [higherMerger fields], IsRecord r := by
  intro r hr
  obtain rfl := List.mem_singleton.mp hr
  exact ⟨_, _, rfl, rfl, by decide +kernel, by decide +kernel⟩

theorem highest_higherMerger (fields : List (String × Json)) :
    Highest base [higherMerger fields] (higherMerger fields) := by
  refine ⟨⟨by simp, (by decide +kernel : Base64.padded.decode (ascii "AQ==") ≠ [9])⟩, fun q hq _ => ?_⟩
  rw [List.mem_singleton.mp hq]

end Sample

namespace Sample

/-- Records that happen to have the field: the own one and two of other mergers. -/
def ownRecord : Json := mergerRecord "CQ==" "9" [("merger", .null)]

def lowerMerger : Json := mergerRecord "Ag==" "3" [("merger", .null)]

def threeMergers : List Json := [ownRecord, lowerMerger, higherMerger [("merger", .null)]]

/-- The higher merger is connected. -/
def connectedHigher : ConnManager := startingUp.setMergerInfo base ⟨[1], [], [], [], false⟩ true

theorem isRecord_threeMergers : ∀ r ∈ threeMergers, IsRecord r := by
  simp only [threeMergers, List.forall_mem_cons]
  exact ⟨⟨_, _, rfl, rfl, by decide +kernel, by decide +kernel⟩, ⟨_, _, rfl, rfl, by decide +kernel, by decide +kernel⟩,
    isRecord_higherMerger _ _ (List.mem_singleton.mpr rfl), by simp⟩

theorem eq_of_highest {r : Json} (h : Highest base threeMergers r) : r = higherMerger [("merger", .null)] := by
  have hhigher := h.2 (higherMerger [("merger", .null)]) (by simp [threeMergers])
    (by decide +kernel : Base64.padded.decode (ascii "AQ==") ≠ [9])
  have hmem := h.1.1
  simp only [threeMergers, List.mem_cons, List.not_mem_nil, or_false] at hmem
  rcases hmem with rfl | rfl | rfl
  · exact absurd (by decide +kernel : Base64.padded.decode (ascii "CQ==") = [9]) h.1.2
  · exact absurd hhigher (by decide +kernel)
  · rfl

theorem highest_threeMergers : Highest base threeMergers (higherMerger [("merger", .null)]) := by
  refine ⟨⟨by simp [threeMergers], (by decide +kernel : Base64.padded.decode (ascii "AQ==") ≠ [9])⟩, ?_⟩
  simp only [threeMergers, List.forall_mem_cons]
  refine ⟨fun hother => ?_, fun _ => by decide +kernel, fun _ => by decide +kernel, by simp⟩
  exact absurd (by decide +kernel : Base64.padded.decode (ascii "CQ==") = [9]) hother

end Sample

open Sample in
/-- A merger at height 5 learns of the one at height 7, and finds it connected. -/
theorem highest_known_noted : KnowsHighest base startingUp threeMergers 5 [connectedHigher] := by
  refine (highest_known_iff isRecord_threeMergers rfl 5 _).mpr ⟨⟨?_, fun r hr => ?_, ?_⟩, fun r hr => ?_⟩
  · simp only [threeMergers, List.forall_mem_cons]
    exact ⟨fun _ => by decide +kernel, fun _ => by decide +kernel, fun _ => by decide +kernel, by simp⟩
  · rw [eq_of_highest hr]
    exact ⟨_, highest_threeMergers.1.1, by decide +kernel, rfl, rfl⟩
  · simp only [threeMergers, List.forall_mem_cons]
    refine ⟨fun hnoted => absurd (by decide +kernel) hnoted.1, fun _ hown => ?_, fun _ hown => ?_, by simp⟩
    · exact absurd hown (by decide +kernel : Base64.padded.decode (ascii "Ag==") ≠ [9])
    · exact absurd hown highest_threeMergers.1.2
  · refine Or.inr ⟨connectedHigher, by simp, _, highest_threeMergers, ?_⟩
    decide +kernel

open Sample in
/-- A record as the tracker sends it: its height is not noted. -/
theorem highest_unknown :
    (∀ r ∈ [higherMerger []], IsRecord r) ∧ startingUp.initBlockHgtList = [] ∧
      ¬ KnowsHighest base startingUp [higherMerger []] 3 [] := by
  refine ⟨isRecord_higherMerger [], rfl, fun h => ?_⟩
  obtain ⟨q, hq, hnoted, _⟩ := (h.notedRight (isRecord_higherMerger []) rfl).1.highest _ (highest_higherMerger [])
  rw [List.mem_singleton.mp hq] at hnoted
  cases hnoted.2

end GruutMerger
