import GruutMerger.DirectoryRecords
import Mathlib.Logic.Function.Basic

/-!
# The net of mergers

Mergers announce themselves, welcome each other, ask the tracker, check their
connections, write to each other and start again. A message that was once sent may
arrive at any time, at anybody, and more than once. If settings and tracker tell the
truth then so do all directories. A newcomer hears of everybody that the one who
welcomes it knows, and nobody forgets what was written down.
-/
namespace GruutMerger

open ByteText Fallible SortedTable Registry

/-- All mergers, and the messages that were sent. -/
structure MergerWorld where
  peers : Bytes → Peer
  sent : List OutputMsgEntry

namespace MergerWorld

inductive Event
  | announce (i : Bytes) (now : Nat)
  /-- any message of another type -/
  | emit (msg : OutputMsgEntry)
  | deliver (i : Bytes) (now later : Nat) (kind : BpScheduler.MessageKind) (body : Json)
  /-- what else the scheduler does -/
  | schedule (i : Bytes) (scheduler : BpScheduler) (welcome : Bool)
  | tracker (i : Bytes) (mergers ses : List Json)
  | check (i : Bytes) (answers : MergerInfo → Bool)
  | send (i : Bytes) (tracker : Bytes → Json) (receivers : List Bytes)
  | restart (i : Bytes) (order : List Json)

def setDirectory (w : MergerWorld) (i : Bytes) (d : Directory) : MergerWorld :=
  { w with peers := Function.update w.peers i { w.peers i with directory := d } }

section Net

variable (env : Env) (reg : Registry) (settings : Bytes → Settings)

def step (w : MergerWorld) : Event → Except Failure MergerWorld
  | .announce i now => .ok { w with sent := w.sent ++ [upMessage (env.asMerger i) now (settings i)] }
  | .emit msg => .ok { w with sent := w.sent ++ [msg] }
  | .deliver i now later kind body => do
    let (p, out) ← (w.peers i).handleMessage (env.asMerger i) now later kind body
    return { peers := Function.update w.peers i p, sent := w.sent ++ out }
  | .schedule i scheduler welcome =>
    .ok { w with peers := Function.update w.peers i { w.peers i with scheduler := scheduler, welcome := welcome } }
  | .tracker i mergers ses => do
    return w.setDirectory i (← (w.peers i).directory.takeTracker (env.asMerger i) mergers ses)
  | .check i answers =>
    let d := (w.peers i).directory
    .ok (w.setDirectory i { d with conn := d.conn.checkRpcConnection (env.asMerger i) answers })
  | .send i tracker receivers =>
    let d := (w.peers i).directory
    .ok (w.setDirectory i { d with conn := (d.conn.sendToMerger (env.asMerger i) tracker receivers).2 })
  | .restart i order => do
    return w.setDirectory i (← Directory.setUpConnList (env.asMerger i) (settings i) (w.peers i).directory.files order)

/-- Only members take part, what arrives was sent, the tracker tells the truth, and a start reads the files. -/
def Fair (w : MergerWorld) : Event → Prop
  | .announce i _ => reg.member i
  | .emit msg => msg.type ≠ .up ∧ msg.type ≠ .welcome
  | .deliver i _ _ kind body => reg.member i ∧ ∃ msg ∈ w.sent, msg.type = kind.type ∧ msg.body = body
  | .schedule .. => True
  | .tracker _ mergers ses =>
    (∀ r ∈ mergers, reg.TrueRecord env.base64 r) ∧ ∀ r ∈ ses, reg.TrueSeRecord env.base64 r
  | .check .. => True
  | .send i tracker receivers => Reachable (env.asMerger i) reg (w.peers i).directory.conn tracker receivers
  | .restart i order => order.Perm ((w.peers i).directory.files.entries.map Sigma.snd)

/-- Some events lead there. -/
def Reaches (w w' : MergerWorld) : Prop :=
  ∃ es : List Event, EachStep (step env settings) (Fair env reg) w es ∧ es.foldlM (step env settings) w = .ok w'

/-- Everybody has started for the first time. -/
structure Initial (w : MergerWorld) : Prop where
  directories : ∀ i, reg.member i →
    Directory.setUpConnList (env.asMerger i) (settings i) ∅ [] = .ok (w.peers i).directory
  sent : w.sent = []

/-- All that is known and all that is said is true, and whoever is on record is known. -/
structure Good (w : MergerWorld) : Prop where
  directories : ∀ i, reg.member i → reg.TrueDirectory env.base64 (w.peers i).directory
  messages : ∀ msg ∈ w.sent, reg.TrueMessage env.base64 msg
  complete : ∀ i, reg.member i → Complete (env.asMerger i) reg (settings i) (w.peers i).directory

end Net

variable {env : Env} {reg : Registry} {settings : Bytes → Settings} {w w' : MergerWorld} {e : Event} {i : Bytes}

variable (env settings) in
/-- What an event does: to the directory of one merger, and what is sent. -/
inductive Acts (d : Directory) : Event → Bytes → Directory → List OutputMsgEntry → Prop
  | announce (i : Bytes) (now : Nat) : Acts d (.announce i now) i d [upMessage (env.asMerger i) now (settings i)]
  | emit (i : Bytes) (msg : OutputMsgEntry) : Acts d (.emit msg) i d [msg]
  | nothing (e : Event) (i : Bytes) : Acts d e i d []
  | up {i now later body} {d' : Directory} (h : d' = d.takeUp (env.asMerger i) body) (id : Bytes) :
      Acts d (.deliver i now later .up body) i d' [welcomeMessage (env.asMerger i) later d' id]
  | welcome {i now later body mergers ses d'} (hmergers : body.find "merger" = some mergers)
      (hses : body.find "se" = some ses)
      (h : d.takeWelcome (env.asMerger i) mergers.elements ses.elements = .ok d') :
      Acts d (.deliver i now later .welcome body) i d' []
  | tracker {i mergers ses d'} (h : d.takeTracker (env.asMerger i) mergers ses = .ok d') :
      Acts d (.tracker i mergers ses) i d' []
  | check (i : Bytes) (answers : MergerInfo → Bool) :
      Acts d (.check i answers) i { d with conn := d.conn.checkRpcConnection (env.asMerger i) answers } []
  | send (i : Bytes) (tracker : Bytes → Json) (receivers : List Bytes) :
      Acts d (.send i tracker receivers) i
        { d with conn := (d.conn.sendToMerger (env.asMerger i) tracker receivers).2 } []
  | restart {i order d'} (h : Directory.setUpConnList (env.asMerger i) (settings i) d.files order = .ok d') :
      Acts d (.restart i order) i d' []

theorem step_acts (h : step env settings w e = .ok w') : ∃ k p out,
    w' = ⟨Function.update w.peers k p, w.sent ++ out⟩ ∧ Acts env settings (w.peers k).directory e k p.directory out := by
  have hsame : ∀ (k : Bytes) (out : List OutputMsgEntry), ({ w with sent := w.sent ++ out } : MergerWorld) =
      ⟨Function.update w.peers k (w.peers k), w.sent ++ out⟩ := fun k out => by rw [Function.update_eq_self]
  have hset : ∀ (k : Bytes) (d : Directory), w.setDirectory k d =
      ⟨Function.update w.peers k { w.peers k with directory := d }, w.sent ++ []⟩ := fun k d => by
    rw [setDirectory, List.append_nil]
  cases e with
  | announce i now =>
    cases h
    exact ⟨i, _, _, hsame i _, .announce i now⟩
  | emit msg =>
    cases h
    exact ⟨[], _, _, hsame [] _, .emit [] msg⟩
  | deliver i now later kind body =>
    obtain ⟨⟨p, out⟩, hp, h⟩ := bind_eq_ok.mp h
    cases h
    refine ⟨i, p, out, rfl, ?_⟩
    rcases Peer.handleMessage_cases hp with ⟨hd, rfl⟩ | ⟨rfl, hd, rfl⟩ | ⟨rfl, rfl, mergers, ses, hmergers, hses, ht⟩
    · rw [hd]
      exact .nothing _ i
    · exact .up hd _
    · exact .welcome hmergers hses ht
  | schedule i scheduler welcome =>
    cases h
    exact ⟨i, { w.peers i with scheduler := scheduler, welcome := welcome }, [], by rw [List.append_nil], .nothing _ i⟩
  | tracker i mergers ses =>
    obtain ⟨d, hd, h⟩ := bind_eq_ok.mp h
    cases h
    exact ⟨i, _, [], hset i d, .tracker hd⟩
  | check i answers =>
    cases h
    exact ⟨i, _, [], hset i _, .check i answers⟩
  | send i tracker receivers =>
    cases h
    exact ⟨i, _, [], hset i _, .send i tracker receivers⟩
  | restart i order =>
    obtain ⟨d, hd, h⟩ := bind_eq_ok.mp h
    cases h
    exact ⟨i, _, [], hset i d, .restart hd⟩

/-- What is done to a directory is one of the changes. -/
theorem step_changes (hsent : ∀ msg ∈ w.sent, reg.TrueMessage env.base64 msg) (hfair : Fair env reg w e)
    (h : step env settings w e = .ok w') (j : Bytes) :
    (w'.peers j).directory = (w.peers j).directory ∨
      Changes (env.asMerger j) reg (settings j) (w.peers j).directory (w'.peers j).directory := by
  obtain ⟨k, p, out, rfl, hacts⟩ := step_acts h
  by_cases hj : j = k
  · subst hj
    simp only [Function.update_self]
    generalize p.directory = d' at hacts
    cases hacts with
    | announce | emit | nothing => exact Or.inl rfl
    | up hup =>
      obtain ⟨_, msg, hmsg, hkind, rfl⟩ := hfair
      exact Or.inr (hup ▸ Changes.up ((hsent msg hmsg).up hkind))
    | welcome hmergers hses ht =>
      obtain ⟨_, msg, hmsg, hkind, rfl⟩ := hfair
      have htrue := hsent msg hmsg
      exact Or.inr (Changes.list (htrue.mergers hkind _ hmergers) (among_others _) (htrue.ses hkind _ hses) ht)
    | tracker ht => exact Or.inr (Changes.list hfair.1 (among_erase _) hfair.2 ht)
    | check _ answers => exact Or.inr (Changes.check answers)
    | send => exact Or.inr (Changes.send hfair)
    | restart hd => exact Or.inr (Changes.restart hfair hd)
  · simp only [Function.update_of_ne hj, true_or]

/-- What is said is true if the directories are. -/
theorem step_sent (hset : ∀ i, reg.member i → reg.TrueSettings i (settings i)) (hfair : Fair env reg w e)
    (h : step env settings w e = .ok w') (hsent : ∀ msg ∈ w.sent, reg.TrueMessage env.base64 msg)
    (hdir : ∀ i, reg.member i → reg.TrueDirectory env.base64 (w'.peers i).directory) :
    ∀ msg ∈ w'.sent, reg.TrueMessage env.base64 msg := by
  obtain ⟨k, p, out, rfl, hacts⟩ := step_acts h
  refine List.forall_mem_append.mpr ⟨hsent, ?_⟩
  have hk := hdir k
  simp only [Function.update_self] at hk
  generalize p.directory = d' at hacts hk
  cases hacts with
  | announce i now =>
    have htrue : reg.TrueMessage (env.asMerger k).base64 (upMessage (env.asMerger k) now (settings k)) :=
      (hset k hfair).trueMessage_up hfair now
    exact List.forall_mem_singleton.mpr htrue
  | emit i msg =>
    exact List.forall_mem_singleton.mpr
      ⟨fun ht => absurd ht hfair.1, fun ht => absurd ht hfair.2, fun ht => absurd ht hfair.2⟩
  | @up _ _ later _ _ _ id =>
    have hd' : reg.TrueDirectory (env.asMerger k).base64 d' := hk hfair.1
    have htrue := TrueDirectory.trueMessage_welcome hd' later id
    exact List.forall_mem_singleton.mpr htrue
  | nothing | welcome | tracker | check | send | restart => exact List.forall_mem_nil _

/-- What was sent once can always arrive. -/
theorem step_sent_subset (h : step env settings w e = .ok w') : w.sent ⊆ w'.sent := by
  obtain ⟨k, p, out, rfl, _⟩ := step_acts h
  exact List.subset_append_left _ _

theorem Reaches.sent_subset (h : Reaches env reg settings w w') : w.sent ⊆ w'.sent := by
  obtain ⟨es, hfair, hrun⟩ := h
  exact hfair.invariant (P := fun w' => w.sent ⊆ w'.sent)
    (fun _ hsub hstep => List.Subset.trans hsub (step_sent_subset hstep)) (List.Subset.refl _) hrun

section Truth

variable (hset : ∀ i, reg.member i → reg.TrueSettings i (settings i)) (hnamed : reg.Named env.base64)

include hset hnamed

theorem Good.step (hw : Good env reg settings w) (hfair : Fair env reg w e)
    (h : MergerWorld.step env settings w e = .ok w') : Good env reg settings w' := by
  have hchanges := step_changes hw.messages hfair h
  have hdir : ∀ i, reg.member i → reg.TrueDirectory env.base64 (w'.peers i).directory := by
    intro i hi
    rcases hchanges i with hsame | hc
    · rw [hsame]
      exact hw.directories i hi
    · have htrue : reg.TrueDirectory (env.asMerger i).base64 (w'.peers i).directory :=
        TrueDirectory.changes (hw.directories i hi) (hset i hi) hc
      exact htrue
  refine ⟨hdir, step_sent hset hfair h hw.messages hdir, fun i hi => ?_⟩
  rcases hchanges i with hsame | hc
  · rw [hsame]
    exact hw.complete i hi
  · exact (hw.complete i hi).changes (hw.directories i hi) hnamed hc

theorem Good.reaches (hw : Good env reg settings w) (h : Reaches env reg settings w w') : Good env reg settings w' := by
  obtain ⟨es, hfair, hrun⟩ := h
  exact hfair.invariant (fun hfair hw hstep => Good.step hset hnamed hw hfair hstep) hw hrun

omit hnamed in
/-- The first start leaves nothing but the settings. -/
theorem Initial.good (h : Initial env reg settings w) : Good env reg settings w := by
  have hempty : reg.TrueDirectory env.base64 ⟨⟨∅, ∅, true, []⟩, ∅, ∅⟩ :=
    ⟨⟨fun _ _ hx => absurd hx (by simp), fun _ _ hx => absurd hx (by simp)⟩, fun _ _ hx => absurd hx (by simp),
      fun _ _ hx => absurd hx (by simp)⟩
  refine ⟨fun i hi => ?_, by simp [h.sent], fun i hi id _ hne hrec => ?_⟩
  · have htrue : reg.TrueDirectory (env.asMerger i).base64 (w.peers i).directory :=
      TrueDirectory.setUpConnList hempty (hset i hi) (List.Perm.refl []) (h.directories i hi)
    exact htrue
  · obtain ⟨conn, hconn, hd⟩ := bind_eq_ok.mp (h.directories i hi)
    have hdir := pure_eq_ok.mp hd
    rcases hrec with ⟨info, hinfo, rfl⟩ | ⟨name, _, hfile⟩
    · rw [← hdir]
      exact ((Directory.holds_ofSettings hinfo hne).grows (ConnManager.grows_setMultiMergerInfo hconn)).1
    · rw [← hdir] at hfile
      simp only [Directory.ofSettings_files] at hfile
      exact absurd hfile (AList.notMem_empty name)

theorem Reaches.recorded {id : Bytes} (hw : Good env reg settings w) (h : Reaches env reg settings w w')
    (hrec : Recorded env.base64 (settings i) (w.peers i).directory id) :
    Recorded env.base64 (settings i) (w'.peers i).directory id := by
  obtain ⟨es, hfair, hrun⟩ := h
  refine (hfair.invariant (P := fun w => Good env reg settings w ∧ Recorded env.base64 (settings i) (w.peers i).directory id)
    (fun hfair hw hstep => ⟨Good.step hset hnamed hw.1 hfair hstep, ?_⟩) ⟨hw, hrec⟩ hrun).2
  rcases step_changes hw.1.messages hfair hstep i with hsame | hc
  · rw [hsame]
    exact hw.2
  · exact hc.recorded hnamed hw.2

theorem Reaches.holds {id : Bytes} (hw : Good env reg settings w) (h : Reaches env reg settings w w')
    (hi : reg.member i) (hid : reg.member id) (hne : id ≠ i)
    (hrec : Recorded env.base64 (settings i) (w.peers i).directory id) (hholds : (w.peers i).directory.conn.Holds env id) :
    (w'.peers i).directory.conn.Holds env id := by
  obtain ⟨es, hfair, hrun⟩ := h
  refine (hfair.invariant (P := fun w => Good env reg settings w ∧
      Recorded env.base64 (settings i) (w.peers i).directory id ∧ (w.peers i).directory.conn.Holds env id)
    (fun hfair hw hstep => ⟨Good.step hset hnamed hw.1 hfair hstep, ?_⟩) ⟨hw, hrec, hholds⟩ hrun).2.2
  rcases step_changes hw.1.messages hfair hstep i with hsame | hc
  · rw [hsame]
    exact hw.2
  · exact ⟨hc.recorded hnamed hw.2.1, hc.holds (hw.1.directories i hi) hnamed hid hne hw.2.1 hw.2.2⟩

end Truth

end MergerWorld

variable {env : Env} {reg : Registry} {c : ConnManager} {d : Directory} {id : Bytes}

/-- Known as it is. -/
def Registry.Knows (env : Env) (reg : Registry) (c : ConnManager) (id : Bytes) : Prop :=
  ∃ info, c.mergerInfo.lookup (env.base64.encode id) = some info ∧ info.id = id ∧
    reg.Describes id info.address info.port info.cert

theorem Registry.TrueConn.knows (h : reg.TrueConn env.base64 c) (hid : env.base64.encode id ∈ c.mergerInfo) :
    reg.member id ∧ reg.Knows env c id := by
  obtain ⟨info, hinfo⟩ := Option.isSome_iff_exists.mp (AList.lookup_isSome.mpr hid)
  obtain ⟨htext, hm, hd⟩ := h.mergers _ info hinfo
  obtain rfl := env.base64.encode_injective htext
  exact ⟨hm, info, hinfo, rfl, hd⟩

theorem Registry.TrueConn.cert (h : reg.TrueConn env.base64 c) (hid : env.base64.encode id ∈ c.certMap) :
    c.certMap.lookup (env.base64.encode id) = some (reg.contact id).cert := by
  obtain ⟨cert, hcert⟩ := Option.isSome_iff_exists.mp (AList.lookup_isSome.mpr hid)
  rw [hcert, h.certs id cert hcert]

theorem ConnManager.exists_setMultiMergerInfo {rs : List Json} (hrs : ∀ r ∈ rs, r.find "merger" = none) :
    ∃ c', c.setMultiMergerInfo env rs = .ok c' := by
  induction rs generalizing c with
  | nil => exact ⟨c, rfl⟩
  | cons r rs ih =>
    have hone : ∃ c', c.setOneMergerInfo env r = .ok c' := by
      simp only [setOneMergerInfo, hrs r (by simp)]
      split
      · exact ⟨_, rfl⟩
      · exact ⟨_, rfl⟩
    obtain ⟨c', hc'⟩ := hone
    obtain ⟨c'', hc''⟩ := @ih c' fun r hr => hrs r (by simp [hr])
    exact ⟨c'', foldlM_cons_eq_ok.mpr ⟨c', hc', hc''⟩⟩

/-- Whoever is known to the one who welcomes is on record then, with a certificate. -/
theorem Directory.takeWelcome_of_directory {d₀ : Directory} (htrue : reg.TrueDirectory env.base64 d)
    (hnamed : reg.Named env.base64) (st : Settings) :
    ∃ d', d₀.takeWelcome env (d.getAllMergerInfoJson env) (d.getAllSeInfoJson env) = .ok d' ∧
      ∀ id, id ≠ env.myId → env.base64.encode id ∈ d.conn.mergerInfo →
        Recorded env.base64 st d' id ∧ d'.conn.Holds env id := by
  have hrecords : ∀ r ∈ d.getAllMergerInfoJson env, r.find "merger" = none := by
    intro r hr
    obtain ⟨e, _, rfl⟩ := List.mem_map.mp hr
    rfl
  obtain ⟨conn, hconn⟩ := @ConnManager.exists_setMultiMergerInfo env d₀.conn _ hrecords
  have hd' : d₀.takeWelcome env (d.getAllMergerInfoJson env) (d.getAllSeInfoJson env) =
      .ok (setMultiSeInfo env ((others env (d.getAllMergerInfoJson env)).foldl writeMergerInfo { d₀ with conn := conn })
        (d.getAllSeInfoJson env)) := by
    rw [takeWelcome, takeList, hconn]
    rfl
  refine ⟨_, hd', fun id hne hid => ?_⟩
  obtain ⟨_, hholds, hfiles⟩ := takeList_cases hd'
  obtain ⟨hm, info, hinfo, rfl, _⟩ := htrue.conn.knows hid
  have hmem : mergerRecord env info ∈ d.getAllMergerInfoJson env :=
    List.mem_map.mpr ⟨_, mem_inOrder.mpr hinfo, rfl⟩
  refine ⟨Or.inr ?_, hholds _ hmem info.id rfl hne⟩
  obtain ⟨name, hname⟩ := Option.isSome_iff_exists.mp (hnamed.saved info.id hm)
  refine ⟨name, hname, (hfiles name).mpr (Or.inl ⟨_, List.mem_filter.mpr ⟨hmem, ?_⟩, hname⟩)⟩
  exact decide_eq_true fun heq => hne (env.base64.encode_injective heq)

namespace MergerWorld

variable {settings : Bytes → Settings} {w₀ w₁ w₂ w₃ : MergerWorld} {i j : Bytes} {sent now later now' : Nat}

/-- Whatever happened, what a merger knows of another is what there is to know, in its tables, its certificates and its
files; and whoever is on record is known. -/
theorem directories_true {w : MergerWorld} (hset : ∀ i, reg.member i → reg.TrueSettings i (settings i))
    (hnamed : reg.Named env.base64) (hinit : Initial env reg settings w₀) (hrun : Reaches env reg settings w₀ w)
    (hi : reg.member i) :
    reg.TrueDirectory env.base64 (w.peers i).directory ∧
      ∀ id, reg.member id → id ≠ i → Recorded env.base64 (settings i) (w.peers i).directory id →
        reg.Knows env (w.peers i).directory.conn id := by
  have good := (hinit.good hset).reaches hset hnamed hrun
  refine ⟨good.directories i hi, fun id hid hne hrec => ?_⟩
  exact ((good.directories i hi).conn.knows (good.complete i hi id hid hne hrec)).2

theorem step_deliver_up (h : step env settings w₁
      (.deliver j now later .up (upMessage (env.asMerger i) sent (settings i)).body) = .ok w₂)
    (hlt : sent + MessageValidator.timeMaxDiffSec ≤ 2 ^ 63) (hnow : MessageValidator.Recent sent now) :
    (w₂.peers j).directory =
        (w₁.peers j).directory.takeUp (env.asMerger j) (upMessage (env.asMerger i) sent (settings i)).body ∧
      w₂.sent = w₁.sent ++ [welcomeMessage (env.asMerger j) later (w₂.peers j).directory i] := by
  obtain ⟨⟨p, out⟩, hp, h⟩ := bind_eq_ok.mp h
  cases h
  obtain ⟨hdir, hout⟩ := Peer.handleMessage_up rfl rfl hlt hnow hp
  simp only [Function.update_self]
  refine ⟨hdir, ?_⟩
  have hid : Safe.getBytesFromB64 (env.asMerger j).base64 (upMessage (env.asMerger i) sent (settings i)).body "mID" = i :=
    Safe.getBytesFromB64_encode rfl
  rw [hout, hid]

/-- A newcomer that announces itself to a merger is answered, and if the answer comes in time the newcomer has from then
on, over every start, true contacts and certificates of all whom that merger knew, and that merger knows the newcomer. -/
theorem newcomer_learns (hset : ∀ i, reg.member i → reg.TrueSettings i (settings i)) (hnamed : reg.Named env.base64)
    (hinit : Initial env reg settings w₀) (hrun₁ : Reaches env reg settings w₀ w₁) (hi : reg.member i) (hj : reg.member j)
    (hij : i ≠ j) (hfair : Fair env reg w₁
      (.deliver j now later .up (upMessage (env.asMerger i) sent (settings i)).body))
    (hup : step env settings w₁
      (.deliver j now later .up (upMessage (env.asMerger i) sent (settings i)).body) = .ok w₂)
    (hlt : sent + MessageValidator.timeMaxDiffSec ≤ 2 ^ 63) (hnow : MessageValidator.Recent sent now)
    (hlt' : later + MessageValidator.timeMaxDiffSec ≤ 2 ^ 63) (hnow' : MessageValidator.Recent later now')
    (hrun₂ : Reaches env reg settings w₂ w₃) (later' : Nat) :
    ∃ msg ∈ w₂.sent, msg.type = .welcome ∧ msg.receivers = [i] ∧
      ∃ w₄, step env settings w₃ (.deliver i now' later' .welcome msg.body) = .ok w₄ ∧
        ∀ w, Reaches env reg settings w₄ w → reg.Knows env (w.peers j).directory.conn i ∧
          ∀ id, id ≠ i → env.base64.encode id ∈ (w₁.peers j).directory.conn.mergerInfo →
            reg.Knows env (w.peers i).directory.conn id ∧
              (w.peers i).directory.conn.certMap.lookup (env.base64.encode id) = some (reg.contact id).cert := by
  have good₁ := (hinit.good hset).reaches hset hnamed hrun₁
  have good₂ := good₁.step hset hnamed hfair hup
  have good₃ := good₂.reaches hset hnamed hrun₂
  obtain ⟨hdir, hsent⟩ := step_deliver_up hup hlt hnow
  have hmsg : welcomeMessage (env.asMerger j) later (w₂.peers j).directory i ∈ w₂.sent := by
    rw [hsent]
    exact List.mem_append_right _ (List.mem_singleton_self _)
  -- the answer is taken, whatever the newcomer has heard in the meantime
  obtain ⟨d, hd, hlearns⟩ := @Directory.takeWelcome_of_directory (env.asMerger i) reg (w₂.peers j).directory
    (w₃.peers i).directory (good₂.directories j hj) hnamed (settings i)
  have hstep : step env settings w₃ (.deliver i now' later' .welcome
      (welcomeMessage (env.asMerger j) later (w₂.peers j).directory i).body) =
        .ok { peers := Function.update w₃.peers i { w₃.peers i with welcome := true, directory := d },
              sent := w₃.sent ++ [] } := by
    simp only [step]
    rw [Peer.handleMessage_welcome rfl rfl hlt' hnow' rfl rfl rfl hd]
    rfl
  refine ⟨_, hmsg, rfl, rfl, _, hstep, fun w hrun => ?_⟩
  have hfair₃ : Fair env reg w₃ (.deliver i now' later' .welcome
      (welcomeMessage (env.asMerger j) later (w₂.peers j).directory i).body) :=
    ⟨hi, _, hrun₂.sent_subset hmsg, rfl, rfl⟩
  have good₄ := good₃.step hset hnamed hfair₃ hstep
  have good := good₄.reaches hset hnamed hrun
  constructor
  · -- the file that the announcement left is never lost
    have hrec₂ : Recorded env.base64 (settings j) (w₂.peers j).directory i := by
      rw [hdir]
      exact Named.recorded_takeUp hnamed hi rfl
    have hrec₃ := hrun₂.recorded hset hnamed good₂ hrec₂
    have hrec₄ : Recorded env.base64 (settings j) (Function.update w₃.peers i
        { w₃.peers i with welcome := true, directory := d } j).directory i := by
      rw [Function.update_of_ne (Ne.symm hij)]
      exact hrec₃
    have hrec := hrun.recorded hset hnamed good₄ hrec₄
    exact ((good.directories j hj).conn.knows (good.complete j hj i hi hij hrec)).2
  · intro id hne hid
    have hid₂ : env.base64.encode id ∈ (w₂.peers j).directory.conn.mergerInfo := by
      rw [hdir, Directory.takeUp_conn]
      exact (ConnManager.grows_setMergerInfo _ _).known _ hid
    have hm := ((good₂.directories j hj).conn.knows hid₂).1
    obtain ⟨hrec₄, hholds₄⟩ := hlearns id hne hid₂
    have hholds := hrun.holds hset hnamed good₄ hi hm hne (by
      simp only [Function.update_self]
      exact hrec₄) (by
      simp only [Function.update_self]
      exact hholds₄)
    have htrue := (good.directories i hi).conn
    exact ⟨(htrue.knows hholds.1).2, htrue.cert hholds.2⟩

end MergerWorld

namespace Sample

def newcomer : Bytes := [1, 2, 3, 4, 5, 6, 7, 8]
def resident : Bytes := [2, 2, 3, 4, 5, 6, 7, 8]
def elder : Bytes := [3, 2, 3, 4, 5, 6, 7, 8]

def contactOf (id : Bytes) : Contact := ⟨id, [80], id ++ id⟩

def town : Registry := ⟨fun id => id ∈ [newcomer, resident, elder], contactOf⟩

def infoOf (id : Bytes) : MergerInfo := ⟨id, id, [80], id ++ id, false⟩

/-- The newcomer has been told of the resident, and nobody of the newcomer. -/
def townSettings (id : Bytes) : Settings where
  self := contactOf id
  authority := ([], [])
  tracker := ([], [])
  serviceEndpoints := [⟨[9], [9], [80], [9, 9], false⟩]
  mergers := if id = newcomer then [infoOf resident] else [infoOf resident, infoOf elder]

def townWorld : MergerWorld where
  peers id := ⟨⟨id, .idle, true, [], []⟩, Directory.ofSettings (base.asMerger id) (townSettings id) ∅, false⟩
  sent := []

theorem town_settings (i : Bytes) : town.TrueSettings i (townSettings i) where
  self := rfl
  authority := rfl
  tracker := rfl
  ses info hinfo := by
    obtain rfl := List.mem_singleton.mp hinfo
    exact ⟨rfl, rfl, rfl⟩
  mergers info hinfo := by
    have hinfo' : info = infoOf resident ∨ info = infoOf elder := by
      unfold townSettings at hinfo
      simp only at hinfo
      split at hinfo
      · exact Or.inl (by simpa using hinfo)
      · simpa using hinfo
    rcases hinfo' with rfl | rfl
    · exact ⟨(by decide : resident ∈ [newcomer, resident, elder]), rfl, rfl, rfl⟩
    · exact ⟨(by decide : elder ∈ [newcomer, resident, elder]), rfl, rfl, rfl⟩

theorem town_named : town.Named base.base64 where
  saved := by
    change ∀ id ∈ [newcomer, resident, elder], _
    decide +kernel
  apart a b ha hb := by
    have hall : ∀ a ∈ [newcomer, resident, elder], ∀ b ∈ [newcomer, resident, elder],
        fileName (base.base64.encode a) = fileName (base.base64.encode b) → a = b := by decide +kernel
    exact hall a ha b hb

theorem town_initial : MergerWorld.Initial base town townSettings townWorld := ⟨fun _ _ => rfl, rfl⟩

/-- The newcomer has announced itself. -/
def announced : MergerWorld := { townWorld with sent := [upMessage (base.asMerger newcomer) 10 (townSettings newcomer)] }

theorem town_announced : MergerWorld.Reaches base town townSettings townWorld announced :=
  ⟨[.announce newcomer 10], ⟨(by decide : newcomer ∈ [newcomer, resident, elder]), fun _ _ => trivial⟩, rfl⟩

def arrival : MergerWorld.Event :=
  .deliver resident 10 11 .up (upMessage (base.asMerger newcomer) 10 (townSettings newcomer)).body

theorem arrival_fair : MergerWorld.Fair base town announced arrival :=
  ⟨(by decide : resident ∈ [newcomer, resident, elder]), _, List.mem_singleton_self _, rfl, rfl⟩

/-- The resident takes the announcement. -/
theorem exists_arrival : ∃ w, MergerWorld.step base townSettings announced arrival = .ok w := by
  have hok : ((announced.peers resident).handleMessage (base.asMerger resident) 10 11 .up
      (upMessage (base.asMerger newcomer) 10 (townSettings newcomer)).body).isOk = true := by decide +kernel
  cases h : (announced.peers resident).handleMessage (base.asMerger resident) 10 11 .up
      (upMessage (base.asMerger newcomer) 10 (townSettings newcomer)).body with
  | error e => simp [h, Except.isOk, Except.toBool] at hok
  | ok r => exact ⟨_, bind_eq_ok.mpr ⟨r, h, rfl⟩⟩

theorem directories_true_arrival : ∃ w, MergerWorld.step base townSettings announced arrival = .ok w ∧
    town.TrueDirectory base.base64 (w.peers resident).directory ∧
      (Recorded base.base64 (townSettings resident) (w.peers resident).directory newcomer →
        town.Knows base (w.peers resident).directory.conn newcomer) := by
  obtain ⟨w, hw⟩ := exists_arrival
  have hannounce : newcomer ∈ [newcomer, resident, elder] := by decide
  have hrun : MergerWorld.Reaches base town townSettings townWorld w := by
    refine ⟨[.announce newcomer 10, arrival], ⟨hannounce, fun t ht => ?_⟩, foldlM_cons_eq_ok.mpr ⟨announced, rfl, ?_⟩⟩
    · cases ht
      exact ⟨arrival_fair, fun _ _ => trivial⟩
    · exact foldlM_cons_eq_ok.mpr ⟨w, hw, foldlM_nil_eq_ok.mpr rfl⟩
  obtain ⟨htrue, hknown⟩ := MergerWorld.directories_true (fun i _ => town_settings i) town_named town_initial hrun
    (by decide : resident ∈ [newcomer, resident, elder])
  exact ⟨w, hw, htrue, hknown newcomer hannounce (by decide)⟩

/-- The resident answers with the elder. -/
theorem newcomer_learns_elder : ∃ w₂, MergerWorld.step base townSettings announced arrival = .ok w₂ ∧
    ∃ msg ∈ w₂.sent, msg.type = .welcome ∧ msg.receivers = [newcomer] ∧
      ∃ w₄, MergerWorld.step base townSettings w₂ (.deliver newcomer 12 12 .welcome msg.body) = .ok w₄ ∧
        ∀ w, MergerWorld.Reaches base town townSettings w₄ w →
          town.Knows base (w.peers resident).directory.conn newcomer ∧
          town.Knows base (w.peers newcomer).directory.conn elder ∧
            (w.peers newcomer).directory.conn.certMap.lookup (base.base64.encode elder) = some (contactOf elder).cert := by
  obtain ⟨w₂, hw₂⟩ := exists_arrival
  obtain ⟨msg, hmsg, htype, hto, w₄, hw₄, h⟩ := MergerWorld.newcomer_learns
    (fun i _ => town_settings i) town_named town_initial town_announced
    (by decide : newcomer ∈ [newcomer, resident, elder]) (by decide : resident ∈ [newcomer, resident, elder]) (by decide)
    arrival_fair hw₂ (by decide) (by decide) (by decide)
    (by decide : MessageValidator.Recent 11 12) ⟨[], trivial, rfl⟩ 12
  have hinfo : infoOf elder ∈ (townSettings resident).mergers := by
    rw [townSettings, if_neg (by decide)]
    exact List.mem_cons_of_mem _ (List.mem_singleton_self _)
  have helder : base.base64.encode elder ∈ (announced.peers resident).directory.conn.mergerInfo :=
    (Directory.holds_ofSettings hinfo (by decide)).1
  refine ⟨w₂, hw₂, msg, hmsg, htype, hto, w₄, hw₄, fun w hrun => ?_⟩
  exact ⟨(h w hrun).1, (h w hrun).2 elder (by decide) helder⟩

end Sample
end GruutMerger
