import GruutMerger.DirectoryGrowth

/-!
# Directories that tell the truth

What there is to know of the mergers and service endpoints is the same for everybody.
A directory tells the truth if its tables, its certificates and its files say nothing
else, and every way to change it keeps it so as long as what comes in is true.
-/
namespace GruutMerger

open ByteText Fallible SortedTable

/-- Who takes part, and what there is to know of whom. -/
structure Registry where
  member : Bytes → Prop
  contact : Bytes → Contact

variable (b64 : Base64) (reg : Registry)

namespace Registry

def Describes (id address port cert : Bytes) : Prop :=
  address = (reg.contact id).address ∧ port = (reg.contact id).port ∧ cert = (reg.contact id).cert

/-- A record tells the truth about a merger. -/
def TrueRecord (r : Json) : Prop :=
  ∃ id, reg.member id ∧ Safe.getStringOf r "mID" = b64.encode id ∧
    reg.Describes id (Safe.getStringOf r "ip") (Safe.getStringOf r "port") (Safe.getStringOf r "mCert")

def TrueSeRecord (r : Json) : Prop :=
  ∃ id, Safe.getStringOf r "seID" = b64.encode id ∧
    reg.Describes id (Safe.getStringOf r "ip") (Safe.getStringOf r "port") (Safe.getStringOf r "seCert")

structure TrueConn (c : ConnManager) : Prop where
  mergers : ∀ text info, c.mergerInfo.lookup text = some info →
    text = b64.encode info.id ∧ reg.member info.id ∧ reg.Describes info.id info.address info.port info.cert
  certs : ∀ id cert, c.certMap.lookup (b64.encode id) = some cert → cert = (reg.contact id).cert

/-- All that is known is true, and each file has the record of its name. -/
structure TrueDirectory (d : Directory) : Prop where
  conn : reg.TrueConn b64 d.conn
  ses : ∀ text info, d.seInfo.lookup text = some info →
    text = b64.encode info.id ∧ reg.Describes info.id info.address info.port info.cert
  files : ∀ name r, d.files.lookup name = some r →
    reg.TrueRecord b64 r ∧ fileName (Safe.getStringOf r "mID") = some name

/-- What a message says of mergers and service endpoints is true. -/
structure TrueMessage (msg : OutputMsgEntry) : Prop where
  up : msg.type = .up → reg.TrueRecord b64 msg.body
  mergers : msg.type = .welcome → ∀ rs, msg.body.find "merger" = some rs → ∀ r ∈ rs.elements, reg.TrueRecord b64 r
  ses : msg.type = .welcome → ∀ rs, msg.body.find "se" = some rs → ∀ r ∈ rs.elements, reg.TrueSeRecord b64 r

/-- Settings that are true. -/
structure TrueSettings (id : Bytes) (st : Settings) : Prop where
  self : st.self = reg.contact id
  authority : st.authority.2 = (reg.contact st.authority.1).cert
  tracker : st.tracker.2 = (reg.contact st.tracker.1).cert
  ses : ∀ info ∈ st.serviceEndpoints, reg.Describes info.id info.address info.port info.cert
  mergers : ∀ info ∈ st.mergers, reg.member info.id ∧ reg.Describes info.id info.address info.port info.cert

/-- The tracker has no such merger, or describes it as it is. -/
def TrueReply (id : Bytes) (reply : Json) : Prop :=
  (reply.find "flag").isSome = true ∨ (reg.member id ∧
    reg.Describes id (Safe.getStringOf reply "ip") (Safe.getStringOf reply "port") (Safe.getStringOf reply "mCert"))

/-- The members can be told by the names of their files. -/
structure Named : Prop where
  saved : ∀ id, reg.member id → (fileName (b64.encode id)).isSome
  apart : ∀ a b, reg.member a → reg.member b → fileName (b64.encode a) = fileName (b64.encode b) → a = b

end Registry

theorem mem_inOrder {α : Type} {m : AList fun _ : Bytes => α} {text : Bytes} {x : α} :
    (text, x) ∈ inOrder m ↔ m.lookup text = some x := by
  have hkeys : ((m.entries.map fun e => (e.1, e.2)).map Prod.fst).Nodup := by
    rw [List.map_map]
    exact m.nodupKeys
  rw [inOrder, mem_upsertAll List.Pairwise.nil hkeys]
  simp only [List.not_mem_nil, and_false, or_false, List.mem_map, Prod.mk.injEq]
  constructor
  · rintro ⟨⟨text', x'⟩, he, rfl, rfl⟩
    exact AList.mem_lookup_iff.mpr he
  · intro he
    exact ⟨⟨text, x⟩, AList.mem_lookup_iff.mp he, rfl, rfl⟩

theorem getStringOf_erase {j : Json} {key other : String} (h : key ≠ other) :
    Safe.getStringOf (j.erase other) key = Safe.getStringOf j key := by
  cases j with
  | object fs =>
    have hlookup : (fs.filter fun f => f.1 ≠ other).lookup key = fs.lookup key := by
      induction fs with
      | nil => rfl
      | cons f fs ih =>
        by_cases hf : f.1 = other
        · rw [List.filter_cons_of_neg (by simpa using hf), ih, List.lookup_cons,
            beq_eq_false_iff_ne.mpr fun heq => h (heq.trans hf)]
        · rw [List.filter_cons_of_pos (by simpa using hf), List.lookup_cons, List.lookup_cons, ih]
    simp only [Safe.getStringOf, Json.erase, Json.find, hlookup]
  | _ => rfl

variable {env : Env} {reg : Registry}

namespace Registry

variable {c c' : ConnManager} {d d' : Directory}

theorem TrueConn.setMergerInfo (h : reg.TrueConn env.base64 c) {info : MergerInfo} (hm : reg.member info.id)
    (hi : reg.Describes info.id info.address info.port info.cert) (status : Bool) :
    reg.TrueConn env.base64 (c.setMergerInfo env info status) where
  mergers text x hx := by
    by_cases heq : text = env.base64.encode info.id
    · subst heq
      obtain rfl := Option.some.inj ((AList.lookup_insert _).symm.trans hx)
      exact ⟨rfl, hm, hi⟩
    · exact h.mergers text x ((AList.lookup_insert_ne heq).symm.trans hx)
  certs := h.certs

theorem TrueConn.pushCert (h : reg.TrueConn env.base64 c) {id cert : Bytes} (hcert : cert = (reg.contact id).cert) :
    reg.TrueConn env.base64 (c.pushCert env id cert) where
  mergers := h.mergers
  certs id' cert' hc := by
    by_cases heq : id' = id
    · subst heq
      obtain rfl := Option.some.inj ((AList.lookup_insert _).symm.trans hc)
      exact hcert
    · have hne : env.base64.encode id' ≠ env.base64.encode id := fun he => heq (env.base64.encode_injective he)
      exact h.certs id' cert' ((AList.lookup_insert_ne hne).symm.trans hc)

variable {r : Json} {rs : List Json}

theorem TrueConn.congr (h : reg.TrueConn env.base64 c) (hm : c'.mergerInfo = c.mergerInfo) (hc : c'.certMap = c.certMap) :
    reg.TrueConn env.base64 c' := ⟨hm ▸ h.mergers, hc ▸ h.certs⟩

theorem TrueConn.setOneMergerInfo (h : reg.TrueConn env.base64 c) (hr : reg.TrueRecord env.base64 r)
    (hset : c.setOneMergerInfo env r = .ok c') : reg.TrueConn env.base64 c' := by
  obtain ⟨id, hm, htext, hd⟩ := hr
  have hid : recordId env r = id := by rw [recordId, htext, env.base64.decode_encode]
  rcases ConnManager.setOneMergerInfo_cases hset with ⟨_, rfl⟩ | ⟨_, c₁, rfl, hinfo, hcert⟩
  · exact h
  · refine TrueConn.congr ?_ hinfo hcert
    rw [hid]
    exact (h.pushCert hd.2.2).setMergerInfo hm hd true

theorem TrueConn.setMultiMergerInfo (h : reg.TrueConn env.base64 c) (hrs : ∀ r ∈ rs, reg.TrueRecord env.base64 r)
    (hset : c.setMultiMergerInfo env rs = .ok c') : reg.TrueConn env.base64 c' :=
  foldlM_invariant (fun _ _ _ hr hs hstep => hs.setOneMergerInfo (hrs _ hr) hstep) h hset

theorem TrueDirectory.setSeInfo (h : reg.TrueDirectory env.base64 d) {info : ServiceEndpointInfo}
    (hi : reg.Describes info.id info.address info.port info.cert) (status : Bool) :
    reg.TrueDirectory env.base64 (d.setSeInfo env info status) where
  conn := h.conn
  ses text x hx := by
    by_cases heq : text = env.base64.encode info.id
    · subst heq
      obtain rfl := Option.some.inj ((AList.lookup_insert _).symm.trans hx)
      exact ⟨rfl, hi⟩
    · exact h.ses text x ((AList.lookup_insert_ne heq).symm.trans hx)
  files := h.files

theorem TrueDirectory.withConn (h : reg.TrueDirectory env.base64 d) (hc : reg.TrueConn env.base64 c) :
    reg.TrueDirectory env.base64 { d with conn := c } := ⟨hc, h.ses, h.files⟩

theorem TrueDirectory.setOneSeInfo (h : reg.TrueDirectory env.base64 d) (hr : reg.TrueSeRecord env.base64 r) :
    reg.TrueDirectory env.base64 (d.setOneSeInfo env r) := by
  obtain ⟨id, htext, hd⟩ := hr
  have hid : env.base64.decode (Safe.getStringOf r "seID") = id := by rw [htext, env.base64.decode_encode]
  simp only [Directory.setOneSeInfo, hid]
  split
  · exact h
  · refine TrueDirectory.setSeInfo (h.withConn (h.conn.pushCert hd.2.2)) ?_ true
    exact hd

theorem TrueDirectory.setMultiSeInfo (h : reg.TrueDirectory env.base64 d) (hrs : ∀ r ∈ rs, reg.TrueSeRecord env.base64 r) :
    reg.TrueDirectory env.base64 (d.setMultiSeInfo env rs) := by
  induction rs generalizing d with
  | nil => exact h
  | cons r rs ih => exact ih (h.setOneSeInfo (hrs r (by simp))) fun r hr => hrs r (by simp [hr])

theorem TrueDirectory.writeMergerInfo (h : reg.TrueDirectory env.base64 d) (hr : reg.TrueRecord env.base64 r) :
    reg.TrueDirectory env.base64 (d.writeMergerInfo r) := by
  unfold Directory.writeMergerInfo
  split
  · rename_i name hname
    refine ⟨h.conn, h.ses, fun name' r' hfile => ?_⟩
    by_cases heq : name' = name
    · subst heq
      obtain rfl := Option.some.inj ((AList.lookup_insert _).symm.trans hfile)
      exact ⟨hr, hname⟩
    · exact h.files name' r' ((AList.lookup_insert_ne heq).symm.trans hfile)
  · exact h

/-- What else is taken out of a record does not matter. -/
theorem TrueRecord.erase (h : reg.TrueRecord env.base64 r) (key : String) (hkey : key ∉ ["mID", "ip", "port", "mCert"]) :
    reg.TrueRecord env.base64 (r.erase key) := by
  simp only [List.mem_cons, List.not_mem_nil, or_false, not_or] at hkey
  obtain ⟨hid, hip, hport, hcert⟩ := hkey
  obtain ⟨id, hm, htext, hd⟩ := h
  refine ⟨id, hm, (getStringOf_erase (Ne.symm hid)).trans htext, ?_⟩
  rwa [getStringOf_erase (Ne.symm hip), getStringOf_erase (Ne.symm hport), getStringOf_erase (Ne.symm hcert)]

theorem TrueDirectory.takeUp (h : reg.TrueDirectory env.base64 d) {body : Json} (hr : reg.TrueRecord env.base64 body) :
    reg.TrueDirectory env.base64 (d.takeUp env body) := by
  have hrecord := ((hr.erase "time" (by decide)).erase "ver" (by decide)).erase "cID" (by decide)
  obtain ⟨id, hm, htext, hd⟩ := hr
  have hid : Safe.getBytesFromB64 env.base64 body "mID" = id := Safe.getBytesFromB64_encode htext
  simp only [Directory.takeUp, hid]
  refine TrueDirectory.writeMergerInfo (h.withConn (h.conn.setMergerInfo hm ?_ true)) hrecord
  exact hd

theorem TrueDirectory.writeAll (h : reg.TrueDirectory env.base64 d) (hrs : ∀ r ∈ rs, reg.TrueRecord env.base64 r) :
    reg.TrueDirectory env.base64 (rs.foldl Directory.writeMergerInfo d) := by
  induction rs generalizing d with
  | nil => exact h
  | cons r rs ih => exact ih (h.writeMergerInfo (hrs r (by simp))) fun r hr => hrs r (by simp [hr])

/-- Records of a list, as they are or without the height. -/
def Among (records mergers : List Json) : Prop := ∀ r ∈ records, ∃ r' ∈ mergers, r = r' ∨ r = r'.erase "hgt"

theorem among_others (mergers : List Json) : Among (Directory.others env mergers) mergers :=
  fun r hr => ⟨r, (List.mem_filter.mp hr).1, Or.inl rfl⟩

theorem among_erase (mergers : List Json) : Among ((Directory.others env mergers).map (Json.erase · "hgt")) mergers := by
  intro r hr
  obtain ⟨r', hr', rfl⟩ := List.mem_map.mp hr
  exact ⟨r', (List.mem_filter.mp hr').1, Or.inr rfl⟩

theorem TrueDirectory.takeList (h : reg.TrueDirectory env.base64 d) {mergers records ses : List Json}
    (hmergers : ∀ r ∈ mergers, reg.TrueRecord env.base64 r) (hrecords : Among records mergers)
    (hses : ∀ r ∈ ses, reg.TrueSeRecord env.base64 r) (ht : d.takeList env mergers records ses = .ok d') :
    reg.TrueDirectory env.base64 d' := by
  obtain ⟨conn, hconn, ht⟩ := bind_eq_ok.mp ht
  cases ht
  refine TrueDirectory.setMultiSeInfo (TrueDirectory.writeAll (h.withConn (h.conn.setMultiMergerInfo hmergers hconn)) ?_) hses
  intro r hr
  obtain ⟨r', hr', rfl | rfl⟩ := hrecords r hr
  · exact hmergers r hr'
  · exact (hmergers r' hr').erase "hgt" (by decide)

theorem TrueConn.setMergerStatus (h : reg.TrueConn env.base64 c) {id : Bytes} (hid : c.hasMergerInfo env id = true)
    (status : Bool) : reg.TrueConn env.base64 (c.setMergerStatus env id status) := by
  unfold ConnManager.setMergerStatus
  split
  · exact h
  · obtain ⟨x, hx⟩ := Option.isSome_iff_exists.mp hid
    obtain ⟨htext, hm, hd⟩ := h.mergers _ x hx
    have hsame : c.getMergerInfo env id = x := by rw [ConnManager.getMergerInfo, hx]; rfl
    rw [htext, hsame]
    exact h.setMergerInfo hm hd status

theorem hasMergerInfo_iff {id : Bytes} : c.hasMergerInfo env id = true ↔ env.base64.encode id ∈ c.mergerInfo := by
  rw [ConnManager.hasMergerInfo, AList.lookup_isSome]

theorem TrueConn.checkAll (h : reg.TrueConn env.base64 c) (answers : MergerInfo → Bool) {infos : List MergerInfo}
    (hinfos : ∀ info ∈ infos, env.base64.encode info.id ∈ c.mergerInfo) :
    reg.TrueConn env.base64 (infos.foldl (fun c info => c.setMergerStatus env info.id (answers info)) c) := by
  induction infos generalizing c with
  | nil => exact h
  | cons info infos ih =>
    refine ih (h.setMergerStatus (hasMergerInfo_iff.mpr (hinfos info (by simp))) _) fun info' hi => ?_
    exact (ConnManager.grows_setMergerStatus _ _).known _ (hinfos info' (by simp [hi]))

theorem TrueConn.checkRpcConnection (h : reg.TrueConn env.base64 c) (answers : MergerInfo → Bool) :
    reg.TrueConn env.base64 (c.checkRpcConnection env answers) := by
  refine h.checkAll answers fun info hi => ?_
  obtain ⟨⟨text, _⟩, he, rfl⟩ := List.mem_map.mp hi
  have hlookup := mem_inOrder.mp he
  rw [← (h.mergers _ _ hlookup).1]
  exact AList.lookup_isSome.mp (by rw [hlookup]; rfl)

/-- Whoever is written to is known, or is described by the tracker as they are. -/
def Reachable (env : Env) (reg : Registry) (c : ConnManager) (tracker : Bytes → Json) (receivers : List Bytes) : Prop :=
  ∀ receiver ∈ receivers, c.hasMergerInfo env receiver = true ∨ reg.TrueReply receiver (tracker receiver)

theorem TrueConn.lookUpReceiver (h : reg.TrueConn env.base64 c) {tracker : Bytes → Json} {receiver : Bytes}
    (hr : c.hasMergerInfo env receiver = true ∨ reg.TrueReply receiver (tracker receiver))
    (hl : c.lookUpReceiver env tracker receiver = some c') : reg.TrueConn env.base64 c' := by
  unfold ConnManager.lookUpReceiver at hl
  split at hl
  · cases hl
    exact h
  · rename_i hnot
    split at hl
    · cases hl
    · rename_i hflag
      cases hl
      rcases hr with hknown | hflag' | ⟨hm, hd⟩
      · exact absurd hknown hnot
      · exact absurd hflag' hflag
      · exact h.setMergerInfo hm hd true

theorem TrueConn.sendToReceivers {tracker : Bytes → Json} {receivers : List Bytes} (h : reg.TrueConn env.base64 c)
    (hr : Reachable env reg c tracker receivers) : reg.TrueConn env.base64 (c.sendToReceivers env tracker receivers).2 := by
  induction receivers generalizing c with
  | nil => exact h
  | cons receiver receivers ih =>
    have hrest : ∀ {c'}, c.Grows c' → Reachable env reg c' tracker receivers := by
      intro c' hgrows receiver' hr'
      refine (hr receiver' (by simp [hr'])).imp_left fun hknown => ?_
      exact hasMergerInfo_iff.mpr (hgrows.known _ (hasMergerInfo_iff.mp hknown))
    rw [ConnManager.sendToReceivers]
    split
    · exact ih h (hrest (ConnManager.Grows.refl c))
    · rename_i c' hl
      have hc' := h.lookUpReceiver (hr receiver (by simp)) hl
      simp only
      split
      · exact hc'
      · exact ih hc' (hrest (ConnManager.grows_lookUpReceiver hl))

theorem TrueConn.sendToMerger {tracker : Bytes → Json} {receivers : List Bytes} (h : reg.TrueConn env.base64 c)
    (hr : Reachable env reg c tracker receivers) : reg.TrueConn env.base64 (c.sendToMerger env tracker receivers).2 := by
  unfold ConnManager.sendToMerger
  split
  · exact h
  · exact h.sendToReceivers hr

theorem TrueSettings.certs {id : Bytes} {st : Settings} (h : reg.TrueSettings id st) :
    ∀ e ∈ st.certs, e.2 = (reg.contact e.1).cert := by
  intro e he
  simp only [Settings.certs, List.mem_append, List.mem_cons, List.not_mem_nil, or_false, List.mem_map] at he
  rcases he with ((rfl | rfl) | ⟨info, hi, rfl⟩) | ⟨info, hi, rfl⟩
  · exact h.authority
  · exact h.tracker
  · exact (h.ses info hi).2.2
  · exact (h.mergers info hi).2.2.2

theorem TrueDirectory.ofSettings {id : Bytes} {st : Settings} {files : AList fun _ : Bytes => Json}
    (hst : reg.TrueSettings id st)
    (hfiles : ∀ name r, files.lookup name = some r →
      reg.TrueRecord env.base64 r ∧ fileName (Safe.getStringOf r "mID") = some name) :
    reg.TrueDirectory env.base64 (Directory.ofSettings env st files) := by
  have hempty : reg.TrueConn env.base64 ⟨∅, ∅, true, []⟩ :=
    ⟨fun _ _ hx => absurd hx (by simp), fun _ _ hx => absurd hx (by simp)⟩
  have hcerts := List.foldlRecOn st.certs (fun (c : ConnManager) e => c.pushCert env e.1 e.2) hempty
    (motive := fun c => reg.TrueConn env.base64 c) fun c hc e he => hc.pushCert (hst.certs e he)
  have hmergers := List.foldlRecOn st.mergers
    (fun (c : ConnManager) info => if info.id = env.myId then c else c.setMergerInfo env info true) hcerts
    (motive := fun c => reg.TrueConn env.base64 c) fun c hc info hi => by
      split
      · exact hc
      · exact hc.setMergerInfo (hst.mergers info hi).1 (hst.mergers info hi).2 true
  refine List.foldlRecOn st.serviceEndpoints (fun d info => Directory.setSeInfo env d info true)
    (motive := fun d => reg.TrueDirectory env.base64 d) ?_ fun d hd info hi => hd.setSeInfo (hst.ses info hi) true
  exact ⟨hmergers, fun _ _ hx => absurd hx (by simp), hfiles⟩

theorem TrueDirectory.setUpConnList {id : Bytes} {st : Settings} {order : List Json} (h : reg.TrueDirectory env.base64 d)
    (hst : reg.TrueSettings id st) (horder : order.Perm (d.files.entries.map Sigma.snd))
    (hset : Directory.setUpConnList env st d.files order = .ok d') : reg.TrueDirectory env.base64 d' := by
  have hstart : reg.TrueDirectory env.base64 (Directory.ofSettings env st d.files) := TrueDirectory.ofSettings hst h.files
  obtain ⟨conn, hconn, hset⟩ := bind_eq_ok.mp hset
  cases hset
  refine hstart.withConn (hstart.conn.setMultiMergerInfo (fun r hr => ?_) hconn)
  obtain ⟨⟨name, r'⟩, he, rfl⟩ := List.mem_map.mp (horder.mem_iff.mp hr)
  exact (h.files name r' (AList.mem_lookup_iff.mpr he)).1

theorem trueRecord_mergerRecord {info : MergerInfo} (hm : reg.member info.id)
    (hd : reg.Describes info.id info.address info.port info.cert) :
    reg.TrueRecord env.base64 (Directory.mergerRecord env info) := ⟨info.id, hm, rfl, hd⟩

theorem TrueDirectory.trueMessage_welcome (h : reg.TrueDirectory env.base64 d) (now : Nat) (id : Bytes) :
    reg.TrueMessage env.base64 (welcomeMessage env now d id) where
  up ht := by cases ht
  mergers _ rs hrs r hr := by
    obtain rfl : Json.array (d.getAllMergerInfoJson env) = rs := Option.some.inj hrs
    obtain ⟨⟨text, info⟩, he, rfl⟩ := List.mem_map.mp hr
    obtain ⟨_, hm, hd⟩ := h.conn.mergers text info (mem_inOrder.mp he)
    exact trueRecord_mergerRecord hm hd
  ses _ rs hrs r hr := by
    obtain rfl : Json.array (d.getAllSeInfoJson env) = rs := Option.some.inj hrs
    obtain ⟨⟨text, info⟩, he, rfl⟩ := List.mem_map.mp hr
    exact ⟨info.id, rfl, (h.ses text info (mem_inOrder.mp he)).2⟩

theorem TrueSettings.trueMessage_up {st : Settings} (h : reg.TrueSettings env.myId st) (hm : reg.member env.myId)
    (now : Nat) : reg.TrueMessage env.base64 (upMessage env now st) where
  up _ := ⟨env.myId, hm, rfl, by rw [Describes, ← h.self]; exact ⟨rfl, rfl, rfl⟩⟩
  mergers ht := by cases ht
  ses ht := by cases ht

/-- What may happen to the directory of a merger, as long as it is told the truth. -/
inductive Changes (env : Env) (reg : Registry) (st : Settings) (d : Directory) : Directory → Prop
  | up {body : Json} (hbody : reg.TrueRecord env.base64 body) : Changes env reg st d (d.takeUp env body)
  | list {mergers records ses : List Json} {d' : Directory} (hmergers : ∀ r ∈ mergers, reg.TrueRecord env.base64 r)
      (hrecords : Among records mergers) (hses : ∀ r ∈ ses, reg.TrueSeRecord env.base64 r)
      (h : d.takeList env mergers records ses = .ok d') : Changes env reg st d d'
  | check (answers : MergerInfo → Bool) :
      Changes env reg st d { d with conn := d.conn.checkRpcConnection env answers }
  | send {tracker : Bytes → Json} {receivers : List Bytes} (h : Reachable env reg d.conn tracker receivers) :
      Changes env reg st d { d with conn := (d.conn.sendToMerger env tracker receivers).2 }
  | restart {order : List Json} {d' : Directory} (horder : order.Perm (d.files.entries.map Sigma.snd))
      (h : Directory.setUpConnList env st d.files order = .ok d') : Changes env reg st d d'

theorem TrueDirectory.changes {id : Bytes} {st : Settings} (h : reg.TrueDirectory env.base64 d)
    (hst : reg.TrueSettings id st) (hc : Changes env reg st d d') : reg.TrueDirectory env.base64 d' := by
  cases hc with
  | up hbody => exact h.takeUp hbody
  | list hmergers hrecords hses ht => exact h.takeList hmergers hrecords hses ht
  | check answers => exact h.withConn (h.conn.checkRpcConnection answers)
  | send hr => exact h.withConn (h.conn.sendToMerger hr)
  | restart horder hset => exact h.setUpConnList hst horder hset

end Registry
end GruutMerger
