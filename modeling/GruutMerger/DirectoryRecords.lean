import GruutMerger.DirectoryTruth

/-!
# Who is on record

When a merger starts again its tables are made anew, from the settings and the files.
Whoever is in either is on record. Whoever is on record stays so, is known, and does
not lose a certificate.
-/
namespace GruutMerger

open ByteText Fallible SortedTable

/-- In the settings, or in a file. -/
def Recorded (b64 : Base64) (st : Settings) (d : Directory) (id : Bytes) : Prop :=
  (∃ info ∈ st.mergers, info.id = id) ∨ ∃ name, fileName (b64.encode id) = some name ∧ name ∈ d.files

variable {env : Env} {reg : Registry} {st : Settings} {d d' : Directory} {r : Json} {rs : List Json} {id name : Bytes}

namespace Directory

theorem mem_files_writeMergerInfo :
    name ∈ (d.writeMergerInfo r).files ↔ fileName (Safe.getStringOf r "mID") = some name ∨ name ∈ d.files := by
  unfold writeMergerInfo
  split
  · rename_i name' hname
    rw [hname, Option.some.injEq]
    exact (AList.mem_insert _).trans (or_congr_left eq_comm)
  · rename_i hname
    simp [hname]

theorem mem_files_writeAll : name ∈ (rs.foldl writeMergerInfo d).files ↔
    (∃ r ∈ rs, fileName (Safe.getStringOf r "mID") = some name) ∨ name ∈ d.files := by
  induction rs generalizing d with
  | nil => simp
  | cons r rs ih =>
    rw [List.foldl_cons, ih, mem_files_writeMergerInfo]
    simp only [List.mem_cons, exists_eq_or_imp]
    rw [or_assoc]
    exact or_left_comm

/-- A record that is written to a file changes nothing else. -/
theorem writeMergerInfo_frame : (d.writeMergerInfo r).conn = d.conn ∧ (d.writeMergerInfo r).seInfo = d.seInfo := by
  unfold writeMergerInfo
  split
  · exact ⟨rfl, rfl⟩
  · exact ⟨rfl, rfl⟩

theorem writeAll_conn : (rs.foldl writeMergerInfo d).conn = d.conn :=
  List.foldlRecOn rs writeMergerInfo (motive := fun x => x.conn = d.conn) rfl
    fun _ hx _ _ => writeMergerInfo_frame.1.trans hx

theorem setMultiSeInfo_files : (d.setMultiSeInfo env rs).files = d.files := by
  refine List.foldlRecOn rs (setOneSeInfo env) (motive := fun x => x.files = d.files) rfl fun x hx r _ => ?_
  simp only [setOneSeInfo]
  split
  · exact hx
  · exact hx

theorem grows_setMultiSeInfo : d.conn.Grows (d.setMultiSeInfo env rs).conn := by
  refine List.foldlRecOn rs (setOneSeInfo env) (motive := fun x => d.conn.Grows x.conn) (ConnManager.Grows.refl _)
    fun x hx r _ => ?_
  simp only [setOneSeInfo]
  split
  · exact hx
  · exact hx.trans (ConnManager.grows_pushCert _ _)

theorem ofSettings_conn {files : AList fun _ : Bytes => Json} :
    (ofSettings env st files).conn = st.mergers.foldl
      (fun (c : ConnManager) info => if info.id = env.myId then c else c.setMergerInfo env info true)
      (st.certs.foldl (fun (c : ConnManager) e => c.pushCert env e.1 e.2) ⟨∅, ∅, true, []⟩) :=
  List.foldlRecOn st.serviceEndpoints (fun d info => setSeInfo env d info true)
    (motive := fun x : Directory => x.conn = _) rfl fun _ hx _ _ => hx

theorem ofSettings_files {files : AList fun _ : Bytes => Json} : (ofSettings env st files).files = files :=
  List.foldlRecOn st.serviceEndpoints (fun d info => setSeInfo env d info true)
    (motive := fun x : Directory => x.files = files) rfl fun _ hx _ _ => hx

theorem takeList_cases {mergers ses records : List Json} (h : d.takeList env mergers records ses = .ok d') :
    d.conn.Grows d'.conn ∧
      (∀ r ∈ mergers, ∀ id, Safe.getStringOf r "mID" = env.base64.encode id → id ≠ env.myId → d'.conn.Holds env id) ∧
      ∀ name, name ∈ d'.files ↔ (∃ r ∈ records, fileName (Safe.getStringOf r "mID") = some name) ∨ name ∈ d.files := by
  obtain ⟨conn, hconn, h⟩ := bind_eq_ok.mp h
  obtain rfl := pure_eq_ok.mp h
  have hse : conn.Grows (setMultiSeInfo env (records.foldl writeMergerInfo { d with conn := conn }) ses).conn := by
    have hgrows := @grows_setMultiSeInfo env (records.foldl writeMergerInfo { d with conn := conn }) ses
    rwa [writeAll_conn] at hgrows
  refine ⟨(ConnManager.grows_setMultiMergerInfo hconn).trans hse, fun r hr id hid hne => ?_, fun name => ?_⟩
  · exact (ConnManager.holds_setMultiMergerInfo hr hid hne hconn).grows hse
  · rw [setMultiSeInfo_files]
    exact mem_files_writeAll

theorem takeUp_conn {body : Json} : (d.takeUp env body).conn = d.conn.setMergerInfo env
    ⟨Safe.getBytesFromB64 env.base64 body "mID", Safe.getStringOf body "ip", Safe.getStringOf body "port",
      Safe.getStringOf body "mCert", false⟩ true :=
  writeMergerInfo_frame.1

theorem mem_files_takeUp {body : Json} : name ∈ (d.takeUp env body).files ↔
    fileName (Safe.getStringOf body "mID") = some name ∨ name ∈ d.files := by
  rw [takeUp, mem_files_writeMergerInfo, getStringOf_erase (by decide), getStringOf_erase (by decide),
    getStringOf_erase (by decide)]

/-- Whoever announces itself is known then. -/
theorem mem_takeUp {body : Json} (hid : Safe.getStringOf body "mID" = env.base64.encode id) :
    env.base64.encode id ∈ (d.takeUp env body).conn.mergerInfo := by
  rw [takeUp_conn]
  exact ConnManager.mem_setMergerInfo (Safe.getBytesFromB64_encode hid)

/-- After a start whoever the settings name is known, with a certificate. -/
theorem holds_ofSettings {files : AList fun _ : Bytes => Json} {info : MergerInfo} (hinfo : info ∈ st.mergers)
    (hne : info.id ≠ env.myId) : (ofSettings env st files).conn.Holds env info.id := by
  rw [ofSettings_conn]
  have hcert : env.base64.encode info.id ∈
      (st.certs.foldl (fun (c : ConnManager) e => c.pushCert env e.1 e.2) ⟨∅, ∅, true, []⟩).certMap := by
    have hmem : (info.id, info.cert) ∈ st.certs := List.mem_append_right _ (List.mem_map.mpr ⟨info, hinfo, rfl⟩)
    obtain ⟨before, after, hsplit⟩ := List.append_of_mem hmem
    rw [hsplit, List.foldl_append, List.foldl_cons]
    exact List.foldlRecOn after (fun (c : ConnManager) e => c.pushCert env e.1 e.2) ConnManager.mem_pushCert
      (motive := fun c : ConnManager => env.base64.encode info.id ∈ c.certMap)
      fun _ hc _ _ => (ConnManager.grows_pushCert _ _).certs _ hc
  have hgrows : ∀ (c : ConnManager) (infos : List MergerInfo), c.Grows (infos.foldl
      (fun (c : ConnManager) info => if info.id = env.myId then c else c.setMergerInfo env info true) c) := by
    intro c infos
    refine List.foldlRecOn infos _ (motive := fun c' : ConnManager => c.Grows c') (ConnManager.Grows.refl c)
      fun c' hc' info' _ => ?_
    split
    · exact hc'
    · exact hc'.trans (ConnManager.grows_setMergerInfo _ _)
  refine ⟨?_, (hgrows _ st.mergers).certs _ hcert⟩
  obtain ⟨before, after, hsplit⟩ := List.append_of_mem hinfo
  rw [hsplit, List.foldl_append, List.foldl_cons, if_neg hne]
  exact (hgrows _ after).known _ (ConnManager.mem_setMergerInfo rfl)

end Directory

namespace Registry

/-- The record in the file of a member is its own. -/
theorem TrueDirectory.record_of_file (h : reg.TrueDirectory env.base64 d) (hnamed : reg.Named env.base64)
    (hid : reg.member id) (hname : fileName (env.base64.encode id) = some name) (hfile : d.files.lookup name = some r) :
    Safe.getStringOf r "mID" = env.base64.encode id := by
  obtain ⟨⟨id', hid', htext, _⟩, hname'⟩ := h.files name r hfile
  rw [htext] at hname' ⊢
  rw [hnamed.apart id' id hid' hid (hname'.trans hname.symm)]

/-- After a start whoever is on record is known, with a certificate. -/
theorem TrueDirectory.holds_setUpConnList {order : List Json} (h : reg.TrueDirectory env.base64 d)
    (hnamed : reg.Named env.base64) (horder : order.Perm (d.files.entries.map Sigma.snd))
    (hset : Directory.setUpConnList env st d.files order = .ok d') (hid : reg.member id) (hne : id ≠ env.myId)
    (hrec : Recorded env.base64 st d id) : d'.conn.Holds env id := by
  obtain ⟨conn, hconn, hset⟩ := bind_eq_ok.mp hset
  cases hset
  rcases hrec with ⟨info, hinfo, rfl⟩ | ⟨name, hname, hfile⟩
  · exact (Directory.holds_ofSettings hinfo hne).grows (ConnManager.grows_setMultiMergerInfo hconn)
  · obtain ⟨r, hr⟩ := Option.isSome_iff_exists.mp (AList.lookup_isSome.mpr hfile)
    have hmem : r ∈ order := horder.mem_iff.mpr (List.mem_map.mpr ⟨⟨name, r⟩, AList.mem_lookup_iff.mp hr, rfl⟩)
    exact ConnManager.holds_setMultiMergerInfo hmem (h.record_of_file hnamed hid hname hr) hne hconn

/-- Whoever announces itself is on record then. -/
theorem Named.recorded_takeUp (hnamed : reg.Named env.base64) (hid : reg.member id) {body : Json}
    (htext : Safe.getStringOf body "mID" = env.base64.encode id) : Recorded env.base64 st (d.takeUp env body) id := by
  obtain ⟨name, hname⟩ := Option.isSome_iff_exists.mp (hnamed.saved id hid)
  exact Or.inr ⟨name, hname, Directory.mem_files_takeUp.mpr (Or.inl (htext ▸ hname))⟩

/-- Until the merger starts again its tables grow; then they have everybody who is on record. -/
theorem Changes.grows_or_holds (hc : Changes env reg st d d') (h : reg.TrueDirectory env.base64 d)
    (hnamed : reg.Named env.base64) :
    d.conn.Grows d'.conn ∨
      ∀ id, reg.member id → id ≠ env.myId → Recorded env.base64 st d id → d'.conn.Holds env id := by
  cases hc with
  | up hbody =>
    rw [Directory.takeUp_conn]
    exact Or.inl (ConnManager.grows_setMergerInfo _ _)
  | list hmergers hrecords hses ht => exact Or.inl (Directory.takeList_cases ht).1
  | check answers => exact Or.inl (ConnManager.grows_checkRpcConnection answers)
  | send hr => exact Or.inl (ConnManager.grows_sendToMerger _ _)
  | restart horder hset => exact Or.inr fun id hid hne hrec => h.holds_setUpConnList hnamed horder hset hid hne hrec

/-- Who has a file keeps it, and whose file is new is known. -/
structure KeepsFiles (env : Env) (reg : Registry) (d d' : Directory) : Prop where
  kept : ∀ name, name ∈ d.files → name ∈ d'.files
  new : ∀ id name, reg.member id → id ≠ env.myId → fileName (env.base64.encode id) = some name → name ∈ d'.files →
    name ∈ d.files ∨ env.base64.encode id ∈ d'.conn.mergerInfo

theorem KeepsFiles.takeList {mergers records ses : List Json} (hnamed : reg.Named env.base64)
    (hmergers : ∀ r ∈ mergers, reg.TrueRecord env.base64 r) (hrecords : Among records mergers)
    (ht : d.takeList env mergers records ses = .ok d') : KeepsFiles env reg d d' := by
  obtain ⟨_, hholds, hfiles⟩ := Directory.takeList_cases ht
  refine ⟨fun name hn => (hfiles name).mpr (Or.inr hn), fun id name hid hne hname hn => ?_⟩
  refine ((hfiles name).mp hn).symm.imp_right ?_
  rintro ⟨r, hr, hrname⟩
  obtain ⟨r', hr', hsame⟩ := hrecords r hr
  have htext' : Safe.getStringOf r "mID" = Safe.getStringOf r' "mID" := by
    rcases hsame with rfl | rfl
    · rfl
    · exact getStringOf_erase (by decide)
  obtain ⟨id', hid', htext, _⟩ := hmergers r' hr'
  rw [htext', htext] at hrname
  obtain rfl := hnamed.apart id' id hid' hid (hrname.trans hname.symm)
  exact (hholds r' hr' id' htext hne).1

theorem KeepsFiles.takeUp {body : Json} (hnamed : reg.Named env.base64) (hbody : reg.TrueRecord env.base64 body) :
    KeepsFiles env reg d (d.takeUp env body) := by
  obtain ⟨id', hid', htext, _⟩ := hbody
  refine ⟨fun name hn => Directory.mem_files_takeUp.mpr (Or.inr hn), fun id name hid _ hname hn => ?_⟩
  refine (Directory.mem_files_takeUp.mp hn).symm.imp_right fun hrname => ?_
  rw [htext] at hrname
  obtain rfl := hnamed.apart id' id hid' hid (hrname.trans hname.symm)
  exact Directory.mem_takeUp htext

theorem Changes.keepsFiles (hc : Changes env reg st d d') (hnamed : reg.Named env.base64) : KeepsFiles env reg d d' := by
  cases hc with
  | up hbody => exact KeepsFiles.takeUp hnamed hbody
  | list hmergers hrecords hses ht => exact KeepsFiles.takeList hnamed hmergers hrecords ht
  | check answers => exact ⟨fun _ hn => hn, fun _ _ _ _ _ hn => Or.inl hn⟩
  | send hr => exact ⟨fun _ hn => hn, fun _ _ _ _ _ hn => Or.inl hn⟩
  | restart horder hset =>
    obtain ⟨conn, _, hset⟩ := bind_eq_ok.mp hset
    cases hset
    simp only [Directory.ofSettings_files]
    exact ⟨fun _ hn => hn, fun _ _ _ _ _ hn => Or.inl hn⟩

/-- Whoever is on record is known. -/
def Complete (env : Env) (reg : Registry) (st : Settings) (d : Directory) : Prop :=
  ∀ id, reg.member id → id ≠ env.myId → Recorded env.base64 st d id → env.base64.encode id ∈ d.conn.mergerInfo

theorem Changes.recorded (hc : Changes env reg st d d') (hnamed : reg.Named env.base64)
    (h : Recorded env.base64 st d id) : Recorded env.base64 st d' id := by
  refine h.imp_right ?_
  rintro ⟨name, hname, hfile⟩
  exact ⟨name, hname, (hc.keepsFiles hnamed).kept name hfile⟩

theorem Complete.changes (hcomplete : Complete env reg st d) (h : reg.TrueDirectory env.base64 d)
    (hnamed : reg.Named env.base64) (hc : Changes env reg st d d') : Complete env reg st d' := by
  intro id hid hne hrec
  have hold : Recorded env.base64 st d id ∨ env.base64.encode id ∈ d'.conn.mergerInfo := by
    rcases hrec with hconf | ⟨name, hname, hfile⟩
    · exact Or.inl (Or.inl hconf)
    · refine ((hc.keepsFiles hnamed).new id name hid hne hname hfile).imp_left fun hfile' => ?_
      exact Or.inr ⟨name, hname, hfile'⟩
  rcases hold with hold | hknown
  · rcases hc.grows_or_holds h hnamed with hgrows | hholds
    · exact hgrows.known _ (hcomplete id hid hne hold)
    · exact (hholds id hid hne hold).1
  · exact hknown

/-- Whoever is on record and has a certificate here keeps it. -/
theorem Changes.holds (hc : Changes env reg st d d') (h : reg.TrueDirectory env.base64 d) (hnamed : reg.Named env.base64)
    (hid : reg.member id) (hne : id ≠ env.myId) (hrec : Recorded env.base64 st d id) (hholds : d.conn.Holds env id) :
    d'.conn.Holds env id := by
  rcases hc.grows_or_holds h hnamed with hgrows | hall
  · exact hholds.grows hgrows
  · exact hall id hid hne hrec

end Registry
end GruutMerger
