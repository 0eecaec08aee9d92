import GruutMerger.MergerDirectory

/-!
# Tables that grow

Between two starts of a merger nothing is taken out of its directory: whoever is known
stays known, and a certificate that is there stays there.
-/
namespace GruutMerger

open ByteText Fallible SortedTable

variable {env : Env} {c c' : ConnManager} {d d' : Directory} {r : Json} {rs : List Json}

structure ConnManager.Grows (c c' : ConnManager) : Prop where
  known : ∀ text, text ∈ c.mergerInfo → text ∈ c'.mergerInfo
  certs : ∀ text, text ∈ c.certMap → text ∈ c'.certMap

namespace ConnManager

/-- A record of another merger is entered, the own one is passed over. -/
theorem setOneMergerInfo_cases (h : c.setOneMergerInfo env r = .ok c') :
    (Safe.getStringOf r "mID" = env.base64.encode env.myId ∧ c' = c) ∨
      (Safe.getStringOf r "mID" ≠ env.base64.encode env.myId ∧
        ∃ c₁, c₁ = (c.pushCert env (recordId env r) (Safe.getStringOf r "mCert")).setMergerInfo env
          ⟨recordId env r, Safe.getStringOf r "ip", Safe.getStringOf r "port", Safe.getStringOf r "mCert", false⟩ true ∧
        c'.mergerInfo = c₁.mergerInfo ∧ c'.certMap = c₁.certMap) := by
  simp only [setOneMergerInfo] at h
  split at h
  · rename_i hown
    cases h
    exact Or.inl ⟨hown, rfl⟩
  · rename_i hother
    refine Or.inr ⟨hother, _, rfl, ?_⟩
    split at h
    · obtain ⟨height, _, h⟩ := bind_eq_ok.mp h
      cases h
      exact ⟨rfl, rfl⟩
    · cases h
      exact ⟨rfl, rfl⟩

theorem Grows.refl (c : ConnManager) : c.Grows c := ⟨fun _ h => h, fun _ h => h⟩

theorem Grows.trans {c₁ c₂ c₃ : ConnManager} (h : c₁.Grows c₂) (h' : c₂.Grows c₃) : c₁.Grows c₃ :=
  ⟨fun text ht => h'.known text (h.known text ht), fun text ht => h'.certs text (h.certs text ht)⟩

theorem grows_setMergerInfo (info : MergerInfo) (status : Bool) : c.Grows (c.setMergerInfo env info status) :=
  ⟨fun _ h => (AList.mem_insert _).mpr (Or.inr h), fun _ h => h⟩

theorem grows_pushCert (id cert : Bytes) : c.Grows (c.pushCert env id cert) :=
  ⟨fun _ h => h, fun _ h => (AList.mem_insert _).mpr (Or.inr h)⟩

theorem mem_setMergerInfo {info : MergerInfo} {status : Bool} {id : Bytes} (h : info.id = id) :
    env.base64.encode id ∈ (c.setMergerInfo env info status).mergerInfo :=
  (AList.mem_insert _).mpr (Or.inl (by rw [h]))

theorem mem_pushCert {id cert : Bytes} : env.base64.encode id ∈ (c.pushCert env id cert).certMap :=
  (AList.mem_insert _).mpr (Or.inl rfl)

theorem grows_setOneMergerInfo (h : c.setOneMergerInfo env r = .ok c') : c.Grows c' := by
  rcases setOneMergerInfo_cases h with ⟨_, rfl⟩ | ⟨_, c₁, rfl, hinfo, hcert⟩
  · exact Grows.refl _
  · have hgrows : c.Grows ((c.pushCert env (recordId env r) (Safe.getStringOf r "mCert")).setMergerInfo env
        ⟨recordId env r, Safe.getStringOf r "ip", Safe.getStringOf r "port", Safe.getStringOf r "mCert", false⟩ true) :=
      (grows_pushCert _ _).trans (grows_setMergerInfo _ _)
    exact ⟨hinfo ▸ hgrows.known, hcert ▸ hgrows.certs⟩

theorem grows_setMultiMergerInfo (h : c.setMultiMergerInfo env rs = .ok c') : c.Grows c' :=
  foldlM_invariant (fun _ _ _ _ hs hstep => hs.trans (grows_setOneMergerInfo hstep)) (Grows.refl c) h

/-- Known, with a certificate. -/
def Holds (env : Env) (c : ConnManager) (id : Bytes) : Prop :=
  env.base64.encode id ∈ c.mergerInfo ∧ env.base64.encode id ∈ c.certMap

theorem Holds.grows {id : Bytes} (h : c.Holds env id) (hg : c.Grows c') : c'.Holds env id :=
  ⟨hg.known _ h.1, hg.certs _ h.2⟩

theorem holds_setOneMergerInfo {id : Bytes} (hid : Safe.getStringOf r "mID" = env.base64.encode id) (hne : id ≠ env.myId)
    (h : c.setOneMergerInfo env r = .ok c') : c'.Holds env id := by
  have hrecord : recordId env r = id := by rw [recordId, hid, env.base64.decode_encode]
  rcases setOneMergerInfo_cases h with ⟨hown, _⟩ | ⟨_, c₁, rfl, hinfo, hcert⟩
  · exact absurd (env.base64.encode_injective (hid.symm.trans hown)) hne
  · rw [Holds, hinfo, hcert, hrecord]
    exact ⟨mem_setMergerInfo rfl, mem_pushCert⟩

/-- Everybody on a list but oneself is known then, with a certificate. -/
theorem holds_setMultiMergerInfo {id : Bytes} (hr : r ∈ rs) (hid : Safe.getStringOf r "mID" = env.base64.encode id)
    (hne : id ≠ env.myId) (h : c.setMultiMergerInfo env rs = .ok c') : c'.Holds env id := by
  have hstep : ∀ s x t, x ∈ rs → True → setOneMergerInfo env s x = .ok t → True ∧
      (Safe.getStringOf x "mID" = env.base64.encode id → t.Holds env id) ∧
      ∀ y, (Safe.getStringOf y "mID" = env.base64.encode id → s.Holds env id) →
        Safe.getStringOf y "mID" = env.base64.encode id → t.Holds env id := fun s x t _ _ hst =>
    ⟨trivial, fun hx => holds_setOneMergerInfo hx hne hst, fun y hy hyid => (hy hyid).grows (grows_setOneMergerInfo hst)⟩
  exact (foldlM_collects (P := fun _ => True)
    (R := fun x s => Safe.getStringOf x "mID" = env.base64.encode id → s.Holds env id) hstep trivial h).2.1 r hr hid

theorem grows_setMergerStatus (id : Bytes) (status : Bool) : c.Grows (c.setMergerStatus env id status) := by
  unfold setMergerStatus
  split
  · exact Grows.refl c
  · exact ⟨fun _ h => (AList.mem_insert _).mpr (Or.inr h), fun _ h => h⟩

theorem grows_checkRpcConnection (answers : MergerInfo → Bool) : c.Grows (c.checkRpcConnection env answers) :=
  List.foldlRecOn c.getAllMergerInfo (fun c info => c.setMergerStatus env info.id (answers info)) (Grows.refl c)
    (motive := fun c' => c.Grows c') fun _ hs _ _ => hs.trans (grows_setMergerStatus _ _)

theorem grows_lookUpReceiver {tracker : Bytes → Json} {receiver : Bytes}
    (h : c.lookUpReceiver env tracker receiver = some c') : c.Grows c' := by
  unfold lookUpReceiver at h
  split at h
  · cases h
    exact Grows.refl c
  · split at h
    · cases h
    · cases h
      exact grows_setMergerInfo _ _

theorem grows_sendToMerger (tracker : Bytes → Json) (receivers : List Bytes) :
    c.Grows (c.sendToMerger env tracker receivers).2 := by
  have hloop : ∀ (c : ConnManager) receivers, c.Grows (c.sendToReceivers env tracker receivers).2 := by
    intro c receivers
    induction receivers generalizing c with
    | nil => exact Grows.refl c
    | cons receiver receivers ih =>
      rw [sendToReceivers]
      split
      · exact ih c
      · rename_i c' hl
        simp only
        split
        · exact grows_lookUpReceiver hl
        · exact (grows_lookUpReceiver hl).trans (ih c')
  unfold sendToMerger
  split
  · exact Grows.refl c
  · exact hloop c receivers

end ConnManager
end GruutMerger
