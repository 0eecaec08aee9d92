import GruutMerger.Forwards

/-!
# Ledger records of the pool

Every block that hangs on the last one has in memory the records it gives on the
ledger of its ancestors, and no block that is cut off from the last one has any
unless it once was not. A push keeps this up as long as its ledger calls keep
out of each other's way.
-/
namespace GruutMerger

open ByteText Forest KeyValue Fallible CertificateLedger

variable (env : Env)

namespace Pool

/-- Everything below index `k` has in memory what it registers on the ledger that
its ancestors make of `v`. -/
def Recorded (mem : List LedgerRecord) : Ledger → List Bin → Nat → Prop
  | _, [], _ => True
  | v, bin :: rest, k => ∀ (j : Nat) (e : UnresolvedBlock), bin[j]? = some e → e.prevVectorIdx = k →
      certRecords env v.read (registeredBy env e.block) = .ok (recordsOf mem (e.block.getBlockIdB64 env)) ∧
      Recorded mem (v.write ((recordsOf mem (e.block.getBlockIdB64 env)).map ledgerPut)) rest j

variable {env}

/-- Reading a count through the layer of an entry gives what the ancestors leave on
the ledger. -/
theorem Recorded.hung {mem : List LedgerRecord} {v : Ledger} {bins : List Bin} {k i : Nat} {q : Int}
    {anc : List UnresolvedBlock} (h : Recorded env mem v bins k)
    (hh : Hangs UnresolvedBlock.prevVectorIdx bins k i q anc) :
    ∃ w, commitAll env v (anc.reverse.map (·.block)) = .ok w ∧ ∀ u, underscore ∉ u →
      through mem (idsOf env anc) v (wrapKey u) = w.read (wrapKey u) := by
  -- an id on the way never answers with an empty count
  suffices hlook : ∃ w, commitAll env v (anc.reverse.map (·.block)) = .ok w ∧ ∀ u, underscore ∉ u →
      (∀ x, (idsOf env anc).findSome? (getVal mem (wrapKey u)) = some x → x.isEmpty = false) ∧
      through mem (idsOf env anc) v (wrapKey u) = w.read (wrapKey u) by
    obtain ⟨w, hw, hread⟩ := hlook
    exact ⟨w, hw, fun u hu => (hread u hu).2⟩
  induction i generalizing bins k v anc with
  | zero =>
    obtain ⟨_, rfl⟩ := hh
    exact ⟨v, rfl, fun u _ => ⟨by simp [idsOf], rfl⟩⟩
  | succ i ih =>
    cases bins with
    | nil =>
      obtain ⟨j, a, _, _, ha, _⟩ := hh
      simp at ha
    | cons bin rest =>
      obtain ⟨j, a, anc', ha, hk, rfl, hrest⟩ := hangs_cons.mp hh
      obtain ⟨hrec, hbelow⟩ := h j a ha hk
      obtain ⟨w, hw, hread⟩ := ih hbelow hrest
      refine ⟨w, ?_, fun u hu => ?_⟩
      · rw [List.reverse_append, List.map_append]
        exact foldlM_cons_eq_ok.mpr ⟨_, commit_of_records hrec, hw⟩
      · obtain ⟨hne, hget⟩ := hread u hu
        obtain ⟨hne', hthrough⟩ := through_concat_write env v hrec hu hne
        rw [show idsOf env (anc' ++ [a]) = idsOf env anc' ++ [a.block.getBlockIdB64 env] from List.map_append]
        exact ⟨hne', hthrough.trans hget⟩

/-- Records are looked up by id only, and only for blocks that hang below `k`. -/
theorem Recorded.of_memory {mem mem' : List LedgerRecord} {v : Ledger} {bins : List Bin} {k : Nat}
    (h : Recorded env mem v bins k)
    (hsame : ∀ d j e, Chain UnresolvedBlock.prevVectorIdx bins k d j e →
      recordsOf mem' (e.block.getBlockIdB64 env) = recordsOf mem (e.block.getBlockIdB64 env)) :
    Recorded env mem' v bins k := by
  induction bins generalizing k v with
  | nil => trivial
  | cons bin rest ih =>
    intro j e he hk
    rw [hsame 0 j e (.top (by simpa using he) hk)]
    obtain ⟨hrec, hbelow⟩ := h j e he hk
    exact ⟨hrec, ih hbelow fun d j' e' hc => hsame (d + 1) j' e' (chain_cons.mpr ⟨j, e, he, hk, hc⟩)⟩

/-- Only parent indices and blocks matter. -/
theorem Recorded.congr {mem : List LedgerRecord} {v : Ledger} {a b : List Bin} {k : Nat}
    (hskel : skeleton a = skeleton b) (h : Recorded env mem v a k) : Recorded env mem v b k := by
  induction a generalizing b k v with
  | nil =>
    cases b with
    | nil => trivial
    | cons bin rest => cases hskel
  | cons bin rest ih =>
    cases b with
    | nil => cases hskel
    | cons bin' rest' =>
      obtain ⟨hbin, hrest⟩ := List.cons.inj hskel
      intro j e he hk
      have hget : (bin.map skel)[j]? = some (skel e) := by
        rw [show bin.map skel = bin'.map skel from hbin, List.getElem?_map, he]
        rfl
      rw [List.getElem?_map, Option.map_eq_some_iff] at hget
      obtain ⟨e₀, he₀, hs⟩ := hget
      obtain ⟨hpar, hblock⟩ := Prod.mk.inj hs
      obtain ⟨hrec, hbelow⟩ := h j e₀ he₀ (hpar.trans hk)
      rw [← hblock]
      exact ⟨hrec, ih hrest hbelow⟩

theorem Recorded.patch {mem : List LedgerRecord} {v : Ledger} {rest : List Bin} {j q : Nat}
    (h : Recorded env mem v rest j) (hj : j ≠ q) (block : Block) :
    Recorded env mem v (rest.modify 0 (patchBin q block)) j := by
  cases rest with
  | nil => trivial
  | cons next rest =>
    rw [List.modify_zero_cons]
    intro k e he hk
    rw [patchBin, List.getElem?_map, Option.map_eq_some_iff] at he
    obtain ⟨a, ha, rfl⟩ := he
    split at hk
    · exact absurd (Int.ofNat.inj hk).symm hj
    · rename_i hc
      rw [if_neg hc]
      exact h k a ha hk

/-- A new entry joins in, if it has its records and everything that waited for it has
them too. -/
theorem Recorded.insert {mem : List LedgerRecord} {v : Ledger} {bins : List Bin} {k i : Nat}
    {x : UnresolvedBlock} (h : Recorded env mem v bins k) (hi : i < bins.length)
    (hx : ∀ anc w, Hangs UnresolvedBlock.prevVectorIdx bins k i x.prevVectorIdx anc →
      commitAll env v (anc.reverse.map (·.block)) = .ok w →
      certRecords env w.read (registeredBy env x.block) = .ok (recordsOf mem (x.block.getBlockIdB64 env)) ∧
      Recorded env mem (w.write ((recordsOf mem (x.block.getBlockIdB64 env)).map ledgerPut))
        ((inserted bins i x).drop (i + 1)) (bins.getD i []).length) :
    Recorded env mem v (inserted bins i x) k := by
  induction i generalizing bins k v with
  | zero =>
    cases bins with
    | nil => simp at hi
    | cons bin rest =>
      intro j e he hk
      rw [List.getElem?_append] at he
      split at he
      · rename_i hj
        obtain ⟨hrec, hbelow⟩ := h j e he hk
        exact ⟨hrec, hbelow.patch (Nat.ne_of_lt hj) x.block⟩
      · rename_i hj
        have hzero : j - bin.length = 0 := by
          have hlt := (List.getElem?_eq_some_iff.mp he).1
          simp only [List.length_cons, List.length_nil] at hlt
          omega
        rw [hzero] at he
        obtain rfl : x = e := by simpa using he
        obtain rfl : j = bin.length := by omega
        exact hx [] v ⟨hk, rfl⟩ rfl
  | succ i ih =>
    cases bins with
    | nil => simp at hi
    | cons bin rest =>
      intro j e he hk
      obtain ⟨hrec, hbelow⟩ := h j e he hk
      refine ⟨hrec, ih hbelow (by simpa using hi) fun anc w hanc hw => ?_⟩
      refine hx (anc ++ [e]) w (hangs_cons.mpr ⟨j, e, anc, he, hk, rfl, hanc⟩) ?_
      rw [List.reverse_append, List.map_append]
      exact foldlM_cons_eq_ok.mpr ⟨_, commit_of_records hrec, hw⟩

/-- Blocks that register different users have their records from one and the same
reading. -/
theorem recorded_of_apart (read : Bytes → Value) {mem : List LedgerRecord} {w : Ledger} {bins : List Bin}
    {k : Nat}
    (hrec : ∀ d j e, Chain UnresolvedBlock.prevVectorIdx bins k d j e →
      certRecords env read (registeredBy env e.block) = .ok (recordsOf mem (e.block.getBlockIdB64 env)))
    (hplain : ∀ d j e, Chain UnresolvedBlock.prevVectorIdx bins k d j e →
      ∀ u ∈ usersOf env e.block, underscore ∉ u)
    (hapart : ∀ d j e d' j' e', Chain UnresolvedBlock.prevVectorIdx bins k d j e →
      Chain UnresolvedBlock.prevVectorIdx bins k d' j' e' → d ≠ d' →
      ∀ u ∈ usersOf env e.block, u ∉ usersOf env e'.block)
    (hread : ∀ d j e, Chain UnresolvedBlock.prevVectorIdx bins k d j e →
      ∀ u ∈ usersOf env e.block, w.read (wrapKey u) = read (wrapKey u)) :
    Recorded env mem w bins k := by
  induction bins generalizing k w with
  | nil => trivial
  | cons bin rest ih =>
    intro j e he hk
    have htop : Chain UnresolvedBlock.prevVectorIdx (bin :: rest) k 0 j e := .top (by simpa using he) hk
    have hbelow : ∀ {d j' e'}, Chain UnresolvedBlock.prevVectorIdx rest j d j' e' →
        Chain UnresolvedBlock.prevVectorIdx (bin :: rest) k (d + 1) j' e' :=
      fun hc => chain_cons.mpr ⟨j, e, he, hk, hc⟩
    have hown := hrec 0 j e htop
    refine ⟨?_, ih (fun d j' e' hc => hrec (d + 1) j' e' (hbelow hc))
      (fun d j' e' hc => hplain (d + 1) j' e' (hbelow hc))
      (fun d j₁ e₁ d' j₂ e₂ hc hc' hne => hapart (d + 1) j₁ e₁ (d' + 1) j₂ e₂ (hbelow hc) (hbelow hc') (by omega))
      fun d j' e' hc u hu => ?_⟩
    · rw [← hown]
      exact certRecords_congr fun u hu => hread 0 j e htop u hu
    · have hu' := hplain (d + 1) j' e' (hbelow hc) u hu
      have hnot := hapart (d + 1) j' e' 0 j e (hbelow hc) htop (by omega) u hu
      rw [read_write hown hu', firstOf_of_notMem hown hu' hnot]
      exact hread (d + 1) j' e' (hbelow hc) u hu

variable (env)

/-- The block with this id is in the pool, with its ancestors down to the first bin. -/
def Owner (bins : List Bin) (id : Bytes) : Prop := ∃ d j e, node bins d j = some e ∧
  e.block.getBlockIdB64 env = id ∧ Grounded UnresolvedBlock.prevVectorIdx bins d e.prevVectorIdx

variable {env}

/-- An owner stays one where the entries that can be an ancestor are found again. -/
theorem Owner.mono {a b : List Bin} {id : Bytes} (h : Owner env a id)
    (hnode : ∀ d j e, node a d j = some e → d = 0 ∨ 0 ≤ e.prevVectorIdx →
      ∃ e', node b d j = some e' ∧ e'.block = e.block ∧ (d = 0 ∨ e'.prevVectorIdx = e.prevVectorIdx)) :
    Owner env b id := by
  obtain ⟨d, j, e, hn, hid, hg⟩ := h
  obtain ⟨e', hn', hblock, hpar⟩ := hnode d j e hn hg.nonneg
  refine ⟨d, j, e', hn', by rw [hblock, hid], ?_⟩
  rcases hpar with rfl | hpar
  · trivial
  · rw [hpar]
    refine hg.mono fun d' j' x hx hpos => ?_
    obtain ⟨x', hx', _, hpar'⟩ := hnode d' j' x hx hpos
    exact ⟨x', hx', hpar'⟩

theorem Owner.inserted {bins : List Bin} {id : Bytes} (h : Owner env bins id) (i : Nat) (x : UnresolvedBlock) :
    Owner env (inserted bins i x) id :=
  h.mono fun _ _ e hn hpos => ⟨e, node_inserted_kept hn hpos x, rfl, Or.inr rfl⟩

theorem owner_of_chain {bins : List Bin} {k d j : Nat} {e : UnresolvedBlock}
    (h : Chain UnresolvedBlock.prevVectorIdx bins k d j e) : Owner env bins (e.block.getBlockIdB64 env) := by
  obtain ⟨hn, anc, hanc⟩ := chain_iff_hangs.mp h
  exact ⟨d, j, e, hn, rfl, hanc.grounded⟩

theorem Owner.congr {a b : List Bin} (hskel : skeleton a = skeleton b) {id : Bytes} (h : Owner env a id) :
    Owner env b id := by
  refine h.mono fun d j e hn _ => ?_
  obtain ⟨e', hn', hs⟩ := node_of_skeleton hskel.symm hn
  obtain ⟨hpar, hblock⟩ := Prod.mk.inj hs
  exact ⟨e', hn', hblock, Or.inr hpar⟩

/-- An owner that is not in the first bin is one of the bins above it. -/
theorem Owner.tail {bin : Bin} {rest : List Bin} {id : Bytes} (h : Owner env (bin :: rest) id)
    (hbin : ∀ e ∈ bin, e.block.getBlockIdB64 env ≠ id) : Owner env rest id := by
  obtain ⟨d, j, e, hn, hid, hg⟩ := h
  cases d with
  | zero =>
    rw [node_cons_zero] at hn
    exact absurd hid (hbin e (List.mem_of_getElem? hn))
  | succ d =>
    rw [node_cons_succ] at hn
    exact ⟨d, j, e, hn, hid, hg.tail⟩

/-- What waited for a new entry had no way down before. -/
theorem not_grounded_below {bins : List Bin} {i : Nat} {x : UnresolvedBlock}
    (hpar : ∀ e ∈ bins.getD (i + 1) [], e.prevVectorIdx < (bins.getD i []).length) {d j : Nat}
    {e e' : UnresolvedBlock}
    (hc : Chain UnresolvedBlock.prevVectorIdx ((inserted bins i x).drop (i + 1)) (bins.getD i []).length d j e')
    (hn : node bins (i + 1 + d) j = some e) :
    ¬ Grounded UnresolvedBlock.prevVectorIdx bins (i + 1 + d) e.prevVectorIdx := by
  induction d generalizing j e e' with
  | zero =>
    cases hc with
    | top hn' hp =>
      rw [node_drop, Nat.add_zero, node_inserted_next, hn] at hn'
      have hlt := hpar e (mem_bin_of_node hn)
      rintro ⟨k, a, hk, _⟩
      have hneg : ¬ e.prevVectorIdx < 0 := by omega
      simp [hneg] at hn'
      rw [hn'] at hlt
      omega
  | succ d ih =>
    cases hc with
    | step hc hn' hp =>
      rw [node_drop, node_inserted_other (by omega) (by omega),
        show i + 1 + (d + 1) = i + 1 + d + 1 by omega] at hn'
      rw [show i + 1 + (d + 1) = i + 1 + d + 1 by omega] at hn ⊢
      obtain rfl : e = e' := Option.some.inj (hn.symm.trans hn')
      rintro ⟨k, a, hk, ha, hg⟩
      obtain rfl := Int.ofNat.inj (hp.symm.trans hk)
      exact ih hc ha hg

variable (env)

/-- Every block has an id of its own, and users that no certificate is filed under. -/
structure Tidy (bins : List Bin) : Prop where
  ids : IdsDiffer bins
  id_ne : ∀ b ∈ blocksOf bins, b.blockId ≠ []
  plain : ∀ b ∈ blocksOf bins, ∀ u ∈ usersOf env b, underscore ∉ u

/-- The records in memory are those of the pool over the ledger `v`. -/
structure Backed (p : Pool) (mem : List LedgerRecord) (v : Ledger) : Prop extends Tidy env p.blockPool where
  recorded : Recorded env mem v p.blockPool 0
  owned : ∀ r ∈ mem, Owner env p.blockPool r.blockIdB64

variable {env}

theorem Tidy.sublist {a b : List Bin} (h : Tidy env a) (hsub : (blocksOf b).Sublist (blocksOf a)) : Tidy env b where
  ids := h.ids.sublist (hsub.map _)
  id_ne c hc := h.id_ne c (hsub.subset hc)
  plain c hc := h.plain c (hsub.subset hc)

theorem Tidy.congr {a b : List Bin} (h : Tidy env a) (hb : blocksOf a = blocksOf b) : Tidy env b :=
  h.sublist (hb ▸ List.Sublist.refl _)

theorem Recorded.append_empty {mem : List LedgerRecord} {v : Ledger} {bins : List Bin} {k : Nat} (n : Nat)
    (h : Recorded env mem v bins k) : Recorded env mem v (bins ++ List.replicate n []) k := by
  induction bins generalizing k v with
  | nil =>
    cases n with
    | zero => trivial
    | succ n =>
      intro j e he
      simp at he
  | cons bin rest ih =>
    intro j e he hk
    obtain ⟨hrec, hbelow⟩ := h j e he hk
    exact ⟨hrec, ih hbelow⟩

theorem Backed.grow {p : Pool} {mem : List LedgerRecord} {v : Ledger} (h : p.Backed env mem v) (n : Nat) :
    (p.grow n).Backed env mem v := by
  refine ⟨h.toTidy.congr (blocksOf_grow p n).symm, h.recorded.append_empty _, fun r hr => ?_⟩
  exact (h.owned r hr).mono fun d j e hn _ => ⟨e, (node_append_empty _ _ d j).trans hn, rfl, Or.inr rfl⟩

theorem linkIndex_lt (bin : Bin) (block : Block) : linkIndex bin block < bin.length := by
  unfold linkIndex
  cases h : bin.findIdx? fun e => namesPrev block e.block with
  | none => simp only; omega
  | some k =>
    obtain ⟨hlt, _⟩ := List.findIdx?_eq_some_iff_getElem.mp h
    simp only
    omega

section Push

variable {p : Pool} {mem : List LedgerRecord} {v : Ledger} {i : Nat} {x : UnresolvedBlock}

/-- Where the blocks forwarded for a new entry stand. -/
theorem place_of_forward {bins : List Bin} {q : Nat} {f : Forward} (hf : f ∈ forwardsFrom env bins i q x) :
    f.block = x.block ∨ ∃ d k e, Chain UnresolvedBlock.prevVectorIdx (bins.drop (i + 1)) q d k e ∧
      node bins (i + 1 + d) k = some e ∧ e.block = f.block := by
  rcases mem_forwardsFrom.mp ⟨f, hf, rfl⟩ with hb | ⟨d, k, e, hc, hb⟩
  · exact Or.inl hb
  · exact Or.inr ⟨d, k, e, hc, (node_drop _ _ _ _).symm.trans hc.node_eq, hb⟩

theorem blocks_inserted (hi : i < p.blockPool.length) :
    (blocksOf (inserted p.blockPool i x)).Perm (x.block :: blocksOf p.blockPool) := by
  have hpatch : blocksOf (inserted p.blockPool i x) = blocksOf (p.blockPool.modify i (· ++ [x])) :=
    blocksOf_patchNext _ _ _ _
  rw [hpatch]
  exact perm_blocksOf_modify hi x

theorem Tidy.inserted (h : Tidy env p.blockPool) (hi : i < p.blockPool.length) (hnew : p.NewId x.block)
    (hplain : ∀ u ∈ usersOf env x.block, underscore ∉ u) : Tidy env (inserted p.blockPool i x) := by
  have hmem : ∀ {b : Block}, b ∈ blocksOf (Pool.inserted p.blockPool i x) →
      b = x.block ∨ b ∈ blocksOf p.blockPool := fun hb =>
    List.mem_cons.mp ((blocks_inserted hi).mem_iff.mp hb)
  refine ⟨?_, fun b hb => ?_, fun b hb => ?_⟩
  · unfold IdsDiffer
    rw [((blocks_inserted hi).map Block.blockId).nodup_iff, List.map_cons, List.nodup_cons]
    refine ⟨fun hmem => ?_, h.ids⟩
    obtain ⟨b, hb, he⟩ := List.mem_map.mp hmem
    exact hnew.2 b hb he
  · rcases hmem hb with rfl | hb
    · exact hnew.1
    · exact h.id_ne b hb
  · rcases hmem hb with rfl | hb
    · exact hplain
    · exact h.plain b hb

/-- Nothing that hung on the last block before is forwarded. -/
theorem Tidy.not_forwarded (h : Tidy env p.blockPool) (hok : p.Ok) (hi : i < p.blockPool.length)
    (hnew : p.NewId x.block) (hplain : ∀ u ∈ usersOf env x.block, underscore ∉ u) {d j : Nat}
    {e : UnresolvedBlock} (hn : node p.blockPool d j = some e)
    (hg : Grounded UnresolvedBlock.prevVectorIdx p.blockPool d e.prevVectorIdx) {f : Forward}
    (hf : f ∈ forwardsFrom env (Pool.inserted p.blockPool i x) i (p.bin i).length x) :
    e.block.getBlockIdB64 env ≠ f.id env := by
  intro heq
  have hids : e.block.blockId = f.block.blockId := env.base64.encode_injective heq
  rcases place_of_forward hf with hb | ⟨d', k, e', hc, hn', hb⟩
  · exact hnew.2 e.block (mem_blocksOf_of_node hn) (hids.trans (congrArg Block.blockId hb))
  · obtain ⟨rfl, rfl⟩ := (h.inserted hi hnew hplain).ids.place (node_inserted_kept hn hg.nonneg x) hn'
      (hids.trans (by rw [hb]))
    refine not_grounded_below (fun a ha => ?_) hc hn hg
    rw [WellLinked.link_of_mem hok ha]
    exact linkIndex_lt _ _

/-- A forwarded block is the new one or one of the pool. -/
theorem mem_of_forward (hi : i < p.blockPool.length) {f : Forward}
    (hf : f ∈ forwardsFrom env (inserted p.blockPool i x) i (p.bin i).length x) :
    f.block = x.block ∨ f.block ∈ blocksOf p.blockPool := by
  rcases place_of_forward hf with hb | ⟨d, k, e, _, hn, hb⟩
  · exact Or.inl hb
  · rw [← hb]
    exact List.mem_cons.mp ((blocks_inserted hi).mem_iff.mp (mem_blocksOf_of_node hn))

/-- The calls for a new entry that hangs on the last block can start. -/
theorem Backed.pending {ls : LayeredStorage} {anc : List UnresolvedBlock} (h : p.Backed env ls.memLedger v)
    (hok : p.Ok) (hi : i < p.blockPool.length) (hnew : p.NewId x.block)
    (hplain : ∀ u ∈ usersOf env x.block, underscore ∉ u) (hanc : p.Hung i x.prevVectorIdx anc)
    (hlayer : x.blockLayer = idsOf env anc)
    (hapart : Apart env ls (forwardsFrom env (inserted p.blockPool i x) i (p.bin i).length x)) :
    Pending env ls (idsOf env anc) [] (forwardsFrom env (inserted p.blockPool i x) i (p.bin i).length x) where
  grows := hlayer ▸ grows_forwardsFrom _ _ _ _
  nodup := nodup_forwardsFrom (h.toTidy.inserted hi hnew hplain).ids (node_inserted_self hi x) rfl
  id_ne f hf := by
    refine Block.getBlockIdB64_ne env ?_
    rcases mem_of_forward hi hf with hb | hb
    · rw [hb]
      exact hnew.1
    · exact h.id_ne _ hb
  plain f hf := by
    rcases mem_of_forward hi hf with hb | hb
    · rw [hb]
      exact hplain
    · exact h.plain _ hb
  fresh f hf := by
    refine ⟨by simp, fun hmem => ?_, ?_⟩
    · obtain ⟨a, ha, heq⟩ := List.mem_map.mp hmem
      obtain ⟨d, hd, j, hn⟩ := node_of_hung hanc a ha
      rcases place_of_forward hf with hb | ⟨d', k, e', _, hn', hb⟩
      · exact hnew.ne (mem_blocksOf_of_node hn) (heq.trans (congrArg (Block.getBlockIdB64 env) hb))
      · have hids : a.block.blockId = e'.block.blockId := by
          rw [hb]
          exact env.base64.encode_injective heq
        have hn₁ : node (inserted p.blockPool i x) d j = some a := by
          rw [node_inserted_other (by omega) (by omega), hn]
        have := ((h.toTidy.inserted hi hnew hplain).ids.place hn₁ hn' hids).1
        omega
    · -- a record would make it one that had its ancestors before
      have hnone : ls.memLedger.filter (fun r => decide (r.blockIdB64 = f.id env)) = [] := by
        rw [List.filter_eq_nil_iff]
        intro r hr heq
        obtain ⟨d, j, e, hn, hid, hg⟩ := h.owned r hr
        exact h.toTidy.not_forwarded hok hi hnew hplain hn hg hf (hid.trans (by simpa using heq))
      rw [recordsOf, hnone]
      rfl
  done := by simp
  apart := hapart
  installed := by simp

theorem midway_start (ls : LayeredStorage) (fs : List Forward) : Midway env ls [] fs ls :=
  ⟨rfl, rfl, fun _ _ => rfl, by simp⟩

/-- A new entry that does not hang on the last block changes no record. -/
theorem Backed.unlinked (h : p.Backed env mem v) (hi : i < p.blockPool.length) (hnew : p.NewId x.block)
    (hplain : ∀ u ∈ usersOf env x.block, underscore ∉ u) (hanc : ¬ ∃ anc, p.Hung i x.prevVectorIdx anc) :
    Backed env { p with blockPool := inserted p.blockPool i x } mem v where
  toTidy := h.toTidy.inserted hi hnew hplain
  recorded := h.recorded.insert hi fun anc _ hh _ => absurd ⟨anc, hh⟩ hanc
  owned r hr := (h.owned r hr).inserted i x

/-- Forwarded blocks at different heights have no user in common. -/
theorem Apart.disjoint {ls : LayeredStorage} {fs : List Forward} (h : Apart env ls fs) {bins : List Bin}
    (hids : IdsDiffer bins) {d d' j j' : Nat} {e e' : UnresolvedBlock} (hn : node bins d j = some e)
    (hn' : node bins d' j' = some e') (hne : d ≠ d') (hf : ∃ f ∈ fs, f.block = e.block)
    (hf' : ∃ f ∈ fs, f.block = e'.block) : ∀ u ∈ usersOf env e.block, u ∉ usersOf env e'.block := by
  obtain ⟨f, hf, hb⟩ := hf
  obtain ⟨f', hf', hb'⟩ := hf'
  rw [← hb, ← hb']
  refine h.users f hf f' hf' fun heq => hne (hids.place hn hn' ?_).1
  rw [← hb, ← hb']
  exact env.base64.encode_injective heq

/-- An entry that is to hang on the last block does so once it is in its bin. -/
theorem chain_inserted {anc : List UnresolvedBlock} (hi : i < p.blockPool.length)
    (hanc : p.Hung i x.prevVectorIdx anc) :
    Chain UnresolvedBlock.prevVectorIdx (inserted p.blockPool i x) 0 i (p.bin i).length x := by
  refine chain_iff_hangs.mpr ⟨node_inserted_self hi x, anc, hanc.congr fun d hd j => ?_⟩
  exact node_inserted_other (by omega) (by omega) j x

/-- What is forwarded is connected. -/
theorem owner_of_forward {anc : List UnresolvedBlock} (hi : i < p.blockPool.length)
    (hanc : p.Hung i x.prevVectorIdx anc) {f : Forward}
    (hf : f ∈ forwardsFrom env (inserted p.blockPool i x) i (p.bin i).length x) :
    Owner env (inserted p.blockPool i x) (f.id env) := by
  have hchain := chain_inserted hi hanc
  rcases place_of_forward hf with hb | ⟨d, k, e, hc, _, hb⟩
  · rw [Forward.id, hb]
    exact owner_of_chain hchain
  · rw [Forward.id, ← hb]
    exact owner_of_chain (hchain.descend hc)

/-- Everything below the new entry is recorded when each forwarded block has its records over
the layer: the blocks in between do not register its users. -/
theorem Apart.recorded_below {ls : LayeredStorage} {mem' : List LedgerRecord} {anc : List UnresolvedBlock}
    {read : Bytes → Value} {w : Ledger}
    (hapart : Apart env ls (forwardsFrom env (inserted p.blockPool i x) i (p.bin i).length x))
    (htidy : Tidy env (inserted p.blockPool i x)) (hi : i < p.blockPool.length) (hanc : p.Hung i x.prevVectorIdx anc)
    (hrecords : ∀ f ∈ forwardsFrom env (inserted p.blockPool i x) i (p.bin i).length x,
      certRecords env read (registeredBy env f.block) = .ok (recordsOf mem' (f.id env)))
    (hown : certRecords env w.read (registeredBy env x.block) = .ok (recordsOf mem' (x.block.getBlockIdB64 env)))
    (hread : ∀ u, underscore ∉ u → w.read (wrapKey u) = read (wrapKey u)) :
    Recorded env mem' (w.write ((recordsOf mem' (x.block.getBlockIdB64 env)).map ledgerPut))
      ((inserted p.blockPool i x).drop (i + 1)) (p.bin i).length := by
  have hchain := chain_inserted hi hanc
  have hbelow : ∀ {d j e}, Chain UnresolvedBlock.prevVectorIdx ((inserted p.blockPool i x).drop (i + 1))
      (p.bin i).length d j e → ∃ f ∈ forwardsFrom env (inserted p.blockPool i x) i (p.bin i).length x,
        f.block = e.block := fun hc => mem_forwardsFrom.mpr (Or.inr ⟨_, _, _, hc, rfl⟩)
  have hplain : ∀ d j e, Chain UnresolvedBlock.prevVectorIdx ((inserted p.blockPool i x).drop (i + 1))
      (p.bin i).length d j e → ∀ u ∈ usersOf env e.block, underscore ∉ u :=
    fun d j e hc => htidy.plain _ (mem_blocksOf_of_node (hchain.descend hc).node_eq)
  refine recorded_of_apart read (fun d j e hc => ?_) hplain (fun d j e d' j' e' hc hc' hne => ?_)
    fun d j e hc u hu => ?_
  · obtain ⟨f, hf, hb⟩ := hbelow hc
    have hrec := hrecords f hf
    rwa [Forward.id, hb] at hrec
  · exact hapart.disjoint htidy.ids (hchain.descend hc).node_eq (hchain.descend hc').node_eq (by omega) (hbelow hc)
      (hbelow hc')
  · -- the new block does not register this user
    have hu' := hplain d j e hc u hu
    have hnot := hapart.disjoint htidy.ids (hchain.descend hc).node_eq hchain.node_eq (by omega) (hbelow hc)
      (mem_forwardsFrom.mpr (Or.inl rfl)) u hu
    rw [read_write hown hu', firstOf_of_notMem hown hu' hnot]
    exact hread u hu'

/-- One that does: all calls together give every block its records. -/
theorem Backed.linked {ls ls' : LayeredStorage} {anc : List UnresolvedBlock}
    (h : p.Backed env ls.memLedger (ls.storage.disk .ledger)) (hok : p.Ok) (hi : i < p.blockPool.length)
    (hnew : p.NewId x.block) (hplain : ∀ u ∈ usersOf env x.block, underscore ∉ u)
    (hanc : p.Hung i x.prevVectorIdx anc) (hlayer : x.blockLayer = idsOf env anc)
    (hapart : Apart env ls (forwardsFrom env (inserted p.blockPool i x) i (p.bin i).length x))
    (hf : (forwardsFrom env (inserted p.blockPool i x) i (p.bin i).length x).foldlM
      (ChainState.forwardBlock env) ls = .ok ls') :
    ls'.storage = ls.storage ∧
      Backed env { p with blockPool := inserted p.blockPool i x } ls'.memLedger (ls.storage.disk .ledger) := by
  obtain ⟨hstorage, hother, howners, hrecords⟩ :=
    (h.pending hok hi hnew hplain hanc hlayer hapart).run (midway_start ls _) hf
  have htidy := h.toTidy.inserted hi hnew hplain
  refine ⟨hstorage, ⟨htidy, ?_, fun r hr => ?_⟩⟩
  · have hold : Recorded env ls'.memLedger (ls.storage.disk .ledger) p.blockPool 0 := by
      refine h.recorded.of_memory fun d j e hc => hother _ fun hmem => ?_
      obtain ⟨f, hf, hid⟩ := List.mem_map.mp hmem
      obtain ⟨hn, up, hup⟩ := chain_iff_hangs.mp hc
      exact h.toTidy.not_forwarded hok hi hnew hplain hn hup.grounded hf hid.symm
    refine hold.insert hi fun anc' w hanc' hw => ?_
    obtain rfl := hanc.unique hanc'
    obtain ⟨w', hw', hread⟩ := h.recorded.hung hanc
    obtain rfl : w = w' := Except.ok.inj (hw.symm.trans hw')
    have hown : certRecords env w.read (registeredBy env x.block) =
        .ok (recordsOf ls'.memLedger (x.block.getBlockIdB64 env)) := by
      obtain ⟨f, hf, hb⟩ : ∃ f ∈ forwardsFrom env (inserted p.blockPool i x) i (p.bin i).length x,
          f.block = x.block := mem_forwardsFrom.mpr (Or.inl rfl)
      have hrec := hrecords f hf
      rw [Forward.id, hb] at hrec
      rw [← hrec]
      exact certRecords_congr fun u hu => (hread u (hplain u hu)).symm
    exact ⟨hown, hapart.recorded_below htidy hi hanc hrecords hown fun u hu => (hread u hu).symm⟩
  · rcases howners r hr with hr | hr
    · exact (h.owned r hr).inserted i x
    · obtain ⟨f, hf, hid⟩ := List.mem_map.mp hr
      rw [← hid]
      exact owner_of_forward hi hanc hf

end Push

end Pool

namespace ChainState

/-- The records in memory are those of the pool over the ledger on disk, and nothing
waits in the ledger's batch. -/
structure Backed (c : ChainState) : Prop where
  pool : c.pool.Backed env c.layered.memLedger (c.layered.storage.disk .ledger)
  batch : c.layered.storage.batch .ledger = []

/-- A block that would be accepted has a new id and plain users, and its ledger calls
keep out of each other's way. -/
def Fair (c : ChainState) (now : Nat) (block : Block) : Prop :=
  ∀ r p' a, c.pool.push env now block = .ok (r, p', some a) → c.pool.NewId block ∧
    (∀ u ∈ usersOf env block, underscore ∉ u) ∧ Pool.Apart env c.layered a.forwards

variable {env}

theorem touches_backupUnless {isRestore : Bool} {s s' : Storage} {bins : List Bin}
    (h : backupUnless env isRestore s bins = .ok s') : Storage.Touches [.blockBackup] s s' := by
  unfold backupUnless at h
  split at h
  · cases h
    exact .refl _ _
  · exact Storage.touches_backupPool env h

theorem Backed.push {c c' : ChainState} {now : Nat} {block : Block} {isRestore : Bool} {r : PushResult}
    (h : c.Backed env) (hok : c.pool.Ok) (hfair : c.Fair env now block)
    (hp : c.push env now block isRestore = .ok (r, c')) :
    c'.Backed env ∧ c'.layered.storage.disk .ledger = c.layered.storage.disk .ledger := by
  obtain ⟨a, hpool, happly⟩ := (push_eq_ok env).mp hp
  rcases Pool.push_cases env hpool with ⟨rfl, _, n, hgrow⟩ | ⟨rfl, _, n, hgrow⟩ |
    ⟨i, prev, acc, rfl, _, _, _, _, hprev, ha⟩
  · rw [happly]
    exact ⟨⟨by rw [hgrow, happly]; exact h.pool.grow n, by rw [happly]; exact h.batch⟩, rfl⟩
  · rw [happly]
    exact ⟨⟨by rw [hgrow, happly]; exact h.pool.grow n, by rw [happly]; exact h.batch⟩, rfl⟩
  obtain ⟨hnew, hplain, hapart⟩ := hfair r c'.pool acc hpool
  obtain ⟨storage, hs, happly⟩ := bind_eq_ok.mp happly
  obtain ⟨forwarded, hf, happly⟩ := bind_eq_ok.mp happly
  have ht := touches_backupUnless hs
  have hledger : storage.disk .ledger = c.layered.storage.disk .ledger := ht.disk_eq (by decide)
  have hbatch : storage.batch .ledger = [] := (ht.batch_eq (by decide)).trans h.batch
  -- the pool with room for the block
  have hback : (c.pool.grow (i + 1)).Backed env c.layered.memLedger (storage.disk .ledger) :=
    hledger ▸ h.pool.grow (i + 1)
  have hnew' : (c.pool.grow (i + 1)).NewId block := ⟨hnew.1, by rw [Pool.blocksOf_grow]; exact hnew.2⟩
  have hi := Pool.length_grow c.pool (i + 1)
  rw [← Pool.prevQueueIdx_grow c.pool (i + 1)] at hprev
  obtain ⟨hskel, hforwards⟩ := ha.inserted
  have hlayered : c'.layered = { forwarded with blockLayer := acc.layer } := (Except.ok.inj happly).symm
  suffices hdone : forwarded.storage = storage ∧ Pool.Backed env { c.pool.grow (i + 1) with
      blockPool := Pool.inserted (c.pool.grow (i + 1)).blockPool i ⟨prev, r.linked, 0, r.blockLayer, block⟩ }
      forwarded.memLedger (storage.disk .ledger) by
    obtain ⟨hst, hb⟩ := hdone
    refine ⟨⟨⟨hb.toTidy.congr (Pool.blocksOf_of_skeleton hskel.symm), ?_, ?_⟩, ?_⟩, ?_⟩
    · rw [hlayered]
      exact (hst ▸ hb.recorded).congr hskel.symm
    · rw [hlayered]
      exact fun r hr => (hb.owned r hr).congr hskel.symm
    · rw [hlayered]
      exact hst ▸ hbatch
    · rw [hlayered, ← hledger]
      exact congrArg (fun s : Storage => s.disk .ledger) hst
  rcases (hok.grow (i + 1)).linked_of_accepts hi hprev (fun _ => hnew'.first _) ha with ⟨hl, anc, hanc, hlayer⟩ | ⟨hl, _, hanc⟩
  · have hapart' : Pool.Apart env { c.layered with storage := storage } acc.forwards :=
      ⟨hapart.users, hapart.installed⟩
    rw [hforwards, if_pos hl] at hf hapart'
    exact Pool.Backed.linked (by exact hback) (hok.grow (i + 1)) hi hnew' hplain hanc hlayer hapart' hf
  · rw [hforwards, hl] at hf
    cases hf
    exact ⟨rfl, hback.unlinked hi hnew' hplain hanc⟩

end ChainState
end GruutMerger
