import GruutMerger.LedgerRoom
import GruutMerger.Restore
import GruutMerger.ServedBlocks

/-!
# A restart keeps the tree of the pool

In a run that saves what it resolves, a restart on what is on disk puts the pool
on the same last block and finds all blocks again that were connected to it,
with the parents they had.
-/
namespace GruutMerger

open ByteText KeyValue Fallible Forest CertificateLedger

variable (env : Env)

namespace Pool

/-- A block whose parent indices lead to the last block. -/
def IsConnected (p : Pool) (b : Block) : Prop := ∃ d j e, p.Connected d j e ∧ e.block = b

/-- The index of `b` leads to `a`. -/
def IsParent (p : Pool) (a b : Block) : Prop := ∃ d j k x y, node p.blockPool d j = some x ∧
  node p.blockPool (d + 1) k = some y ∧ y.prevVectorIdx = j ∧ x.block = a ∧ y.block = b

/-- The same blocks on the same last block, with the same parents. -/
structure SameTree (p q : Pool) : Prop where
  tip : q.tip = p.tip
  blocks : ∀ b, q.IsConnected b ↔ p.IsConnected b
  parents : ∀ a b, p.IsConnected b → (q.IsParent a b ↔ p.IsParent a b)

theorem Ok.isParent_iff {p : Pool} (h : p.Ok) {a b : Block} : p.IsParent a b ↔
    a ∈ blocksOf p.blockPool ∧ b ∈ blocksOf p.blockPool ∧ Follows a.tip b := by
  constructor
  · rintro ⟨d, j, k, x, y, hx, hy, hindex, rfl, rfl⟩
    exact ⟨mem_blocksOf_of_node hx, mem_blocksOf_of_node hy, (h.follows_of_index hx hy).mp hindex⟩
  · rintro ⟨ha, hb, hf⟩
    obtain ⟨d, j, x, hx, rfl, _⟩ := h.node_of_mem ha
    obtain ⟨k, y, hy, hindex, rfl⟩ := h.child_of_follows hx hb hf
    exact ⟨d, j, k, x, y, hx, hy, hindex, rfl, rfl⟩

/-- The block that a connected one is on top of is connected. -/
theorem Ok.rooted_parent {p : Pool} (h : p.Ok) {a b : Block} (hb : p.Rooted b) (ha : a ∈ blocksOf p.blockPool)
    (hf : Follows a.tip b) : p.Rooted a := by
  obtain ⟨bs, hbs⟩ := hb
  obtain ⟨_, _, _, _, _, hheight⟩ := h.node_of_mem ha
  have htop := hbs.height
  have hnext := hf.2.2
  simp only [Block.tip] at hnext
  rcases List.eq_nil_or_concat' bs with rfl | ⟨init, c, rfl⟩
  · simp only [List.length_nil] at htop
    omega
  · have hfc := hbs.follows
    rw [tipOf, Trail.finish_concat] at hfc
    have hc : c ∈ blocksOf p.blockPool := hbs.init.1 c (by simp)
    have hch := hfc.2.2
    simp only [Block.tip] at hch
    obtain rfl : c = a := h.eq_of_hash hc ha (by omega) (hfc.2.1.symm.trans hf.2.1)
    exact ⟨init, hbs.init⟩

/-- It is enough that no block is new and no connected one is lost. -/
theorem SameTree.of_blocks {p q : Pool} (hp : p.Ok) (hq : q.Ok) (htip : q.tip = p.tip)
    (hsub : ∀ b ∈ blocksOf q.blockPool, b ∈ blocksOf p.blockPool)
    (hkept : ∀ b, p.Rooted b → b ∈ blocksOf q.blockPool) : p.SameTree q where
  tip := htip
  blocks b := by
    unfold IsConnected
    rw [← hq.rooted_iff, ← hp.rooted_iff]
    constructor
    · rintro ⟨bs, hbs⟩
      exact ⟨bs, hbs.transfer htip.symm fun a _ hmem => hsub a hmem⟩
    · rintro ⟨bs, hbs⟩
      exact ⟨bs, hbs.transfer htip fun a ha _ => hkept a (hbs.rooted_of_mem ha)⟩
  parents a b hb := by
    rw [hq.isParent_iff, hp.isParent_iff]
    constructor
    · rintro ⟨ha, hmem, hf⟩
      exact ⟨hsub a ha, hsub b hmem, hf⟩
    · rintro ⟨ha, _, hf⟩
      have hroot : p.Rooted b := hp.rooted_iff.mpr hb
      exact ⟨hkept a (hp.rooted_parent hroot ha hf), hkept b hroot, hf⟩

/-- A connected block is not barred. -/
theorem Rooted.not_barred {p : Pool} {b : Block} (h : p.Rooted b) : ¬ p.Barred b := by
  obtain ⟨bs, hbs⟩ := h
  have hheight := hbs.height
  rintro (hlow | ⟨hfirst, hlast⟩)
  · omega
  · obtain rfl : bs = [] := List.length_eq_zero_iff.mp (by omega)
    rw [Follows.namesLast hbs.follows] at hlast
    cases hlast

end Pool

/-- The blocks that the backup gives back. -/
def Records.backed (d : Records) : Set Block := {a | a.Restorable env ∧ d.Keeps env a ∧ a.blockId ≠ []}

variable {env}

/-- A record tells its block. -/
theorem Block.Restorable.eq_of_keeps {d : Records} {a b : Block} (ha : a.Restorable env) (hb : b.Restorable env)
    (hka : d.Keeps env a) (hkb : d.Keeps env b) (hid : a.getBlockIdB64 env = b.getBlockIdB64 env) : a = b := by
  have hrecord : (Storage.backupRecord env a).value = (Storage.backupRecord env b).value := by
    rw [← hka.2, ← hkb.2, hid]
  have hread := ha.deserialize
  rw [hrecord, hb.deserialize] at hread
  exact (Option.some.inj (Except.ok.inj hread)).symm

theorem injOn_backed (d : Records) : Set.InjOn Block.blockId (d.backed env) := by
  rintro a ⟨hra, hka, _⟩ b ⟨hrb, hkb, _⟩ hid
  exact hra.eq_of_keeps hrb hka hkb (by rw [Block.getBlockIdB64, hid]; rfl)

/-- Where ids tell the blocks apart, every block of the pool has its record, and the list its id. -/
theorem Storage.BackedUp.keeps {s : Storage} {p : Pool} {resolved : List Block} (h : s.BackedUp env p resolved)
    (hids : ((resolved ++ Pool.blocksOf p.blockPool).map Block.blockId).Nodup) {b : Block}
    (hb : b ∈ Pool.blocksOf p.blockPool) (hne : b.blockId ≠ []) : s.disk.Keeps env b := by
  rw [List.map_append, List.nodup_append] at hids
  obtain ⟨_, hpool, hapart⟩ := hids
  obtain ⟨l₁, l₂, hsplit⟩ := List.append_of_mem hb
  refine h.held l₁ b l₂ hsplit ?_ hne fun hmem => hapart _ hmem _ (List.mem_map_of_mem hb) rfl
  rw [hsplit, List.map_append, List.map_cons, List.nodup_append] at hpool
  exact fun a ha heq => (List.nodup_cons.mp hpool.2.1).1 (heq ▸ List.mem_map_of_mem ha)

namespace ChainState

variable (env) in
/-- The ledger calls made so far, all for blocks of the pool that is restored. -/
def Feeding (d : Records) (p : Pool) (n : Nat) (c : ChainState) : Prop :=
  ∃ passed seen, Pool.Feed env (d.backed env) c.pool passed seen ∧
    (∀ q ∈ seen, ∀ b ∈ Pool.blocksOf q.blockPool, b ∈ Pool.blocksOf p.blockPool) ∧
    Counts {u | ∃ b ∈ Pool.blocksOf p.blockPool, u ∈ usersOf env b}
      (n + (passed.map (weight env)).sum) c.layered

section Backup

variable {d : Records} {p q : Pool} {clock : Nat → Nat} {n : Nat}
  (honly : ∀ j ∈ d.readBackupIds, Safe.getString j ≠ [] → ∃ a : Block, a.Restorable env ∧
    j = .string (a.getBlockIdB64 env) ∧ d.Keeps env a ∧ p.Listed a)
  (hok : p.Ok) (hn : p.Near) (hlast : p.lastHeight < 2 ^ 31) (htip : q.tip = p.tip)
  (hclock : p.AdmitsAll q.lastTime clock)
  (hplain : ∀ b ∈ Pool.blocksOf p.blockPool, ∀ u ∈ usersOf env b, underscore ∉ u)
  (hroom : n + ((Pool.blocksOf p.blockPool).map (weight env)).sum < 2 ^ 31)
include honly hn hlast htip hclock hplain hroom

theorem Restoring.returns {c : ChainState} (h : Restoring env d p q c) (hf : Feeding env d p n c) {j : Json}
    {k : Nat} (hj : j ∈ d.readBackupIds) :
    ∃ c', restoreOne env (clock k) c j = .ok c' ∧ Feeding env d p n c' := by
  rcases h.turn honly hn (by omega) htip hclock hj with ⟨_, hc⟩ | ⟨a, hrest, rfl, hk, hlisted, hne, hw, hturn⟩
  · exact ⟨c, hc, hf⟩
  have hheight : q.lastHeight = p.lastHeight := congrArg Tip.height htip
  obtain ⟨⟨r, p', acc⟩, hpush⟩ := h.ok.push_returns env h.near (by rw [h.last.2.2.1, hheight]; exact hlast) hw
  obtain ⟨passed, seen, hfeed, hseen, hcounts⟩ := hf
  have hfeed' := hfeed.push ⟨hrest, hk, hne⟩ hw hpush
  have hfed := hfeed'.fed (injOn_backed d) fun b hb => hb.2.2
  have hseen' : ∀ q ∈ seen ++ [p'], ∀ b ∈ Pool.blocksOf q.blockPool, b ∈ Pool.blocksOf p.blockPool := by
    intro q hq b hb
    rcases List.mem_append.mp hq with hq | hq
    · exact hseen q hq b hb
    · rw [List.mem_singleton.mp hq] at hb
      exact (h.blocks_push htip hk hlisted hw hpush b hb).1
  have hpassed : ∀ b ∈ passed ++ Pool.handed acc, b ∈ Pool.blocksOf p.blockPool := by
    intro b hb
    obtain ⟨q, hq, hroot⟩ := (hfed.rooted b).mp hb
    exact hseen' q hq b hroot.mem
  have hsum := sum_map_le_of_subset (f := weight env) hfed.once hpassed
  rw [hturn]
  cases acc with
  | none =>
    refine ⟨⟨p', c.layered⟩, ?_, _, _, hfeed', hseen', ?_⟩
    · simp [ChainState.push, hpush, bind, Except.bind, Except.map]
      rfl
    · simpa [Pool.handed] using hcounts
  | some x =>
    have hhanded : Pool.handed (some x) = x.forwards.map Pool.Forward.block := by simp [Pool.handed]
    rw [hhanded] at hpassed hsum
    rw [List.map_append, List.sum_append] at hsum
    have hfs : ∀ f ∈ x.forwards, f.block.blockId ≠ [] ∧
        ∀ u ∈ usersOf env f.block, u ∈ {u | ∃ b ∈ Pool.blocksOf p.blockPool, u ∈ usersOf env b} := by
      intro f hf
      have hmem : f.block ∈ passed ++ x.forwards.map Pool.Forward.block :=
        List.mem_append_right _ (List.mem_map_of_mem hf)
      obtain ⟨q, hq, hroot⟩ := (hfed.rooted f.block).mp (by rw [hhanded]; exact hmem)
      exact ⟨(hfed.held q hq _ hroot.mem).1.2.2, fun u hu => ⟨f.block, hpassed _ hmem, hu⟩⟩
    have hplain' : ∀ u ∈ {u | ∃ b ∈ Pool.blocksOf p.blockPool, u ∈ usersOf env b}, underscore ∉ u := by
      rintro u ⟨b, hb, hu⟩
      exact hplain b hb u hu
    obtain ⟨ls, hls, hcounts'⟩ := hcounts.forwards env hplain' (by omega) hfs
    refine ⟨⟨p', { ls with blockLayer := x.layer }⟩, ?_, _, _, hfeed', hseen', ?_⟩
    · simp only [ChainState.push, hpush, applyAccepted, backupUnless, if_true, hls, bind, Except.bind, Except.map, pure,
        Except.pure]
    · rw [hhanded, List.map_append, List.sum_append, ← Nat.add_assoc]
      exact ⟨hcounts'.disk, hcounts'.mem⟩

include hok

/-- Every turn returns and keeps both invariants, so the loop returns. -/
theorem Restoring.all_returns {c₀ : ChainState} (h : Restoring env d p q c₀) (hf : Feeding env d p n c₀) :
    ∃ c, c₀.restorePool env clock = .ok c := by
  have hlisted : ∀ x ∈ c₀.layered.storage.disk.readBackupIds.zipIdx, x.1 ∈ d.readBackupIds := by
    intro x hx
    rw [h.disk] at hx
    exact List.mem_of_getElem? (List.mem_zipIdx_iff_getElem?.mp hx)
  have hturn : ∀ c x, x ∈ c₀.layered.storage.disk.readBackupIds.zipIdx → Restoring env d p q c ∧ Feeding env d p n c →
      ∃ c', restoreOne env (clock x.2) c x.1 = .ok c' ∧ Restoring env d p q c' ∧ Feeding env d p n c' := by
    rintro c x hx ⟨hres, hfed⟩
    obtain ⟨c', hret, hfed'⟩ := hres.returns honly hn hlast htip hclock hplain hroom hfed (hlisted x hx)
    exact ⟨c', hret, (hres.step honly hok hn (by omega) htip hclock (hlisted x hx) hret).1, hfed'⟩
  refine (foldlM_returns (P := fun c => Restoring env d p q c ∧ Feeding env d p n c)
    (Q := fun _ => False) (fun c x c' hx hc hstep => ?_) (fun c x hx hc => ?_) ⟨h, hf⟩).resolve_right
    fun ⟨_, _, hfalse⟩ => hfalse
  · obtain ⟨c'', hret, hboth⟩ := hturn c x hx hc
    obtain rfl : c'' = c' := Except.ok.inj (hret.symm.trans hstep)
    exact hboth
  · obtain ⟨c', hret, _⟩ := hturn c x hx hc
    exact Or.inl ⟨c', hret⟩

end Backup

/-- A restart on a backup of a well-linked pool. -/
theorem restart_of_backup {s : Storage} {p : Pool} {resolved : List Block} {link : NthLink} {clock : Nat → Nat}
    (hb : s.BackedUp env p resolved) (hok : p.Ok) (hn : p.Near) (hlast : p.lastHeight < 2 ^ 31)
    (hlink : s.disk.getNthBlockLinkInfo env 0 = .ok link) (htip : (⟨link.id, link.hash, link.height⟩ : Tip) = p.tip)
    (hids : ((resolved ++ Pool.blocksOf p.blockPool).map Block.blockId).Nodup)
    (hne : ∀ b ∈ Pool.blocksOf p.blockPool, b.blockId ≠ [])
    (hroom : Room env (s.disk .ledger) (Pool.blocksOf p.blockPool)) (hclock : p.AdmitsAll link.time clock) :
    ∃ c, start env clock s.disk = .ok c ∧ p.SameTree c.pool := by
  obtain ⟨n, hsum, husers⟩ := hroom
  let q := Pool.fresh.setPool link.id link.prevId link.hash link.prevHash link.height link.time
  let c₀ : ChainState := ⟨q, ⟨⟨s.disk, fun _ => [], []⟩, [], []⟩⟩
  have hempty : Pool.blocksOf q.blockPool = [] := rfl
  have hrestoring : Restoring env s.disk p q c₀ :=
    ⟨rfl, .refl q, trivial, by simp [Pool.Near, c₀, q, hempty], by simp [c₀, hempty]⟩
  have hfeeding : Feeding env s.disk p n c₀ := by
    refine ⟨[], [q], .setPool _ _ _ _ _ _, ?_, ?_, by simp [c₀]⟩
    · intro q' hq' b hb
      rw [List.mem_singleton.mp hq'] at hb
      cases hb
    · rintro u ⟨b, hb, hu⟩
      exact (husers b hb u hu).2
  have hplain : ∀ b ∈ Pool.blocksOf p.blockPool, ∀ u ∈ usersOf env b, underscore ∉ u :=
    fun b hb u hu => (husers b hb u hu).1
  have hq : q.tip = p.tip := htip
  have hadmits : p.AdmitsAll q.lastTime clock := hclock
  have hstart : start env clock s.disk = c₀.restorePool env clock := by
    rw [start, hlink]
    rfl
  obtain ⟨c, hc⟩ := hrestoring.all_returns hb.only hok hn hlast hq hadmits hplain hsum hfeeding
  obtain ⟨hres, hall⟩ := hrestoring.all hb.only hok hn (by omega) hq hadmits hc
  refine ⟨c, hstart.trans hc, .of_blocks hok hres.ok ?_ (fun b hb => (hres.blocks b hb).1) fun b hroot => ?_⟩
  · exact hres.last.tip.trans hq
  · have hkeeps := hb.keeps hids hroot.mem (hne b hroot.mem)
    have hidB64 : Safe.getString (.string (b.getBlockIdB64 env)) ≠ [] := Block.getBlockIdB64_ne env (hne b hroot.mem)
    obtain ⟨a, hrest, hid, hka, hin⟩ := hall _ hkeeps.1 hidB64
    obtain rfl : a = b := hrest.eq_of_keeps (hb.restorable b hroot.mem) hka hkeeps (Json.string.inj hid).symm
    exact hin.resolve_right hroot.not_barred

end ChainState

namespace Storage

/-- The time of the last block of a chain. -/
def lastTimeOf (bs : List Block) : Nat := (bs.getLast?.map Block.time).getD 0

/-- The link of a stored chain. -/
theorem Represents.link {d : Records} {bs : List Block} (h : Represents env d bs)
    (ht : ∀ b, bs.getLast? = some b → b.time < 2 ^ 63) : ∃ link, d.getNthBlockLinkInfo env 0 = .ok link ∧
      (⟨link.id, link.hash, link.height⟩ : Tip) = tipOf (genesisTip env) bs ∧ link.time = lastTimeOf bs := by
  cases hlast : bs.getLast? with
  | none =>
    obtain rfl := List.getLast?_eq_none_iff.mp hlast
    have hid := h.none rfl (ascii "bID") (by simp)
    have hnone : d.getNthBlockIdB64 0 = [] := by
      simp [Records.getNthBlockIdB64, Records.getText, Records.getValueByKey, hid, Value.toText]
    refine ⟨_, by rw [Records.getNthBlockLinkInfo, if_pos hnone]; rfl, rfl, rfl⟩
  | some b =>
    have hmem := List.mem_of_getLast? hlast
    have hs := h.sound b hmem
    have hstored : Stored env d b := h.stored b hmem
    obtain ⟨init, rfl⟩ := List.getLast?_eq_some_iff.mp hlast
    refine ⟨b.link, hstored.getNthBlockLinkInfo env hs.height_lt ⟨hs.id_ne, ht b hlast, hs.hash_eq⟩
      (getNthBlockIdB64_of_latestIs env (h.latest b hlast)), ?_, ?_⟩
    · rw [tipOf, Trail.finish_concat]
      rfl
    · simp [lastTimeOf, Block.link]

end Storage

namespace ChainState

/-- A well-linked pool with its backup, on top of a stored chain. -/
structure Durable (env : Env) (c : ChainState) : Prop where
  sane : c.Sane env
  near : c.pool.Near
  backed : c.layered.storage.BackedUp env c.pool (resolvedIn c.layered.storage.log)
  stored : Storage.Represents env c.layered.storage.disk (resolvedIn c.layered.storage.log)

/-- What a restart needs of the blocks of a state and of the clock: ids that tell the blocks
apart, a last block whose time can be read back, and room in the ledger. -/
structure Restartable (env : Env) (clock : Nat → Nat) (c : ChainState) : Prop where
  ids : ((resolvedIn c.layered.storage.log ++ Pool.blocksOf c.pool.blockPool).map Block.blockId).Nodup
  id_ne : ∀ b ∈ Pool.blocksOf c.pool.blockPool, b.blockId ≠ []
  time_lt : ∀ b, (resolvedIn c.layered.storage.log).getLast? = some b → b.time < 2 ^ 63
  height_lt : c.pool.lastHeight < 2 ^ 31
  room : Room env (c.layered.storage.disk .ledger) (Pool.blocksOf c.pool.blockPool)
  admits : c.pool.AdmitsAll (Storage.lastTimeOf (resolvedIn c.layered.storage.log)) clock

theorem Durable.restart {c : ChainState} {clock : Nat → Nat} (h : c.Durable env) (hre : c.Restartable env clock) :
    ∃ c', start env clock c.layered.storage.disk = .ok c' ∧ c.pool.SameTree c'.pool := by
  obtain ⟨link, hlink, htip, hsince⟩ := h.stored.link hre.time_lt
  exact restart_of_backup h.backed h.sane.ok h.near hre.height_lt hlink (htip.trans h.sane.tip.symm) hre.ids hre.id_ne
    hre.room (by rw [hsince]; exact hre.admits)

theorem Recached.near {c c' : ChainState} (hc : c.Recached c') (h : c.pool.Near) : c'.pool.Near := by
  obtain ⟨⟨link, layer, pos, hp⟩, _⟩ := hc
  rw [hp]
  exact h

theorem near_delivers {c c' : ChainState} {now : Nat} {block : Block} {r : PushResult} (hsane : Sane env c)
    (hn : c.pool.Near) (hw : c.pool.NoWrap now block.height) (hb : block.Received env)
    (hd : c.Delivers env now block c' r) : c'.pool.Near := by
  have hpush : ∀ {c₁ : ChainState}, c.push env now block false = .ok (r, c₁) → c₁.pool.Near := by
    intro c₁ hp
    obtain ⟨a, hpool, _⟩ := (push_eq_ok env).mp hp
    exact hn.push hw hpool
  cases hd with
  | kept hp _ hc => exact hc.near (hpush hp)
  | resolved hp _ hq hr hc =>
    obtain ⟨ws, ds, hres, _⟩ := procResolved_cases env hr
    exact hc.near ((hq.near (hpush hp)).resolves ((hsane.push hw hb hp).recached hq).ok hres)

end ChainState

namespace Merger

variable (env) in
/-- The times of the transactions can be read back. -/
def TimesFit (body : Json) : Prop :=
  ∀ block, Block.initializeBody env body = .ok (some block) → ∀ tx ∈ block.transactions, tx.sentTime < 2 ^ 63

variable (env) in
/-- Nothing wraps, and all times can be read back. -/
def Writable (m : Merger) (now : Nat) (body : Json) : Prop := m.NoWrap env now body ∧ TimesFit env body

/-- The pool is backed up in every run. -/
theorem Run.backedUp (hpad : env.base64.Padded) {m₀ m : Merger} (h₀ : m₀.chain = ChainState.initial env)
    (h : Merger.Run env (Writable env) m₀ m) : m.chain.Sane env ∧ m.chain.pool.Near ∧
      m.chain.layered.storage.BackedUp env m.chain.pool (resolvedIn m.chain.layered.storage.log) := by
  induction h with
  | refl =>
    rw [h₀]
    exact ⟨.initial env, by simp [Pool.Near, ChainState.initial, Pool.setPool, Pool.fresh, Pool.blocksOf], .initial⟩
  | step _ ha hs ih =>
    obtain ⟨hsane, hn, hbacked⟩ := ih
    rcases Merger.handleMsgBlock_cases env hs with ⟨_, rfl⟩ | ⟨block, hb, _, hd⟩
    · exact ⟨hsane, hn, hbacked⟩
    · have hw := ha.1 block hb
      have hr := Block.received_of_body hb
      exact ⟨hsane.delivers hw hr hd, ChainState.near_delivers hsane hn hw hr hd,
        ChainState.backed_delivers hpad hsane hw hr (ha.2 block hb) hbacked hd⟩

theorem Run.durable (hpad : env.base64.Padded) {m₀ m : Merger} (h₀ : m₀.chain = ChainState.initial env)
    (h : Merger.Run env (Writable env) m₀ m) (hall : AllSaved m.chain.layered.storage.log) : m.chain.Durable env := by
  obtain ⟨hsane, hn, hbacked⟩ := h.backedUp hpad h₀
  exact ⟨hsane, hn, hbacked, (h.mono env fun _ _ _ hw => hw.1).represents env h₀ hall⟩

/-- In every run that saves what it resolves, a restart finds the tree of the pool again, if
the blocks have ids of their own and times that can be read back and the ledger has room. -/
theorem restart_refines (hpad : env.base64.Padded) {m₀ m : Merger} (h₀ : m₀.chain = ChainState.initial env)
    (h : Merger.Run env (Writable env) m₀ m) (hall : AllSaved m.chain.layered.storage.log) {clock : Nat → Nat}
    (hre : m.chain.Restartable env clock) :
    ∃ c, ChainState.start env clock m.chain.layered.storage.disk = .ok c ∧ m.chain.pool.SameTree c.pool :=
  (h.durable hpad h₀ hall).restart hre

end Merger

open Sample

/-- A clock that stands still admits blocks right above the last one. -/
theorem Pool.AdmitsAll.of_lowest {p : Pool} {since now : Nat} (hs : since ≤ now) (hn : now < 2 ^ 64)
    (h : ∀ b ∈ blocksOf p.blockPool, b.height = p.lastHeight + 1) : p.AdmitsAll since fun _ => now := by
  refine fun _ => ⟨hs, hn, fun b hb => ?_⟩
  rw [h b hb, Nat.add_sub_cancel_left, Nat.sub_self, Nat.zero_mul]
  exact Nat.zero_le _

/-- Good rows are written and read back. -/
theorem Sample.writable_message {rows : List Row} {now row : Nat} {r : Row} {s : Merger} (hg : Good rows)
    (hr : rows[row]? = some r) (hw : s.chain.pool.NoWrap now (r.block row).height)
    (hinit : Block.initializeBody (world rows) (message (r.block row)) = .ok (some (r.block row))) :
    Merger.Writable (world rows) s now (message (r.block row)) := by
  refine ⟨fun b hb => ?_, fun b hb tx htx => ?_⟩
  · rw [hinit] at hb
    cases hb
    exact hw
  · rw [hinit] at hb
    cases hb
    exact ((hg.2 r (List.mem_of_getElem? hr)).2.2.1 tx htx).2.1

theorem Sample.run_writable {rows : List Row} {now : Nat} {order : List Nat} {m : Merger} (hg : Good rows) (hn : now < 2 ^ 64)
    (h : run rows now order initial = .ok m) : Merger.Run (world rows) (Merger.Writable (world rows)) initial m :=
  run_allowed hg hn (Nat.zero_le now) (fun _ _ _ hr hw hinit => writable_message hg hr hw hinit) h

/-- A state without certificates whose blocks a clock that stands still admits. -/
def Sample.Restarts (env : Env) (now : Nat) (c : ChainState) : Prop :=
  ((resolvedIn c.layered.storage.log ++ Pool.blocksOf c.pool.blockPool).map Block.blockId).Nodup ∧
    c.pool.lastHeight < 2 ^ 31 ∧ Storage.lastTimeOf (resolvedIn c.layered.storage.log) ≤ now ∧
    ∀ b ∈ Pool.blocksOf c.pool.blockPool, b.blockId ≠ [] ∧ registeredBy env b = [] ∧
      (b.height - c.pool.lastHeight - 1) * bpInterval ≤ now - Storage.lastTimeOf (resolvedIn c.layered.storage.log)

instance (env : Env) (now : Nat) (c : ChainState) : Decidable (Sample.Restarts env now c) :=
  inferInstanceAs (Decidable (_ ∧ _ ∧ _ ∧ _))

theorem Sample.Restarts.restartable {now : Nat} {c : ChainState} (h : Sample.Restarts env now c) (hn : now < 2 ^ 63) :
    c.Restartable env fun _ => now := by
  obtain ⟨hids, hheight, htime, hblocks⟩ := h
  refine ⟨hids, fun b hb => (hblocks b hb).1, fun b hb => ?_, hheight, ⟨0, ?_, fun b hb u hu => ?_⟩,
    fun _ => ⟨htime, by omega, fun b hb => (hblocks b hb).2.2⟩⟩
  · rw [Storage.lastTimeOf, hb] at htime
    exact Nat.lt_of_le_of_lt htime hn
  · rw [show ((Pool.blocksOf c.pool.blockPool).map (CertificateLedger.weight env)).sum = 0 from
      List.sum_eq_zero_iff.mpr fun w hw => ?_]
    · decide
    · obtain ⟨b, hb, rfl⟩ := List.mem_map.mp hw
      rw [CertificateLedger.weight, (hblocks b hb).2.1]
      rfl
  · rw [usersOf, (hblocks b hb).2.1] at hu
    cases hu

/-- After a run of four blocks, three of them saved, the fourth is found again. -/
theorem Merger.restart_refines_chain : ∃ m c, Merger.Run (world chainRows) (Writable (world chainRows)) initial m ∧
    (Pool.blocksOf m.chain.pool.blockPool).map Block.blockId = [[4]] ∧
    ChainState.start (world chainRows) (fun _ => 1000) m.chain.layered.storage.disk = .ok c ∧
    m.chain.pool.SameTree c.pool := by
  have hrun : okAnd (fun m : Merger => decide (AllSaved m.chain.layered.storage.log) &&
      decide ((Pool.blocksOf m.chain.pool.blockPool).map Block.blockId = [[4]]) &&
      decide (Restarts (world chainRows) 1000 m.chain))
      (Sample.run chainRows 1000 [0, 1, 2, 3] initial) = true := by decide +kernel
  obtain ⟨m, hm, htest⟩ := okAnd_eq_true.mp hrun
  simp only [Bool.and_eq_true, decide_eq_true_eq] at htest
  obtain ⟨⟨hall, hpool⟩, hrestarts⟩ := htest
  have h := run_writable (by decide +kernel) (by decide) hm
  obtain ⟨c, hc, hsame⟩ := restart_refines Base64.padded_padded (initial_chain _) h hall (hrestarts.restartable (by decide))
  exact ⟨m, c, h, hpool, hc, hsame⟩

/-- Three blocks, the last under the id of the first. -/
def Sample.lateTwinRows : List Row :=
  [⟨[1], genesisBlockPrevId base, genesisBlockPrevHash base, 1, [good 1, good 2, good 3], [digestTx]⟩,
   ⟨[2], [1], hashOf 0, 2, [good 1, good 2, good 3], [digestTx]⟩,
   ⟨[1], [2], hashOf 1, 3, [good 1, good 2, good 3], [digestTx]⟩]

/-- The second block comes last, and the first two are resolved. This takes the id of the
third off the list, and a restart does not find it. -/
theorem Merger.restart_loses_block : ∃ m c b, Merger.Run (world lateTwinRows) (Writable (world lateTwinRows)) initial m ∧
    AllSaved m.chain.layered.storage.log ∧ ((Pool.blocksOf m.chain.pool.blockPool).map Block.blockId).Nodup ∧
    m.chain.pool.AdmitsAll 50 (fun _ => 1000) ∧
    ChainState.start (world lateTwinRows) (fun _ => 1000) m.chain.layered.storage.disk = .ok c ∧ c.pool.lastTime = 50 ∧
    m.chain.pool.IsConnected b ∧ ¬ c.pool.IsConnected b := by
  have hrun : okAnd (fun m : Merger => decide (AllSaved m.chain.layered.storage.log) &&
      decide ((Pool.blocksOf m.chain.pool.blockPool).map Block.blockId).Nodup &&
      (Pool.blocksOf m.chain.pool.blockPool).all (fun b => decide (b.height = m.chain.pool.lastHeight + 1)) &&
      (node m.chain.pool.blockPool 0 0).any (fun e => decide (e.prevVectorIdx = 0)) &&
      okAnd (fun c : ChainState => decide (c.pool.lastTime = 50) && (Pool.blocksOf c.pool.blockPool).isEmpty)
        (ChainState.start (world lateTwinRows) (fun _ => 1000) m.chain.layered.storage.disk))
      (Sample.run lateTwinRows 1000 [0, 2, 1] initial) = true := by decide +kernel
  obtain ⟨m, hm, htest⟩ := okAnd_eq_true.mp hrun
  simp only [Bool.and_eq_true, decide_eq_true_eq, List.all_eq_true, List.isEmpty_iff, okAnd_eq_true,
    Option.any_eq_true] at htest
  obtain ⟨⟨⟨⟨hall, hnodup⟩, hheights⟩, e, he, hroot⟩, c, hc, hsince, hempty⟩ := htest
  refine ⟨m, c, e.block, run_writable (by decide +kernel) (by decide) hm, hall, hnodup,
    .of_lowest (by decide) (by decide) hheights, hc, hsince, ⟨0, 0, e, .top he hroot, rfl⟩, ?_⟩
  rintro ⟨d, j, e', hchain, -⟩
  have hmem := Pool.mem_blocksOf_of_node hchain.node_eq
  rw [hempty] at hmem
  cases hmem

end GruutMerger
