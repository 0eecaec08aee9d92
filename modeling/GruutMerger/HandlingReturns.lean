import GruutMerger.LedgerAgreement
import GruutMerger.LookupReturns
import GruutMerger.PushTotal
import GruutMerger.ServedBlocks

/-!
# Handling a block returns

A call of `handleMsgBlock` reads the pool at positions that may be remembered
from before, feeds the ledger, checks and saves what is resolved. On blocks that
can be told apart and saved, in any order and with any forks, none of this
fails: remembered positions stay inside the pool, the counts of the ledger stay
numbers, and the latest block can always be read.
-/
namespace GruutMerger

open ByteText KeyValue Forest Fallible CertificateLedger

namespace Pool

/-- A position above the last block is one of the pool. -/
def At (p : Pool) (pos : BlockPosOnMap) : Prop :=
  p.lastHeight < pos.1 → ∃ (i : Nat) (e : UnresolvedBlock), pos.1 = p.lastHeight + 1 + i ∧ i + 1 < 2 ^ 31 ∧
    node p.blockPool i pos.2 = some e

/-- What is remembered is a position of the pool, however old it is. -/
def InRange (p : Pool) : Prop := ∀ pos, p.cachePos = some pos → p.At pos

theorem Ok.at_searchLongestPos {p : Pool} (h : p.Ok) (hn : p.Near) : p.At (Pool.searchLongestPos p.blockPool) := by
  intro hlow
  rcases h.longest hn rfl with ⟨hzero, _⟩ | ⟨bs, d, e, _, hnode, hkey, _, hidx, _⟩
  · rw [hzero] at hlow
    cases hlow
  · have hmem := mem_bin_of_node hnode
    have hnear := hn e.block (mem_blocksOf.mpr ⟨d, e, hmem, rfl⟩)
    have hheight := WellLinked.height_of_mem h hmem
    exact ⟨d, e, by omega, by omega, hnode⟩

theorem Ok.at_getLongestBlockPos {p : Pool} (h : p.Ok) (hn : p.Near) (hr : p.InRange) :
    p.At p.getLongestBlockPos.1 := by
  unfold Pool.getLongestBlockPos
  split
  · rename_i pos hpos
    exact hr pos hpos
  · exact h.at_searchLongestPos hn

/-- Queries remember positions of the pool. -/
theorem InRange.queried {env : Env} {p p' : Pool} (hr : p.InRange) (h : p.Ok) (hn : p.Near) (hq : p.Queried env p') :
    p'.InRange := by
  have hpos : p.getLongestBlockPos.2.InRange := by
    unfold Pool.getLongestBlockPos
    split
    · exact hr
    · intro pos hcached
      cases hcached
      exact h.at_searchLongestPos hn
  rcases hq.cases env with rfl | rfl | ⟨_, _, _, rfl | rfl⟩ | ⟨_, _, _, rfl⟩
  · exact hr
  · exact hpos
  · exact hr
  · exact hpos
  · exact hpos

theorem InRange.grow {p : Pool} (hr : p.InRange) (n : Nat) : (p.grow n).InRange := by
  intro pos hpos hlow
  obtain ⟨i, e, hheight, hlt, hnode⟩ := hr pos hpos hlow
  exact ⟨i, e, hheight, hlt, (node_grow p n i pos.2).trans hnode⟩

theorem InRange.counted {p : Pool} (hr : p.InRange) : p.counted.InRange := by
  intro pos hpos hlow
  obtain ⟨i, e, hheight, hlt, hnode⟩ := hr pos hpos hlow
  obtain ⟨e', hnode', _⟩ := node_of_skeleton (skeleton_updateConfirmLevel p.blockPool) hnode
  exact ⟨i, e', hheight, hlt, hnode'⟩

theorem node_advance (p : Pool) (w : UnresolvedBlock) {i j : Nat} {e : UnresolvedBlock}
    (h : node p.blockPool (i + 1) j = some e) : ∃ e', node (p.advance w).blockPool i j = some e' := by
  unfold advance
  cases hbins : p.blockPool with
  | nil =>
    rw [hbins] at h
    simp at h
  | cons bin rest =>
    rw [hbins] at h
    simp only [List.tail_cons]
    cases rest with
    | nil => simp [node] at h
    | cons next more =>
      cases i with
      | zero =>
        simp only [node, List.getD_cons_succ, List.getD_cons_zero] at h
        simp [node, rebase, h]
      | succ i => exact ⟨e, h⟩

/-- Resolving a block moves the last height and takes the first bin away. -/
theorem InRange.advance {p : Pool} (hr : p.InRange) {w : UnresolvedBlock} (hheight : w.block.height = p.lastHeight + 1) :
    (p.advance w).InRange := by
  intro pos hpos hlow
  have hlast : (p.advance w).lastHeight = p.lastHeight + 1 := hheight
  rw [hlast] at hlow
  obtain ⟨i, e, hi, hlt, hnode⟩ := hr pos hpos (by omega)
  obtain ⟨k, rfl⟩ : ∃ k, i = k + 1 := ⟨i - 1, by omega⟩
  obtain ⟨e', hnode'⟩ := node_advance p w hnode
  exact ⟨k, e', by omega, by omega, hnode'⟩

theorem InRange.resolves {env : Env} {p p' : Pool} {ws : List UnresolvedBlock} {ds : List Bytes} (hr : p.InRange)
    (h : p.Ok) (hres : Resolves env p ws ds p') : p'.InRange := by
  induction hres with
  | stop _ => exact hr.counted
  | step hw _ ih => exact ih (hr.counted.advance (h.counted.follows hw).2.2) (h.counted.advance hw)

/-- An accepted block makes the pool look for the longest chain again. -/
theorem Accepts.inRange {env : Env} {p p' : Pool} {i : Nat} {prev : Int} {block : Block} {r : PushResult} {a : Accepted}
    (ha : Accepts env p i prev block r p' a) (h : p'.Ok) (hn : p'.Near) : p'.InRange := by
  intro pos hpos
  rw [ha.pool] at hpos
  obtain rfl := Option.some.inj hpos
  exact h.at_searchLongestPos hn

/-- The search for a missing block reads the pool inside its bounds. -/
theorem Ok.lowestLink_returns {p : Pool} (h : p.Ok) (hn : p.Near) (hr : p.InRange) (hlast : p.lastHeight < 2 ^ 31) :
    ∃ link, p.getUnresolvedLowestLink = .ok link := by
  obtain ⟨cached, hsnd⟩ := p.getLongestBlockPos_snd
  have hat := h.at_getLongestBlockPos hn hr
  simp only [getUnresolvedLowestLink, hsnd]
  generalize p.getLongestBlockPos.1 = pos at hat
  split
  · split
    · exact ⟨_, rfl⟩
    · rename_i hrange hne
      obtain ⟨i, e, hheight, hlt, hnode⟩ := hat (by omega)
      have hidx : binIdx p.lastHeight pos.1 = i := by
        rw [binIdx_of_lt (by omega) (by omega) (by omega)]
        omega
      rw [hidx, if_pos (by omega), Int.toNat_natCast, hnode]
      exact ⟨_, rfl⟩
  · exact ⟨_, rfl⟩

/-- Caches do not matter for the ledger. -/
theorem Fed.recached {B : Set Block} {p p' : Pool} {passed : List Block} {seen : List Pool} (h : Fed B p passed seen)
    (hq : p.Recached p') : Fed B p' passed (seen ++ [p']) := by
  obtain ⟨_, _, _, rfl⟩ := hq
  exact h.keep h.ok h.ids (fun _ ha => ha) (fun _ ha => Or.inl ha) le_rfl h.last fun _ hb => hb

theorem Fed.passed_known {B : Set Block} {p : Pool} {passed : List Block} {seen : List Pool} (h : Fed B p passed seen) :
    ∀ b ∈ passed, b ∈ B := by
  intro b hb
  obtain ⟨q, hq, hroot⟩ := (h.rooted b).mp hb
  exact (h.held q hq b hroot.mem).1

end Pool

variable (env : Env)

/-- Blocks that can be told apart, saved and read back. What they register is for plain names, with
times that can be read, and not too much; the certificate lookup answers. -/
structure Tame (bs : List Block) : Prop where
  ids : (bs.map Block.blockId).Nodup
  savable : ∀ b ∈ bs, b.Savable
  time_lt : ∀ b ∈ bs, b.time < 2 ^ 63
  height_lt : ∀ b ∈ bs, b.height < 2 ^ 31
  fits : ∀ b ∈ bs, b.transactions.length ≤ merkleTreeSize
  certs : ∀ b ∈ bs, ∀ entry ∈ registeredBy env b, underscore ∉ entry.1 ∧ CertificateLedger.Readable env entry.2
  room : (bs.map (weight env)).sum < 2 ^ 31
  answers : Answers env env.getUserCert

variable {env} {bs : List Block}

theorem Tame.injOn (ht : Tame env bs) : Set.InjOn Block.blockId {b | b ∈ bs} :=
  fun _ ha _ hb heq => List.inj_on_of_nodup_map ht.ids ha hb heq

theorem Tame.id_ne (ht : Tame env bs) : ∀ b ∈ {b | b ∈ bs}, b.blockId ≠ [] := fun b hb => (ht.savable b hb).id_ne

namespace ChainState

/-- Received blocks of `bs` at different heights. -/
structure Apart (env : Env) (bs chain : List Block) : Prop where
  heights : (chain.map Block.height).Nodup
  known : ∀ b ∈ chain, b ∈ bs ∧ b.Received env ∧ 1 ≤ b.height

theorem Apart.sublist {chain chain' : List Block} (h : Apart env bs chain) (hsub : chain'.Sublist chain) :
    Apart env bs chain' :=
  ⟨(hsub.map _).nodup h.heights, fun b hb => h.known b (hsub.subset hb)⟩

theorem Apart.nodup_ids {chain : List Block} (h : Apart env bs chain) (ht : Tame env bs) :
    (chain.map Block.blockId).Nodup :=
  (List.nodup_map_iff_inj_on h.heights.of_map).mpr fun a ha b hb heq =>
    ht.injOn (h.known a ha).1 (h.known b hb).1 heq

/-- The latest of the saved blocks can be read. -/
theorem Apart.latest {saved : List Block} (h : Apart env bs saved) (ht : Tame env bs) {d : Records}
    (hs : Storage.SavedAs env d saved) : ∃ link, d.getNthBlockLinkInfo env 0 = .ok link := by
  obtain ⟨s', run, hagree⟩ := hs
  have hclean : Storage.empty.Clean := fun _ _ => rfl
  have hread : ∀ b ∈ saved, Storage.Readable env b ∧ 1 ≤ b.height := by
    intro b hb
    obtain ⟨hin, hrec, hpos⟩ := h.known b hb
    exact ⟨⟨ht.id_ne b hin, ht.time_lt b hin, hrec.blockHash_eq⟩, hpos⟩
  rw [hagree.getNthBlockLinkInfo]
  rcases run.latest hclean rfl (h.nodup_ids ht) h.heights hread with ⟨_, hnone⟩ | ⟨top, htop, hlatest, _⟩
  · rw [Records.getNthBlockLinkInfo, if_pos hnone]
    exact ⟨_, rfl⟩
  · exact ⟨_, (run.stored_of_nodup env hclean (h.nodup_ids ht) h.heights htop).getNthBlockLinkInfo env
      (run.height_lt env hclean top htop) (hread top htop).1 (Storage.getNthBlockIdB64_of_latestIs env hlatest)⟩

theorem saveBlock_returns {s : Storage} {b : Block} {latest : NthLink} (hb : b.Savable)
    (hd : s.disk.getNthBlockLinkInfo env 0 = .ok latest) :
    ∃ s', s.saveBlock env b.blockRaw (b.getBlockHeaderJson env) (.object (b.bodyFields env)) = (.ok true, s') := by
  have hint : Safe.getInt (b.getBlockHeaderJson env) "hgt" = .ok b.height := by
    rw [Safe.getInt, Storage.getStringOf_hgt, Safe.parseDecimal_decimal _ hb.height_lt]
  obtain ⟨es, hes⟩ : ∃ es, Storage.putLatestBlockHeader env s.disk (b.getBlockHeaderJson env) = (es, .ok true) := by
    simp only [Storage.putLatestBlockHeader, hd, hint]
    split
    · exact ⟨_, rfl⟩
    · exact ⟨_, rfl⟩
  obtain ⟨entries, hput⟩ : ∃ entries, Storage.putBlock env s.disk b.blockRaw (b.getBlockHeaderJson env)
      (.object (b.bodyFields env)) = (entries, .ok true) := by
    simp only [Storage.putBlock, Storage.getStringOf_bID, Storage.putBlockHeader_block env hb.ssigs_ne hb.txs_ne, hes,
      Storage.putTransaction_block, Storage.putBlockHeight, Storage.putBlockRaw, Storage.Puts.and_ok]
    exact ⟨_, rfl⟩
  exact ⟨_, Storage.saveBlock_eq env hput⟩

theorem saveChecked_returns {ls : LayeredStorage} {b : Block} {latest : NthLink} (hb : b.Savable)
    (hfits : b.transactions.length ≤ merkleTreeSize) (hd : ls.storage.disk.getNthBlockLinkInfo env 0 = .ok latest) :
    ∃ ls', saveChecked env ls b = .ok ls' := by
  obtain ⟨s', hs'⟩ := saveBlock_returns hb hd
  simp only [saveChecked, (Block.getBlockBodyJson_eq_ok env).mpr ⟨hfits, rfl⟩, bind, Except.bind, hs']
  exact ⟨_, rfl⟩

/-- The loop over the resolved blocks: each is checked, and saved when it passes. -/
theorem saving_returns (ht : Tame env bs) {n : Nat} (hn : n < 2 ^ 31) {ws : List UnresolvedBlock} {ls : LayeredStorage}
    {saved : List Block} (hcounts : Counts plainNames n ls) (hcerts : Certs env ls)
    (hs : Storage.SavedAs env ls.storage.disk saved) (hclean : ls.storage.Clean)
    (ha : Apart env bs (saved ++ ws.map (·.block))) :
    ∃ ls', ws.foldlM (saveResolved env) ls = .ok ls' ∧ Moves ls ls' := by
  induction ws generalizing ls saved with
  | nil => exact ⟨ls, rfl, hcerts.batch, fun _ hr => hr, fun _ => Or.inl rfl⟩
  | cons w ws ih =>
    obtain ⟨latest, hlatest⟩ := (ha.sublist (List.sublist_append_left _ _)).latest ht hs
    obtain ⟨hin, _⟩ := ha.known w.block (by simp)
    -- one turn returns
    obtain ⟨ls₁, hone⟩ : ∃ ls₁, saveResolved env ls w = .ok ls₁ := by
      obtain ⟨valid, hvalid⟩ := isValidLate_returns ht.answers hcounts hn hcerts w.block
      rw [saveResolved, hvalid]
      cases valid with
      | true => exact saveChecked_returns (ht.savable _ hin) (ht.fits _ hin) (by exact hlatest)
      | false => exact ⟨_, rfl⟩
    have hmoves := moves_saveResolved hcerts.batch hone
    have honly : [w].foldlM (saveResolved env) ls = .ok ls₁ := foldlM_cons_eq_ok.mpr ⟨ls₁, hone, rfl⟩
    obtain ⟨new, hnew, hs₁⟩ := savedAs_foldlM hs hclean honly
    have hrest : (saved ++ new ++ ws.map (·.block)).Sublist (saved ++ (w :: ws).map (·.block)) := by
      rw [List.append_assoc]
      exact (List.Sublist.refl _).append (hnew.append (List.Sublist.refl _))
    obtain ⟨ls', hfold, hmoves'⟩ := ih (hcounts.moves hmoves) (hcerts.moves hmoves) hs₁
      ((saving_saveResolved env hone).clean hclean) (ha.sublist hrest)
    exact ⟨ls', foldlM_cons_eq_ok.mpr ⟨ls₁, hone, hfold⟩, hmoves.trans hmoves'⟩

/-- What holds in every run on the blocks of `bs`. -/
structure Steady (env : Env) (bs : List Block) (c : ChainState) : Prop where
  sane : Sane env c
  near : c.pool.Near
  inRange : c.pool.InRange
  holds : ∃ saved, Holds env c saved
  resolved : ∀ b ∈ resolvedIn c.layered.storage.log, b ∈ bs
  certs : Certs env c.layered
  fed : ∃ passed seen, Pool.Fed {b | b ∈ bs} c.pool passed seen ∧
    Counts plainNames (passed.map (weight env)).sum c.layered

theorem Steady.initial (env : Env) (bs : List Block) : Steady env bs (ChainState.initial env) where
  sane := .initial env
  near := by simp [Pool.Near, ChainState.initial, Pool.setPool, Pool.fresh, Pool.blocksOf]
  inRange _ hpos := by cases hpos
  holds := ⟨[], List.nil_sublist _, by simp, _, .nil _, fun _ _ => rfl⟩
  resolved := by simp [ChainState.initial, Storage.empty, resolvedIn]
  certs := ⟨rfl, fun _ _ => Or.inl rfl, by simp [ChainState.initial]⟩
  fed := by
    have hroot : ∀ b, ¬ (ChainState.initial env).pool.Rooted b := fun b hb => by
      simpa [ChainState.initial, Pool.setPool, Pool.fresh, Pool.blocksOf] using hb.mem
    refine ⟨[], [(ChainState.initial env).pool], ⟨trivial, ?_, by simp, ?_, by simp, ?_, ?_, List.nodup_nil, by simp⟩,
      fun _ _ => Or.inl rfl, by simp [ChainState.initial]⟩
    · simp [Pool.IdsDiffer, ChainState.initial, Pool.setPool, Pool.fresh, Pool.blocksOf]
    · simp [ChainState.initial, Pool.setPool, Pool.fresh, Pool.blocksOf]
    · simp [ChainState.initial, Pool.setPool, Pool.fresh, Pool.blocksOf]
    · simp [hroot]

section Steady

variable {c : ChainState} (h : Steady env bs c) (ht : Tame env bs)
include h

theorem Steady.known {b : Block} (hb : b ∈ Pool.blocksOf c.pool.blockPool) : b ∈ bs := by
  obtain ⟨passed, seen, hfed, _⟩ := h.fed
  exact (hfed.held _ hfed.current b hb).1

include ht in
theorem Steady.lastHeight_lt : c.pool.lastHeight < 2 ^ 31 := by
  have hlast : c.pool.lastHeight = (tipOf (genesisTip env) (resolvedIn c.layered.storage.log)).height :=
    congrArg Tip.height h.sane.tip
  rcases List.eq_nil_or_concat (resolvedIn c.layered.storage.log) with hnil | ⟨init, b, hlog⟩
  · rw [hlast, hnil]
    exact Nat.two_pow_pos 31
  · have hb := ht.height_lt b (h.resolved b (by simp [hlog]))
    rw [hlast, hlog, List.concat_eq_append, tipOf, Trail.finish_concat]
    exact hb

/-- Queries only fill the caches. -/
theorem Steady.queried {p' : Pool} (hq : c.pool.Queried env p') : Steady env bs { c with pool := p' } := by
  have hc : c.Recached { c with pool := p' } := ⟨Pool.Queried.eq env hq, rfl⟩
  obtain ⟨saved, hholds⟩ := h.holds
  obtain ⟨passed, seen, hfed, hcounts⟩ := h.fed
  refine ⟨h.sane.recached hc, ?_, h.inRange.queried h.sane.ok h.near hq, ⟨saved, hholds.congr rfl fun _ _ => rfl⟩,
    h.resolved, h.certs, passed, _, hfed.recached hc.1, hcounts⟩
  obtain ⟨_, _, _, hp⟩ := hc.1
  rw [hp]
  exact h.near

include ht in
/-- What an accepted push does outside the pool returns. -/
theorem Steady.applyAccepted_returns {p' : Pool} {passed : List Block} {seen : List Pool} {a : Pool.Accepted}
    (hfed : Pool.Fed {b | b ∈ bs} p' (passed ++ a.forwards.map Pool.Forward.block) seen)
    (hcounts : Counts plainNames (passed.map (weight env)).sum c.layered)
    (hstored : Pool.blocksOf a.stored = Pool.blocksOf p'.blockPool) :
    ∃ ls, applyAccepted env false c.layered a = .ok ls ∧ Certs env ls ∧
      Counts plainNames ((passed ++ a.forwards.map Pool.Forward.block).map (weight env)).sum ls := by
  have hknown := hfed.passed_known
  have hsum := sum_map_le_of_subset (f := weight env) hfed.once hknown
  have hroom := ht.room
  rw [List.map_append, List.sum_append] at hsum ⊢
  have hforward : ∀ f ∈ a.forwards, f.block ∈ bs := fun f hf =>
    hknown _ (List.mem_append_right _ (List.mem_map_of_mem hf))
  obtain ⟨storage, hbackup⟩ : ∃ storage, c.layered.storage.backupPool env a.stored = .ok storage := by
    refine ⟨_, (Storage.backupPool_eq_ok env).mpr ⟨fun b hb => ht.fits b ?_, rfl⟩⟩
    rw [hstored] at hb
    exact (hfed.held p' hfed.current b hb).1
  have hmoves : Moves c.layered { c.layered with storage := storage } :=
    .of_touches h.certs.batch (Storage.touches_backupPool env hbackup) (by decide) fun _ hr => hr
  obtain ⟨ls, hls, hcounts'⟩ := (hcounts.moves hmoves).forwards env (fun _ hu => hu) (by omega) fun f hf =>
    ⟨ht.id_ne _ (hforward f hf), fun u hu => by
      obtain ⟨entry, hentry, rfl⟩ := List.mem_map.mp hu
      exact (ht.certs _ (hforward f hf) entry hentry).1⟩
  have hcerts' := (h.certs.moves hmoves).forwards (fun f hf =>
    ⟨ht.id_ne _ (hforward f hf), ht.certs _ (hforward f hf)⟩) hls
  refine ⟨{ ls with blockLayer := a.layer }, ?_, ⟨hcerts'.batch, hcerts'.disk, hcerts'.mem⟩, hcounts'.disk, hcounts'.mem⟩
  simp only [applyAccepted, backupUnless, Bool.false_eq_true, if_false, hbackup, hls, bind, Except.bind, pure, Except.pure]

include ht in
/-- A push returns. -/
theorem Steady.push_returns {now : Nat} {block : Block} (hin : block ∈ bs) (hb : block.Received env)
    (hw : c.pool.NoWrap now block.height) : ∃ r c', c.push env now block false = .ok (r, c') ∧ Steady env bs c' ∧
      (r.linked = true → c'.pool.Fresh env) := by
  obtain ⟨⟨r, p', acc⟩, hpool⟩ := h.sane.ok.push_returns env h.near (h.lastHeight_lt ht) hw
  obtain ⟨saved, hholds⟩ := h.holds
  obtain ⟨passed, seen, hfed, hcounts⟩ := h.fed
  have hfed' := hfed.push ht.injOn ht.id_ne hin hw hpool
  have hok := hfed'.ok
  have hnear := h.near.push hw hpool
  -- whatever the effects are, they leave a steady state
  have hsteady : ∀ ls, c.push env now block false = .ok (r, ⟨p', ls⟩) → p'.InRange → Certs env ls →
      Counts plainNames ((passed ++ Pool.handed acc).map (weight env)).sum ls → Steady env bs ⟨p', ls⟩ := by
    intro ls hp hr hcerts hcounts
    refine ⟨h.sane.push hw hb hp, hnear, hr, ⟨saved, hholds.push hp⟩, ?_, hcerts, _, _, hfed', hcounts⟩
    rw [(touches_push env hp).resolvedIn_eq]
    exact h.resolved
  rcases Pool.push_cases env hpool with ⟨rfl, rfl, n, rfl⟩ | ⟨rfl, rfl, n, rfl⟩ | ⟨i, prev, a, rfl, _, _, _, _, _, ha⟩
  · have hp : c.push env now block false = .ok (Pool.rejected, ⟨c.pool.grow n, c.layered⟩) :=
      (push_eq_ok env).mpr ⟨none, hpool, rfl⟩
    exact ⟨_, _, hp, hsteady _ hp (h.inRange.grow n) h.certs (by simpa [Pool.handed] using hcounts), fun hl => by cases hl⟩
  · have hp : c.push env now block false = .ok (⟨false, true, block.height, []⟩, ⟨c.pool.grow n, c.layered⟩) :=
      (push_eq_ok env).mpr ⟨none, hpool, rfl⟩
    exact ⟨_, _, hp, hsteady _ hp (h.inRange.grow n) h.certs (by simpa [Pool.handed] using hcounts), fun hl => by cases hl⟩
  · have hhanded : Pool.handed (some a) = a.forwards.map Pool.Forward.block := by simp [Pool.handed]
    rw [hhanded] at hfed' hsteady
    have hstored : Pool.blocksOf a.stored = Pool.blocksOf p'.blockPool := by
      rw [ha.bins, Pool.blocksOf_of_skeleton (Pool.skeleton_setLayers _ _), Pool.blocksOf_patchNext]
    obtain ⟨ls, happly, hcerts, hcounts⟩ := h.applyAccepted_returns ht hfed' hcounts hstored
    have hp : c.push env now block false = .ok (r, ⟨p', ls⟩) := (push_eq_ok env).mpr ⟨some a, hpool, happly⟩
    exact ⟨r, _, hp, hsteady ls hp (ha.inRange hok hnear) hcerts hcounts, fun _ => ha.fresh⟩

/-- The resolved blocks go on from those resolved before. -/
theorem Steady.apart {p' : Pool} {ws : List UnresolvedBlock} {ds : List Bytes} (hr : c.pool.Resolves env ws ds p')
    {saved : List Block} (hs : Holds env c saved) : Apart env bs (saved ++ ws.map (·.block)) := by
  obtain ⟨hlinked, _⟩ := hr.linked h.sane.ok
  rw [h.sane.tip] at hlinked
  have hchain : Linked (genesisTip env) (resolvedIn c.layered.storage.log ++ ws.map (·.block)) :=
    Trail.valid_append.mpr ⟨h.sane.linked, hlinked⟩
  have hsub := hs.sublist.append (List.Sublist.refl (ws.map (·.block)))
  refine ⟨(hsub.map _).nodup hchain.nodup_height, fun b hb => ?_⟩
  have hpos : 1 ≤ b.height := by
    obtain ⟨k, hk⟩ := List.getElem?_of_mem (hsub.subset hb)
    have := hchain.height_at hk
    omega
  rcases List.mem_append.mp hb with hb | hb
  · exact ⟨h.resolved b (hs.sublist.subset hb), hs.received b hb, hpos⟩
  · have hmem := hr.mem_blocksOf (Or.inl hb)
    exact ⟨h.known hmem, h.sane.received b hmem, hpos⟩

include ht in
/-- Resolving returns. -/
theorem Steady.procResolved_returns : ∃ c', c.procResolvedBlocksIf env = .ok c' ∧ Steady env bs c' := by
  obtain ⟨ws, ds, p, hres, hws, hds, hp, htouch⟩ := getResolvedBlocks_eq env c
  obtain ⟨saved, hholds⟩ := h.holds
  obtain ⟨passed, seen, hfed, hcounts⟩ := h.fed
  have hsum := sum_map_le_of_subset (f := weight env) hfed.once hfed.passed_known
  have hroom := ht.room
  generalize hdropped : ds.foldl LayeredStorage.dropLedger (c.getResolvedBlocks env).2.2.layered = ls
  have hstorage : ls.storage = (c.getResolvedBlocks env).2.2.layered.storage := by
    rw [← hdropped, LayeredStorage.storage_dropLedgers]
  have hmem : ls.memLedger = c.layered.memLedger.filter fun r => decide (r.blockIdB64 ∉ ds) := by
    rw [← hdropped, LayeredStorage.memLedger_dropLedgers]
    rfl
  rw [← hstorage] at htouch
  have hmoves : Moves c.layered ls := by
    have hlogged : Moves c.layered
        { c.layered with storage := c.layered.storage.logResolved (ws.map (·.block)) } :=
      ⟨h.certs.batch, fun _ hr => hr, fun _ => Or.inl rfl⟩
    exact hlogged.trans (.of_touches h.certs.batch htouch (by decide) fun r hr => List.mem_of_mem_filter (hmem ▸ hr))
  have hdisk : ls.storage.disk.Agree c.layered.storage.disk := htouch.blocks_eq (by decide)
  obtain ⟨ls', hfold, hmoves'⟩ := saving_returns ht (by omega) (hcounts.moves hmoves) (h.certs.moves hmoves)
    (hholds.records.congr hdisk) (htouch.clean (by decide) h.sane.clean) (h.apart hres hholds)
  have hret : c.procResolvedBlocksIf env = .ok ⟨p, ls'⟩ := by
    unfold procResolvedBlocksIf
    simp only [hws, hds, hdropped, hfold, bind, Except.bind, pure, Except.pure, hp]
  have hlog : resolvedIn ls'.storage.log = resolvedIn c.layered.storage.log ++ ws.map (·.block) := by
    rw [(saving_foldlM env hfold).resolved, htouch.resolvedIn_eq, Storage.logResolved, resolvedIn_append,
      resolvedIn_resolved]
  refine ⟨_, hret, h.sane.procResolved hret, h.near.resolves h.sane.ok hres, h.inRange.resolves h.sane.ok hres,
    hholds.procResolved h.sane hret, fun b hb => ?_, (h.certs.moves hmoves).moves hmoves', passed, _,
    hfed.resolve ht.injOn hres, (hcounts.moves hmoves).moves hmoves'⟩
  rw [hlog] at hb
  rcases List.mem_append.mp hb with hb | hb
  · exact h.resolved b hb
  · exact h.known (hres.mem_blocksOf (Or.inl hb))

end Steady

end ChainState

namespace Merger

open ChainState

section Call

variable {m : Merger} (h : Steady env bs m.chain) (ht : Tame env bs)
include h ht

theorem tryResolve_returns : ∃ m', m.tryResolveUnresolvedBlocksIf env = .ok m' ∧ Steady env bs m'.chain := by
  obtain ⟨⟨link, pool⟩, hlink⟩ := h.sane.ok.lowestLink_returns h.near h.inRange (h.lastHeight_lt ht)
  have hsteady := h.queried (Or.inr (Or.inr ⟨link, hlink⟩))
  simp only [tryResolveUnresolvedBlocksIf, hlink, bind, Except.bind]
  split
  · exact ⟨_, rfl, hsteady⟩
  · exact ⟨_, rfl, hsteady⟩

theorem announceIf_returns {linked : Bool} (hf : linked = true → m.chain.pool.Fresh env) :
    ∃ m', m.announceIf env linked = .ok m' ∧ Steady env bs m'.chain := by
  unfold announceIf
  cases linked with
  | false => exact ⟨m, rfl, h⟩
  | true =>
    obtain ⟨link, _, hfresh, _⟩ := h.sane.ok.freshLink h.near
    obtain ⟨⟨answer, pool⟩, hquery, _⟩ := map_eq_ok.mp ((hf rfl).getMostPossibleLink.trans hfresh)
    obtain ⟨c', hc', hsteady⟩ := (h.queried (Or.inl ⟨answer, hquery⟩)).procResolved_returns ht
    simp only [Bool.not_true, Bool.false_eq_true, if_false, hquery, hc', bind, Except.bind]
    exact ⟨_, rfl, hsteady⟩

theorem processBlock_returns {now : Nat} {block : Block} (hin : block ∈ bs) (hb : block.Received env)
    (hw : m.chain.pool.NoWrap now block.height) (sender : Bytes) :
    ∃ r m', m.processBlock env now block sender = .ok (r, m') ∧ Steady env bs m'.chain := by
  obtain ⟨r, c', hpush, hsteady, hfresh⟩ := h.push_returns ht hin hb hw
  simp only [processBlock, hpush, bind, Except.bind]
  split
  · exact ⟨_, _, rfl, hsteady⟩
  split
  · obtain ⟨m', hm', hsteady'⟩ := tryResolve_returns (m := { m with chain := c' }) hsteady ht
    rw [hm']
    exact ⟨_, _, rfl, hsteady'⟩
  · obtain ⟨m₁, hm₁, hsteady₁⟩ := announceIf_returns (m := { m with
      chain := c'
      requestList := m.requestList.filter fun r => !answers env block r
      lastBlockSender := sender }) hsteady ht hfresh
    rw [hm₁]
    obtain ⟨m', hm', hsteady'⟩ := tryResolve_returns (m := { m₁ with
      pendingTxIds := m₁.pendingTxIds.filter fun id => decide (id ∉ block.getTxIds) }) hsteady₁ ht
    simp only [hm']
    exact ⟨_, _, rfl, hsteady'⟩

end Call

variable (env bs) in
/-- A message from which a block of `bs` is read, or none, and for which nothing wraps. -/
def Known (m : Merger) (now : Nat) (body : Json) : Prop :=
  m.NoWrap env now body ∧ ∃ read, Block.initializeBody env body = .ok read ∧ ∀ block ∈ read, block ∈ bs

theorem Known.returns {m : Merger} (h : Steady env bs m.chain) (ht : Tame env bs) {now : Nat} {body : Json}
    (hk : m.Known env bs now body) : ∃ r m', m.handleMsgBlock env now body = .ok (r, m') ∧ Steady env bs m'.chain := by
  obtain ⟨hw, read, hread, hin⟩ := hk
  unfold handleMsgBlock
  rw [hread]
  cases read with
  | none => exact ⟨_, _, rfl, h⟩
  | some block =>
    simp only [bind, Except.bind]
    split
    · exact ⟨_, _, rfl, h⟩
    · exact processBlock_returns h ht (hin block rfl) (Block.received_of_body hread) (hw block hread) _

theorem Run.steady (ht : Tame env bs) {m₀ m : Merger} (h₀ : m₀.chain = ChainState.initial env)
    (hrun : Merger.Run env (Known env bs) m₀ m) : Steady env bs m.chain := by
  induction hrun with
  | refl =>
    rw [h₀]
    exact .initial env bs
  | step _ ha hs ih =>
    obtain ⟨_, _, hret, hsteady⟩ := ha.returns ih ht
    rw [hs] at hret
    cases hret
    exact hsteady

/-- Handling returns in every run on blocks that can be told apart, saved and read back: whatever
arrived before, in whatever order and with whatever forks, the next message is handled too. -/
theorem handleMsgBlock_returns (ht : Tame env bs) {m₀ m : Merger} (h₀ : m₀.chain = ChainState.initial env)
    (hrun : Merger.Run env (Known env bs) m₀ m) {now : Nat} {body : Json} (hk : m.Known env bs now body) :
    ∃ r m', m.handleMsgBlock env now body = .ok (r, m') := by
  obtain ⟨r, m', hret, _⟩ := hk.returns (hrun.steady ht h₀) ht
  exact ⟨r, m', hret⟩

end Merger

namespace Sample

/-- The environment that knows the rows, with the lookup of the certificate ledger. -/
def lookupWorld (rows : List Row) : Env := { world rows with getUserCert := getCertificate parseRecord }

theorem tame_rivalRows : Tame (lookupWorld rivalRows) (tableOf rivalRows) where
  ids := by decide
  savable := by decide
  time_lt := by decide
  height_lt := by decide
  fits := by decide
  certs := by
    have hplain : ∀ b ∈ tableOf rivalRows, ∀ entry ∈ registeredBy (lookupWorld rivalRows) b, underscore ∉ entry.1 := by
      decide +kernel
    refine fun b hb entry hentry => ⟨hplain b hb entry hentry, fun period hperiod => ?_⟩
    cases hperiod
    decide
  room := by decide +kernel
  answers := answers_getCertificate parsesRecords_parseRecord

theorem known_row {m : Merger} {row : Nat} {r : Row} (hr : rivalRows[row]? = some r) (ht : m.chain.pool.lastTime ≤ 200) :
    m.Known (lookupWorld rivalRows) (tableOf rivalRows) 200 (message (r.block row)) := by
  have hg : Good rivalRows := by decide +kernel
  obtain ⟨hs, hh, htx⟩ := hg.2 r (List.mem_of_getElem? hr)
  have hrow := tableOf_row hg hr
  have hinit : Block.initializeBody (lookupWorld rivalRows) (message (r.block row)) = .ok (some (r.block row)) :=
    initializeBody_block hs (by omega) htx hrow
  refine ⟨fun block hblock => ?_, _, hinit, fun block hblock => ?_⟩
  · rw [hinit] at hblock
    cases hblock
    exact noWrap_row hg hr (by decide) ht
  · cases hblock
    exact List.mem_of_getElem? hrow

def handleRow (m : Merger) (row : Fin 5) : Except Failure Merger :=
  (m.handleMsgBlock (lookupWorld rivalRows) 200 (message ((rivalRows.get row).block row))).map (·.2)

/-- Rows in any order are handled. -/
theorem run_rivalRows (order : List (Fin 5)) : ∃ m, order.foldlM handleRow initial = .ok m ∧
    Merger.Run (lookupWorld rivalRows) (Merger.Known (lookupWorld rivalRows) (tableOf rivalRows)) initial m ∧
    m.chain.pool.lastTime ≤ 200 := by
  induction order using List.reverseRecOn with
  | nil => exact ⟨initial, rfl, .refl, by decide⟩
  | append_singleton order row ih =>
    obtain ⟨m, hfold, hrun, htime⟩ := ih
    have hrow : rivalRows[row]? = some (rivalRows.get row) := List.getElem?_eq_getElem row.isLt
    have hk := known_row hrow htime
    obtain ⟨r, m', hret, _⟩ := hk.returns (hrun.steady tame_rivalRows rfl) tame_rivalRows
    refine ⟨m', ?_, hrun.step hk hret, ?_⟩
    · rw [List.foldlM_append, hfold]
      exact foldlM_cons_eq_ok.mpr ⟨m', map_eq_ok.mpr ⟨_, hret, rfl⟩, rfl⟩
    · rcases Merger.handleMsgBlock_cases _ hret with ⟨_, rfl⟩ | ⟨_, _, _, hd⟩
      · exact htime
      · rw [ChainState.lastTime_delivers _ hd]
        exact htime

end Sample

open Sample in
/-- Four blocks with certificates and a rival arrive against their order, the rival twice. -/
theorem Merger.handleMsgBlock_returns_rival : ∃ m, [3, 4, 2, 1, 0].foldlM handleRow initial = .ok m ∧
    ∃ r m', m.handleMsgBlock (lookupWorld rivalRows) 200 (message ((rivalRows.get (4 : Fin 5)).block 4)) = .ok (r, m') := by
  obtain ⟨m, hfold, hrun, htime⟩ := run_rivalRows [3, 4, 2, 1, 0]
  exact ⟨m, hfold, Merger.handleMsgBlock_returns tame_rivalRows rfl hrun (@known_row m 4 _ rfl htime)⟩

end GruutMerger
