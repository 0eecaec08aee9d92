import GruutMerger.HandlingReturns

/-!
# A merger that carries a chain

A merger whose pool and storage hold the blocks of one chain, and no others,
answers a request for a block of it with a message from which just this block is
read, in full.
-/
namespace GruutMerger

open ByteText Fallible

/-- Where storage represents what is resolved, every resolved block is read back whole. -/
theorem ChainState.Holds.readBlock {env : Env} {c : ChainState} {saved : List Block} (h : Holds env c saved)
    (hrep : Storage.Represents env c.layered.storage.disk (resolvedIn c.layered.storage.log))
    (hid : ((resolvedIn c.layered.storage.log).map Block.blockId).Nodup)
    (hsame : ∀ a ∈ resolvedIn c.layered.storage.log, ∀ b ∈ resolvedIn c.layered.storage.log, Storage.SameTxs a b)
    (htime : ∀ b ∈ resolvedIn c.layered.storage.log, b.time < 2 ^ 63) {b : Block}
    (hb : b ∈ resolvedIn c.layered.storage.log) :
    b ∈ saved ∧ c.layered.storage.disk.readBlock env b.height = .ok (Storage.asRead env b) := by
  obtain ⟨s', run, hagree⟩ := h.records
  have hpos : b.height ≠ 0 := by
    obtain ⟨k, hk⟩ := List.getElem?_of_mem hb
    have := hrep.linked.height_at hk
    omega
  have hsound := hrep.sound b hb
  have hreadable : Storage.Readable env b := ⟨hsound.id_ne, htime b hb, hsound.hash_eq⟩
  -- the record of its height leads to a saved block, which can only be this one
  have hmem : b ∈ saved := by
    have hrecord : s'.disk.getNthBlockIdB64 b.height ≠ [] := by
      rw [← hagree.getNthBlockIdB64, (hrep.stored b hb).getNthBlockIdB64 env hpos]
      exact Block.getBlockIdB64_ne env hsound.id_ne
    obtain ⟨a, ha, hheight⟩ := run.height_of_record hpos hrecord
    obtain rfl : a = b := List.inj_on_of_nodup_map hrep.linked.nodup_height (h.sublist.subset ha) hb hheight
    exact ha
  have hheld := (run.held env (fun _ _ => rfl) (hid.sublist (h.sublist.map _))
    (hrep.linked.nodup_height.sublist (h.sublist.map _))
    fun a ha b hb => hsame a (h.sublist.subset ha) b (h.sublist.subset hb)).2 b hmem
  refine ⟨hmem, ?_⟩
  rw [hagree.readBlock]
  exact hheld.readBlock env hpos hreadable

/-- One chain of received blocks from the start, which can be told apart, saved and read back. -/
structure Chain (env : Env) (cs : List Block) : Prop extends Tame env cs where
  linked : Linked (genesisTip env) cs
  received : ∀ c ∈ cs, c.Received env
  early : ∀ c ∈ cs, c.isValidEarly env = true
  txTimes_lt : ∀ c ∈ cs, ∀ tx ∈ c.transactions, tx.sentTime < 2 ^ 63
  sameTxs : ∀ a ∈ cs, ∀ b ∈ cs, Storage.SameTxs a b

section

variable {env : Env} {cs : List Block}

theorem Chain.asMerger (h : Chain env cs) (id : Bytes) : Chain (env.asMerger id) cs where
  ids := h.ids
  savable := h.savable
  time_lt := h.time_lt
  height_lt := h.height_lt
  fits := h.fits
  certs := h.certs
  room := h.room
  answers := h.answers
  linked := h.linked
  received := h.received
  early := h.early
  txTimes_lt := h.txTimes_lt
  sameTxs := h.sameTxs

theorem Chain.eq_of_height (h : Chain env cs) {a b : Block} (ha : a ∈ cs) (hb : b ∈ cs) (heq : a.height = b.height) : a = b :=
  List.inj_on_of_nodup_map h.linked.nodup_height ha hb heq

theorem Chain.height_pos (h : Chain env cs) {c : Block} (hc : c ∈ cs) : 1 ≤ c.height := by
  obtain ⟨k, hk⟩ := List.getElem?_of_mem hc
  have := h.linked.height_at hk
  omega

variable (env) in
/-- A merger that holds a chain, in the pool and on disk, and nothing else. -/
structure Carries (cs : List Block) (m : Merger) : Prop where
  ok : m.chain.pool.Ok
  unwrapped : m.chain.pool.Unwrapped
  only : ∀ b ∈ Pool.blocksOf m.chain.pool.blockPool, b ∈ cs
  all : ∀ c ∈ cs, c ∈ Pool.blocksOf m.chain.pool.blockPool ∨
    (m.storageEmpty = false ∧ m.chain.layered.storage.disk.readBlock env c.height = .ok (Storage.asRead env c))

theorem Carries.asMerger {m : Merger} (h : Carries env cs m) (id : Bytes) : Carries (env.asMerger id) cs m :=
  ⟨h.ok, h.unwrapped, h.only, h.all⟩

/-- The block at a height and with the hash before it is the one that is sent. -/
theorem Carries.answer {m : Merger} (h : Carries env cs m) (hcs : Chain env cs) {c : Block} (hc : c ∈ cs) {body : Json}
    (hheight : Safe.getInt body "hgt" = .ok c.height)
    (hprev : Safe.getBytesFromB64 env.base64 body "prevHash" = c.prevBlockHash)
    (hhash : Safe.getBytesFromB64 env.base64 body "hash" = []) (now : Nat) :
    m.handleMsgReqBlock env now body = .ok (Merger.blockMessage env c.blockRaw (c.getBlockTXsAsJson env)
      (Safe.getBytesFromB64 env.base64 body "mID")) := by
  have hmatch : c.Matches c.height (Safe.getBytesFromB64 env.base64 body "prevHash")
      (Safe.getBytesFromB64 env.base64 body "hash") := ⟨rfl, Or.inr hprev.symm, Or.inl hhash⟩
  cases hfound : m.chain.pool.getBlock c.height (Safe.getBytesFromB64 env.base64 body "prevHash")
      (Safe.getBytesFromB64 env.base64 body "hash") with
  | some a =>
    obtain ⟨ha, hsame⟩ := h.ok.getBlock_matches h.unwrapped hfound
    obtain rfl : a = c := hcs.eq_of_height (h.only a ha) hc hsame.height_eq
    rw [Merger.reqBlock_of_pool hheight hfound, Merger.sendBlock_eq_ok (hcs.fits a hc)]
  | none =>
    rcases h.all c hc with hpool | ⟨hstorage, hread⟩
    · obtain ⟨a, ha⟩ := h.ok.getBlock_isSome h.unwrapped hpool hmatch
      rw [ha] at hfound
      cases hfound
    · have hfits := (@Merger.fits_iff (Storage.asRead env c) c c.height rfl (hcs.height_pos hc)
        ⟨rfl, rfl, rfl⟩ _ _).mpr hmatch
      have hinit : Block.initializeSaved env (Storage.asRead env c) = .ok (some c) :=
        (hcs.received c hc).initializeRaw_again env (hcs.txTimes_lt c hc)
      rw [Merger.reqBlock_of_storage hheight hstorage hfound hread hfits hinit, Merger.sendBlock_eq_ok (hcs.fits c hc)]

/-- A block is read from the message that carries it. -/
theorem Chain.initializeBody (hcs : Chain env cs) {c : Block} (hc : c ∈ cs) (sender receiver : Bytes) :
    Block.initializeBody env (Merger.blockMessage (env.asMerger sender) c.blockRaw (c.getBlockTXsAsJson env) receiver).body =
      .ok (some c) := by
  have hraw : Safe.getBytesFromB64 env.base64 (Merger.blockMessage (env.asMerger sender) c.blockRaw
      (c.getBlockTXsAsJson env) receiver).body "blockraw" = c.blockRaw := Safe.getBytesFromB64_encode rfl
  have htx : (Merger.blockMessage (env.asMerger sender) c.blockRaw (c.getBlockTXsAsJson env) receiver).body.field "tx" =
      .ok (c.getBlockTXsAsJson env) := rfl
  simp only [Block.initializeBody, hraw, htx, bind, Except.bind]
  exact (hcs.received c hc).initializeRaw_again env (hcs.txTimes_lt c hc)

end
end GruutMerger
