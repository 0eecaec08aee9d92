import GruutMerger.BlockRequests
import GruutMerger.StoredBlocks
import GruutMerger.StoredChain

/-!
# Height 0

Height 0 asks the storage for the latest block. The link functions find it, but
`readBlock` writes the 0 over the height it has read, so whoever asks for the
latest block is told that there is none.
-/
namespace GruutMerger

open ByteText KeyValue

variable (env : Env)

/-- `getLatestHashAndHeight`, which sets these two members of its link only. -/
def Records.getLatestHashAndHeight (d : Records) : Except Failure (Bytes × Nat) := do
  let id := d.getText .blockLatest (ascii "bID")
  if id = [] then
    return (genesisBlockPrevHash env, 0)
  let height ← Safe.getSize (d.getText .blockLatest (ascii "hgt"))
  return (d.getText .blockRaw (id ++ ascii "_hash"), height)

variable {env}

namespace Records

/-- The record behind a link, as it is given back for a height. -/
def readAt (d : Records) (height : Nat) (link : NthLink) : StorageBlock where
  id := link.id
  hash := link.hash
  prevId := link.prevId
  prevHash := link.prevHash
  time := link.time
  height := height
  blockRaw := d.getText .blockRaw (d.getNthBlockIdB64 height)
  txs := d.readTxs (d.getValueByKey .blockHeader (d.getNthBlockIdB64 height ++ ascii "_txids")).parseAsArray

def nothingRead : StorageBlock := ⟨[], [], [], [], 0, 0, [], []⟩

theorem readBlock_eq_ok {d : Records} {height : Nat} {found : StorageBlock} :
    d.readBlock env height = .ok found ↔
      (d.getNthBlockIdB64 height = [] ∧ found = nothingRead) ∨
      (d.getNthBlockIdB64 height ≠ [] ∧
        (height = 0 → ∃ v, Safe.parseDecimal (d.getText .blockLatest (ascii "hgt")) = .ok v) ∧
        ∃ link, d.getNthBlockLinkInfo env height = .ok link ∧ found = d.readAt height link) := by
  by_cases hid : d.getNthBlockIdB64 height = []
  · simp only [readBlock, hid, if_true, Fallible.pure_eq_ok, true_and, ne_eq, not_true_eq_false, false_and, or_false]
    exact eq_comm
  · by_cases h0 : height = 0
    · subst h0
      simp only [readBlock, hid, if_false, if_true, Fallible.bind_eq_ok, Fallible.pure_eq_ok, false_and, false_or,
        not_false_eq_true, true_and, forall_const, ne_eq]
      constructor
      · rintro ⟨v, hv, link, hlink, rfl⟩
        exact ⟨⟨v, hv⟩, link, hlink, rfl⟩
      · rintro ⟨⟨v, hv⟩, link, hlink, rfl⟩
        exact ⟨v, hv, link, hlink, rfl⟩
    · simp only [readBlock, hid, h0, if_false, Fallible.bind_eq_ok, Fallible.pure_eq_ok, false_and, false_or,
        not_false_eq_true, true_and, false_imp_iff, ne_eq]
      constructor
      · rintro ⟨link, hlink, rfl⟩
        exact ⟨link, hlink, rfl⟩
      · rintro ⟨link, hlink, rfl⟩
        exact ⟨link, hlink, rfl⟩

/-- Whatever is read at a height has this height, or 0 when nothing is there. -/
theorem readBlock_height {d : Records} {height : Nat} {found : StorageBlock}
    (h : d.readBlock env height = .ok found) : found.height = 0 ∨ found.height = height := by
  rcases readBlock_eq_ok.mp h with ⟨_, rfl⟩ | ⟨_, _, link, _, rfl⟩
  · exact Or.inl rfl
  · exact Or.inr rfl

theorem readBlock_zero {d : Records} {found : StorageBlock} (h : d.readBlock env 0 = .ok found) : found.height = 0 := by
  rcases readBlock_height h with h | h <;> exact h

end Records

theorem Pool.getBlock_zero (p : Pool) (prevHash hash : Bytes) : p.getBlock 0 prevHash hash = none := by
  simp [Pool.getBlock]

namespace Merger

/-- A request for height 0 is answered with an error message, if at all. -/
theorem reqBlock_zero {now : Nat} {m : Merger} {body : Json} {reply : OutputMsgEntry}
    (h0 : Safe.getInt body "hgt" = .ok 0) (h : m.handleMsgReqBlock env now body = .ok reply) :
    reply.type = .errorMsg := by
  rcases reqBlock_eq_ok h0 h with herror | ⟨block, hfound, _⟩ | ⟨saved, _, hread, hfits, _⟩
  · exact herror
  · rw [Pool.getBlock_zero] at hfound
    cases hfound
  · simp [fits, Records.readBlock_zero hread] at hfits

/-- Height 0 means latest, for a greatest saved height `top`: the four ways to read agree, and
requests for height 0 are answered with the block at `top`. -/
structure LatestServed (env : Env) (m : Merger) (top : Nat) : Prop where
  record : ∃ found, m.chain.layered.storage.disk.readBlock env 0 = .ok found ∧
    m.chain.layered.storage.disk.readBlock env top = .ok found
  links : ∃ latest link, m.chain.layered.storage.disk.getNthBlockLinkInfo env 0 = .ok latest ∧
    m.chain.layered.storage.disk.getNthBlockLinkInfo env top = .ok link ∧
    latest.hash = link.hash ∧ latest.height = link.height ∧
    m.chain.layered.storage.disk.getLatestHashAndHeight env = .ok (link.hash, link.height)
  block : ∀ now body, Safe.getInt body "hgt" = .ok 0 → Safe.getBytesFromB64 env.base64 body "prevHash" = [] →
    Safe.getBytesFromB64 env.base64 body "hash" = [] →
    ∃ found reply, m.chain.layered.storage.disk.readBlock env top = .ok found ∧
      m.handleMsgReqBlock env now body = .ok reply ∧ reply.type = .block ∧
      reply.body.find "blockraw" = some (.string (env.base64.encode found.blockRaw))
  header : ∀ now body, Safe.getInt body "hgt" = .ok 0 →
    ∃ reply, m.handleMsgRequestHeader env now body = .ok reply ∧ reply.type = .header

/-- Whatever was saved, height 0 does not mean latest: what is read for it has height 0, so
no request for it is answered with a block. -/
theorem latest_never_served (m : Merger) (top : Nat) : ¬LatestServed env m top := by
  intro h
  have h0 : Safe.getInt (.object [("hgt", .string (ascii "0"))]) "hgt" = .ok 0 := by decide
  obtain ⟨_, reply, _, hreply, htype, _⟩ := h.block 0 (.object [("hgt", .string (ascii "0"))]) h0 rfl rfl
  rw [reqBlock_zero h0 hreply] at htype
  cases htype

end Merger

namespace Storage

theorem latestIs_savedOver {latest : NthLink} {d : Records} {b : Block} (h : latest.height < b.height) :
    LatestIs env (savedOver env latest d b) b := by
  have hsame : savedOver env latest d b .blockLatest = savedDisk env d b .blockLatest := by
    rw [savedOver, entriesOver, if_neg (by omega), savedDisk]
  intro e he
  rw [hsame]
  exact latestIs_savedDisk env d b e he

/-- A block that is not higher leaves the pointer alone. -/
theorem savedOver_latest {latest : NthLink} {d : Records} {b : Block} (h : b.height ≤ latest.height) :
    savedOver env latest d b .blockLatest = d .blockLatest := by
  rw [savedOver, entriesOver, if_pos ⟨rfl, h⟩]
  rfl

section Run

variable {s s' : Storage} {bs : List Block} (run : SaveRun env s bs s') (hc : s.Clean)

include run hc

/-- After a run the pointer names a block of the greatest height. -/
theorem SaveRun.latest (hempty : s.disk.getNthBlockIdB64 0 = []) (hid : (bs.map Block.blockId).Nodup)
    (hh : (bs.map Block.height).Nodup) (hb : ∀ b ∈ bs, Readable env b ∧ 1 ≤ b.height) :
    (bs = [] ∧ s'.disk.getNthBlockIdB64 0 = []) ∨
      ∃ top ∈ bs, LatestIs env s'.disk top ∧ ∀ b ∈ bs, b.height ≤ top.height := by
  induction run with
  | nil => exact Or.inl ⟨rfl, hempty⟩
  | @save s' s'' bs b body run hbody hsave ih =>
    obtain ⟨_, rfl⟩ := (Block.getBlockBodyJson_eq_ok env).mp hbody
    obtain ⟨hclean, _⟩ := run.disk_write env hc
    obtain ⟨latest, es, hput, hdisk, _⟩ := saveBlock_eq_true env hclean hsave
    rw [List.map_append, List.nodup_append] at hid hh
    rw [hdisk]
    refine Or.inr ?_
    rcases ih hid.1 hh.1 fun a ha => hb a (by simp [ha]) with ⟨rfl, hnone⟩ | ⟨top, htop, hlatest, hmax⟩
    · have hzero : latest.height = 0 := by
        have heq := hput.latest_eq
        rw [Records.getNthBlockLinkInfo, if_pos hnone] at heq
        cases heq
        rfl
      have hpos := (hb b (by simp)).2
      exact ⟨b, by simp, latestIs_savedOver (by omega), by simp⟩
    · have hlink := (run.stored_of_nodup env hc hid.1 hh.1 htop).getNthBlockLinkInfo env (run.height_lt env hc top htop)
        (hb top (by simp [htop])).1 (getNthBlockIdB64_of_latestIs env hlatest)
      obtain rfl : top.link = latest := by
        rw [hput.latest_eq] at hlink
        cases hlink
        rfl
      by_cases hle : b.height ≤ top.link.height
      · refine ⟨top, by simp [htop], fun e he => by rw [savedOver_latest hle]; exact hlatest e he, fun a ha => ?_⟩
        rcases List.mem_append.mp ha with ha | ha
        · exact hmax a ha
        · rw [List.mem_singleton.mp ha]
          exact hle
      · refine ⟨b, by simp, latestIs_savedOver (by omega), fun a ha => ?_⟩
        rcases List.mem_append.mp ha with ha | ha
        · exact (hmax a ha).trans (Nat.le_of_lt (Nat.not_le.mp hle))
        · rw [List.mem_singleton.mp ha]

/-- The links agree on the latest block, and it is read for height 0, apart from its height. -/
theorem SaveRun.latest_agrees (hempty : s.disk.getNthBlockIdB64 0 = []) (hid : (bs.map Block.blockId).Nodup)
    (hh : (bs.map Block.height).Nodup) (hb : ∀ b ∈ bs, Readable env b ∧ 1 ≤ b.height) (hne : bs ≠ []) :
    ∃ top ∈ bs, (∀ b ∈ bs, b.height ≤ top.height) ∧ s'.disk.getNthBlockLinkInfo env 0 = .ok top.link ∧
      s'.disk.getNthBlockLinkInfo env top.height = .ok top.link ∧
      s'.disk.getLatestHashAndHeight env = .ok (top.blockHash, top.height) ∧
      ∃ found, s'.disk.readBlock env top.height = .ok found ∧ s'.disk.readBlock env 0 = .ok { found with height := 0 } := by
  obtain ⟨hnil, _⟩ | ⟨top, htop, hlatest, hmax⟩ := run.latest hc hempty hid hh hb
  · exact absurd hnil hne
  obtain ⟨hr, hpos⟩ := hb top htop
  have hlt := run.height_lt env hc top htop
  have hstored := run.stored_of_nodup env hc hid hh htop
  have hid0 := getNthBlockIdB64_of_latestIs env hlatest
  have hidH := hstored.getNthBlockIdB64 env (show top.height ≠ 0 by omega)
  have hheight : s'.disk.getText .blockLatest (ascii "hgt") = decimal top.height := by
    rw [Records.getText, Records.getValueByKey, hlatest ⟨.blockLatest, ascii "hgt", .text (decimal top.height)⟩
      (by simp [latestEntries])]
    rfl
  have hraw := hstored.getText_raw env (ascii "_hash") (env.sha256 top.blockRaw) (by simp [rawRecords])
  have hlink0 := hstored.getNthBlockLinkInfo env hlt hr hid0
  have hlinkH := hstored.getNthBlockLinkInfo env hlt hr hidH
  refine ⟨top, htop, hmax, hlink0, hlinkH, ?_, s'.disk.readAt top.height top.link, ?_, ?_⟩
  · have hpointer : s'.disk.getText .blockLatest (ascii "bID") = top.getBlockIdB64 env := hid0
    simp only [Records.getLatestHashAndHeight, hpointer, hr.idB64_ne env, if_false, hheight, hraw,
      Safe.getSize_decimal top.height hlt, hr.hash_eq, bind, Except.bind, pure, Except.pure]
  · exact Records.readBlock_eq_ok.mpr (Or.inr ⟨hidH ▸ hr.idB64_ne env, fun h0 => by omega, top.link, hlinkH, rfl⟩)
  · refine Records.readBlock_eq_ok.mpr (Or.inr ⟨hid0 ▸ hr.idB64_ne env, fun _ => ⟨top.height, ?_⟩, top.link, hlink0, ?_⟩)
    · rw [hheight]
      exact Safe.parseDecimal_decimal _ hlt
    · rw [Records.readAt, Records.readAt, hid0, hidH]

end Run

end Storage

open Sample in
/-- After two saves the storage gives the second block back for its height, and the same
without a height for 0; the request for the latest block is refused. -/
theorem Merger.latest_refused : ∃ s', Storage.SaveRun (world sharingRows) Storage.empty (tableOf sharingRows) s' ∧
    ((tableOf sharingRows).map fun b => (b.blockId, b.height)) = [([1], 1), ([2], 2)] ∧
    (∃ found, s'.disk.readBlock (world sharingRows) 2 = .ok found ∧ found.id = [2] ∧ found.height = 2) ∧
    (∃ found, s'.disk.readBlock (world sharingRows) 0 = .ok found ∧ found.id = [2] ∧ found.height = 0) ∧
    ∃ reply, ({ initial with chain := ⟨initial.chain.pool, ⟨s', [], []⟩⟩ } : Merger).handleMsgReqBlock (world sharingRows) 5
      (.object [("hgt", .string (ascii "0"))]) = .ok reply ∧ reply.type = .errorMsg := by
  have hrun : ((tableOf sharingRows).foldlM (Storage.trySave (world sharingRows)) Storage.empty).any (fun s =>
      Fallible.okAnd (fun found => decide (found.id = [2]) && decide (found.height = 2))
        (s.disk.readBlock (world sharingRows) 2) &&
      Fallible.okAnd (fun found => decide (found.id = [2]) && decide (found.height = 0))
        (s.disk.readBlock (world sharingRows) 0) &&
      Fallible.okAnd (fun reply => decide (reply.type = .errorMsg))
        (({ initial with chain := ⟨initial.chain.pool, ⟨s, [], []⟩⟩ } : Merger).handleMsgReqBlock (world sharingRows) 5
          (.object [("hgt", .string (ascii "0"))]))) = true := by decide +kernel
  obtain ⟨s', hs', htest⟩ := (Option.any_eq_true _ _).mp hrun
  simp only [Bool.and_eq_true, Fallible.okAnd_eq_true, decide_eq_true_eq] at htest
  exact ⟨s', Storage.saveRun_of_trySave _ hs', by decide +kernel, htest.1.1, htest.1.2, htest.2⟩

end GruutMerger
