import GruutMerger.SaveBlock
import GruutMerger.Linked
import GruutMerger.Lib.Fallible

/-!
# The stored chain

What it means that storage holds a chain of blocks. Saving the next block of
the chain keeps storage a picture of it, and such a storage has no gaps.
-/
namespace GruutMerger

open ByteText KeyValue

variable (env : Env)

namespace Storage

/-- The two records of the latest block. -/
def LatestIs (d : Records) (b : Block) : Prop :=
  ∀ e ∈ latestEntries env b, d .blockLatest (getPrefix .blockLatest ++ e.key) = some e.value

/-- Nothing is recorded as the latest block. -/
def NoLatest (d : Records) : Prop :=
  ∀ key ∈ [ascii "bID", ascii "hgt"], d .blockLatest (getPrefix .blockLatest ++ key) = none

/-- A block that can be told from a missing one, at a height that can be read back. -/
structure Sound (b : Block) : Prop where
  hash_eq : b.blockHash = env.sha256 b.blockRaw
  id_ne : b.blockId ≠ []
  height_lt : b.height < 2 ^ 63

theorem Sound.idB64_ne {b : Block} (h : Sound env b) : b.getBlockIdB64 env ≠ [] := Block.getBlockIdB64_ne env h.id_ne

structure Represents (d : Records) (bs : List Block) : Prop where
  linked : Linked (genesisTip env) bs
  sound : ∀ b ∈ bs, Sound env b
  stored : ∀ b ∈ bs, Stored env d b
  latest : ∀ b, bs.getLast? = some b → LatestIs env d b
  none : bs = [] → NoLatest d

theorem Represents.empty : Represents env Storage.empty.disk [] :=
  ⟨trivial, by simp, by simp, by simp, fun _ _ _ => rfl⟩

/-- Only the databases of blocks matter. -/
theorem Represents.congr {d d' : Records} {bs : List Block} (h : Represents env d bs)
    (hd : ∀ what ∈ commitOrder, d' what = d what) : Represents env d' bs where
  linked := h.linked
  sound := h.sound
  stored b hb := (h.stored b hb).congr env fun what hw => hd what (ownDBs_subset hw)
  latest b hb e he := by
    rw [hd .blockLatest (by decide)]
    exact h.latest b hb e he
  none hbs key hk := by
    rw [hd .blockLatest (by decide)]
    exact h.none hbs key hk

theorem latestIs_savedDisk (d : Records) (b : Block) : LatestIs env (savedDisk env d b) b := by
  have hd : (((latestEntries env b).map Entry.put).map Op.key).Nodup := by
    simp only [latestEntries, List.map_cons, List.map_nil, key_put]
    decide
  intro e he
  have h := write_of_nodup (d .blockLatest) hd (List.mem_map_of_mem he)
  rwa [key_put, what_entriesOn env b .blockLatest e he] at h

/-- Saving the next block of the chain. -/
theorem Represents.save {d : Records} {bs : List Block} {b : Block} (h : Represents env d bs)
    (hf : Follows (tipOf (genesisTip env) bs) b) (hs : Sound env b)
    (hid : b.blockId ∉ bs.map Block.blockId) : Represents env (savedDisk env d b) (bs ++ [b]) where
  linked := Trail.valid_append.mpr ⟨h.linked, hf, trivial⟩
  sound a ha := by
    rcases List.mem_append.mp ha with ha | ha
    · exact h.sound a ha
    · rw [List.mem_singleton.mp ha]
      exact hs
  stored a ha := by
    rcases List.mem_append.mp ha with ha | ha
    · have hle := h.linked.height_le ha
      have hne : a.blockId ≠ b.blockId := fun heq => hid (List.mem_map.mpr ⟨a, ha, heq⟩)
      exact (h.stored a ha).savedDisk env hne (by have := hf.2.2; omega)
    · rw [List.mem_singleton.mp ha]
      exact stored_savedDisk env d b
  latest a ha := by
    obtain rfl : b = a := by simpa using ha
    exact latestIs_savedDisk env d b
  none hnil := by simp at hnil

end Storage

namespace Records

/-- The height recorded with the latest block. -/
def latestHeight (d : Records) : Except Failure Nat :=
  Safe.parseDecimal (d.getText .blockLatest (ascii "hgt"))

/-- Id and hash of the block at a height, and what it names as its previous one. -/
def idAt (d : Records) (h : Nat) : Bytes := env.base64.decode (d.getNthBlockIdB64 h)

def hashAt (d : Records) (h : Nat) : Bytes := d.getText .blockRaw (d.getNthBlockIdB64 h ++ ascii "_hash")

def prevIdAt (d : Records) (h : Nat) : Bytes :=
  env.base64.decode (d.getText .blockHeader (d.getNthBlockIdB64 h ++ ascii "_prevbID"))

def prevHashAt (d : Records) (h : Nat) : Bytes :=
  env.base64.decode (d.getText .blockHeader (d.getNthBlockIdB64 h ++ ascii "_prevH"))

/-- A block is held at this height and names the one held below, or the genesis
values at height 1. -/
structure HeldAt (d : Records) (h : Nat) : Prop where
  held : d.getNthBlockIdB64 h ≠ []
  height : d.getText .blockHeader (d.getNthBlockIdB64 h ++ ascii "_hgt") = decimal h
  first : h = 1 → d.prevIdAt env h = genesisBlockPrevId env ∧ d.prevHashAt env h = genesisBlockPrevHash env
  next : 1 < h → d.prevIdAt env h = d.idAt env (h - 1) ∧ d.prevHashAt env h = d.hashAt (h - 1)

def NoGaps (d : Records) : Prop :=
  ∃ n, d.latestHeight = .ok n ∧ ∀ h, 1 ≤ h → h ≤ n → d.HeldAt env h

end Records

namespace Storage

/-- What the readers find at the height of a stored block. -/
theorem Stored.reads {d : Records} {b : Block} (h : Stored env d b) (h0 : b.height ≠ 0) :
    d.idAt env b.height = b.blockId ∧ d.hashAt b.height = env.sha256 b.blockRaw ∧
      d.prevIdAt env b.height = b.prevBlockId ∧ d.prevHashAt env b.height = b.prevBlockHash := by
  have hhash := h.getText_raw env (ascii "_hash") (env.sha256 b.blockRaw) (by simp [rawRecords])
  have hprev := h.getText_header env (ascii "_prevbID") (env.base64.encode b.prevBlockId)
    (by simp [headerRecords])
  have hprevH := h.getText_header env (ascii "_prevH") (env.base64.encode b.prevBlockHash)
    (by simp [headerRecords])
  simp only [Records.idAt, Records.hashAt, Records.prevIdAt, Records.prevHashAt,
    h.getNthBlockIdB64 env h0, hhash, hprev, hprevH]
  simp [Block.getBlockIdB64, env.base64.decode_encode]

theorem latestHeight_of_latestIs {d : Records} {b : Block} (h : LatestIs env d b) (hb : b.height < 2 ^ 63) :
    d.latestHeight = .ok b.height := by
  have he := h ⟨.blockLatest, ascii "hgt", .text (decimal b.height)⟩ (by simp [latestEntries])
  simp [Records.latestHeight, Records.getText, Records.getValueByKey, he, Value.toText,
    Safe.parseDecimal_decimal b.height hb]

theorem getNthBlockIdB64_of_latestIs {d : Records} {b : Block} (h : LatestIs env d b) :
    d.getNthBlockIdB64 0 = b.getBlockIdB64 env := by
  have he := h ⟨.blockLatest, ascii "bID", .text (b.getBlockIdB64 env)⟩ (by simp [latestEntries])
  simp [Records.getNthBlockIdB64, Records.getText, Records.getValueByKey, he, Value.toText]

theorem Represents.height_last {d : Records} {bs : List Block} (h : Represents env d bs) {b : Block}
    (hb : bs.getLast? = some b) : b.height = bs.length := by
  rw [List.getLast?_eq_getElem?] at hb
  have hlt := (List.getElem?_eq_some_iff.mp hb).1
  have hat := h.linked.height_at hb
  simp only [genesisTip] at hat
  omega

/-- The height that the latest link gives, whenever it can be read. -/
theorem Represents.latest_height {d : Records} {bs : List Block} (h : Represents env d bs) {link : NthLink}
    (hl : d.getNthBlockLinkInfo env 0 = .ok link) : link.height = bs.length := by
  unfold Records.getNthBlockLinkInfo at hl
  cases hbs : bs.getLast? with
  | none =>
    have hnil := List.getLast?_eq_none_iff.mp hbs
    have hid := h.none hnil (ascii "bID") (by simp)
    simp [Records.getNthBlockIdB64, Records.getText, Records.getValueByKey, hid, Value.toText] at hl
    cases hl
    simp [hnil]
  | some b =>
    have hmem := List.mem_of_getLast? hbs
    have hs := h.sound b hmem
    have hhgt := (h.stored b hmem).getText_header env (ascii "_hgt") (decimal b.height)
      (by simp [headerRecords])
    simp only [getNthBlockIdB64_of_latestIs env (h.latest b hbs), hhgt,
      Safe.getSize_decimal b.height hs.height_lt, hs.idB64_ne, if_false] at hl
    obtain ⟨_, hsize, hl⟩ := Fallible.bind_eq_ok.mp hl
    cases hsize
    obtain ⟨_, _, hl⟩ := Fallible.bind_eq_ok.mp hl
    cases hl
    exact h.height_last env hbs

theorem Represents.latestHeight {d : Records} {bs : List Block} (h : Represents env d bs) :
    d.latestHeight = .ok bs.length := by
  cases hbs : bs.getLast? with
  | none =>
    have hnil := List.getLast?_eq_none_iff.mp hbs
    have hhgt := h.none hnil (ascii "hgt") (by simp)
    simp [Records.latestHeight, Records.getText, Records.getValueByKey, hhgt, Value.toText, hnil,
      Safe.parseDecimal]
  | some b =>
    have hs := h.sound b (List.mem_of_getLast? hbs)
    rw [latestHeight_of_latestIs env (h.latest b hbs) hs.height_lt, h.height_last env hbs]

/-- A picture of a chain has no gaps. -/
theorem Represents.noGaps {d : Records} {bs : List Block} (h : Represents env d bs) : d.NoGaps env := by
  refine ⟨bs.length, h.latestHeight env, fun n hn hle => ?_⟩
  obtain ⟨k, rfl⟩ : ∃ k, n = k + 1 := ⟨n - 1, by omega⟩
  obtain ⟨b, hk⟩ : ∃ b, bs[k]? = some b := ⟨_, List.getElem?_eq_getElem (by omega)⟩
  have hmem := List.mem_of_getElem? hk
  have hb : b.height = k + 1 := by
    have hat := h.linked.height_at hk
    simp only [genesisTip] at hat
    omega
  have hstored := h.stored b hmem
  have hread := hstored.reads env (by omega)
  have hid := hstored.getNthBlockIdB64 env (by omega)
  have hfollows := Trail.Valid.at h.linked hk
  rw [hb] at hread hid
  refine ⟨?_, ?_, ?_, ?_⟩
  · rw [hid]
    exact (h.sound b hmem).idB64_ne
  · rw [hid, ← hb]
    exact hstored.getText_header env _ _ (by simp [headerRecords])
  · intro h1
    obtain rfl : k = 0 := by omega
    rw [hread.2.2.1, hread.2.2.2, hfollows.1, hfollows.2.1]
    exact ⟨rfl, rfl⟩
  · intro h1
    -- the block below is the one before in the list
    obtain ⟨j, rfl⟩ : ∃ j, k = j + 1 := ⟨k - 1, by omega⟩
    obtain ⟨a, hj⟩ : ∃ a, bs[j]? = some a := ⟨_, List.getElem?_eq_getElem (by omega)⟩
    have ha : a.height = j + 1 := by
      have hat := h.linked.height_at hj
      simp only [genesisTip] at hat
      omega
    have hamem := List.mem_of_getElem? hj
    have hareads := (h.stored a hamem).reads env (by omega)
    rw [ha] at hareads
    rw [Trail.finish_take_succ _ hj] at hfollows
    rw [hread.2.2.1, hread.2.2.2, hfollows.1, hfollows.2.1]
    simp only [Nat.add_sub_cancel]
    rw [hareads.1, hareads.2.1, ← (h.sound a hamem).hash_eq]
    exact ⟨rfl, rfl⟩

end Storage
end GruutMerger
