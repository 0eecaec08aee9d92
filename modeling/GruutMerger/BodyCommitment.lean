import GruutMerger.MerkleProof
import GruutMerger.RoundTrip

/-!
# The transactions of a block and its raw bytes

The header holds the root of the Merkle tree, and nothing else that is checked
ties the transactions to the raw bytes. Up to the number of leaves the root
fixes the digests, as long as hashing has no collisions; beyond it transactions
can be added without anyone noticing.
-/
namespace GruutMerger

open ByteText

variable (env : Env)

namespace MerkleTree

theorem makeParent_eq (h : Hashing env) (left right : Bytes) :
    makeParent env left right = env.sha256 (left ++ right) := by
  rw [h.table.makeParent, hashPair]

/-- The bytes that are hashed for the parent number `i`. -/
def pairAt (tree : List Bytes) (i : Nat) : Bytes := tree.getD (2 * i) [] ++ tree.getD (2 * i + 1) []

/-- Hashing keeps the two trees apart wherever it is used at the same place. -/
def NoCollision (t u : List Bytes) : Prop :=
  ∀ i, i + 1 < maxMerkleLeaves → env.sha256 (pairAt t i) = env.sha256 (pairAt u i) → pairAt t i = pairAt u i

variable {env}

theorem length_node (h : Hashing env) {digests : List Bytes} (hd : ∀ d ∈ digests, d.length = 32) {j : Nat}
    (hj : j < merkleTreeSize) : ((generate env prepared digests).getD j []).length = 32 := by
  have hlen := length_prepared
  by_cases hleaf : j < maxMerkleLeaves
  · have hle : maxMerkleLeaves ≤ prepared.length := by
      rw [hlen, merkleTreeSize, maxMerkleLeaves]
      omega
    rw [leaf_generate env digests hle hleaf, List.getD_eq_getElem?_getD]
    cases hget : digests[j]? with
    | none => exact List.length_replicate
    | some d => exact hd d (List.mem_of_getElem? hget)
  · have hp := paired_generate env digests hlen.ge (j - maxMerkleLeaves) (by
      simp only [merkleTreeSize, maxMerkleLeaves] at hj hleaf ⊢
      omega)
    rw [Nat.add_sub_cancel' (Nat.not_lt.mp hleaf)] at hp
    simp only [hp, makeParent_eq env h, h.length_eq]

/-- The root fixes all leaves. -/
theorem leaf_eq_of_root (h : Hashing env) {ds es : List Bytes} (hd : ∀ d ∈ ds, d.length = 32)
    (he : ∀ d ∈ es, d.length = 32) (hc : NoCollision env (generate env prepared ds) (generate env prepared es))
    (hroot : (generate env prepared ds).getLast? = (generate env prepared es).getLast?) :
    ∀ j, j < maxMerkleLeaves → ds.getD j dummyLeaf = es.getD j dummyLeaf := by
  have hlen := length_prepared
  have hle : maxMerkleLeaves ≤ prepared.length := by
    rw [hlen, merkleTreeSize, maxMerkleLeaves]
    omega
  have hlast : ∀ xs : List Bytes, (generate env prepared xs).getLast?.getD [] =
      (generate env prepared xs).getD (2 * maxMerkleLeaves - 2) [] := by
    intro xs
    rw [List.getLast?_eq_getElem?, length_generate, hlen, List.getD_eq_getElem?_getD]
    rfl
  have hsize : ∀ i, i + 1 < maxMerkleLeaves → 2 * i + 1 < merkleTreeSize := by
    intro i hi
    simp only [merkleTreeSize, maxMerkleLeaves] at hi ⊢
    omega
  have hall := (paired_generate env ds hlen.ge).eq_of_root (paired_generate env es hlen.ge) (fun i hi hpar => by
    rw [makeParent_eq env h, makeParent_eq env h] at hpar
    have hpair := hc i hi hpar
    have hlt := hsize i hi
    refine List.append_inj hpair ?_
    rw [length_node h hd (by omega), length_node h he (by omega)])
    (by rw [← hlast, ← hlast, hroot])
  intro j hj
  have hnode := hall j (by simp only [maxMerkleLeaves] at hj ⊢; omega)
  rwa [leaf_generate env ds hle hj, leaf_generate env es hle hj] at hnode

/-- The second list goes on with padding where the first one ends inside the tree. -/
def Padded (ds es : List Bytes) : Prop := ds.length < maxMerkleLeaves ∧ es[ds.length]? = some dummyLeaf

theorem padded_of_getElem? {ds es : List Bytes} (h : ∀ j, j < maxMerkleLeaves → ds.getD j dummyLeaf = es.getD j dummyLeaf)
    {j : Nat} (hj : j < maxMerkleLeaves) (hd : ds[j]? = none) {e : Bytes} (he : es[j]? = some e) : Padded ds es := by
  have hle := List.getElem?_eq_none_iff.mp hd
  have hlt : ds.length < es.length := Nat.lt_of_le_of_lt hle (List.getElem?_eq_some_iff.mp he).1
  have hat := h ds.length (by omega)
  rw [List.getD_eq_default _ _ Nat.le.refl, List.getD_eq_getElem _ _ hlt] at hat
  exact ⟨by omega, by rw [List.getElem?_eq_getElem hlt, hat]⟩

/-- Lists that are filled up alike can differ in the filling and behind the last leaf. -/
theorem eq_iff_of_leaves {ds es : List Bytes}
    (h : ∀ j, j < maxMerkleLeaves → ds.getD j dummyLeaf = es.getD j dummyLeaf) :
    ds = es ↔ ¬Padded ds es ∧ ¬Padded es ds ∧ ds.drop maxMerkleLeaves = es.drop maxMerkleLeaves := by
  constructor
  · rintro rfl
    simp [Padded]
  · rintro ⟨hpad, hpad', hdrop⟩
    refine List.ext_getElem? fun j => ?_
    by_cases hj : j < maxMerkleLeaves
    · cases hx : ds[j]? with
      | none =>
        cases hy : es[j]? with
        | none => rfl
        | some y => exact absurd (padded_of_getElem? h hj hx hy) hpad
      | some x =>
        cases hy : es[j]? with
        | none => exact absurd (padded_of_getElem? (fun i hi => (h i hi).symm) hj hy hx) hpad'
        | some y =>
          have hat := h j hj
          simp only [List.getD_eq_getElem?_getD, hx, hy, Option.getD_some] at hat
          rw [hat]
    · have hat := congrArg (·[j - maxMerkleLeaves]?) hdrop
      simpa [List.getElem?_drop, Nat.add_sub_cancel' (Nat.not_lt.mp hj)] using hat

end MerkleTree

namespace Block

/-- The digests that go into the tree of a block. -/
def digests (b : Block) : List Bytes := b.transactions.map (·.getDigest env)

variable {env}

/-- Blocks that are read from the same raw bytes have the same root in their header. -/
theorem txRoot_eq_of_raw {raw : Bytes} {txs₁ txs₂ : Json} {b₁ b₂ : Block}
    (h₁ : initializeRaw env raw txs₁ = .ok (some b₁)) (h₂ : initializeRaw env raw txs₂ = .ok (some b₂)) :
    b₁.txRoot = b₂.txRoot := by
  obtain ⟨header, _, _, _, _, _, _, h₁⟩ := (initializeRaw_eq_some env).mp h₁
  obtain ⟨header', _, _, _, _, _, _, h₂⟩ := (initializeRaw_eq_some env).mp h₂
  have hheader : header = header' := Except.ok.inj (h₁.header_eq.symm.trans h₂.header_eq)
  rw [h₁.block_eq, h₂.block_eq, hheader]
  rfl

theorem tree_of_initializeRaw {raw : Bytes} {txs : Json} {b : Block}
    (h : initializeRaw env raw txs = .ok (some b)) :
    b.merkleTreeNode = MerkleTree.generate env MerkleTree.prepared (b.digests env) := by
  obtain ⟨_, _, _, _, _, _, _, h⟩ := (initializeRaw_eq_some env).mp h
  simp only [h.block_eq, assemble, calcMerkleTreeNode, digests]

/-- The raw bytes of a valid block fix the digests of its transactions up to the padding:
two such blocks have the same digests exactly when neither goes on with the padding leaf
where the other ends and what stands behind the last leaf is the same. -/
theorem body_commitment (hh : MerkleTree.Hashing env) {raw : Bytes} {txs₁ txs₂ : Json} {b₁ b₂ : Block}
    (h₁ : initializeRaw env raw txs₁ = .ok (some b₁)) (h₂ : initializeRaw env raw txs₂ = .ok (some b₂))
    (hv₁ : b₁.isValidEarly env = true) (hv₂ : b₂.isValidEarly env = true)
    (hc : MerkleTree.NoCollision env b₁.merkleTreeNode b₂.merkleTreeNode) :
    b₁.digests env = b₂.digests env ↔
      ¬MerkleTree.Padded (b₁.digests env) (b₂.digests env) ∧ ¬MerkleTree.Padded (b₂.digests env) (b₁.digests env) ∧
        (b₁.digests env).drop maxMerkleLeaves = (b₂.digests env).drop maxMerkleLeaves := by
  have hlength : ∀ b : Block, ∀ d ∈ b.digests env, d.length = 32 := by
    intro b d hd
    obtain ⟨tx, _, rfl⟩ := List.mem_map.mp hd
    exact hh.length_eq _
  obtain ⟨_, _, hroot₁, _⟩ := (isValidEarly_iff env).mp hv₁
  obtain ⟨_, _, hroot₂, _⟩ := (isValidEarly_iff env).mp hv₂
  have hroot := hroot₁.trans ((congrArg some (txRoot_eq_of_raw h₁ h₂)).trans hroot₂.symm)
  rw [tree_of_initializeRaw h₁, tree_of_initializeRaw h₂] at hc hroot
  exact MerkleTree.eq_iff_of_leaves (MerkleTree.leaf_eq_of_root hh (hlength b₁) (hlength b₂) hc hroot)

end Block

namespace Sample

/-- A made block is read, and passes the early check, from its own transactions and from
any others with the same tree. -/
theorem read_both (e : Env) (hcert : ∀ id, e.getCert id = [1]) (hsign : ∀ msg, e.doVerify [1] msg [1] = true)
    {txs txs' : List Transaction} (h : ∀ tx ∈ txs, tx.id.length = 32) (hpos : 1 ≤ txs.length)
    (hle : txs.length ≤ maxMerkleLeaves) {js : List Json}
    (hset : Block.setTransactions (reader e (info e txs h)) js = .ok txs')
    (htree : Block.calcMerkleTreeNode (reader e (info e txs h)) txs' =
      Block.calcMerkleTreeNode (reader e (info e txs h)) txs)
    (hall : ∀ tx ∈ txs ++ txs', tx.sentTime < 2 ^ 63 ∧ tx.type ≠ .certificates ∧ tx.isValid e [1] = true) :
    ∃ raw b c, Block.initializeRaw (reader e (info e txs h)) raw (.array (txs.map (·.getJson e))) = .ok (some b) ∧
      Block.initializeRaw (reader e (info e txs h)) raw (.array js) = .ok (some c) ∧
      b.isValidEarly (reader e (info e txs h)) = true ∧ c.isValidEarly (reader e (info e txs h)) = true ∧
      b.transactions = txs ∧ c.transactions = txs' ∧ b.merkleTreeNode = c.merkleTreeNode := by
  have hrooted := rooted_info e h (info e txs h) hpos hle
  have hleft : ∀ tx ∈ txs, tx ∈ txs ++ txs' := fun tx htx => List.mem_append_left _ htx
  have hright : ∀ tx ∈ txs', tx ∈ txs ++ txs' := fun tx htx => List.mem_append_right _ htx
  obtain ⟨b, hb⟩ := exists_makeBlock (reader e (info e txs h)) maker (info e txs h) [good 1] []
    (Block.extractUserCertsIf_eq_nil fun tx htx => (hall tx (hleft tx htx)).2.1)
  have hmade := makeBlock_eq_ok _ hb
  have hmt : b.transactions = txs := hmade.transactions
  have hsig : b.signature ≠ [] := by simp [hmade.signature, maker]
  have hcarried := carried_made hmade
  -- the tree stays a name, so that nothing computes it
  generalize htree₁ : Block.calcMerkleTreeNode (reader e (info e txs h)) txs = tree at htree
  have hroot : tree.getLast? = some b.txRoot := by
    rw [← htree₁, hmade.txRoot, ← hrooted.root]
    rfl
  have hread := hmade.read _ ⟨by simp [info], by simp [info], fun tx htx => (hall tx (hleft tx htx)).1⟩
    (by simp) hsig hcarried (by rw [hmt, htree₁])
  have hjson : b.getBlockTXsAsJson (reader e (info e txs h)) = .array (txs.map (·.getJson e)) := by
    rw [Block.getBlockTXsAsJson, hmt]
    rfl
  rw [hjson] at hread
  have hother := Block.initializeRaw_other _ hread hset
    (Block.extractUserCertsIf_eq_nil fun tx htx => (hall tx (hright tx htx)).2.1) htree
  have hvalid : ∀ tx ∈ txs ++ txs', tx.isValid (reader e (info e txs h))
      ((reader e (info e txs h)).getCert tx.requestorId) = true := by
    intro tx htx
    have hc : (reader e (info e txs h)).getCert tx.requestorId = [1] := hcert _
    rw [hc]
    exact (hall tx htx).2.2
  have hmine : (reader e (info e txs h)).getCert (info e txs h).mergerId = [1] := hcert _
  have hearly := fun (c : Block) => hmade.isValidEarly _ (c := c) hsig hcarried (by simp [hmine])
    (by rw [hmine]; exact hsign)
  refine ⟨_, _, _, hread, hother, hearly _ ?_ ?_ ?_ ?_ ?_, hearly _ ?_ ?_ ?_ ?_ ?_, hmt, rfl, rfl⟩
  all_goals first | rfl | exact hroot | skip
  · exact fun tx htx => hvalid tx (hleft tx (hmt ▸ htx))
  · exact fun tx htx => hvalid tx (hright tx htx)

/-- Hashing that knows the table and has one digest for everything else. -/
def tabled : Env :=
  { base with sha256 := fun b => ((MerkleTree.hashLookup base).lookup b).getD (List.replicate 32 5) }

theorem tabled_eq : tabled =
    { base with sha256 := fun b => (MerkleTree.zeroTable.lookup b).getD (List.replicate 32 5) } := by
  rw [tabled, MerkleTree.hashLookup_padded rfl]

def tabledDigests : List Bytes := List.replicate 32 5 :: (MerkleTree.hashLookup base).map Prod.snd

theorem tabledDigests_eq : tabledDigests = List.replicate 32 5 :: MerkleTree.zeroTable.map Prod.snd := by
  rw [tabledDigests, MerkleTree.hashLookup_padded rfl]

theorem sha256_tabled (b : Bytes) : tabled.sha256 b ∈ tabledDigests := by
  rw [tabled_eq, tabledDigests_eq]
  cases hlookup : MerkleTree.zeroTable.lookup b with
  | none => simp [hlookup]
  | some d =>
    have hd : d ∈ MerkleTree.zeroTable.map Prod.snd := List.mem_map.mpr ⟨_, MerkleTree.mem_of_lookup hlookup, rfl⟩
    simp [hlookup, hd]

theorem hashing_tabled (i : BasicBlockInfo) : MerkleTree.Hashing (reader tabled i) where
  length_eq b := by
    have hall : ∀ d ∈ tabledDigests, d.length = 32 := by
      rw [tabledDigests_eq]
      decide +kernel
    exact hall _ (sha256_tabled b)
  table := by
    have hall : ∀ e ∈ MerkleTree.hashLookup base, tabled.sha256 e.1 = e.2 := by
      rw [tabled_eq, MerkleTree.hashLookup_padded rfl]
      decide +kernel
    exact hall

theorem dummyLeaf_notMem_digests (i : BasicBlockInfo) (b : Block) :
    MerkleTree.dummyLeaf ∉ b.digests (reader tabled i) := by
  intro h
  obtain ⟨tx, _, heq⟩ := List.mem_map.mp h
  have hzero : MerkleTree.dummyLeaf ∉ tabledDigests := by
    rw [tabledDigests_eq]
    decide +kernel
  exact hzero (heq ▸ sha256_tabled _)

def tabledTx : Transaction := { digestTx with id := digestTx.buildTxId tabled }

theorem tabledTx_good : tabledTx.id.length = 32 ∧ tabledTx.sentTime < 2 ^ 63 ∧ tabledTx.type ≠ .certificates ∧
    tabledTx.isValid tabled [1] = true := by
  rw [tabledTx, tabled_eq]
  decide +kernel

theorem tabled_ids : ∀ tx ∈ [tabledTx], tx.id.length = 32 := by simpa using tabledTx_good.1

def tabledInfo : BasicBlockInfo := info tabled [tabledTx] tabled_ids

/-- With a field that nobody reads. -/
def noted : Json → Json
  | .object fields => .object (("note", .null) :: fields)
  | j => j

theorem readTransaction_noted (e : Env) (fields : List (String × Json)) :
    Block.readTransaction e (noted (.object fields)) = Block.readTransaction e (.object fields) := by
  have hlookup : ∀ key, key ≠ "note" → (("note", Json.null) :: fields).lookup key = fields.lookup key := by
    intro key hkey
    rw [List.lookup_cons, beq_false_of_ne hkey]
  have hstring : ∀ key, key ≠ "note" →
      Safe.getStringOf (noted (.object fields)) key = Safe.getStringOf (.object fields) key := by
    intro key hkey
    simp only [Safe.getStringOf, noted, Json.find, hlookup key hkey]
  have hfield : (noted (.object fields)).field "content" = (Json.object fields).field "content" := by
    simp only [noted, Json.field, hlookup "content" (by decide)]
  simp only [Block.readTransaction, Transaction.setJson, Safe.getBytesFromB64, Safe.getTimeOf, hfield,
    hstring "txid" (by decide), hstring "time" (by decide), hstring "rID" (by decide),
    hstring "type" (by decide), hstring "rSig" (by decide)]

end Sample

open Sample in
theorem Block.body_commitment_noted : ∃ raw b₁ b₂,
    Block.initializeRaw (reader tabled tabledInfo) raw (.array [tabledTx.getJson tabled]) = .ok (some b₁) ∧
    Block.initializeRaw (reader tabled tabledInfo) raw (.array [noted (tabledTx.getJson tabled)]) = .ok (some b₂) ∧
    b₁.isValidEarly (reader tabled tabledInfo) = true ∧
    b₁.digests (reader tabled tabledInfo) = b₂.digests (reader tabled tabledInfo) := by
  have hset : Block.setTransactions (reader tabled tabledInfo) [noted (tabledTx.getJson tabled)] = .ok [tabledTx] := by
    rw [← Block.setTransactions_getJson (reader tabled tabledInfo) [tabledTx] tabled_ids
      (by simpa using tabledTx_good.2.1)]
    simp only [Block.setTransactions, List.map_cons, List.map_nil, List.mapM_cons, List.mapM_nil]
    rw [Transaction.getJson, readTransaction_noted]
    rfl
  obtain ⟨raw, b, c, hb, hc, hvb, hvc, htb, htc, htree⟩ := read_both tabled (fun _ => rfl) (fun _ => rfl)
    tabled_ids (by decide) (by decide) hset rfl (by simpa using tabledTx_good.2)
  have hpad (x y : Block) : ¬MerkleTree.Padded (x.digests (reader tabled tabledInfo)) (y.digests (reader tabled tabledInfo)) :=
    fun h => dummyLeaf_notMem_digests _ _ (List.mem_of_getElem? h.2)
  exact ⟨raw, b, c, hb, hc, hvb, (Block.body_commitment (hashing_tabled _) hb hc hvb hvc (fun _ _ _ => by rw [htree])).mpr
    ⟨hpad b c, hpad c b, by simp only [Block.digests, htb, htc]⟩⟩

namespace Sample

/-- Hashing that is injective: nothing is lost. -/
def plain : Env := { base with sha256 := id }

def plainTx : Transaction := { digestTx with id := digestTx.buildTxId plain }

theorem plainTx_good : plainTx.id.length = 32 ∧ plainTx.sentTime < 2 ^ 63 ∧ plainTx.type ≠ .certificates ∧
    plainTx.isValid plain [1] = true := by decide +kernel

theorem plain_ids (n : Nat) : ∀ tx ∈ List.replicate n plainTx, tx.id.length = 32 :=
  fun _ htx => List.eq_of_mem_replicate htx ▸ plainTx_good.1

/-- A tree full of one transaction. -/
def fullInfo : BasicBlockInfo := info plain (List.replicate maxMerkleLeaves plainTx) (plain_ids _)

/-- What stands behind the last leaf is not in the tree. -/
theorem calcMerkleTreeNode_append (e : Env) {txs : List Transaction} (h : txs.length = maxMerkleLeaves)
    (more : List Transaction) : Block.calcMerkleTreeNode e (txs ++ more) = Block.calcMerkleTreeNode e txs := by
  have htake := MerkleTree.generate_take e MerkleTree.prepared ((txs ++ more).map (·.getDigest e))
  rw [← List.map_take, List.take_append_of_le_length h.ge, List.take_of_length_le h.le] at htake
  exact htake.symm

end Sample

open Sample in
/-- Hashing is injective, and a transaction is added to a valid block without a change
of the raw bytes. -/
theorem Block.body_extended : Function.Injective (reader plain fullInfo).sha256 ∧ ∃ raw txs₁ txs₂ b₁ b₂,
    Block.initializeRaw (reader plain fullInfo) raw txs₁ = .ok (some b₁) ∧
    Block.initializeRaw (reader plain fullInfo) raw txs₂ = .ok (some b₂) ∧
    b₁.isValidEarly (reader plain fullInfo) = true ∧ b₂.isValidEarly (reader plain fullInfo) = true ∧
    (b₁.digests (reader plain fullInfo)).length = 4096 ∧ (b₂.digests (reader plain fullInfo)).length = 4097 := by
  have hall : ∀ n, ∀ tx ∈ List.replicate n plainTx ++ (List.replicate n plainTx ++ [plainTx]), tx = plainTx := by
    intro n tx htx
    simp only [List.mem_append, List.mem_replicate, List.mem_singleton] at htx
    tauto
  have hset := Block.setTransactions_getJson (reader plain fullInfo)
    (List.replicate maxMerkleLeaves plainTx ++ [plainTx])
    (fun tx htx => hall _ tx (List.mem_append_right _ htx) ▸ plainTx_good.1)
    (fun tx htx => hall _ tx (List.mem_append_right _ htx) ▸ plainTx_good.2.1)
  obtain ⟨raw, b, c, hb, hc, hvb, hvc, htb, htc, _⟩ := read_both plain (fun _ => rfl) (fun _ => rfl)
    (plain_ids maxMerkleLeaves) (by rw [List.length_replicate]; decide) List.length_replicate.le hset
    (calcMerkleTreeNode_append _ List.length_replicate _) (fun tx htx => hall _ tx htx ▸ plainTx_good.2)
  refine ⟨Function.injective_id, raw, _, _, b, c, hb, hc, hvb, hvc, ?_, ?_⟩
  · simp only [Block.digests, List.length_map, htb, List.length_replicate]
    rfl
  · simp only [Block.digests, List.length_map, htc, List.length_append, List.length_replicate]
    rfl

end GruutMerger
