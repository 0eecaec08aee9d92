import GruutMerger.MerkleTree
import GruutMerger.Lib.Sha256
import GruutMerger.Sample

/-!
# Merkle roots and sibling lists

The flat tree is the perfect tree over the padded digests, and its root comes
last. The verifier hashes its way up a list of siblings of any length and of any
contents, so an accepted list shows a node of the tree; it is a leaf when the
list is as long as the tree is high.
-/
namespace GruutMerger

open ByteText HeapTree

variable (env : Env)

namespace MerkleTree

/-- The entries of the table are hashes, as they are for SHA-256. -/
def TableAgrees : Prop := ∀ e ∈ hashLookup env, env.sha256 e.1 = e.2

/-- What the tree expects of SHA-256: digests of 32 bytes, among them those of the table. -/
structure Hashing : Prop where
  length_eq : ∀ b, (env.sha256 b).length = 32
  table : TableAgrees env

def hashPair (left right : Bytes) : Bytes := env.sha256 (left ++ right)

theorem mem_of_lookup {table : List (Bytes × Bytes)} {key value : Bytes} (h : table.lookup key = some value) :
    (key, value) ∈ table := by
  induction table with
  | nil => cases h
  | cons e table ih =>
    rw [List.lookup_cons] at h
    split at h
    · rename_i heq
      cases h
      rw [eq_of_beq heq]
      simp
    · exact List.mem_cons_of_mem _ (ih h)

variable {env} in
theorem TableAgrees.makeParent (h : TableAgrees env) : makeParent env = hashPair env := by
  funext left right
  unfold MerkleTree.makeParent
  split
  · rename_i parent hparent
    exact (h _ (mem_of_lookup hparent)).symm
  · rfl

/-- The nodes of the tree without digests, level by level up to the last entry of the
table. -/
def zeroNodes : List Bytes :=
  [0,
   0xf5a5fd42d16a20302798ef6ed309979b43003d2320d9f0e8ea9831a92759fb4b,
   0xdb56114e00fdd4c1f85c892bf35ac9a89289aaecb1ebd0a96cde606a748b5d71,
   0xc78009fdf07fc56a11f122370658a353aaa542ed63e44c4bc15ff4cd105ab33c,
   0x536d98837f2dd165a55d5eeae91485954472d56f246df256bf3cae19352a123c,
   0x9efde052aa15429fae05bad4d0b1d7c64da64d03d7a1854a588c2cb8430c0d30,
   0xd88ddfeed400a8755596b21942c1497e114c302e6118290f91e6772976041fa1,
   0x87eb0ddba57e35f6d286673802a4af5975e22506c7cf4c64bb6be5ee11527f2c,
   0x26846476fd5fc54a5d43385167c95144f2643f533cc85bb9d16b782f8d7db193,
   0x506d86582d252405b840018792cad2bf1259f1ef5aa5f887e13cb2f0094f51e1,
   0xffff0ad7e659772f9534c195c815efc4014ef1e1daed4404c06385d11192e92b,
   0x6cf04127db05441cd833107a52be852868890e4317e6a02ab47683aa75964220].map (integerBytes 32)

/-- The table in bytes. -/
def zeroTable : List (Bytes × Bytes) := (zeroNodes.zip zeroNodes.tail).map fun e => (e.1 ++ e.1, e.2)

variable {env} in
theorem hashLookup_padded (h : env.base64 = Base64.padded) : hashLookup env = zeroTable := by
  have htexts : hashLookupB64.map (fun e => (ascii e.1, ascii e.2)) =
      zeroTable.map fun e => (Base64.padded.encode e.1, Base64.padded.encode e.2) := by
    simp only [hashLookupB64, List.map_cons, List.map_nil]
    -- letter by letter, since decoding a string literal is slow
    repeat rw [ascii_ofList]
    decide +kernel
  have hdecoded := congrArg (List.map fun e => (Base64.padded.decode e.1, Base64.padded.decode e.2)) htexts
  simp only [List.map_map, Function.comp_def, Base64.decode_encode, List.map_id'] at hdecoded
  rw [hashLookup, h]
  exact hdecoded

/-- `log2(MAX_MERKLE_LEAVES)` -/
def merkleTreeHeight : Nat := 12

theorem maxMerkleLeaves_eq : maxMerkleLeaves = 2 ^ merkleTreeHeight := rfl

/-- The leaves of the tree over some digests. -/
def leafAt (digests : List Bytes) (i : Nat) : Bytes := (digests.take maxMerkleLeaves).getD i dummyLeaf

/-- Node `i` of level `k`, in the words of the perfect tree. -/
def nodeAt (digests : List Bytes) : Nat → Nat → Bytes := perfect (hashPair env) (leafAt digests)

def rootOf (digests : List Bytes) : Bytes := nodeAt env digests merkleTreeHeight 0

variable {env}

theorem node_generate (h : TableAgrees env) {tree : List Bytes} (hlen : tree.length = merkleTreeSize)
    (digests : List Bytes) {k i : Nat} (hk : k ≤ merkleTreeHeight) (hi : i < 2 ^ (merkleTreeHeight - k)) :
    (generate env tree digests).getD (levelStart merkleTreeHeight k + i) [] = nodeAt env digests k i := by
  have hpaired := paired_generate env digests hlen.ge
  rw [h.makeParent, maxMerkleLeaves_eq] at hpaired
  have hle : maxMerkleLeaves ≤ tree.length := by
    rw [hlen, merkleTreeSize, maxMerkleLeaves]
    omega
  refine hpaired.perfect (fun i hi => ?_) hk hi
  rw [← generate_take]
  exact leaf_generate env _ hle hi

theorem getLast?_generate (h : TableAgrees env) {tree : List Bytes} (hlen : tree.length = merkleTreeSize)
    (digests : List Bytes) : (generate env tree digests).getLast? = some (rootOf env digests) := by
  have hnode := node_generate h hlen digests (k := 12) (i := 0) (Nat.le_refl 12) (by decide)
  have hat : 8190 < (generate env tree digests).length := by
    rw [length_generate, hlen]
    decide
  have hlast : (generate env tree digests).length - 1 = 8190 := by
    rw [length_generate, hlen]
    rfl
  have hstart : levelStart merkleTreeHeight 12 + 0 = 8190 := by decide
  rw [hstart, List.getD_eq_getElem _ _ hat] at hnode
  rw [List.getLast?_eq_getElem?, hlast, List.getElem?_eq_getElem hat, hnode]
  rfl

theorem getLastD_generate (h : TableAgrees env) {tree : List Bytes} (hlen : tree.length = merkleTreeSize)
    (digests : List Bytes) : (generate env tree digests).getLastD [] = rootOf env digests := by
  rw [List.getLastD_eq_getLast?, getLast?_generate h hlen, Option.getD_some]

/-- The last node is the root of the perfect tree over the first digests, filled up with
zero leaves; the table never changes a parent. -/
theorem root_of_padded_digests (h : TableAgrees env) {tree : List Bytes} (hlen : tree.length = merkleTreeSize)
    (digests : List Bytes) :
    (generate env tree digests).getLast? = some (perfect (fun left right => env.sha256 (left ++ right))
        (fun i => (digests.take 4096).getD i (List.replicate 32 0)) 12 0) ∧
      ∀ left right, MerkleTree.makeParent env left right = env.sha256 (left ++ right) :=
  ⟨getLast?_generate h hlen digests, fun left right => by rw [h.makeParent, hashPair]⟩

end MerkleTree

/-- The sample environment with SHA-256 itself. -/
def Sample.real : Env := { Sample.base with sha256 := Sha256.hash }

theorem Sample.tableAgrees_real : MerkleTree.TableAgrees Sample.real := by
  rw [MerkleTree.TableAgrees, MerkleTree.hashLookup_padded rfl]
  decide +kernel

theorem MerkleTree.root_of_padded_digests_real : TableAgrees Sample.real ∧
    (generate Sample.real prepared []).getLast? =
      some (perfect (fun left right => Sha256.hash (left ++ right)) (fun _ => List.replicate 32 0) 12 0) :=
  ⟨Sample.tableAgrees_real, (root_of_padded_digests Sample.tableAgrees_real length_prepared []).1⟩

namespace MerkleTree

/-- One turn of the loop: the sibling goes behind or in front, and the whole is hashed. -/
def hashUp (root : Bytes) (s : Bool × Bytes) : Bytes := env.sha256 (if s.1 then root ++ s.2 else s.2 ++ root)

/-- `isValidSiblings` on bytes. -/
def isValidSiblings (siblings : List (Bool × Bytes)) (myVal rootVal : Bytes) : Bool :=
  match siblings with
  | [] => false
  | first :: rest =>
    !myVal.isEmpty && !rootVal.isEmpty && decide (first.2 = myVal) &&
      decide (rootVal = rest.foldl (hashUp env) first.2)

/-- A list of one entry shows that entry as its own root. -/
theorem isValidSiblings_self {root : Bytes} (h : root ≠ []) (side : Bool) :
    isValidSiblings env [(side, root)] root root = true := by
  simp [isValidSiblings, h]

/-- `isValidSiblings` on base64 texts. -/
def isValidSiblingsB64 (siblings : List (Bool × Bytes)) (myVal rootVal : Bytes) : Bool :=
  match siblings with
  | [] => false
  | first :: _ =>
    !myVal.isEmpty && !rootVal.isEmpty && decide (first.2 = myVal) &&
      isValidSiblings env (siblings.map fun s => (s.1, env.base64.decode s.2)) (env.base64.decode myVal)
        (env.base64.decode rootVal)

end MerkleTree

/-- `proof_type` -/
structure Proof where
  blockIdB64 : Bytes
  siblings : List (Bool × Bytes)
  deriving DecidableEq

namespace MerkleTree

/-- `isValidSiblings` on a proof. The first entry is read before the list is looked at. -/
def isValidProof (proof : Proof) (rootVal : Bytes) : Except Failure Bool :=
  match proof.siblings with
  | [] => .error .undefined
  | first :: _ => .ok (isValidSiblingsB64 env proof.siblings first.2 rootVal)

theorem hashUp_eq : hashUp env = combine (hashPair env) := by
  funext root s
  rw [hashUp, combine, hashPair, hashPair]
  split <;> rfl

/-- The strings that the verifier hashes on its way up. -/
def hashed : Bytes → List (Bool × Bytes) → List Bytes
  | _, [] => []
  | root, s :: rest => (if s.1 then root ++ s.2 else s.2 ++ root) :: hashed (hashUp env root s) rest

variable {env}

theorem hashed_append (env : Env) (root : Bytes) (front back : List (Bool × Bytes)) : hashed env root (front ++ back) =
    hashed env root front ++ hashed env (front.foldl (hashUp env) root) back := by
  induction front generalizing root with
  | nil => rfl
  | cons s front ih => rw [List.cons_append, hashed, hashed, ih, List.cons_append, List.foldl_cons]

theorem length_nodeAt (hh : Hashing env) {digests : List Bytes} (hd : ∀ d ∈ digests, d.length = 32) (k i : Nat) :
    (nodeAt env digests k i).length = 32 := by
  cases k with
  | zero =>
    change (leafAt digests i).length = 32
    rw [leafAt, List.getD_eq_getElem?_getD]
    cases hget : (digests.take maxMerkleLeaves)[i]? with
    | none => exact List.length_replicate
    | some d => exact hd d (List.mem_of_mem_take (List.mem_of_getElem? hget))
  | succ k => exact hh.length_eq _

theorem eq_child_of_append {acc sibling left right : Bytes} {onRight : Bool} (ha : acc.length = 32)
    (hl : left.length = 32) (hr : right.length = 32)
    (h : (if onRight then acc ++ sibling else sibling ++ acc) = left ++ right) : acc = left ∨ acc = right := by
  cases onRight with
  | true => exact Or.inl (List.append_inj h (by rw [ha, hl])).1
  | false => exact Or.inr (List.append_inj' h (by rw [ha, hr])).2

/-- The bytes under node `i` of level `k + 1`. -/
def pairUnder (env : Env) (digests : List Bytes) (k i : Nat) : Bytes :=
  nodeAt env digests k (2 * i) ++ nodeAt env digests k (2 * i + 1)

/-- Nothing that the verifier hashes collides with what is hashed in the tree. -/
def NoCollisionOn (env : Env) (digests : List Bytes) (x : Bytes) (path : List (Bool × Bytes)) : Prop :=
  ∀ y ∈ hashed env x path, ∀ k < 12, ∀ i < 2 ^ (11 - k),
    env.sha256 y = env.sha256 (pairUnder env digests k i) → y = pairUnder env digests k i

theorem length_foldl_hashUp (hh : Hashing env) {x : Bytes} {path : List (Bool × Bytes)} (h : x.length = 32 ∨ path ≠ []) :
    (path.foldl (hashUp env) x).length = 32 := by
  rcases List.eq_nil_or_concat' path with rfl | ⟨init, s, rfl⟩
  · exact h.resolve_right fun hne => hne rfl
  · rw [List.foldl_append]
    exact hh.length_eq _

/-- A path from 32 bytes to the root starts at a node, as many levels below as it is long. -/
theorem node_of_path (hh : Hashing env) {digests : List Bytes} (hd : ∀ d ∈ digests, d.length = 32) {x : Bytes}
    {path : List (Bool × Bytes)} (hcount : path.length ≤ 12) (hx : x.length = 32)
    (hcollision : NoCollisionOn env digests x path) (hroot : path.foldl (hashUp env) x = rootOf env digests) :
    ∃ j < 2 ^ path.length, nodeAt env digests (12 - path.length) j = x := by
  have hback : ∀ front s back, path = front ++ s :: back → ∀ k < 12, ∀ i < 2 ^ (12 - (k + 1)),
      combine (hashPair env) (front.foldl (combine (hashPair env)) x) s = nodeAt env digests (k + 1) i →
        front.foldl (combine (hashPair env)) x = nodeAt env digests k (2 * i) ∨
          front.foldl (combine (hashPair env)) x = nodeAt env digests k (2 * i + 1) := by
    rintro front s back rfl k hk i hi hnode
    rw [← hashUp_eq] at hnode ⊢
    have hacc : (front.foldl (hashUp env) x).length = 32 := length_foldl_hashUp hh (Or.inl hx)
    have hmem := hashed_append env x front (s :: back) ▸ List.mem_append_right _ List.mem_cons_self
    exact eq_child_of_append hacc (length_nodeAt hh hd _ _) (length_nodeAt hh hd _ _)
      (hcollision _ hmem k hk i (by rwa [Nat.sub_add_eq, Nat.sub_right_comm] at hi) hnode)
  rw [hashUp_eq] at hroot
  obtain ⟨j, hj, hnode⟩ := exists_perfect_of_path (h := 12) (i := 0) hback hcount (Nat.le_refl 12) (by decide) hroot
  rw [Nat.sub_sub_self hcount] at hj
  exact ⟨j, hj, hnode.symm⟩

theorem leafAt_generate (htable : TableAgrees env) {tree : List Bytes} (htree : tree.length = merkleTreeSize)
    (digests : List Bytes) {j : Nat} (hj : j < maxMerkleLeaves) :
    (generate env tree digests).getD j [] = leafAt digests j := by
  have hat := node_generate htable htree digests (k := 0) (Nat.zero_le _) hj
  rwa [levelStart_zero, Nat.zero_add] at hat

/-- A value that is a leaf and nothing else: no inner node has it, and the list leads from it
to no other leaf. -/
structure OnlyLeaf (env : Env) (digests : List Bytes) (x : Bytes) (path : List (Bool × Bytes)) : Prop where
  inner : ∀ k, 1 ≤ k → k ≤ 12 → ∀ i < 2 ^ (12 - k), nodeAt env digests k i ≠ x
  later : ∀ front back, path = front ++ back → front ≠ [] → ∀ j < maxMerkleLeaves,
    leafAt digests j ≠ front.foldl (hashUp env) x

/-- From such a value only a path of the height of the tree leads to the root. -/
theorem OnlyLeaf.length_eq (hh : Hashing env) {digests : List Bytes} (hd : ∀ d ∈ digests, d.length = 32) {x : Bytes}
    {path : List (Bool × Bytes)} (honly : OnlyLeaf env digests x path) (hx : x.length = 32)
    (hcollision : NoCollisionOn env digests x path) (hroot : path.foldl (hashUp env) x = rootOf env digests) :
    path.length = 12 := by
  by_cases hlong : path.length ≤ 12
  · -- a shorter list would show an inner node
    obtain ⟨i, hi, hnode⟩ := node_of_path hh hd hlong hx hcollision hroot
    by_contra hcount
    exact honly.inner (12 - path.length) (by omega) (by omega) i (by rwa [Nat.sub_sub_self hlong]) hnode
  · -- a longer one comes to a leaf on its way
    obtain ⟨front, back, rfl, hback⟩ : ∃ front back, path = front ++ back ∧ back.length = 12 :=
      ⟨_, _, (List.take_append_drop (path.length - 12) path).symm, by rw [List.length_drop]; omega⟩
    have hfront : front ≠ [] := by
      rintro rfl
      exact hlong hback.le
    rw [List.foldl_append] at hroot
    obtain ⟨i, hi, hnode⟩ := node_of_path hh hd hback.le (length_foldl_hashUp hh (Or.inr hfront))
      (fun y hy => hcollision y (hashed_append env x front back ▸ List.mem_append_right _ hy)) hroot
    rw [hback] at hi hnode
    exact absurd hnode (honly.later front back rfl hfront i hi)

/-- An accepted list of 13 entries for a value of 32 bytes shows a leaf; and a leaf that is nothing
else is shown by such lists only. An empty list is refused, and an empty proof is read. -/
theorem siblings_sound (hh : Hashing env) {tree digests : List Bytes} (htree : tree.length = merkleTreeSize)
    (hd : ∀ d ∈ digests, d.length = 32) {siblings : List (Bool × Bytes)} {myVal : Bytes}
    (h : isValidSiblings env siblings myVal ((generate env tree digests).getLastD []) = true)
    (hcollision : NoCollisionOn env digests myVal siblings.tail) :
    (siblings.length = 13 ∧ myVal.length = 32 → ∃ j < maxMerkleLeaves, (generate env tree digests).getD j [] = myVal) ∧
    (OnlyLeaf env digests myVal siblings.tail → (∃ j < maxMerkleLeaves, (generate env tree digests).getD j [] = myVal) →
      siblings.length = 13 ∧ myVal.length = 32) ∧
    ∀ id root, isValidSiblings env [] myVal root = false ∧ isValidProof env ⟨id, []⟩ root = .error .undefined := by
  have hleaves : (∃ j < maxMerkleLeaves, (generate env tree digests).getD j [] = myVal) ↔
      ∃ j < maxMerkleLeaves, leafAt digests j = myVal :=
    exists_congr fun j => and_congr_right fun hj => by rw [leafAt_generate hh.table htree digests hj]
  rw [hleaves]
  cases siblings with
  | nil => cases h
  | cons first rest =>
    simp only [isValidSiblings, Bool.and_eq_true, decide_eq_true_eq] at h
    obtain ⟨⟨_, rfl⟩, hroot⟩ := h
    rw [getLastD_generate hh.table htree] at hroot
    rw [List.tail_cons] at hcollision ⊢
    refine ⟨?_, ?_, fun _ _ => ⟨rfl, rfl⟩⟩
    · rintro ⟨hcount, hval⟩
      have hrest : rest.length = 12 := by simpa using hcount
      obtain ⟨j, hj, hnode⟩ := node_of_path hh hd hrest.le hval hcollision hroot.symm
      rw [hrest] at hj hnode
      exact ⟨j, hj, hnode⟩
    · rintro honly ⟨j, hj, hleaf⟩
      have hval : first.2.length = 32 := hleaf ▸ length_nodeAt hh hd 0 j
      exact ⟨congrArg (· + 1) (honly.length_eq hh hd hval hcollision hroot.symm), hval⟩

end MerkleTree

namespace Sample

/-- Hashing that knows the table and makes every other string longer. -/
def longHash : Env :=
  { base with sha256 := fun b => (MerkleTree.zeroTable.lookup b).getD (List.replicate 33 0 ++ b) }

theorem tableAgrees_longHash : MerkleTree.TableAgrees longHash := by
  rw [MerkleTree.TableAgrees, MerkleTree.hashLookup_padded rfl]
  decide +kernel

theorem injective_longHash : Function.Injective longHash.sha256 := by
  have hlen : ∀ e ∈ MerkleTree.zeroTable, e.2.length = 32 := by decide +kernel
  have hkeys : ∀ e ∈ MerkleTree.zeroTable, ∀ e' ∈ MerkleTree.zeroTable, e.2 = e'.2 → e.1 = e'.1 := by decide +kernel
  intro a b hab
  simp only [longHash] at hab
  cases ha : MerkleTree.zeroTable.lookup a with
  | none =>
    cases hb : MerkleTree.zeroTable.lookup b with
    | none => simpa [ha, hb] using hab
    | some d =>
      have hd := hlen _ (MerkleTree.mem_of_lookup hb)
      rw [ha, hb, Option.getD_none, Option.getD_some] at hab
      rw [← hab] at hd
      simp at hd
  | some c =>
    have hc := hlen _ (MerkleTree.mem_of_lookup ha)
    cases hb : MerkleTree.zeroTable.lookup b with
    | none =>
      rw [ha, hb, Option.getD_none, Option.getD_some] at hab
      rw [hab] at hc
      simp at hc
    | some d =>
      rw [ha, hb] at hab
      exact hkeys _ (MerkleTree.mem_of_lookup ha) _ (MerkleTree.mem_of_lookup hb) hab

/-- Without digests all nodes of a level are the same. -/
theorem nodeAt_longHash (k i : Nat) : MerkleTree.nodeAt longHash [] k i =
    (fun x => MerkleTree.hashPair longHash x x)^[k] MerkleTree.dummyLeaf :=
  perfect_const _ _ k i

/-- The digest of a transaction and the nodes above it, up to the root of the tree that has no other. -/
def edgeNodes : List Bytes :=
  [0x4115d0ba3a7c9a7f3ca232211875f8a78e89e2abd7019b0bbf71a85e36c74faf,
   0xaaa157ee1e13795fff2e498c6f46697b2bd2272449663b7ee392cb359dc34ae1,
   0x3192688c01ef4b87fc7cfcefe44b733fa25465bc4a7b22d75df36bed4b923729,
   0xe9ab523964e6528f7b2f51d9e72a96618c2e37562292b94b56b89ab14c7fa27f,
   0xd2d1cfdd4e37c75c55053aae0e30987e5fb58fa99bd728e0b4c369ea1ab5cc1f,
   0xc91ab5e474ea4d29c0083daad1a7b6ed28f63a3171ff502c5fa892fbc4687223,
   0xfd185d0955200b34a9e0176de2b5b50d9f97bf3aa1294835207bb764cfa12e67,
   0xde41737d1a33b6939edbb5be3f85889586f24c2a3f28250366e0bec2489688e6,
   0x92e2f712a4110986dab6f5071b1f20474174de209b19d4ae5676d99f9940e59d,
   0xa3734c86c4b1319f4305c2918d4a54835dd59d6480c2cd43ea9489063cafac72,
   0x73a48aef700c04091cb1ab124e6d2f5686886e2fed21f0a55a0d67bddcc67723,
   0x4c2a53ae67421da1d74c005e8356043f0c3263055219463bbed2d6a462ea9b07,
   0x859816ddc8aaa8034a92f643190e09ad2ee5a028951f1ea88027b7e15e17476a].map (integerBytes 32)

def edgeNode (k : Nat) : Bytes := edgeNodes.getD k []

def zeroNode (k : Nat) : Bytes := MerkleTree.zeroNodes.getD k []

theorem getDigest_edge : digestTx.getDigest real = edgeNode 0 := by decide +kernel

theorem sha256_edge : ∀ k < 12, real.sha256 (edgeNode k ++ zeroNode k) = edgeNode (k + 1) := by decide +kernel

theorem sha256_zero {k : Nat} (hk : k < 11) : real.sha256 (zeroNode k ++ zeroNode k) = zeroNode (k + 1) := by
  have hmem : ∀ k < 11, (zeroNode k ++ zeroNode k, zeroNode (k + 1)) ∈ MerkleTree.zeroTable := by decide +kernel
  exact tableAgrees_real (zeroNode k ++ zeroNode k, zeroNode (k + 1))
    (by rw [@MerkleTree.hashLookup_padded real rfl]; exact hmem k hk)

theorem nodeAt_zero {k i : Nat} (hk : k ≤ 11) (hi : i ≠ 0) : MerkleTree.nodeAt real [edgeNode 0] k i = zeroNode k := by
  induction k generalizing i with
  | zero =>
    obtain ⟨i, rfl⟩ := Nat.exists_eq_succ_of_ne_zero hi
    exact (rfl : MerkleTree.dummyLeaf = zeroNode 0)
  | succ k ih =>
    change real.sha256 (MerkleTree.nodeAt real _ k (2 * i) ++ MerkleTree.nodeAt real _ k (2 * i + 1)) = _
    rw [ih (by omega) (by omega), ih (by omega) (by omega), sha256_zero (by omega)]

theorem nodeAt_edge {k : Nat} (hk : k ≤ 12) : MerkleTree.nodeAt real [edgeNode 0] k 0 = edgeNode k := by
  induction k with
  | zero => rfl
  | succ k ih =>
    change real.sha256 (MerkleTree.nodeAt real _ k (2 * 0) ++ MerkleTree.nodeAt real _ k (2 * 0 + 1)) = _
    rw [ih (by omega), nodeAt_zero (by omega) (by omega), sha256_edge k (by omega)]

/-- The siblings on `n` levels from level `k` on. -/
def edgePath (k n : Nat) : List (Bool × Bytes) := (List.range' k n).map fun l => (true, zeroNode l)

theorem foldl_edgePath {k n : Nat} (h : k + n ≤ 12) :
    (edgePath k n).foldl (MerkleTree.hashUp real) (edgeNode k) = edgeNode (k + n) := by
  induction n generalizing k with
  | zero => rfl
  | succ n ih =>
    have hup : MerkleTree.hashUp real (edgeNode k) (true, zeroNode k) = edgeNode (k + 1) := sha256_edge k (by omega)
    rw [edgePath, List.range'_succ, List.map_cons, List.foldl_cons, hup, ← edgePath, ih (by omega), Nat.add_right_comm,
      Nat.add_assoc]

theorem mem_hashed_edgePath {k n : Nat} (h : k + n ≤ 12) {y : Bytes}
    (hy : y ∈ MerkleTree.hashed real (edgeNode k) (edgePath k n)) : ∃ j < 12, y = edgeNode j ++ zeroNode j := by
  induction n generalizing k with
  | zero => cases hy
  | succ n ih =>
    have hup : MerkleTree.hashUp real (edgeNode k) (true, zeroNode k) = edgeNode (k + 1) := sha256_edge k (by omega)
    rw [edgePath, List.range'_succ, List.map_cons, MerkleTree.hashed, hup, ← edgePath] at hy
    rcases List.mem_cons.mp hy with rfl | hy
    · exact ⟨k, by omega, rfl⟩
    · exact ih (by omega) hy

theorem edgeNode_inj : ∀ j < 13, ∀ k < 13, edgeNode j = edgeNode k → j = k := by decide +kernel

theorem edgeNode_ne_zeroNode : ∀ j < 13, ∀ k < 12, edgeNode j ≠ zeroNode k := by decide +kernel

theorem noCollisionOn_edge : MerkleTree.NoCollisionOn real [edgeNode 0] (edgeNode 0) (edgePath 0 12) := by
  intro y hy k hk i hi hsame
  obtain ⟨j, hj, rfl⟩ := mem_hashed_edgePath (Nat.le_refl 12) hy
  rw [sha256_edge j hj, MerkleTree.pairUnder] at hsame
  by_cases hzero : i = 0
  · subst hzero
    rw [Nat.mul_zero, nodeAt_edge hk.le, nodeAt_zero (by omega) (by omega), sha256_edge k hk] at hsame
    obtain rfl : j = k := by
      have := edgeNode_inj (j + 1) (by omega) (k + 1) (by omega) hsame
      omega
    rw [MerkleTree.pairUnder, Nat.mul_zero, nodeAt_edge hk.le, nodeAt_zero (by omega) (by omega)]
  · have hbelow : k < 11 := by
      by_contra hge
      rw [show 11 - k = 0 by omega] at hi
      omega
    rw [nodeAt_zero hbelow.le (by omega), nodeAt_zero hbelow.le (by omega), sha256_zero hbelow] at hsame
    exact absurd hsame (edgeNode_ne_zeroNode (j + 1) (by omega) (k + 1) (by omega))

theorem onlyLeaf_edge : MerkleTree.OnlyLeaf real [edgeNode 0] (edgeNode 0) (edgePath 0 12) where
  inner k hpos hk i hi hnode := by
    by_cases hzero : i = 0
    · subst hzero
      rw [nodeAt_edge hk] at hnode
      have := edgeNode_inj k (by omega) 0 (by omega) hnode
      omega
    · have hbelow : k < 12 := by
        by_contra hge
        rw [show 12 - k = 0 by omega] at hi
        omega
      rw [nodeAt_zero (by omega) hzero] at hnode
      exact edgeNode_ne_zeroNode 0 (by decide) k hbelow hnode.symm
  later front back hsplit hfront j _ hleaf := by
    have hpos := List.length_pos_iff.mpr hfront
    have hlen : front.length ≤ 12 := by
      have := congrArg List.length hsplit
      simp only [edgePath, List.length_map, List.length_range', List.length_append] at this
      omega
    have hparts : edgePath 0 12 = edgePath 0 front.length ++ edgePath (0 + front.length) (12 - front.length) := by
      rw [edgePath, edgePath, edgePath, ← List.map_append, List.range'_append_1, Nat.add_sub_cancel' hlen]
    have hprev : front = edgePath 0 front.length := (List.append_inj (hsplit.symm.trans hparts) (by simp [edgePath])).1
    rw [hprev, foldl_edgePath (by omega), Nat.zero_add] at hleaf
    change MerkleTree.nodeAt real [edgeNode 0] 0 j = _ at hleaf
    by_cases hzero : j = 0
    · subst hzero
      have := edgeNode_inj 0 (by decide) _ (by omega) ((nodeAt_edge (Nat.zero_le 12)).symm.trans hleaf)
      omega
    · rw [nodeAt_zero (Nat.zero_le 11) hzero] at hleaf
      exact edgeNode_ne_zeroNode _ (by omega) 0 (by decide) hleaf.symm

end Sample

namespace MerkleTree

open Sample

/-- The list for the digest of a block's only transaction. -/
theorem siblings_sound_edge : ∃ siblings, siblings.length = 13 ∧
    isValidSiblings real siblings (digestTx.getDigest real)
      ((generate real prepared [digestTx.getDigest real]).getLastD []) = true ∧
    OnlyLeaf real [digestTx.getDigest real] (digestTx.getDigest real) siblings.tail ∧
    ∃ j < maxMerkleLeaves, (generate real prepared [digestTx.getDigest real]).getD j [] = digestTx.getDigest real := by
  rw [getDigest_edge]
  have hh : Hashing real := ⟨Sha256.length_hash, tableAgrees_real⟩
  have hd : ∀ d ∈ [edgeNode 0], d.length = 32 := by decide +kernel
  have haccept : isValidSiblings real ((false, edgeNode 0) :: edgePath 0 12) (edgeNode 0)
      ((generate real prepared [edgeNode 0]).getLastD []) = true := by
    have hroot : rootOf real [edgeNode 0] = edgeNode 12 := nodeAt_edge (Nat.le_refl 12)
    rw [getLastD_generate tableAgrees_real length_prepared, hroot, isValidSiblings, foldl_edgePath (Nat.le_refl 12)]
    decide +kernel
  exact ⟨_, rfl, haccept, onlyLeaf_edge,
    (siblings_sound hh length_prepared hd haccept noCollisionOn_edge).1 ⟨rfl, by decide +kernel⟩⟩

/-- The root itself is accepted as a value of the tree, by a list of one entry; and a proof
without entries is read. -/
theorem siblings_unsound : Function.Injective longHash.sha256 ∧ TableAgrees longHash ∧
    (∃ root, (generate longHash prepared []).getLast? = some root ∧
      isValidSiblings longHash [(false, root)] root root = true ∧
      ∀ j < maxMerkleLeaves, (generate longHash prepared []).getD j [] ≠ root) ∧
    isValidProof longHash ⟨[], []⟩ [1] = .error .undefined := by
  have hlong : (rootOf longHash []).length = 97 := by
    rw [rootOf, nodeAt_longHash]
    decide +kernel
  refine ⟨injective_longHash, tableAgrees_longHash, ⟨rootOf longHash [],
    getLast?_generate tableAgrees_longHash length_prepared [], ?_, fun j hj heq => ?_⟩, rfl⟩
  · exact isValidSiblings_self longHash (fun hnil => by rw [hnil] at hlong; cases hlong) false
  · have hleaf := leaf_generate longHash [] (by rw [length_prepared]; decide) hj
    rw [heq] at hleaf
    rw [hleaf] at hlong
    cases hlong

end MerkleTree

end GruutMerger
