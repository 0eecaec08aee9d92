import GruutMerger.Env
import GruutMerger.Lib.HeapTree

/-!
# Merkle tree over transaction digests

A vector of `merkleTreeSize` nodes, leaves first, in which every pair
of nodes has its parent at the next free place. Parents of all-padding subtrees
come from a table.
-/
namespace GruutMerger

open ByteText

variable (env : Env)

namespace MerkleTree

/-- `HASH_LOOKUP_B64`: the two children, then their parent. -/
def hashLookupB64 : List (String × String) :=
  [("AAAAAAAAAAAAAAAAAAAAAAAAAAAAAAAAAAAAAAAAAAAAAAAAAAAAAAAAAAAAAAAAAAAAAAAAAAAAAAAAAAAAAA==",
    "9aX9QtFqIDAnmO9u0wmXm0MAPSMg2fDo6pgxqSdZ+0s="),
   ("9aX9QtFqIDAnmO9u0wmXm0MAPSMg2fDo6pgxqSdZ+0v1pf1C0WogMCeY727TCZebQwA9IyDZ8OjqmDGpJ1n7Sw==",
    "21YRTgD91MH4XIkr81rJqJKJquyx69CpbN5ganSLXXE="),
   ("21YRTgD91MH4XIkr81rJqJKJquyx69CpbN5ganSLXXHbVhFOAP3UwfhciSvzWsmokomq7LHr0Kls3mBqdItdcQ==",
    "x4AJ/fB/xWoR8SI3BlijU6qlQu1j5ExLwV/0zRBaszw="),
   ("x4AJ/fB/xWoR8SI3BlijU6qlQu1j5ExLwV/0zRBaszzHgAn98H/FahHxIjcGWKNTqqVC7WPkTEvBX/TNEFqzPA==",
    "U22Yg38t0WWlXV7q6RSFlURy1W8kbfJWvzyuGTUqEjw="),
   ("U22Yg38t0WWlXV7q6RSFlURy1W8kbfJWvzyuGTUqEjxTbZiDfy3RZaVdXurpFIWVRHLVbyRt8la/PK4ZNSoSPA==",
    "nv3gUqoVQp+uBbrU0LHXxk2mTQPXoYVKWIwsuEMMDTA="),
   ("nv3gUqoVQp+uBbrU0LHXxk2mTQPXoYVKWIwsuEMMDTCe/eBSqhVCn64FutTQsdfGTaZNA9ehhUpYjCy4QwwNMA==",
    "2I3f7tQAqHVVlrIZQsFJfhFMMC5hGCkPkeZ3KXYEH6E="),
   ("2I3f7tQAqHVVlrIZQsFJfhFMMC5hGCkPkeZ3KXYEH6HYjd/u1ACodVWWshlCwUl+EUwwLmEYKQ+R5ncpdgQfoQ==",
    "h+sN26V+NfbShmc4AqSvWXXiJQbHz0xku2vl7hFSfyw="),
   ("h+sN26V+NfbShmc4AqSvWXXiJQbHz0xku2vl7hFSfyyH6w3bpX419tKGZzgCpK9ZdeIlBsfPTGS7a+XuEVJ/LA==",
    "JoRkdv1fxUpdQzhRZ8lRRPJkP1M8yFu50Wt4L419sZM="),
   ("JoRkdv1fxUpdQzhRZ8lRRPJkP1M8yFu50Wt4L419sZMmhGR2/V/FSl1DOFFnyVFE8mQ/UzzIW7nRa3gvjX2xkw==",
    "UG2GWC0lJAW4QAGHksrSvxJZ8e9apfiH4Tyy8AlPUeE="),
   ("UG2GWC0lJAW4QAGHksrSvxJZ8e9apfiH4Tyy8AlPUeFQbYZYLSUkBbhAAYeSytK/Elnx71ql+IfhPLLwCU9R4Q==",
    "//8K1+ZZdy+VNMGVyBXvxAFO8eHa7UQEwGOF0RGS6Ss="),
   ("//8K1+ZZdy+VNMGVyBXvxAFO8eHa7UQEwGOF0RGS6Sv//wrX5ll3L5U0wZXIFe/EAU7x4drtRATAY4XREZLpKw==",
    "bPBBJ9sFRBzYMxB6Ur6FKGiJDkMX5qAqtHaDqnWWQiA=")]

/-- `HASH_LOOKUP`, as `prepareLookUpTable` decodes it. -/
def hashLookup : List (Bytes × Bytes) :=
  hashLookupB64.map fun e => (env.base64.decode (ascii e.1), env.base64.decode (ascii e.2))

def makeParent (left right : Bytes) : Bytes :=
  match (hashLookup env).lookup (left ++ right) with
  | some parent => parent
  | none => env.sha256 (left ++ right)

/-- A tree object right after construction. -/
def prepared : List Bytes := List.replicate merkleTreeSize []

theorem length_prepared : prepared.length = merkleTreeSize := List.length_replicate

def dummyLeaf : Bytes := List.replicate 32 0

/-- The first two loops of `generate`: digests, then padding. -/
def putLeaves (tree digests : List Bytes) : List Bytes :=
  (List.range maxMerkleLeaves).foldl (fun m i => m.set i (digests.getD i dummyLeaf)) tree

/-- The last loop of `generate`, one parent at a time. -/
def putParent (tree : List Bytes) (i : Nat) : List Bytes :=
  tree.set (maxMerkleLeaves + i)
    (makeParent env (tree.getD (2 * i) []) (tree.getD (2 * i + 1) []))

def generate (tree digests : List Bytes) : List Bytes :=
  (List.range (maxMerkleLeaves - 1)).foldl (putParent env) (putLeaves tree digests)

@[simp] theorem length_putLeaves (tree digests : List Bytes) :
    (putLeaves tree digests).length = tree.length := HeapTree.length_foldl (fun _ _ => List.length_set) _ _

@[simp] theorem length_generate (tree digests : List Bytes) :
    (generate env tree digests).length = tree.length := by
  rw [generate, HeapTree.length_foldl (s := putParent env) (fun _ _ => List.length_set), length_putLeaves]

/-- Only hashing and base64 go into the tree. -/
theorem generate_congr {env env' : Env} (hs : env.sha256 = env'.sha256) (hb : env.base64 = env'.base64) :
    generate env = generate env' := by
  have hparent : putParent env = putParent env' := by
    funext tree i
    simp only [putParent, makeParent, hashLookup, hs, hb]
  funext tree digests
  simp only [generate, hparent]

theorem generate_eq_putParents (tree digests : List Bytes) : generate env tree digests =
    HeapTree.putParents (makeParent env) [] maxMerkleLeaves (maxMerkleLeaves - 1) (putLeaves tree digests) := rfl

/-- The leaves are the digests, filled up with padding. Digests beyond the last leaf
are not looked at. -/
theorem leaf_generate {tree : List Bytes} (digests : List Bytes) (hlen : maxMerkleLeaves ≤ tree.length) {j : Nat}
    (hj : j < maxMerkleLeaves) : (generate env tree digests).getD j [] = digests.getD j dummyLeaf := by
  rw [generate_eq_putParents, HeapTree.getD_putParents_of_lt _ _ _ _ _ (Or.inl hj), putLeaves,
    HeapTree.getD_foldl_set _ _ _ _ hlen, if_pos hj]

theorem paired_generate {tree : List Bytes} (digests : List Bytes) (hlen : merkleTreeSize ≤ tree.length) :
    HeapTree.Paired (makeParent env) maxMerkleLeaves fun j => (generate env tree digests).getD j [] := by
  rw [generate_eq_putParents]
  exact HeapTree.paired_putParents _ _ _ (by
    rw [length_putLeaves]
    rwa [merkleTreeSize, Nat.mul_comm] at hlen)

/-- What the tree held before does not matter. -/
theorem generate_eq_prepared {tree : List Bytes} (h : tree.length = merkleTreeSize) (digests : List Bytes) :
    generate env tree digests = generate env prepared digests := by
  have hprep := length_prepared
  have hle : maxMerkleLeaves ≤ merkleTreeSize := by
    rw [merkleTreeSize, maxMerkleLeaves]
    omega
  have hnode := (paired_generate env digests h.ge).eq_of_leaves (paired_generate env digests hprep.ge)
    fun j hj => by
      rw [leaf_generate env digests (by omega) hj, leaf_generate env digests (by omega) hj]
  refine List.ext_getElem (by simp [h, hprep]) fun j hj hj' => ?_
  have hat := hnode j (by
    rw [length_generate, h, merkleTreeSize] at hj
    omega)
  rwa [List.getD_eq_getElem _ _ hj, List.getD_eq_getElem _ _ hj'] at hat

theorem generate_take (tree digests : List Bytes) :
    generate env tree (digests.take maxMerkleLeaves) = generate env tree digests := by
  have hleaves : putLeaves tree (digests.take maxMerkleLeaves) = putLeaves tree digests := by
    refine List.foldl_ext _ _ _ fun m i hi => ?_
    rw [List.getD_eq_getElem?_getD, List.getElem?_take_of_lt (List.mem_range.mp hi), ← List.getD_eq_getElem?_getD]
  simp only [generate, hleaves]

end MerkleTree
end GruutMerger
