import GruutMerger.BlockRequests
import GruutMerger.MerkleProof
import GruutMerger.StoredBlocks

/-!
# Existence proofs

`getProof` finds the last saved block of a transaction, builds its tree again and
collects the siblings from the leaf up. The verifier, which folds the list
without knowing any places, gets back to the root.
-/
namespace GruutMerger

open ByteText KeyValue HeapTree MerkleTree

variable (env : Env)

/-- `json::size` -/
def Json.size : Json → Nat
  | .null => 0
  | .array xs => xs.length
  | .object fields => fields.length
  | _ => 1

/-- `Safe::parseJson` on a record; CBOR is no JSON text. -/
def Value.parse : Value → Json
  | .text s => parseJson env s
  | .dump j => j
  | .cbor _ => .null

/-- The loop of `getProof`: node index, offset in the level and start of the level, as the
source computes them; `none` where it clears the list. -/
def siblingsFrom (tree : List Bytes) : Nat → Nat → Nat → Nat → Nat → Option (List (Bool × Bytes))
  | 0, _, _, _, _ => some []
  | n + 1, i, nodeIdx, offset, size =>
    let sibling := if nodeIdx % 2 ≠ 0 then nodeIdx - 1 else nodeIdx + 1
    if tree.length ≤ sibling then none
    else
      let text := env.base64.encode (tree.getD sibling [])
      if text = [] then none
      else
        let size := if i ≠ 0 then size + maxMerkleLeaves / 2 ^ i else size
        (siblingsFrom tree n (i + 1) (size + offset / 2) (offset / 2) size).map
          ((decide (sibling % 2 ≠ 0), text) :: ·)

/-- `Storage::getProof`. The position is read before anything else, with `stoi`. Place -1
of an array would be read; every other negative one is out of range. -/
def Records.getProof (d : Records) (txidB64 : Bytes) : Except Failure Proof :=
  match stoi (d.getText .transaction (txidB64 ++ ascii "_mPos")) with
  | none => .error .std
  | some position =>
    let id := d.getText .transaction (txidB64 ++ ascii "_bID")
    let record := d.getValueByKey .transaction (id ++ ascii "_mtree")
    if id = [] then .ok ⟨[], []⟩
    else if record.isEmpty then .ok ⟨id, []⟩
    else
      let mtree := record.parse env
      let digests := (List.range mtree.size).map fun i => env.base64.decode (Safe.getStringAt mtree i)
      let tree := generate env prepared digests
      let digest := Safe.getStringAt mtree (toUInt64 position)
      if position = -1 ∧ mtree.elements ≠ [] then .error .undefined
      else if digest = [] then .ok ⟨id, []⟩
      else
        match siblingsFrom env tree merkleTreeHeight 0 position.toNat position.toNat maxMerkleLeaves with
        | none => .ok ⟨id, []⟩
        | some siblings => .ok ⟨id, (decide (position % 2 ≠ 0), digest) :: siblings⟩

variable {env}

theorem nodeAt_ne_nil (hne : ∀ b, env.sha256 b ≠ []) {digests : List Bytes} (hd : ∀ d ∈ digests, d ≠ []) (k i : Nat) :
    nodeAt env digests k i ≠ [] := by
  cases k with
  | succ k => exact hne _
  | zero =>
    change leafAt digests i ≠ []
    rw [leafAt, List.getD_eq_getElem?_getD]
    cases hget : (digests.take maxMerkleLeaves)[i]? with
    | none => exact List.cons_ne_nil _ _
    | some d => exact hd d (List.mem_of_mem_take (List.mem_of_getElem? hget))

/-- From node `q` of level `k` the loop collects a sibling for each of the next levels, and
the verifier goes up with them to the node above. -/
theorem siblingsFrom_spec (htable : TableAgrees env) (hne : ∀ b, env.sha256 b ≠ []) {digests : List Bytes}
    (hd : ∀ d ∈ digests, d ≠ []) {n k q : Nat} (hk : k + n ≤ merkleTreeHeight) (hq : q < 2 ^ (merkleTreeHeight - k)) :
    ∃ path, siblingsFrom env (generate env prepared digests) n k (levelStart merkleTreeHeight k + q) q
        (levelStart merkleTreeHeight (max k 1)) = some path ∧ path.length = n ∧
      (path.map fun s => (s.1, env.base64.decode s.2)).foldl (hashUp env) (nodeAt env digests k q) =
        nodeAt env digests (k + n) (q / 2 ^ n) := by
  induction n generalizing k q with
  | zero => exact ⟨[], rfl, rfl, by simp⟩
  | succ n ih =>
    have hlt : k < merkleTreeHeight := by omega
    have hhalf := two_pow_sub hlt
    have heven := levelStart_even (Nat.le_of_lt hlt)
    have hneighbour : neighbour q < 2 ^ (merkleTreeHeight - k) := by
      unfold neighbour
      split <;> omega
    have hplace : (if (levelStart merkleTreeHeight k + q) % 2 ≠ 0 then levelStart merkleTreeHeight k + q - 1
        else levelStart merkleTreeHeight k + q + 1) = levelStart merkleTreeHeight k + neighbour q := by
      unfold neighbour
      split <;> split <;> omega
    have hinside : ¬(generate env prepared digests).length ≤ levelStart merkleTreeHeight k + neighbour q := by
      have hbound := levelStart_add_lt (Nat.le_of_lt hlt) hneighbour
      have hsize : merkleTreeSize = 2 * 2 ^ merkleTreeHeight - 1 := rfl
      rw [length_generate, length_prepared, hsize]
      omega
    have hnode := node_generate htable length_prepared digests (Nat.le_of_lt hlt) hneighbour
    have htext : env.base64.encode (nodeAt env digests k (neighbour q)) ≠ [] := by
      rw [Ne, env.base64.encode_eq_nil]
      exact nodeAt_ne_nil hne hd k _
    have hflag : decide ((levelStart merkleTreeHeight k + neighbour q) % 2 ≠ 0) = decide (q % 2 = 0) := by
      rw [decide_eq_decide]
      unfold neighbour
      split <;> omega
    -- the start of the next level; the first one is never added to
    have hstart : (if k ≠ 0 then levelStart merkleTreeHeight (max k 1) + maxMerkleLeaves / 2 ^ k
        else levelStart merkleTreeHeight (max k 1)) = levelStart merkleTreeHeight (k + 1) := by
      by_cases h0 : k = 0
      · subst h0
        rfl
      · rw [if_pos h0, show max k 1 = k by omega, maxMerkleLeaves_eq,
          Nat.pow_div (Nat.le_of_lt hlt) (by decide), levelStart_succ hlt]
    obtain ⟨path, hpath, hlength, hfold⟩ := ih (k := k + 1) (q := q / 2) (by omega) (by omega)
    rw [show max (k + 1) 1 = k + 1 by omega] at hpath
    refine ⟨(decide (q % 2 = 0), env.base64.encode (nodeAt env digests k (neighbour q))) :: path, ?_, by simp [hlength], ?_⟩
    · simp only [siblingsFrom, hplace, hinside, if_false, hnode, htext, hflag, hstart, hpath, Option.map_some]
    · have hstep := combine_perfect (hashPair env) (leafAt digests) k q
      rw [List.map_cons, List.foldl_cons, env.base64.decode_encode, hashUp_eq]
      rw [hashUp_eq] at hfold
      rw [show combine (hashPair env) (nodeAt env digests k q) (decide (q % 2 = 0), nodeAt env digests k (neighbour q)) =
        nodeAt env digests (k + 1) (q / 2) from hstep, hfold, Nat.div_div_eq_div_mul, ← Nat.pow_succ',
        show k + 1 + n = k + (n + 1) by omega]

/-- The digests in the record of a tree. -/
def digestTexts (env : Env) (digests : List Bytes) : Json := .array (digests.map fun d => .string (env.base64.encode d))

theorem getStringAt_digestTexts (env : Env) {digests : List Bytes} {i : Nat} {d : Bytes} (h : digests[i]? = some d) :
    Safe.getStringAt (digestTexts env digests) i = env.base64.encode d := by
  simp [Safe.getStringAt, digestTexts, Json.elements, h, Safe.getString]

theorem decode_digestTexts (digests : List Bytes) : (List.range (digestTexts env digests).size).map
    (fun i => env.base64.decode (Safe.getStringAt (digestTexts env digests) i)) = digests := by
  have hsize : (digestTexts env digests).size = digests.length := by simp [digestTexts, Json.size]
  refine List.ext_getElem (by simp [hsize]) fun i hi hi' => ?_
  have hget := getStringAt_digestTexts env (List.getElem?_eq_getElem hi')
  rw [List.getElem_map, List.getElem_range, hget, env.base64.decode_encode]

namespace Storage

theorem getText_body (env : Env) (d : Records) (owner : Bytes) (f : BodyField) :
    d.getText .transaction (env.base64.encode owner ++ f.suffix) = ((d.bodyAt env owner f).getD (.text [])).toText := rfl

/-- A block with a tree that has the digests of its transactions as leaves. -/
structure Leafed (env : Env) (b : Block) : Prop where
  count : b.transactions.length ≤ maxMerkleLeaves
  leaves : b.merkleTreeNode.take b.transactions.length = b.transactions.map (·.getDigest env)

structure Provable (env : Env) (b : Block) : Prop extends Leafed env b where
  id_ne : b.blockId ≠ []

theorem treeValue_of_leafed {b : Block} (h : Leafed env b) :
    treeValue env b = .dump (digestTexts env (b.transactions.map (·.getDigest env))) := by
  rw [treeValue, h.leaves]
  rfl

/-- A tree that was made from the transactions has their digests as leaves. -/
theorem Leafed.of_tree {b : Block} (hcount : b.transactions.length ≤ maxMerkleLeaves)
    (htree : b.merkleTreeNode = Block.calcMerkleTreeNode env b.transactions) : Leafed env b := by
  exact ⟨hcount, htree ▸ Block.take_calcMerkleTreeNode env hcount⟩

/-- The proof for a place among the digests of a tree record. -/
theorem getProof_of_place (htable : TableAgrees env) (hne : ∀ b, env.sha256 b ≠ []) {d : Records} {text id : Bytes}
    {digests : List Bytes} {i : Nat} {digest : Bytes} (hcount : digests.length ≤ maxMerkleLeaves)
    (hdigests : ∀ x ∈ digests, x ≠ [])
    (hposition : stoi (d.getText .transaction (text ++ ascii "_mPos")) = some (i : Int))
    (hid : d.getText .transaction (text ++ ascii "_bID") = id) (hid_ne : id ≠ [])
    (hrecord : d.getValueByKey .transaction (id ++ ascii "_mtree") = .dump (digestTexts env digests))
    (hdigest : digests[i]? = some digest) :
    ∃ flag path, d.getProof env text = .ok ⟨id, (flag, env.base64.encode digest) :: path⟩ ∧ path.length = 12 ∧
      (path.map fun s => (s.1, env.base64.decode s.2)).foldl (hashUp env) digest = rootOf env digests := by
  have hlt : i < maxMerkleLeaves := Nat.lt_of_lt_of_le (List.getElem?_eq_some_iff.mp hdigest).1 hcount
  have hword : toUInt64 (i : Int) = i := by
    unfold toUInt64
    unfold maxMerkleLeaves at hlt
    omega
  have htext : Safe.getStringAt (digestTexts env digests) (toUInt64 (i : Int)) = env.base64.encode digest := by
    rw [hword]
    exact getStringAt_digestTexts env hdigest
  have hencoded : env.base64.encode digest ≠ [] := by
    rw [Ne, env.base64.encode_eq_nil]
    exact hdigests digest (List.mem_of_getElem? hdigest)
  obtain ⟨path, hpath, hlength, hfold⟩ := siblingsFrom_spec htable hne hdigests (n := 12) (k := 0) (q := i)
    (Nat.le_refl 12) hlt
  have hleaf : nodeAt env digests 0 i = digest := by
    change leafAt _ i = _
    rw [leafAt, List.getD_eq_getElem?_getD, List.getElem?_take_of_lt hlt, hdigest, Option.getD_some]
  rw [levelStart_zero, Nat.zero_add] at hpath
  refine ⟨decide ((i : Int) % 2 ≠ 0), path, ?_, hlength, ?_⟩
  · have hstart : levelStart merkleTreeHeight (max 0 1) = maxMerkleLeaves := by decide
    rw [hstart] at hpath
    have hplace : ¬(i : Int) = -1 := by omega
    simp only [Records.getProof, hposition, hid, hid_ne, if_false, hrecord, Value.isEmpty, Value.parse,
      decode_digestTexts, htext, hplace, false_and, hencoded, Int.toNat_natCast, Bool.false_eq_true, hpath,
      show merkleTreeHeight = 12 from rfl]
  · have hzero : i / 2 ^ 12 = 0 := Nat.div_eq_of_lt hlt
    rw [← hleaf, hfold, hzero]
    rfl

/-- The records of a transaction at place `i`, as `getProof` reads them. -/
theorem stoi_position {d : Records} {txid : Bytes} {i : Nat} (hi : i < maxMerkleLeaves)
    (h : d.bodyAt env txid .position = some (.text (decimal i))) :
    stoi (d.getText .transaction (env.base64.encode txid ++ ascii "_mPos")) = some (i : Int) := by
  have htext := getText_body env d txid .position
  rw [h] at htext
  rw [show ascii "_mPos" = BodyField.suffix .position from rfl, htext]
  exact stoi_decimal i (by unfold maxMerkleLeaves at hi; omega)

theorem getText_block {d : Records} {txid id : Bytes} (h : d.bodyAt env txid .block = some (.text id)) :
    d.getText .transaction (env.base64.encode txid ++ ascii "_bID") = id := by
  have htext := getText_body env d txid .block
  rw [h] at htext
  exact htext

theorem getValue_tree {d : Records} {b : Block} {v : Value} (h : d.bodyAt env b.blockId .tree = some v) :
    d.getValueByKey .transaction (b.getBlockIdB64 env ++ ascii "_mtree") = v := by
  change (d.bodyAt env b.blockId .tree).getD (.text []) = _
  rw [h, Option.getD_some]

theorem digests_ne_nil (hne : ∀ b, env.sha256 b ≠ []) (txs : List Transaction) :
    ∀ x ∈ txs.map (·.getDigest env), x ≠ [] := by
  intro x hx
  obtain ⟨t, _, rfl⟩ := List.mem_map.mp hx
  exact hne _

/-- The proof of a transaction whose records lead to a block. -/
theorem getProof_of_records (htable : TableAgrees env) (hne : ∀ b, env.sha256 b ≠ []) {d : Records} {b : Block}
    (hb : Provable env b) {i : Nat} {tx : Transaction} (hi : b.transactions[i]? = some tx)
    (hpos : d.bodyAt env tx.id .position = some (.text (decimal i)))
    (hblock : d.bodyAt env tx.id .block = some (.text (b.getBlockIdB64 env)))
    (htree : d.bodyAt env b.blockId .tree = some (treeValue env b)) :
    ∃ flag path, d.getProof env (env.base64.encode tx.id) =
        .ok ⟨b.getBlockIdB64 env, (flag, env.base64.encode (tx.getDigest env)) :: path⟩ ∧ path.length = 12 ∧
      (path.map fun s => (s.1, env.base64.decode s.2)).foldl (hashUp env) (tx.getDigest env) =
        rootOf env (b.transactions.map (·.getDigest env)) := by
  have hlt : i < maxMerkleLeaves := Nat.lt_of_lt_of_le (List.getElem?_eq_some_iff.mp hi).1 hb.count
  refine getProof_of_place htable hne (by simpa using hb.count) (digests_ne_nil hne _) (stoi_position hlt hpos)
    (getText_block hblock) ?_ ((getValue_tree htree).trans (treeValue_of_leafed hb.toLeafed)) (by simp [hi])
  exact Block.getBlockIdB64_ne env hb.id_ne

/-- The verifier accepts a list that folds to the root. -/
theorem isValidProof_of_fold (hne : ∀ b, env.sha256 b ≠ []) {id : Bytes} {flag : Bool} {path : List (Bool × Bytes)}
    {digest : Bytes} (hdigest : digest ≠ []) (hpath : path ≠ []) {root : Bytes}
    (h : (path.map fun s => (s.1, env.base64.decode s.2)).foldl (hashUp env) digest = root) :
    isValidProof env ⟨id, (flag, env.base64.encode digest) :: path⟩ (env.base64.encode root) = .ok true := by
  have hroot : root ≠ [] := by
    rw [← List.dropLast_concat_getLast hpath, List.map_append, List.foldl_append] at h
    rw [← h]
    exact hne _
  simp [isValidProof, isValidSiblingsB64, isValidSiblings, env.base64.encode_eq_nil, env.base64.decode_encode, hdigest,
    hroot, h]

/-- The records of a transaction lead to the last block that has it. -/
theorem SaveRun.getProof (htable : TableAgrees env) (hne : ∀ b, env.sha256 b ≠ []) {s s' : Storage}
    {front back : List Block} {b : Block} (hc : s.Clean) (run : SaveRun env s (front ++ b :: back) s')
    (hid : ((front ++ b :: back).map Block.blockId).Nodup) (hb : Provable env b) {txid : Bytes}
    (hin : txid ∈ b.getTxIds) (hlast : ∀ a ∈ back, txid ∉ a.getTxIds) :
    ∃ (i : Nat) (tx : Transaction) (flag : Bool) (path : List (Bool × Bytes)),
      b.transactions[i]? = some tx ∧ tx.id = txid ∧
      s'.disk.getProof env (env.base64.encode txid) =
        .ok ⟨b.getBlockIdB64 env, (flag, env.base64.encode (tx.getDigest env)) :: path⟩ ∧ path.length = 12 ∧
      (path.map fun s => (s.1, env.base64.decode s.2)).foldl (hashUp env) (tx.getDigest env) =
        rootOf env (b.transactions.map (·.getDigest env)) := by
  obtain ⟨t, ht, rfl⟩ := List.mem_map.mp hin
  obtain ⟨j, hj⟩ := List.getElem?_of_mem ht
  obtain ⟨w, hw, hpos⟩ := run.bodyAt_last env hc ((position_mem env).mpr ⟨j, t, hj, rfl, rfl⟩) fun a ha v hv => by
    obtain ⟨i, tx, hi, hidtx, _⟩ := (position_mem env).mp hv
    exact hlast a ha (hidtx ▸ List.mem_map_of_mem (List.mem_of_getElem? hi))
  obtain ⟨i, tx, hi, hidtx, rfl⟩ := (position_mem env).mp hw
  obtain ⟨w, hw, hblock⟩ := run.bodyAt_last env hc ((block_mem env).mpr ⟨hin, rfl⟩) fun a ha v hv =>
    hlast a ha ((block_mem env).mp hv).1
  obtain ⟨_, rfl⟩ := (block_mem env).mp hw
  obtain ⟨w, hw, htree⟩ := run.bodyAt_last env hc ((tree_mem env).mpr ⟨rfl, rfl⟩) fun a ha v hv => by
    rw [List.map_append, List.map_cons, List.nodup_append, List.nodup_cons] at hid
    exact hid.2.1.1 (List.mem_map.mpr ⟨a, ha, ((tree_mem env).mp hv).1.symm⟩)
  obtain ⟨_, rfl⟩ := (tree_mem env).mp hw
  rw [← hidtx] at hpos hblock
  obtain ⟨flag, path, hproof, hrest⟩ := getProof_of_records htable hne hb hi hpos hblock htree
  exact ⟨i, tx, flag, path, hi, hidtx, hidtx ▸ hproof, hrest⟩

/-- Every transaction of a saved block has a proof: it names the last block that has the
transaction, starts with the digest at its place, and is accepted against the root
of that block. -/
theorem getProof_saved (htable : TableAgrees env) (hne : ∀ b, env.sha256 b ≠ []) {s s' : Storage} {bs : List Block}
    (hc : s.Clean) (run : SaveRun env s bs s') (hid : (bs.map Block.blockId).Nodup) (hb : ∀ b ∈ bs, Provable env b)
    {txid : Bytes} (hin : ∃ b ∈ bs, txid ∈ b.getTxIds) :
    ∃ (front : List Block) (b : Block) (back : List Block) (proof : Proof), bs = front ++ b :: back ∧
      txid ∈ b.getTxIds ∧ (∀ a ∈ back, txid ∉ a.getTxIds) ∧
      s'.disk.getProof env (env.base64.encode txid) = .ok proof ∧ proof.blockIdB64 = b.getBlockIdB64 env ∧
      proof.siblings.length = 13 ∧
      (∃ (i : Nat) (tx : Transaction), b.transactions[i]? = some tx ∧ tx.id = txid ∧
        proof.siblings.head?.map Prod.snd = some (env.base64.encode (tx.getDigest env))) ∧
      isValidProof env proof (env.base64.encode ((Block.calcMerkleTreeNode env b.transactions).getLastD [])) = .ok true := by
  obtain ⟨front, b, back, rfl, hmem, hlast⟩ := exists_last hin
  obtain ⟨i, tx, flag, path, hi, hidtx, hproof, hlength, hfold⟩ :=
    run.getProof htable hne hc hid (hb b (by simp)) hmem hlast
  have hroot : (Block.calcMerkleTreeNode env b.transactions).getLastD [] =
      rootOf env (b.transactions.map (·.getDigest env)) := getLastD_generate htable length_prepared _
  refine ⟨front, b, back, _, rfl, hmem, hlast, hproof, rfl, by simp [hlength], ⟨i, tx, hi, hidtx, rfl⟩, ?_⟩
  rw [hroot]
  exact isValidProof_of_fold hne (hne _) (fun hnil => by rw [hnil] at hlength; cases hlength) hfold

end Storage

namespace Sample

/-- A block of one transaction, with a tree of real hashes. -/
def treeBlock (id : Bytes) : Block :=
  { block 0 id [] [] 1 [good 1] [digestTx] with merkleTreeNode := treeOf real [digestTx] }

theorem real_ne_nil (b : Bytes) : real.sha256 b ≠ [] := fun h => by
  have hlen := Sha256.length_hash b
  rw [show Sha256.hash b = [] from h] at hlen
  cases hlen

theorem treeBlock_tree (id : Bytes) :
    (treeBlock id).merkleTreeNode = Block.calcMerkleTreeNode real (treeBlock id).transactions := by
  simp only [treeBlock, block, treeOf_eq]

theorem treeBlock_provable : Storage.Provable real (treeBlock [1]) :=
  ⟨.of_tree (by decide) (treeBlock_tree [1]), by decide⟩

theorem treeBlock_saved : ∃ s', Storage.SaveRun real Storage.empty [treeBlock [1]] s' := by
  have hrun : ([treeBlock [1]].foldlM (Storage.trySave real) Storage.empty).isSome = true := by decide +kernel
  obtain ⟨s', hs'⟩ := Option.isSome_iff_exists.mp hrun
  exact ⟨s', Storage.saveRun_of_trySave _ hs'⟩

end Sample

open Sample in
theorem Storage.getProof_saved_one : ∃ s' proof, SaveRun real empty [treeBlock [1]] s' ∧
    s'.disk.getProof real (real.base64.encode digestTx.id) = .ok proof ∧ proof.siblings.length = 13 := by
  obtain ⟨s', hrun⟩ := treeBlock_saved
  have hclean : empty.Clean := fun _ _ => rfl
  have hin : ∃ b ∈ [treeBlock [1]], digestTx.id ∈ b.getTxIds := ⟨treeBlock [1], by simp, List.mem_singleton.mpr rfl⟩
  obtain ⟨_, _, _, proof, _, _, _, hproof, _, hlength, _⟩ := getProof_saved tableAgrees_real real_ne_nil hclean hrun
    (by decide) (by simpa using treeBlock_provable) hin
  exact ⟨s', proof, hrun, hproof, hlength⟩

open Sample in
/-- A block without an id is saved, and its transaction has an empty proof. -/
theorem Storage.getProof_no_id : TableAgrees real ∧ ∃ s', SaveRun real empty [treeBlock []] s' ∧
    (treeBlock []).merkleTreeNode = Block.calcMerkleTreeNode real (treeBlock []).transactions ∧
    (treeBlock []).getTxIds = [digestTx.id] ∧
    s'.disk.getProof real (real.base64.encode digestTx.id) = .ok ⟨[], []⟩ := by
  have hrun : ([treeBlock []].foldlM (trySave real) empty).any (fun s => Fallible.okAnd (fun p => decide (p = ⟨[], []⟩))
      (s.disk.getProof real (real.base64.encode digestTx.id))) = true := by decide +kernel
  obtain ⟨s', hs', htest⟩ := (Option.any_eq_true _ _).mp hrun
  obtain ⟨proof, hproof, htest⟩ := Fallible.okAnd_eq_true.mp htest
  rw [of_decide_eq_true htest] at hproof
  exact ⟨tableAgrees_real, s', saveRun_of_trySave _ hs', treeBlock_tree [], rfl, hproof⟩

/-- MSG_RES_CHECK for a proof. No receivers are set. -/
def Merger.checkMessage (env : Env) (now : Nat) (proof : Proof) : OutputMsgEntry where
  type := .resCheck
  body := .object [("mID", .string (env.base64.encode env.myId)), ("time", .string (decimal now)),
    ("blockID", .string proof.blockIdB64), ("proof", .array (proof.siblings.map fun s =>
      .object [("side", .boolean s.1), ("val", .string s.2)]))]
  receivers := []

def Merger.handleMsgReqCheck (env : Env) (now : Nat) (m : Merger) (body : Json) : Except Failure OutputMsgEntry := do
  let proof ← m.chain.layered.storage.disk.getProof env (Safe.getStringOf body "txid")
  return checkMessage env now proof

namespace Storage

/-- Without a record of its position a transaction has no proof, and asking for one throws. -/
theorem getProof_missing {d : Records} {txidB64 : Bytes}
    (h : d.getValueByKey .transaction (txidB64 ++ ascii "_mPos") = .text []) : d.getProof env txidB64 = .error .std := by
  have hnone : stoi (d.getText .transaction (txidB64 ++ ascii "_mPos")) = none := by
    rw [Records.getText, h]
    rfl
  simp only [Records.getProof, hnone]

/-- Only a transaction id in front makes a position key. -/
theorem owner_of_position_key {b : Block} {e : Entry} (he : e ∈ bodyEntries env b) {text : Bytes}
    (hkey : e.key = text ++ ascii "_mPos") : ∃ txid ∈ b.getTxIds, text = env.base64.encode txid := by
  rw [bodyEntries_eq] at he
  obtain ⟨⟨owner, f, v⟩, hr, rfl⟩ := List.mem_map.mp he
  have hsame : env.base64.encode owner ++ f.suffix = text ++ ascii "_mPos" := hkey
  -- the suffixes differ in their last letters
  have hends : ∀ g : BodyField, g.suffix ≠ [] ∧ (g.suffix.getLast? = (ascii "_mPos").getLast? → g = .position) := by
    intro g
    cases g <;> decide
  have hfield : f = .position := by
    have hend := congrArg List.getLast? hsame
    rw [List.getLast?_append_of_ne_nil _ (hends f).1, List.getLast?_append_of_ne_nil _ (by decide)] at hend
    exact (hends f).2 hend
  subst hfield
  obtain ⟨i, tx, hi, hid, _⟩ := (position_mem env).mp hr
  exact ⟨owner, hid ▸ List.mem_map_of_mem (List.mem_of_getElem? hi), (List.append_cancel_right hsame).symm⟩

theorem SaveRun.getProof_missing {s' : Storage} {bs : List Block} (run : SaveRun env Storage.empty bs s') {text : Bytes}
    (h : ∀ b ∈ bs, ∀ txid ∈ b.getTxIds, text ≠ env.base64.encode txid) : s'.disk.getProof env text = .error .std := by
  refine Storage.getProof_missing ?_
  rw [Records.getValueByKey, (run.disk_write env fun _ _ => rfl).2 .transaction (by decide)]
  have hnone : ∀ o ∈ bs.flatMap fun b => (entriesOn env b .transaction).map Entry.put,
      o.key ≠ getPrefix .transaction ++ (text ++ ascii "_mPos") := by
    intro o ho heq
    obtain ⟨b, hb, ho⟩ := List.mem_flatMap.mp ho
    obtain ⟨e, he, rfl⟩ := List.mem_map.mp ho
    rw [key_put, what_entriesOn env b .transaction e he] at heq
    obtain ⟨txid, hmem, htext⟩ := owner_of_position_key he (List.append_cancel_left heq)
    exact h b hb txid hmem htext
  rw [write_other _ _ _ hnone]
  rfl

/-- The blocks of a run with a transaction, each with the places of it, oldest first. -/
def placed (bs : List Block) (txid : Bytes) : List (Block × Nat) :=
  bs.flatMap fun b => (b.transactions.zipIdx.filter fun x => decide (x.1.id = txid)).map fun x => (b, x.2)

theorem mem_placed {bs : List Block} {txid : Bytes} {b : Block} {i : Nat} :
    (b, i) ∈ placed bs txid ↔ b ∈ bs ∧ ∃ tx, b.transactions[i]? = some tx ∧ tx.id = txid := by
  simp only [placed, List.mem_flatMap, List.mem_map, List.mem_filter, Prod.exists, List.mem_zipIdx_iff_getElem?,
    decide_eq_true_eq, Prod.mk.injEq]
  constructor
  · rintro ⟨a, ha, tx, j, ⟨htx, hid⟩, rfl, rfl⟩
    exact ⟨ha, tx, htx, hid⟩
  · rintro ⟨hb, tx, htx, hid⟩
    exact ⟨b, hb, tx, i, ⟨htx, hid⟩, rfl, rfl⟩

theorem placed_eq_nil {bs : List Block} {txid : Bytes} : placed bs txid = [] ↔ ∀ b ∈ bs, txid ∉ b.getTxIds := by
  rw [List.eq_nil_iff_forall_not_mem]
  constructor
  · intro h b hb hin
    obtain ⟨tx, htx, hid⟩ := List.mem_map.mp hin
    obtain ⟨i, hi⟩ := List.getElem?_of_mem htx
    exact h (b, i) (mem_placed.mpr ⟨hb, tx, hi, hid⟩)
  · rintro h ⟨b, i⟩ hp
    obtain ⟨hb, tx, htx, hid⟩ := mem_placed.mp hp
    exact h b hb (List.mem_map.mpr ⟨tx, List.mem_of_getElem? htx, hid⟩)

/-- The records of one field of a transaction, block by block. -/
theorem filter_txRecords (env : Env) {f : BodyField} (txid : Bytes) (value : Block × Nat → Value)
    (h : ∀ b x, ((txRecords env b x).filter fun r => decide (r.owner = txid ∧ r.field = f)) =
      if x.1.id = txid then [⟨txid, f, value (b, x.2)⟩] else [])
    (hf : f ≠ .tree ∧ f ≠ .count) (bs : List Block) :
    ((bs.flatMap (bodyRecords env)).filter fun r => decide (r.owner = txid ∧ r.field = f)) =
      (placed bs txid).map fun p => ⟨txid, f, value p⟩ := by
  rw [List.filter_flatMap, placed, List.map_flatMap]
  refine List.flatMap_congr fun b _ => ?_
  have hblock : ∀ xs : List (Transaction × Nat),
      ((xs.flatMap (txRecords env b)).filter fun r => decide (r.owner = txid ∧ r.field = f)) =
        (xs.filter fun x => decide (x.1.id = txid)).map fun x => ⟨txid, f, value (b, x.2)⟩ := by
    intro xs
    induction xs with
    | nil => rfl
    | cons x xs ih =>
      rw [List.flatMap_cons, List.filter_append, h, ih]
      by_cases hx : x.1.id = txid <;> simp [hx]
  rw [bodyRecords, List.filter_append, hblock, List.map_map]
  simp [hf.1.symm, hf.2.symm]

theorem filter_treeRecords (id : Bytes) (bs : List Block) :
    ((bs.flatMap (bodyRecords env)).filter fun r => decide (r.owner = id ∧ r.field = .tree)) =
      (bs.filter fun b => decide (b.blockId = id)).map fun b => ⟨id, .tree, treeValue env b⟩ := by
  have hblock (b : Block) : ((bodyRecords env b).filter fun r => decide (r.owner = id ∧ r.field = .tree)) =
      if b.blockId = id then [⟨id, .tree, treeValue env b⟩] else [] := by
    have htxs : ((b.transactions.zipIdx.flatMap (txRecords env b)).filter
        fun r => decide (r.owner = id ∧ r.field = .tree)) = [] := by
      simp only [List.filter_eq_nil_iff, List.mem_flatMap, decide_eq_true_eq]
      rintro r ⟨x, _, hr⟩ ⟨_, hfield⟩
      simp only [txRecords, List.mem_cons, List.not_mem_nil, or_false] at hr
      rcases hr with rfl | rfl | rfl <;> cases hfield
    rw [bodyRecords, List.filter_append, htxs]
    by_cases hid : b.blockId = id <;> simp [hid]
  induction bs with
  | nil => rfl
  | cons b bs ih =>
    rw [List.flatMap_cons, List.filter_append, hblock, ih]
    by_cases hid : b.blockId = id <;> simp [hid]

section Run

variable {s' : Storage} {bs : List Block} (run : SaveRun env Storage.empty bs s')

include run

theorem SaveRun.position_at (txid : Bytes) : s'.disk.bodyAt env txid .position =
    (placed bs txid).getLast?.map fun p => .text (decimal p.2) := by
  have hrecords := filter_txRecords env (f := .position) txid (fun p => .text (decimal p.2))
    (fun b x => by by_cases hx : x.1.id = txid <;> simp [txRecords, hx]) (by decide) bs
  rw [run.bodyAt_eq env fun _ _ => rfl, hrecords, List.getLast?_map, Option.map_map]
  exact Option.or_none

theorem SaveRun.block_at (txid : Bytes) : s'.disk.bodyAt env txid .block =
    (placed bs txid).getLast?.map fun p => .text (p.1.getBlockIdB64 env) := by
  have hrecords := filter_txRecords env (f := .block) txid (fun p => .text (p.1.getBlockIdB64 env))
    (fun b x => by by_cases hx : x.1.id = txid <;> simp [txRecords, hx]) (by decide) bs
  rw [run.bodyAt_eq env fun _ _ => rfl, hrecords, List.getLast?_map, Option.map_map]
  exact Option.or_none

theorem SaveRun.tree_at (id : Bytes) : s'.disk.bodyAt env id .tree =
    (bs.filter fun b => decide (b.blockId = id)).getLast?.map (treeValue env) := by
  rw [run.bodyAt_eq env fun _ _ => rfl, filter_treeRecords, List.getLast?_map, Option.map_map]
  exact Option.or_none

end Run

/-- The query for a transaction can be answered: the last block with it has an id, and the
tree that is stored under this id reaches to its place. -/
def Found (bs : List Block) (txid : Bytes) : Prop := ∃ b i a, (placed bs txid).getLast? = some (b, i) ∧ b.blockId ≠ [] ∧
  (bs.filter fun c => decide (c.blockId = b.blockId)).getLast? = some a ∧ i < a.transactions.length

theorem getProof_no_digest {d : Records} {text id : Bytes} {digests : List Bytes} {i : Nat} (hi : i < 2 ^ 31)
    (hposition : stoi (d.getText .transaction (text ++ ascii "_mPos")) = some (i : Int))
    (hid : d.getText .transaction (text ++ ascii "_bID") = id) (hid_ne : id ≠ [])
    (hrecord : d.getValueByKey .transaction (id ++ ascii "_mtree") = .dump (digestTexts env digests))
    (hout : digests.length ≤ i) : d.getProof env text = .ok ⟨id, []⟩ := by
  have hword : toUInt64 (i : Int) = i := by
    unfold toUInt64
    omega
  have htext : Safe.getStringAt (digestTexts env digests) (toUInt64 (i : Int)) = [] := by
    rw [hword]
    simp [Safe.getStringAt, digestTexts, Json.elements, List.getD_eq_getElem?_getD, hout, Safe.getString]
  have hplace : ¬(i : Int) = -1 := by omega
  simp only [Records.getProof, hposition, hid, hid_ne, if_false, hrecord, Value.isEmpty, Value.parse, htext, hplace,
    false_and, if_true, Bool.false_eq_true]

theorem getProof_without_id {d : Records} {text : Bytes} {i : Int}
    (hposition : stoi (d.getText .transaction (text ++ ascii "_mPos")) = some i)
    (hid : d.getText .transaction (text ++ ascii "_bID") = []) : d.getProof env text = .ok ⟨[], []⟩ := by
  simp only [Records.getProof, hposition, hid, if_true]

/-- Whether a proof of a saved transaction has entries. -/
theorem SaveRun.getProof_iff (htable : TableAgrees env) (hne : ∀ b, env.sha256 b ≠ []) {s' : Storage} {bs : List Block}
    (run : SaveRun env Storage.empty bs s') (hb : ∀ b ∈ bs, Leafed env b) {txid : Bytes}
    (hin : ∃ b ∈ bs, txid ∈ b.getTxIds) :
    ∃ proof, s'.disk.getProof env (env.base64.encode txid) = .ok proof ∧ (proof.siblings ≠ [] ↔ Found bs txid) := by
  have hplaced : placed bs txid ≠ [] := by
    rw [Ne, placed_eq_nil]
    obtain ⟨b, hmem, htx⟩ := hin
    exact fun h => h b hmem htx
  obtain ⟨⟨b, i⟩, hlast⟩ : ∃ p, (placed bs txid).getLast? = some p := ⟨_, List.getLast?_eq_some_getLast hplaced⟩
  have hpos := run.position_at txid
  have hblock := run.block_at txid
  rw [hlast] at hpos hblock
  obtain ⟨hbs, tx, htx, _⟩ := mem_placed.mp (List.mem_of_getLast? hlast)
  have hi : i < maxMerkleLeaves := Nat.lt_of_lt_of_le (List.getElem?_eq_some_iff.mp htx).1 (hb b hbs).count
  have hstoi := stoi_position hi hpos
  have hid := getText_block hblock
  by_cases hnil : b.blockId = []
  · refine ⟨_, getProof_without_id hstoi (hid.trans ?_), iff_of_false (by simp) ?_⟩
    · rw [Block.getBlockIdB64, hnil, env.base64.encode_eq_nil]
    · rintro ⟨b', i', a, hlast', hne', _⟩
      rw [hlast] at hlast'
      cases hlast'
      exact hne' hnil
  · have hid_ne : b.getBlockIdB64 env ≠ [] := Block.getBlockIdB64_ne env hnil
    have hsame : bs.filter (fun c => decide (c.blockId = b.blockId)) ≠ [] :=
      List.ne_nil_of_mem (List.mem_filter.mpr ⟨hbs, decide_eq_true rfl⟩)
    obtain ⟨a, ha⟩ : ∃ a, (bs.filter fun c => decide (c.blockId = b.blockId)).getLast? = some a :=
      ⟨_, List.getLast?_eq_some_getLast hsame⟩
    have htree := run.tree_at b.blockId
    rw [ha] at htree
    have hleaf := hb a (List.mem_of_mem_filter (List.mem_of_getLast? ha))
    have hrecord := (getValue_tree htree).trans (treeValue_of_leafed hleaf)
    by_cases hlt : i < a.transactions.length
    · obtain ⟨flag, path, hproof, _⟩ := getProof_of_place htable hne (by simpa using hleaf.count) (digests_ne_nil hne _)
        hstoi hid hid_ne hrecord (by rw [List.getElem?_map, List.getElem?_eq_getElem hlt, Option.map_some])
      exact ⟨_, hproof, iff_of_true (List.cons_ne_nil _ _) ⟨b, i, a, hlast, hnil, ha, hlt⟩⟩
    · refine ⟨_, getProof_no_digest (by unfold maxMerkleLeaves at hi; omega) hstoi hid hid_ne hrecord
        (by simpa using hlt), iff_of_false (by simp) ?_⟩
      rintro ⟨b', i', a', hlast', _, ha', hlt'⟩
      rw [hlast] at hlast'
      cases hlast'
      rw [ha] at ha'
      cases ha'
      exact hlt hlt'

end Storage

/-- A query is answered as it should be exactly when a saved block has the transaction, the
last such block has an id, and the tree under this id reaches to the place of the
transaction. -/
theorem Merger.reqCheck_answered (htable : TableAgrees env) (hne : ∀ b, env.sha256 b ≠ []) {m : Merger}
    {bs : List Block} (run : Storage.SaveRun env Storage.empty bs m.chain.layered.storage)
    (hb : ∀ b ∈ bs, Storage.Leafed env b) (now : Nat) (body : Json) :
    (∃ reply siblings, m.handleMsgReqCheck env now body = .ok reply ∧ reply.type = .resCheck ∧
        reply.body.find "proof" = some (.array siblings) ∧
        (siblings = [] ↔ ¬∃ b ∈ bs, ∃ txid ∈ b.getTxIds, Safe.getStringOf body "txid" = env.base64.encode txid)) ↔
      ∃ txid, Safe.getStringOf body "txid" = env.base64.encode txid ∧ Storage.Found bs txid := by
  by_cases hin : ∃ b ∈ bs, ∃ txid ∈ b.getTxIds, Safe.getStringOf body "txid" = env.base64.encode txid
  · obtain ⟨b, hmem, txid, htx, htext⟩ := hin
    obtain ⟨proof, hproof, hfound⟩ := run.getProof_iff htable hne hb ⟨b, hmem, htx⟩
    have hreply : m.handleMsgReqCheck env now body = .ok (checkMessage env now proof) := by
      rw [handleMsgReqCheck, htext, hproof]
      rfl
    constructor
    · rintro ⟨reply, siblings, hok, _, hsiblings, hempty⟩
      rw [hreply] at hok
      cases hok
      cases hsiblings
      refine ⟨txid, htext, hfound.mp fun hnil => ?_⟩
      exact hempty.mp (by rw [hnil]; rfl) ⟨b, hmem, txid, htx, htext⟩
    · rintro ⟨txid', htext', hfound'⟩
      obtain rfl : txid' = txid := env.base64.encode_injective (htext'.symm.trans htext)
      refine ⟨_, _, hreply, rfl, rfl, iff_of_false ?_ (not_not_intro ⟨b, hmem, txid', htx, htext⟩)⟩
      rw [List.map_eq_nil_iff]
      exact hfound.mpr hfound'
  · have herror : m.handleMsgReqCheck env now body = .error .std := by
      rw [handleMsgReqCheck, run.getProof_missing fun b hmem txid htx htext => hin ⟨b, hmem, txid, htx, htext⟩]
      rfl
    refine iff_of_false ?_ ?_
    · rintro ⟨reply, siblings, hok, _⟩
      rw [herror] at hok
      cases hok
    · rintro ⟨txid, htext, b, i, a, hlast, _⟩
      obtain ⟨hmem, tx, htx, hid⟩ := Storage.mem_placed.mp (List.mem_of_getLast? hlast)
      exact hin ⟨b, hmem, txid, List.mem_map.mpr ⟨tx, List.mem_of_getElem? htx, hid⟩, htext⟩

namespace Sample

def checkBody (txidB64 : Bytes) : Json :=
  .object [("sender", .string (ascii "AAAAAAAAAAAA")), ("time", .string (ascii "1000")),
    ("dID", .string (ascii "AAAAAAAAAAAA")), ("txid", .string txidB64)]

end Sample

open Sample in
theorem Merger.reqCheck_answered_one : ∃ (m : Merger) (reply : OutputMsgEntry) (siblings : List Json),
    Storage.SaveRun real Storage.empty [treeBlock [1]] m.chain.layered.storage ∧
    m.handleMsgReqCheck real 1000 (checkBody (real.base64.encode digestTx.id)) = .ok reply ∧
    reply.body.find "proof" = some (.array siblings) ∧ siblings ≠ [] := by
  obtain ⟨s', hrun⟩ := treeBlock_saved
  let m : Merger := { initial with chain := ⟨initial.chain.pool, ⟨s', [], []⟩⟩ }
  have hleafed : ∀ b ∈ [treeBlock [1]], Storage.Leafed real b := by simpa using treeBlock_provable.toLeafed
  obtain ⟨reply, siblings, hreply, _, hproof, hempty⟩ := (reqCheck_answered tableAgrees_real real_ne_nil (m := m) hrun
    hleafed 1000 (checkBody (real.base64.encode digestTx.id))).mpr
    ⟨digestTx.id, rfl, treeBlock [1], 0, treeBlock [1], rfl, by decide, rfl, by decide⟩
  exact ⟨m, reply, siblings, hrun, hreply, hproof, fun hnil => hempty.mp hnil
    ⟨treeBlock [1], by simp, digestTx.id, List.mem_singleton.mpr rfl, rfl⟩⟩

open Sample in
/-- A query that passes the checks asks an empty storage for a transaction, and throws. -/
theorem Merger.reqCheck_unknown : Storage.SaveRun real Storage.empty [] initial.chain.layered.storage ∧
    MessageValidator.validate 1000 .reqCheck
      (checkBody (ascii "AAAAAAAAAAAAAAAAAAAAAAAAAAAAAAAAAAAAAAAAAAA=")) = .ok true ∧
    initial.handleMsgReqCheck real 1000
      (checkBody (ascii "AAAAAAAAAAAAAAAAAAAAAAAAAAAAAAAAAAAAAAAAAAA=")) = .error .std :=
  ⟨.nil _, by decide +kernel, rfl⟩

end GruutMerger
