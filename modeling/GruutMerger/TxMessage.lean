import GruutMerger.MessageValidator
import GruutMerger.Storage
import GruutMerger.TransactionPool

/-!
# A transaction message

What the transaction collector does with an `MSG_TX`: the duplicate checks, the
look-up of the requester, and the push into the transaction pool. Neither the
id nor the signature of the transaction is checked.
-/
namespace GruutMerger

open ByteText

variable (env : Env)

/-- The id is recorded with the block that holds the transaction. -/
def Records.isDuplicatedTx (d : Records) (txidB64 : Bytes) : Bool :=
  !(d.getValueByKey .transaction (txidB64 ++ ascii "_bID")).isEmpty

/-- `CustomLedgerManager::isValidTransaction`: each of the three ledgers answers true. -/
def isValidTransaction (_ : Transaction) : Bool := true

inductive TxVerdict where
  | forwarded | inPool | inStorage | unknownRequester | invalid
  /-- handed to `push`, with its answer -/
  | pushed (isNew : Bool)
  deriving DecidableEq

/-- The transaction that a body is read as, with its id of 32 bytes; the answer of
`setJson` is not looked at. -/
def readTx (body : Json) : Except Failure { tx : Transaction // tx.id.length = 32 } :=
  match h : Transaction.setJson env {} body with
  | .ok (_, tx) => .ok ⟨tx, Transaction.length_id_of_setJson env h⟩
  | .error e => .error e

/-- `TransactionCollector::handleMessage` -/
def handleTx (runnable : Bool) (d : Records) (p : TransactionPool) (body : Json) :
    Except Failure (TxVerdict × TransactionPool) := do
  if !runnable then
    return (.forwarded, p)
  let txidB64 := Safe.getStringOf body "txid"
  let newTxid := bytesToArray env 32 (env.base64.decode txidB64)
  if p.isDuplicated newTxid then
    return (.inPool, p)
  if d.isDuplicatedTx txidB64 then
    return (.inStorage, p)
  let tx ← readTx env body
  if (env.getCert (Safe.getBytesFromB64 env.base64 body "rID")).isEmpty then
    return (.unknownRequester, p)
  if isValidTransaction tx.1 then
    let r := p.push tx.1 tx.2
    return (.pushed r.1, r.2)
  return (.invalid, p)

theorem readTx_eq_ok {body : Json} {tx : { tx : Transaction // tx.id.length = 32 }}
    (h : readTx env body = .ok tx) : ∃ ok, Transaction.setJson env {} body = .ok (ok, tx.1) := by
  unfold readTx at h
  split at h
  · rename_i ok t ht
    cases h
    exact ⟨ok, ht⟩
  · cases h

theorem readTx_eq_of_setJson {body : Json} {ok : Bool} {tx : Transaction} (hid : tx.id.length = 32)
    (h : Transaction.setJson env {} body = .ok (ok, tx)) : readTx env body = .ok ⟨tx, hid⟩ := by
  unfold readTx
  split
  · rename_i heq
    rw [h] at heq
    cases heq
    rfl
  · rename_i heq
    rw [h] at heq
    cases heq

/-- A message leaves the pool as it is, or its transaction is handed to `push`. -/
theorem handleTx_cases {runnable : Bool} {d : Records} {p q : TransactionPool} {body : Json} {v : TxVerdict}
    (h : handleTx env runnable d p body = .ok (v, q)) :
    ((∀ b, v ≠ .pushed b) ∧ q = p) ∨ ∃ tx, readTx env body = .ok tx ∧ runnable = true ∧
      bytesToArray env 32 (env.base64.decode (Safe.getStringOf body "txid")) ∉ p.ids ∧
      d.isDuplicatedTx (Safe.getStringOf body "txid") = false ∧
      env.getCert (Safe.getBytesFromB64 env.base64 body "rID") ≠ [] ∧
      v = .pushed (p.push tx.1 tx.2).1 ∧ q = (p.push tx.1 tx.2).2 := by
  unfold handleTx at h
  simp only [Bool.not_eq_eq_eq_not, Bool.not_true] at h
  split at h
  · cases h
    exact Or.inl ⟨by simp, rfl⟩
  rename_i hrun
  split at h
  · cases h
    exact Or.inl ⟨by simp, rfl⟩
  rename_i hpool
  split at h
  · cases h
    exact Or.inl ⟨by simp, rfl⟩
  rename_i hstorage
  obtain ⟨tx, htx, h⟩ := Fallible.bind_eq_ok.mp h
  split at h
  · cases h
    exact Or.inl ⟨by simp, rfl⟩
  rename_i hcert
  simp only [isValidTransaction, if_true] at h
  cases h
  exact Or.inr ⟨tx, htx, by simpa using hrun, by simpa [TransactionPool.isDuplicated] using hpool,
    by simpa using hstorage, by simpa using hcert, rfl, rfl⟩

end GruutMerger
