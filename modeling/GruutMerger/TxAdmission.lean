import GruutMerger.BlockRecords
import GruutMerger.Connected
import GruutMerger.MergerRun
import GruutMerger.OwnBlocks

/-!
# Transactions that come a second time

A merger as a whole: transaction messages, block messages and block production
in any order. A transaction message is compared with the transaction pool and
with the records of saved blocks, but not with the unresolved blocks in between.
-/
namespace GruutMerger

open ByteText KeyValue Fallible

variable (env : Env) (maker : Maker) (hchain : env.myChainId.length = 8)

/-- The header of a saved block lists the id. -/
def Records.Holds (d : Records) (id : Bytes) : Prop :=
  ∃ blockId : Bytes,
    .string (env.base64.encode id) ∈ (d.getValueByKey .blockHeader (blockId ++ ascii "_txids")).parseAsArray

/-- Every id that a saved block lists is found by `isDuplicatedTx`. -/
def Records.Recorded (d : Records) : Prop :=
  ∀ id, d.Holds env id → d.isDuplicatedTx (env.base64.encode id) = true

namespace Storage

/-- Of the records of a header only that of the transaction ids reads as a list. -/
theorem parseAsArray_headerRecords {b : Block} {r : Bytes × Value} (hr : r ∈ headerRecords env b) {j : Json}
    (hj : j ∈ r.2.parseAsArray) : ∃ tx ∈ b.transactions, j = .string (env.base64.encode tx.id) := by
  simp only [headerRecords, List.mem_cons, List.not_mem_nil, or_false] at hr
  rcases hr with rfl | rfl | rfl | rfl | rfl | rfl | rfl | rfl | rfl | rfl | rfl | rfl
  all_goals simp only [Value.parseAsArray, Json.elements, List.not_mem_nil] at hj
  obtain ⟨tx, htx, rfl⟩ := List.mem_map.mp hj
  exact ⟨tx, htx, rfl⟩

/-- A saved block adds its own ids. -/
theorem holds_savedDisk {d : Records} {b : Block} {id : Bytes} (h : (savedDisk env d b).Holds env id) :
    id ∈ b.getTxIds ∨ d.Holds env id := by
  obtain ⟨blockId, hmem⟩ := h
  by_cases hnamed : ∃ o ∈ (entriesOn env b .blockHeader).map Entry.put,
      o.key = getPrefix .blockHeader ++ (blockId ++ ascii "_txids")
  · obtain ⟨o, ho, _, hvalue⟩ := write_named (d .blockHeader) _ _ hnamed
    obtain ⟨e, he, rfl⟩ := List.mem_map.mp ho
    obtain ⟨r, hr, rfl⟩ := List.mem_map.mp he
    have hread : (savedDisk env d b).getValueByKey .blockHeader (blockId ++ ascii "_txids") = r.2 := by
      rw [Records.getValueByKey, savedDisk, hvalue]
      rfl
    rw [hread] at hmem
    obtain ⟨tx, htx, heq⟩ := parseAsArray_headerRecords env hr hmem
    obtain rfl := env.base64.encode_injective (Json.string.inj heq)
    exact Or.inl (List.mem_map_of_mem htx)
  · refine Or.inr ⟨blockId, ?_⟩
    rwa [Records.getValueByKey, savedDisk, write_other _ _ _ fun o ho hk => hnamed ⟨o, ho, hk⟩] at hmem

end Storage

theorem Records.isDuplicatedTx_eq_true {d : Records} {id : Bytes} :
    d.isDuplicatedTx (env.base64.encode id) = true ↔ ∃ v, d.bodyAt env id .block = some v ∧ v.isEmpty = false := by
  simp only [isDuplicatedTx, getValueByKey, bodyAt, Storage.bodyKey, Storage.BodyField.suffix]
  cases d .transaction (Storage.getPrefix .transaction ++ (env.base64.encode id ++ ascii "_bID")) with
  | none => simp [Value.isEmpty]
  | some v => simp

/-- The records only look at two databases. -/
theorem Records.Recorded.congr {d d' : Records} (h : d.Recorded env) (hheader : d' .blockHeader = d .blockHeader)
    (htx : d' .transaction = d .transaction) : d'.Recorded env := by
  intro id hid
  simp only [Holds, isDuplicatedTx, getValueByKey, hheader, htx] at hid ⊢
  exact h id hid

/-- A saved block with an id of its own leaves its id with each of its transactions. -/
theorem Records.Recorded.savedDisk {d : Records} (h : d.Recorded env) {b : Block} (hid : b.blockId ≠ []) :
    (Storage.savedDisk env d b).Recorded env := by
  intro id hheld
  rw [isDuplicatedTx_eq_true]
  by_cases hmem : id ∈ b.getTxIds
  · obtain ⟨w, hw, hat⟩ := Storage.bodyAt_savedDisk env (d := d) ((Storage.block_mem env).mpr ⟨hmem, rfl⟩)
    obtain ⟨_, rfl⟩ := (Storage.block_mem env).mp hw
    exact ⟨_, hat, by simpa [Value.isEmpty, Block.getBlockIdB64] using hid⟩
  · have hkeep : ∀ v, ⟨id, .block, v⟩ ∉ Storage.bodyRecords env b :=
      fun v hv => hmem ((Storage.block_mem env).mp hv).1
    rw [Storage.bodyAt_savedDisk_of_notMem env hkeep, ← isDuplicatedTx_eq_true]
    exact h id ((Storage.holds_savedDisk env hheld).resolve_left hmem)

/-- What block messages keep of the storage. -/
structure Storage.Noted (s : Storage) : Prop where
  clean : s.Clean
  recorded : s.disk.Recorded env

theorem Storage.Touches.noted {dbs : List DBType} {s s' : Storage} (h : s.Touches dbs s')
    (hd : ∀ what ∈ Storage.commitOrder, what ∉ dbs) (hn : s.Noted env) : s'.Noted env :=
  ⟨h.clean hd hn.clean, hn.recorded.congr env (h.disk_eq (hd _ (by decide))) (h.disk_eq (hd _ (by decide)))⟩

theorem Storage.Noted.saveBlock {s s' : Storage} (h : s.Noted env) {b : Block} {answer : Bool} (hid : b.blockId ≠ [])
    (hs : s.saveBlock env b.blockRaw (b.getBlockHeaderJson env) (.object (b.bodyFields env)) = (.ok answer, s')) :
    s'.Noted env := by
  cases answer with
  | true =>
    obtain ⟨latest, es, _, hdisk, hclean⟩ := Storage.saveBlock_eq_true env h.clean hs
    refine ⟨hclean, (h.recorded.savedDisk env hid).congr env ?_ ?_⟩
    · rw [hdisk, savedOver_of_ne env (by decide)]
    · rw [hdisk, savedOver_of_ne env (by decide)]
  | false =>
    unfold Storage.saveBlock at hs
    simp only at hs
    split at hs
    · cases hs
    · cases hs
      exact ⟨Storage.clean_clearBatchAll _, h.recorded⟩
    · cases hs

namespace ChainState

variable {env}

theorem noted_saveResolved {ls ls' : LayeredStorage} {e : UnresolvedBlock} (h : ls.storage.Noted env)
    (hid : e.block.blockId ≠ []) (hs : saveResolved env ls e = .ok ls') : ls'.storage.Noted env := by
  rcases saveResolved_cases env hs with ⟨_, rfl⟩ | ⟨_, hs⟩
  · exact ⟨h.clean, h.recorded⟩
  · obtain ⟨answer, storage, hsave, rfl⟩ := saveChecked_eq_ok env hs
    have hlogged : (logEvent ls (.checked e.block true)).storage.Noted env := ⟨h.clean, h.recorded⟩
    exact (LayeredStorage.touches_moveToDiskLedger _ _).noted env (by decide) (hlogged.saveBlock env hid hsave)

variable (env) in
/-- The pool holds blocks with ids, and the storage knows the transactions of the saved ones. -/
structure Named (c : ChainState) : Prop where
  ids : ∀ b ∈ Pool.blocksOf c.pool.blockPool, b.blockId ≠ []
  noted : c.layered.storage.Noted env

theorem named_initial : Named env (ChainState.initial env) where
  ids := by simp [ChainState.initial, Pool.setPool, Pool.fresh, Pool.blocksOf]
  noted :=
    { clean := fun _ _ => rfl
      recorded := by
        rintro id ⟨_, hmem⟩
        cases hmem }

theorem Named.recached {c c' : ChainState} (h : Named env c) (hc : c.Recached c') : Named env c' := by
  obtain ⟨⟨_, _, _, hp⟩, hl⟩ := hc
  exact ⟨by rw [hp]; exact h.ids, by rw [hl]; exact h.noted⟩

theorem Named.push {c c' : ChainState} {now : Nat} {block : Block} {isRestore : Bool} {r : PushResult}
    (h : Named env c) (hid : block.blockId ≠ []) (hp : c.push env now block isRestore = .ok (r, c')) :
    Named env c' := by
  obtain ⟨_, hpool, _⟩ := (push_eq_ok env).mp hp
  refine ⟨fun b hb => ?_, (touches_push env hp).noted env (by decide) h.noted⟩
  rcases Pool.mem_blocksOf_push env hpool hb with rfl | hb
  · exact hid
  · exact h.ids b hb

theorem Named.procResolved {c c' : ChainState} (h : Named env c) (hr : c.procResolvedBlocksIf env = .ok c') :
    Named env c' := by
  obtain ⟨ws, ds, hres, ls, ht, _, hf⟩ := procResolved_cases env hr
  have hlogged : (c.layered.storage.logResolved (ws.map (·.block))).Noted env := ⟨h.noted.clean, h.noted.recorded⟩
  refine ⟨fun b hb => h.ids b (hres.mem_blocksOf (Or.inr hb)), ?_⟩
  refine foldlM_invariant (P := fun s : LayeredStorage => s.storage.Noted env) (fun s e t he hs hst => ?_)
    (ht.noted env (by decide) hlogged) hf
  exact noted_saveResolved hs (h.ids _ (hres.mem_blocksOf (Or.inl (List.mem_map_of_mem he)))) hst

theorem Named.delivers {c c' : ChainState} {now : Nat} {block : Block} {r : PushResult} (h : Named env c)
    (hid : block.blockId ≠ []) (hd : c.Delivers env now block c' r) : Named env c' := by
  cases hd with
  | kept hp _ hc => exact (h.push hid hp).recached hc
  | resolved hp _ hq hr hc => exact (((h.push hid hp).recached hq).procResolved hr).recached hc

end ChainState

structure Node where
  merger : Merger
  rounds : Rounds

/-- What a merger is given to do; block production is the tasks of the rounds but for
transaction messages. -/
inductive NodeTask where
  | tx (runnable : Bool) (body : Json)
  | block (now : Nat) (body : Json)
  | production (task : { task : Task // ∀ runnable records body, task ≠ .tx runnable records body })

namespace Node

def records (n : Node) : Records := n.merger.chain.layered.storage.disk

/-- The ids of the transaction pool are the pending ones of the block processor. -/
def step (n : Node) : NodeTask → Except Failure Node
  | .tx runnable body =>
    (n.rounds.step env maker hchain (.tx runnable n.records body)).map fun rounds => { n with rounds := rounds }
  | .block now body =>
    (Merger.handleMsgBlock env now { n.merger with pendingTxIds := n.rounds.txPool.ids } body).map fun r =>
      { merger := r.2
        rounds := { n.rounds with txPool := n.rounds.txPool.retain fun id => decide (id ∈ r.2.pendingTxIds) } }
  | .production task => (n.rounds.step env maker hchain task.1).map fun rounds => { n with rounds := rounds }

def run (n : Node) (tasks : List NodeTask) : Except Failure Node := tasks.foldlM (step env maker hchain) n

def initial : Node := ⟨⟨ChainState.initial env, [], [], [], []⟩, Rounds.initial env hchain⟩

/-- A pool block that is connected to the last block holds the id. -/
def InConnected (n : Node) (id : Bytes) : Prop :=
  ∃ d j e, n.merger.chain.pool.Connected d j e ∧ id ∈ e.block.getTxIds

/-- Blocks come with an id. The text of a transaction id is the encoding of 32 bytes, and
its message does not come while it is only in unresolved blocks. -/
def Timely (n : Node) : NodeTask → Prop
  | .tx _ body => ∃ id : Bytes, id.length = 32 ∧ Safe.getStringOf body "txid" = env.base64.encode id ∧
      (n.InConnected id → n.records.Holds env id)
  | .block _ body => ∀ b, Block.initializeBody env body = .ok (some b) → b.blockId ≠ []
  | .production _ => True

variable {env maker hchain}

theorem named_step {n n' : Node} {task : NodeTask} (ht : n.Timely env task) (h : n.merger.chain.Named env)
    (hs : n.step env maker hchain task = .ok n') : n'.merger.chain.Named env := by
  cases task with
  | tx runnable body =>
    simp only [step] at hs
    obtain ⟨_, _, rfl⟩ := map_eq_ok.mp hs
    exact h
  | block now body =>
    simp only [step] at hs
    obtain ⟨⟨r, m⟩, hr, rfl⟩ := map_eq_ok.mp hs
    rcases Merger.handleMsgBlock_cases env hr with ⟨_, rfl⟩ | ⟨block, hb, _, hd⟩
    · exact h
    · exact ChainState.Named.delivers (c := n.merger.chain) h (ht block hb) hd
  | production task =>
    simp only [step] at hs
    obtain ⟨_, _, rfl⟩ := map_eq_ok.mp hs
    exact h

/-- In every such run, a message that gets its transaction into the pool is for one that is
in no saved block and in no block connected to the last one. -/
theorem enters_once {tasks : List NodeTask} {n : Node}
    (ht : EachStep (step env maker hchain) (Timely env) (initial env hchain) tasks)
    (hrun : (initial env hchain).run env maker hchain tasks = .ok n) {runnable : Bool} {body : Json}
    (htx : n.Timely env (.tx runnable body)) (henter : n.rounds.Enters env runnable n.records body) :
    ∀ tx, readTx env body = .ok tx → ¬ n.records.Holds env tx.1.id ∧ ¬ n.InConnected tx.1.id := by
  have hnamed : n.merger.chain.Named env :=
    ht.invariant (P := fun n : Node => n.merger.chain.Named env) (fun hc h hs => named_step hc h hs)
      ChainState.named_initial hrun
  intro tx hread
  obtain ⟨id, hlen, htext, hconnected⟩ := htx
  obtain ⟨_, hset⟩ := readTx_eq_ok env hread
  obtain rfl : tx.1.id = id := Transaction.id_of_setJson env htext hlen hset
  obtain ⟨q, hhandle⟩ := henter
  rcases handleTx_cases env hhandle with ⟨hnot, _⟩ | ⟨_, _, _, _, hnew, _⟩
  · exact absurd rfl (hnot true)
  have hsaved : ¬ n.records.Holds env tx.1.id := by
    intro hheld
    have hdup := hnamed.noted.recorded _ hheld
    rw [htext] at hnew
    exact absurd (hdup.symm.trans hnew) (by decide)
  exact ⟨hsaved, fun hc => hsaved (hconnected hc)⟩

end Node

namespace Sample

/-- One block on the genesis values, with too little support to be resolved. -/
def lonelyRow : Row :=
  ⟨[1], genesisBlockPrevId base, genesisBlockPrevHash base, 1, [good 1], [digestTx]⟩

abbrev lonelyWorld : Env := world [lonelyRow]

theorem good_lonely : Good [lonelyRow] := by decide +kernel

theorem lonely_chain : lonelyWorld.myChainId.length = 8 := rfl

def lonelyTask : NodeTask := .block 1000 (message (lonelyRow.block 0))

/-- A transaction that is in no block. -/
def otherTx : Transaction := tx .digests [[4]]

/-- Neither transaction is recorded, and the block is all there is in the pool, on top of the
last one. -/
def Lonely (m : Merger) : Bool :=
  [digestTx, otherTx].all (fun t => !m.chain.layered.storage.disk.isDuplicatedTx (base.base64.encode t.id)) &&
  match m.chain.pool.blockPool with
  | [[e]] => decide (e.prevVectorIdx = 0 ∧ e.block.getTxIds = [digestTx.id])
  | _ => false

theorem lonely_cases {m : Merger} (h : Lonely m = true) :
    (∀ t ∈ [digestTx, otherTx], m.chain.layered.storage.disk.isDuplicatedTx (base.base64.encode t.id) = false) ∧
    ∃ e, m.chain.pool.blockPool = [[e]] ∧ e.prevVectorIdx = 0 ∧ e.block.getTxIds = [digestTx.id] := by
  simp only [Lonely, Bool.and_eq_true, List.all_eq_true, Bool.not_eq_true'] at h
  refine ⟨h.1, ?_⟩
  have hbins := h.2
  split at hbins
  · rename_i e heq
    exact ⟨e, heq, of_decide_eq_true hbins⟩
  · cases hbins

theorem run_block {now : Nat} {body : Json} {r : PushResult} {m : Merger}
    (h : Merger.handleMsgBlock env now ⟨ChainState.initial env, [], [], [], []⟩ body = .ok (r, m)) :
    ∃ n, (Node.initial env hchain).run env maker hchain [.block now body] = .ok n ∧ n.merger = m ∧
      n.rounds.txPool = .empty :=
  ⟨_, foldlM_cons_eq_ok.mpr ⟨_, map_eq_ok.mpr ⟨_, h, rfl⟩, rfl⟩, rfl, rfl⟩

/-- The block is read and taken into the pool. -/
theorem lonely_run : Block.initializeBody lonelyWorld (message (lonelyRow.block 0)) = .ok (some (lonelyRow.block 0)) ∧
    ∃ n, (Node.initial lonelyWorld lonely_chain).run lonelyWorld Sample.maker lonely_chain [lonelyTask] = .ok n ∧
      n.rounds.txPool = .empty ∧ Lonely n.merger = true := by
  have hrun : okAnd Lonely (deliver [lonelyRow] 1000 initial 0) = true := by decide +kernel
  obtain ⟨m, hm, hlonely⟩ := okAnd_eq_true.mp hrun
  obtain ⟨hread, _, ⟨r, hhandle⟩, _⟩ := deliver_eq_ok good_lonely (by decide) (Nat.zero_le _) rfl hm
  obtain ⟨n, hn, rfl, hpool⟩ := run_block lonelyWorld Sample.maker lonely_chain hhandle
  exact ⟨hread, n, hn, hpool, hlonely⟩

theorem length_digestTx : digestTx.id.length = 32 := length_bytesToArray base 32 _

theorem length_otherTx : otherTx.id.length = 32 := length_bytesToArray base 32 _

/-- A transaction that is not recorded gets into an empty pool. -/
theorem enters_empty {t : Transaction} (hid : t.id.length = 32) (ht : t.sentTime < 2 ^ 63) {n : Node}
    (hpool : n.rounds.txPool = .empty) (hnew : n.records.isDuplicatedTx (base.base64.encode t.id) = false) :
    readTx lonelyWorld (t.getJson base) = .ok ⟨t, hid⟩ ∧
      n.rounds.Enters lonelyWorld true n.records (t.getJson base) := by
  have hread : readTx lonelyWorld (t.getJson base) = .ok ⟨t, hid⟩ :=
    readTx_eq_of_setJson lonelyWorld hid (Transaction.setJson_getJson lonelyWorld t {} hid ht)
  have htext : Safe.getStringOf (t.getJson base) "txid" = base.base64.encode t.id := rfl
  refine ⟨hread, (TransactionPool.empty.push t hid).2, ?_⟩
  unfold handleTx
  simp only [hread, hpool, htext, hnew]
  rfl

end Sample

open Sample in
theorem Node.enters_once_lonely : ∃ n,
    (Node.initial lonelyWorld lonely_chain).run lonelyWorld Sample.maker lonely_chain [lonelyTask] = .ok n ∧
    n.rounds.Enters lonelyWorld true n.records (otherTx.getJson base) ∧
    ¬ n.records.Holds lonelyWorld otherTx.id ∧ ¬ n.InConnected otherTx.id := by
  obtain ⟨hread, n, hrun, hpool, hl⟩ := lonely_run
  obtain ⟨hnew, e, hbins, _, hids⟩ := lonely_cases hl
  obtain ⟨htx, henter⟩ := enters_empty length_otherTx (by decide) hpool (hnew _ (by simp))
  have hconnected : ¬ n.InConnected otherTx.id := by
    rintro ⟨d, j, e', hc, hmem⟩
    have he' : e'.block ∈ Pool.blocksOf n.merger.chain.pool.blockPool :=
      Pool.mem_blocksOf.mpr ⟨d, e', Pool.mem_bin_of_node hc.node_eq, rfl⟩
    have hblock : e'.block = e.block := by simpa [hbins, Pool.blocksOf] using he'
    rw [hblock, hids, List.mem_singleton] at hmem
    exact absurd hmem (by decide +kernel)
  have htasks : EachStep (Node.step lonelyWorld Sample.maker lonely_chain) (Node.Timely lonelyWorld)
      (Node.initial lonelyWorld lonely_chain) [lonelyTask] := by
    refine ⟨fun b hb => ?_, fun _ _ => trivial⟩
    obtain rfl := Option.some.inj (Except.ok.inj (hread.symm.trans hb))
    simp [Row.block, block, lonelyRow]
  exact ⟨n, hrun, henter, Node.enters_once htasks hrun
    ⟨otherTx.id, length_otherTx, rfl, fun hc => absurd hc hconnected⟩ henter _ htx⟩

open Sample in
/-- The transaction is in the block on top of the last one, and gets into the pool. -/
theorem Node.enters_again : ∃ n,
    (Node.initial lonelyWorld lonely_chain).run lonelyWorld Sample.maker lonely_chain [lonelyTask] = .ok n ∧
    n.InConnected digestTx.id ∧ n.rounds.Enters lonelyWorld true n.records (digestTx.getJson base) := by
  obtain ⟨_, n, hrun, hpool, hl⟩ := lonely_run
  obtain ⟨hnew, e, hbins, hidx, hids⟩ := lonely_cases hl
  refine ⟨n, hrun, ⟨0, 0, e, .top ?_ hidx, by simp [hids]⟩,
    (enters_empty length_digestTx (by decide) hpool (hnew _ (by simp))).2⟩
  simp [hbins]

end GruutMerger
