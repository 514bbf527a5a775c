import Garry.Model.Recovery

/-!
# Sessions of the engine

A session is a run of calls on an open engine; between the calls pages may be evicted. This file
says what the calls do to the transaction counter and to the log.
-/

namespace Garry

open ByteStore

/-- Frames for every page. -/
def PoolEnv.roomy : PoolEnv where
  pinFails _ := false
  allocFails _ := false
  resident _ := true

/-- A compression that keeps the bytes. -/
def Lz4.stored : Lz4 := ⟨some, some⟩

/-- What happens to an open engine; `frames` says which pins and allocations fail from then on. -/
inductive EngineOp
  | begin
  | set (txn : Int) (key value : Bytes)
  | delete (txn : Int) (key : Bytes)
  | commit (txn : Int)
  | rollback (txn : Int)
  | gc
  | checkpoint
  | evict (pid : Int)
  | frames (env : PoolEnv)

/-! ## The page size -/

namespace Pool

variable {pool pool' : Pool}

theorem allocate_pageSize (pool : Pool) : pool.allocate.2.pageSize = pool.pageSize := by
  simp only [allocate]
  split
  · split <;> rfl
  split
  · rfl
  split <;> rfl

theorem foldl_flushPage_pageSize (pids : List Int) (pool : Pool) :
    (pids.foldl flushPage pool).pageSize = pool.pageSize := by
  induction pids generalizing pool with
  | nil => rfl
  | cons pid pids ih => rw [List.foldl_cons, ih, flushPage_pageSize]

end Pool

variable {pool pool' : Pool}

theorem linkOverflow_pageSize (pool : Pool) (prev this : Int) :
    (linkOverflow pool prev this).pageSize = pool.pageSize := by
  rw [linkOverflow]
  split
  · rfl
  split
  · rfl
  · rw [Pool.flushPage_pageSize]
    rfl

theorem overflowWriteLoop_pageSize (fuel : Nat) (pool : Pool) (head prev : Int) (value : Bytes) :
    (overflowWriteLoop fuel pool head prev value).2.pageSize = pool.pageSize := by
  induction fuel generalizing pool head prev value with
  | zero => exact Pool.flushPage_pageSize
  | succ fuel ih =>
    rw [overflowWriteLoop]
    split
    · exact Pool.flushPage_pageSize
    have ha := pool.allocate_pageSize
    generalize pool.allocate = made at ha
    obtain ⟨this, pool₁⟩ := made
    simp only at ha ⊢
    split
    · exact ha
    split
    · exact Pool.freePage_pageSize.trans ha
    · rw [ih]
      show (linkOverflow pool₁ prev this).pageSize = pool.pageSize
      rw [linkOverflow_pageSize, ha]

theorem overflowWrite_pageSize (pool : Pool) (value : Bytes) :
    (overflowWrite pool value).2.pageSize = pool.pageSize := overflowWriteLoop_pageSize ..

theorem makeUpdateRecord_pageSize (pool : Pool) (txn : Int) (key value : Bytes) :
    (makeUpdateRecord pool txn key value).2.pageSize = pool.pageSize := by
  rw [makeUpdateRecord]
  split
  · rfl
  · have hw := overflowWrite_pageSize pool value
    simp only
    split
    · exact hw
    · exact hw

theorem overflowFree_pageSize (h : overflowFree pool head = some pool') :
    pool'.pageSize = pool.pageSize := by
  rw [overflowFree] at h
  generalize pool.nextPage.toNat + 1 = fuel at h
  induction fuel generalizing pool head with
  | zero => cases h
  | succ fuel ih =>
    rw [overflowFreeLoop] at h
    split at h
    · cases h
      rfl
    split at h
    · cases h
      rfl
    · rw [ih h, Pool.freePage_pageSize]

theorem pruneFree_pageSize {recs : List Bytes} (h : pruneFree pool recs = some pool') :
    pool'.pageSize = pool.pageSize := by
  induction recs generalizing pool with
  | nil =>
    cases h
    rfl
  | cons recData recs ih =>
    rw [pruneFree] at h
    split at h
    · obtain ⟨pool₁, hf, h⟩ := Option.bind_eq_some_iff.mp h
      rw [ih h, overflowFree_pageSize hf]
    · exact ih h

theorem chainPagePrune_pageSize {buf buf' : PageBuffer}
    (h : chainPagePrune pool buf ps active = some (pool', buf')) :
    pool'.pageSize = pool.pageSize := by
  simp only [chainPagePrune] at h
  split at h
  · cases h
    rfl
  · obtain ⟨pool₁, hf, h⟩ := Option.map_eq_some_iff.mp h
    have hp := pruneFree_pageSize hf
    split at h
    · cases h
      exact hp
    · cases h
      exact hp

theorem storeNode_pageSize (pool : Pool) (pid : Int) (node : BtreeNode) :
    (storeNode pool pid node).pageSize = pool.pageSize := by
  rw [storeNode]
  split
  · rfl
  simp only
  split
  · rfl
  split <;> rfl

theorem storeDirty_pageSize (pool : Pool) (pid : Int) (node : BtreeNode) :
    (storeDirty pool pid node).pageSize = pool.pageSize := storeNode_pageSize ..

theorem allocateNode_pageSize (kind : NodeKind) (pool : Pool) :
    (allocateNode kind pool).2.pageSize = pool.pageSize := by
  have ha := pool.allocate_pageSize
  rw [allocateNode]
  generalize pool.allocate = made at ha
  obtain ⟨pid, pool₁⟩ := made
  simp only
  split
  · exact ha
  split
  · exact ha
  · exact ha

theorem leafSplit_pageSize (pool : Pool) (page : Int) (node : BtreeNode) (key value : Bytes) :
    (leafSplit pool page node key value).1.pool.pageSize = pool.pageSize := by
  have ha : (allocateLeaf pool).2.pageSize = pool.pageSize := allocateNode_pageSize ..
  rw [leafSplit]
  simp only
  generalize allocateLeaf pool = made at ha
  obtain ⟨right, pool₁⟩ := made
  simp only at ha ⊢
  split
  · exact ha
  · simp only [storeNode_pageSize, Pool.markDirty_pageSize]
    exact ha

theorem internalSplit_pageSize (pool : Pool) (page : Int) (node : BtreeNode) (idx : Nat)
    (key : Bytes) (child : Int) :
    (internalSplit pool page node idx key child).pool.pageSize = pool.pageSize := by
  have ha : (allocateInternal pool).2.pageSize = pool.pageSize := allocateNode_pageSize ..
  rw [internalSplit]
  simp only
  generalize allocateInternal pool = made at ha
  obtain ⟨right, pool₁⟩ := made
  simp only at ha ⊢
  split
  · exact ha
  · simp only [storeNode_pageSize, Pool.markDirty_pageSize]
    exact ha

theorem btreeInsertRec_pageSize {out : InsertOut}
    (h : btreeInsertRec key value fuel pool page = some out) :
    out.pool.pageSize = pool.pageSize := by
  induction fuel generalizing page out with
  | zero => cases h
  | succ fuel ih =>
    rw [btreeInsertRec] at h
    simp only at h
    split at h
    · split at h
      · cases h
        exact storeDirty_pageSize ..
      split at h
      · split at h
        · cases h
          exact storeDirty_pageSize ..
        · cases h
          exact storeDirty_pageSize ..
      · cases h
        rw [storeNode_pageSize, leafSplit_pageSize]
    · split at h
      · cases h
      · next out₁ hout =>
        have hp := ih hout
        split at h
        · split at h
          · cases h
            rw [storeDirty_pageSize, hp]
          · cases h
            rw [internalSplit_pageSize, hp]
        · cases h
          exact hp

theorem btreeInsert_pageSize (h : btreeInsert pool root key value = some (ok, pool', root')) :
    pool'.pageSize = pool.pageSize := by
  rw [btreeInsert] at h
  simp only at h
  split at h
  · cases h
  · next out hout =>
    have hp := btreeInsertRec_pageSize hout
    split at h
    · split at h
      · have ha : (allocateInternal out.pool).2.pageSize = out.pool.pageSize :=
          allocateNode_pageSize ..
        split at h
        · cases h
          rw [ha, hp]
        · cases h
          rw [storeDirty_pageSize, ha, hp]
      · cases h
        exact hp
    · cases h
      exact hp

namespace Engine

variable {lz4 : Lz4} {eng eng' : Engine} {op : EngineOp}

/-- The engine after a call; `none` when the call does not end. -/
def step (lz4 : Lz4) (eng : Engine) : EngineOp → Option Engine
  | .begin => some eng.storageBegin.2
  | .set txn key value => (eng.storageSet lz4 txn key value).map Prod.snd
  | .delete txn key => (eng.storageDelete txn key).map Prod.snd
  | .commit txn => some (eng.storageCommit txn)
  | .rollback txn => some (eng.storageRollback txn)
  | .gc => eng.mvccGc
  | .checkpoint => eng.walCheckpoint.map Prod.snd
  | .evict pid => some { eng with pool := eng.pool.flushPage pid }
  | .frames env => some { eng with pool := eng.pool.withEnv env }

/-- The call hands out the id. -/
def Begins (eng : Engine) (txn : Int) (eng' : Engine) : Prop :=
  eng.mvccBegin = (txn, eng') ∧ eng'.txns = eng.txns ++ [⟨txn, .active, []⟩]

/-- The runs of calls from an engine, each with `P` of the ids handed out before it, and the ids
handed out. -/
inductive Session (lz4 : Lz4) (P : List Int → EngineOp → Prop) (eng : Engine) :
    Engine → List Int → Prop
  | refl : Session lz4 P eng eng []
  | begin {eng' eng'' : Engine} {begun : List Int} {txn : Int} : Session lz4 P eng eng' begun →
      eng'.Begins txn eng'' → Fits32 txn → Session lz4 P eng eng'' (txn :: begun)
  | step {eng' eng'' : Engine} {begun : List Int} {op : EngineOp} : Session lz4 P eng eng' begun →
      op ≠ .begin → P begun op → eng'.step lz4 op = some eng'' → Session lz4 P eng eng'' begun

theorem Session.mono {P Q : List Int → EngineOp → Prop} (h : eng.Session lz4 P eng' begun)
    (hPQ : ∀ begun op, P begun op → Q begun op) : eng.Session lz4 Q eng' begun := by
  induction h with
  | refl => exact .refl
  | begin _ hb hf ih => exact .begin ih hb hf
  | step _ hop hP hs ih => exact .step ih hop (hPQ _ _ hP) hs

/-! ## What stays -/

/-- Only the pages, the tree, the locks and the entries of the table of transactions change. -/
structure Keeps (eng eng' : Engine) : Prop where
  nextTxid : eng'.nextTxid = eng.nextTxid
  maxTxns : eng'.maxTxns = eng.maxTxns
  header : eng'.header = eng.header
  wal : eng'.wal = eng.wal
  activeTxns : eng'.activeTxns = eng.activeTxns
  pageSize : eng'.pageSize = eng.pageSize
  poolPageSize : eng'.pool.pageSize = eng.pool.pageSize
  compression : eng'.compression = eng.compression

theorem Keeps.refl : eng.Keeps eng := ⟨rfl, rfl, rfl, rfl, rfl, rfl, rfl, rfl⟩

theorem Keeps.trans {eng'' : Engine} (h : eng.Keeps eng') (h' : eng'.Keeps eng'') :
    eng.Keeps eng'' where
  nextTxid := h'.nextTxid.trans h.nextTxid
  maxTxns := h'.maxTxns.trans h.maxTxns
  header := h'.header.trans h.header
  wal := h'.wal.trans h.wal
  activeTxns := h'.activeTxns.trans h.activeTxns
  pageSize := h'.pageSize.trans h.pageSize
  poolPageSize := h'.poolPageSize.trans h.poolPageSize
  compression := h'.compression.trans h.compression

theorem keeps_pool (h : pool.pageSize = eng.pool.pageSize) : eng.Keeps { eng with pool := pool } :=
  ⟨rfl, rfl, rfl, rfl, rfl, rfl, h, rfl⟩

theorem keeps_tree (h : pool.pageSize = eng.pool.pageSize) :
    eng.Keeps { eng with pool := pool, btreeRoot := root } :=
  ⟨rfl, rfl, rfl, rfl, rfl, rfl, h, rfl⟩

theorem map_txid_updateTxn {f : TxnInfo → TxnInfo} (hf : ∀ info, (f info).txid = info.txid)
    (txns : List TxnInfo) : (updateTxn f txn txns).map TxnInfo.txid = txns.map TxnInfo.txid := by
  induction txns with
  | nil => rfl
  | cons info txns ih =>
    rw [updateTxn]
    split
    · rw [List.map_cons, hf, List.map_cons]
    · rw [List.map_cons, ih, List.map_cons]

theorem keeps_changeChain (txn cid : Int) (buf : PageBuffer) :
    eng.Keeps (eng.changeChain txn cid buf) := by
  refine ⟨rfl, rfl, rfl, rfl, ?_, rfl, rfl, rfl⟩
  show (updateTxn _ txn eng.txns).map TxnInfo.txid = eng.txns.map TxnInfo.txid
  apply map_txid_updateTxn
  intro info
  rfl

theorem keeps_chainAllocate : eng.Keeps eng.chainAllocate.2 := by
  have ha := eng.pool.allocate_pageSize
  simp only [chainAllocate]
  split
  · exact keeps_pool ha
  split
  · exact keeps_pool ha
  · exact keeps_pool ha

theorem keeps_mvccSet (txn cid : Int) (value : Bytes) : eng.Keeps (eng.mvccSet txn cid value).2 := by
  simp only [mvccSet]
  split
  · exact .refl
  split
  · have hw := overflowWrite_pageSize eng.pool value
    split
    · exact keeps_pool hw
    split
    · exact keeps_pool hw
    · exact (keeps_pool hw).trans (keeps_changeChain ..)
  · split
    · exact .refl
    · exact keeps_changeChain ..

theorem keeps_mvccDelete (txn cid : Int) : eng.Keeps (eng.mvccDelete txn cid).2 := by
  simp only [mvccDelete]
  split
  · exact .refl
  split
  · exact .refl
  · exact keeps_changeChain ..

theorem keeps_gcPage (h : eng.gcPage pid = some eng') : eng.Keeps eng' := by
  rw [gcPage] at h
  split at h
  · cases h
    exact .refl
  split at h
  · obtain ⟨⟨pool, buf⟩, hp, rfl⟩ := Option.map_eq_some_iff.mp h
    have hps : pool.pageSize = eng.pool.pageSize := chainPagePrune_pageSize hp
    exact keeps_pool hps
  · cases h
    exact .refl

theorem keeps_mvccGc (h : eng.mvccGc = some eng') : eng.Keeps eng' := by
  rw [mvccGc] at h
  generalize List.range' 1 (eng.header.totalPages - 1).toNat = pids at h
  induction pids generalizing eng with
  | nil =>
    cases h
    exact .refl
  | cons pid pids ih =>
    rw [List.foldlM_cons] at h
    obtain ⟨eng₁, h₁, h⟩ := Option.bind_eq_some_iff.mp h
    exact (keeps_gcPage h₁).trans (ih h)

/-- A sweep changes the pool only. -/
theorem gcPage_eq (h : eng.gcPage pid = some eng') : eng' = { eng with pool := eng'.pool } := by
  rw [gcPage] at h
  split at h
  · cases h
    rfl
  split at h
  · obtain ⟨r, -, rfl⟩ := Option.map_eq_some_iff.mp h
    rfl
  · cases h
    rfl

theorem mvccGc_eq (h : eng.mvccGc = some eng') : eng' = { eng with pool := eng'.pool } := by
  rw [mvccGc] at h
  generalize List.range' 1 (eng.header.totalPages - 1).toNat = pids at h
  induction pids generalizing eng with
  | nil =>
    cases h
    rfl
  | cons pid pids ih =>
    rw [List.foldlM_cons] at h
    obtain ⟨eng₁, h₁, h⟩ := Option.bind_eq_some_iff.mp h
    have he := ih h
    rw [gcPage_eq h₁] at he
    exact he

/-! ## The log -/

/-- What a call does to the log: nothing, one record, or the truncation of a checkpoint. Only
commits write commit records. -/
inductive LogStep (op : EngineOp) (wal : WalLog) : WalLog → Prop
  | same : LogStep op wal wal
  | append {record : WalRecord} : (record.kind = .commit → op = .commit record.txid) →
      LogStep op wal (walLogAppend wal record).2
  | truncate : LogStep op wal { wal with bytes := [], lastLsn := 0 }

/-- What a call other than begin does besides the pages, the tree, the locks and the table of
transactions. -/
structure Logs (op : EngineOp) (eng eng' : Engine) : Prop where
  nextTxid : eng'.nextTxid = eng.nextTxid
  maxTxns : eng'.maxTxns = eng.maxTxns
  header : eng'.header = eng.header
  wal : LogStep op eng.wal eng'.wal
  activeTxns : ∀ txn ∈ eng.activeTxns, op ≠ .commit txn → txn ∈ eng'.activeTxns
  pageSize : eng'.pageSize = eng.pageSize
  poolPageSize : eng'.pool.pageSize = eng.pool.pageSize
  compression : eng'.compression = eng.compression

theorem Keeps.logs (h : eng.Keeps eng') : Logs op eng eng' where
  nextTxid := h.nextTxid
  maxTxns := h.maxTxns
  header := h.header
  wal := by
    rw [h.wal]
    exact .same
  activeTxns txn ht _ := h.activeTxns ▸ ht
  pageSize := h.pageSize
  poolPageSize := h.poolPageSize
  compression := h.compression

theorem Logs.keeps {eng'' : Engine} (h : Logs op eng eng') (hk : eng'.Keeps eng'') :
    Logs op eng eng'' where
  nextTxid := hk.nextTxid.trans h.nextTxid
  maxTxns := hk.maxTxns.trans h.maxTxns
  header := hk.header.trans h.header
  wal := by
    rw [hk.wal]
    exact h.wal
  activeTxns txn ht hop := hk.activeTxns ▸ h.activeTxns txn ht hop
  pageSize := hk.pageSize.trans h.pageSize
  poolPageSize := hk.poolPageSize.trans h.poolPageSize
  compression := hk.compression.trans h.compression

theorem Keeps.then {eng'' : Engine} (hk : eng.Keeps eng') (h : Logs op eng' eng'') :
    Logs op eng eng'' where
  nextTxid := h.nextTxid.trans hk.nextTxid
  maxTxns := h.maxTxns.trans hk.maxTxns
  header := h.header.trans hk.header
  wal := by
    rw [← hk.wal]
    exact h.wal
  activeTxns txn ht hop := h.activeTxns txn (hk.activeTxns ▸ ht) hop
  pageSize := h.pageSize.trans hk.pageSize
  poolPageSize := h.poolPageSize.trans hk.poolPageSize
  compression := h.compression.trans hk.compression

theorem logs_appendWal {record : WalRecord}
    (h : record.kind = .commit → op = .commit record.txid) : Logs op eng (eng.appendWal record) :=
  ⟨rfl, rfl, rfl, .append h, fun _ ht _ => ht, rfl, rfl, rfl⟩

theorem makeUpdateRecord_kind {pool pool' : Pool}
    (h : makeUpdateRecord pool txn key value = (some record, pool')) :
    record.kind = .update := by
  rw [makeUpdateRecord] at h
  split at h
  · cases h
    rfl
  simp only at h
  split at h
  · cases h
  · cases h
    rfl

theorem logs_setVersion (txn cid : Int) (key value : Bytes) (newKey : Bool) :
    Logs op eng (eng.setVersion lz4 txn cid key value newKey).2 := by
  simp only [setVersion]
  cases hm : makeUpdateRecord eng.pool txn key value with
  | mk record pool =>
    have hp := makeUpdateRecord_pageSize eng.pool txn key value
    rw [hm] at hp
    have hk : eng.Keeps { eng with pool := pool } := keeps_pool hp
    have h₁ : Logs op eng ({ eng with pool := pool }.appendMade record) := by
      cases record with
      | none => exact hk.logs
      | some record =>
        refine hk.then (logs_appendWal fun hc => ?_)
        rw [makeUpdateRecord_kind hm] at hc
        cases hc
    generalize ({ eng with pool := pool } : Engine).appendMade record = eng₁ at h₁
    split
    · exact h₁
    · next value' _ =>
      have hk : eng₁.Keeps (eng₁.mvccSet txn cid value').2 := keeps_mvccSet txn cid value'
      split
      · exact h₁.keeps (hk.trans ⟨rfl, rfl, rfl, rfl, rfl, rfl, rfl, rfl⟩)
      · exact h₁.keeps hk

/-- A commit takes its own transaction off the list and no other one. -/
theorem mem_activeTxns_commit (txn' : Int) (ht : txn' ∈ eng.activeTxns)
    (hop : EngineOp.commit txn ≠ .commit txn') : txn' ∈ (eng.storageCommit txn).activeTxns := by
  obtain ⟨info, hi, rfl⟩ := List.mem_map.mp ht
  have hne : ¬ decide (info.txid = txn) = true := by
    intro heq
    rw [of_decide_eq_true heq] at hop
    exact hop rfl
  apply List.mem_map_of_mem
  exact (List.mem_eraseP_of_neg (p := fun info => decide (info.txid = txn)) hne).mpr hi

/-- A rollback leaves its transaction on the list. -/
theorem activeTxns_rollback (txn : Int) : (eng.storageRollback txn).activeTxns = eng.activeTxns := by
  show (updateTxn _ txn eng.txns).map TxnInfo.txid = eng.txns.map TxnInfo.txid
  apply map_txid_updateTxn
  intro info
  rfl

/-- Every call other than begin. -/
theorem logs_step (hop : op ≠ .begin) (h : eng.step lz4 op = some eng') : Logs op eng eng' := by
  cases op with
  | begin => exact absurd rfl hop
  | set txn key value =>
    obtain ⟨r, hr, rfl⟩ := Option.map_eq_some_iff.mp h
    rw [storageSet] at hr
    split at hr
    · cases hr
      exact Keeps.refl.logs
    split at hr
    · cases hr
      exact Keeps.refl.logs
    split at hr
    · cases hr
      exact Keeps.refl.logs
    · next lockMgr _ =>
      have hk : eng.Keeps { eng with lockMgr := lockMgr } := ⟨rfl, rfl, rfl, rfl, rfl, rfl, rfl, rfl⟩
      generalize { eng with lockMgr := lockMgr } = eng₁ at hr hk
      simp only at hr
      split at hr
      · cases hr
      · cases hr
        exact hk.then (logs_setVersion ..)
      · replace hk := hk.trans keeps_chainAllocate
        split at hr
        · cases hr
          exact hk.logs
        split at hr
        · cases hr
        · next pool root hins =>
          have hk : eng.Keeps { eng₁.chainAllocate.2 with pool := pool, btreeRoot := root } :=
            hk.trans (keeps_tree (btreeInsert_pageSize hins))
          split at hr
          · cases hr
            exact hk.then (logs_setVersion ..)
          · cases hr
            exact (hk.trans (keeps_pool Pool.freePage_pageSize)).logs
  | delete txn key =>
    obtain ⟨r, hr, rfl⟩ := Option.map_eq_some_iff.mp h
    rw [storageDelete] at hr
    split at hr
    · cases hr
      exact Keeps.refl.logs
    split at hr
    · cases hr
      exact Keeps.refl.logs
    split at hr
    · cases hr
      exact Keeps.refl.logs
    · next lockMgr _ =>
      have hk : eng.Keeps { eng with lockMgr := lockMgr } := ⟨rfl, rfl, rfl, rfl, rfl, rfl, rfl, rfl⟩
      generalize { eng with lockMgr := lockMgr } = eng₁ at hr hk
      simp only at hr
      split at hr
      · cases hr
      · cases hr
        exact hk.logs
      · split at hr
        · cases hr
          exact hk.logs
        · cases hr
          refine hk.then ((logs_appendWal fun hc => ?_).keeps (keeps_mvccDelete ..))
          cases hc
  | commit txn =>
    cases h
    exact ⟨rfl, rfl, rfl, .append fun _ => rfl, mem_activeTxns_commit, rfl,
      Pool.foldl_flushPage_pageSize .., rfl⟩
  | rollback txn =>
    cases h
    refine ⟨rfl, rfl, rfl, .append fun hc => ?_, fun _ ht _ => ?_, rfl, rfl, rfl⟩
    · cases hc
    · rw [activeTxns_rollback]
      exact ht
  | gc => exact (keeps_mvccGc h).logs
  | checkpoint =>
    obtain ⟨r, hr, rfl⟩ := Option.map_eq_some_iff.mp h
    obtain ⟨eng₁, h₁, rfl⟩ := Option.map_eq_some_iff.mp hr
    refine (keeps_mvccGc h₁).then ?_
    exact ⟨rfl, rfl, rfl, .truncate, fun _ ht _ => ht, rfl, Pool.foldl_flushPage_pageSize .., rfl⟩
  | evict pid =>
    cases h
    exact (keeps_pool Pool.flushPage_pageSize).logs
  | frames env =>
    cases h
    have hps : (eng.pool.withEnv env).pageSize = eng.pool.pageSize := rfl
    exact (keeps_pool hps).logs

/-! ## Ids -/

/-- `garry_mvcc_begin` refuses, or hands out the next id. -/
theorem mvccBegin_cases (eng : Engine) :
    eng.mvccBegin = (-1, eng) ∨
      0 < eng.maxTxns ∧ eng.mvccBegin = (eng.nextTxid, { eng with
        nextTxid := eng.nextTxid + 1
        txns := eng.txns ++ [⟨eng.nextTxid, .active, []⟩] }) := by
  rw [mvccBegin]
  simp only
  split
  · exact .inl rfl
  · next hlt =>
    split
    · exact .inl rfl
    · exact .inr ⟨by omega, rfl⟩

theorem begins_or (eng : Engine) :
    eng.storageBegin.2 = eng ∨ eng.Begins eng.nextTxid eng.storageBegin.2 := by
  rcases eng.mvccBegin_cases with e | ⟨-, e⟩
  · exact .inl (congrArg Prod.snd e)
  · rw [storageBegin, Begins, e]
    exact .inr ⟨rfl, rfl⟩

theorem Begins.spec (h : eng.Begins txn eng') : 0 < eng.maxTxns ∧ txn = eng.nextTxid ∧
    eng' = { eng with
      nextTxid := eng.nextTxid + 1
      txns := eng.txns ++ [⟨eng.nextTxid, .active, []⟩] } := by
  obtain ⟨hb, htxns⟩ := h
  rcases eng.mvccBegin_cases with e | ⟨hpos, e⟩
  · rw [e] at hb
    obtain ⟨-, rfl⟩ := Prod.mk.inj hb
    simp at htxns
  · rw [e] at hb
    obtain ⟨rfl, rfl⟩ := Prod.mk.inj hb
    exact ⟨hpos, rfl, rfl⟩

theorem Begins.eq (h : eng.Begins txn eng') : eng' = { eng with
    nextTxid := eng.nextTxid + 1
    txns := eng.txns ++ [⟨eng.nextTxid, .active, []⟩] } := h.spec.2.2

theorem Begins.nextTxid (h : eng.Begins txn eng') :
    txn = eng.nextTxid ∧ eng'.nextTxid = eng.nextTxid + 1 ∧ eng'.wal = eng.wal := by
  obtain ⟨-, rfl, rfl⟩ := h.spec
  exact ⟨rfl, rfl, rfl⟩

theorem Begins.maxTxns (h : eng.Begins txn eng') :
    0 < eng.maxTxns ∧ eng'.maxTxns = eng.maxTxns := by
  obtain ⟨hpos, -, rfl⟩ := h.spec
  exact ⟨hpos, rfl⟩

/-- Without transactions a begin succeeds. -/
theorem begins_of_nil (ht : eng.txns = []) (hm : 0 < eng.maxTxns) :
    ∃ eng', eng.Begins eng.nextTxid eng' := by
  refine ⟨{ eng with
    nextTxid := eng.nextTxid + 1
    txns := eng.txns ++ [⟨eng.nextTxid, .active, []⟩] }, ?_, rfl⟩
  simp only [mvccBegin, ht, List.countP_nil, List.length_nil]
  rw [if_neg (by omega), if_neg (by omega)]

theorem Session.nextTxid_le {P : List Int → EngineOp → Prop} (h : eng.Session lz4 P eng' begun) :
    eng.nextTxid ≤ eng'.nextTxid ∧ ∀ txn ∈ begun, eng.nextTxid ≤ txn ∧ Fits32 txn := by
  induction h with
  | refl => exact ⟨le_rfl, by simp⟩
  | begin _ hb hf ih =>
    obtain ⟨rfl, hn, -⟩ := hb.nextTxid
    refine ⟨by omega, fun txn ht => ?_⟩
    rcases List.mem_cons.mp ht with rfl | ht
    · exact ⟨ih.1, hf⟩
    · exact ih.2 txn ht
  | step _ hop _ hs ih =>
    have hn := (logs_step hop hs).nextTxid
    exact ⟨by omega, ih.2⟩

theorem Session.maxTxns {P : List Int → EngineOp → Prop} (h : eng.Session lz4 P eng' begun) :
    eng'.maxTxns = eng.maxTxns ∧ ∀ txn ∈ begun, 0 < eng.maxTxns := by
  induction h with
  | refl => exact ⟨rfl, by simp⟩
  | begin _ hb _ ih =>
    obtain ⟨hpos, heq⟩ := hb.maxTxns
    rw [ih.1] at hpos heq
    exact ⟨heq, fun _ _ => hpos⟩
  | step _ hop _ hs ih => exact ⟨(logs_step hop hs).maxTxns.trans ih.1, ih.2⟩

end Engine

end Garry
