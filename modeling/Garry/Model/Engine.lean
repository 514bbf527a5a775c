import Garry.Model.BtreeModify
import Garry.Model.Wal
import Garry.Model.DbHeader

/-!
# The engine (`transaction.c`, `lock_table.c`, `storage_ops.c`, `storage_txn.c`)

Calls are atomic, as the engine's locks make them. A result of `none` means that a descent of the
tree or the release of an overflow chain does not end.
-/

namespace Garry

/-! ## Locks -/

/-- `garry_lock_mode`. -/
inductive LockMode
  | shared | exclusive
deriving DecidableEq, Repr

/-- `garry_lock_node`. -/
structure LockNode where
  key : Bytes
  txn : Int
  mode : LockMode
deriving DecidableEq, Repr

/-- `garry_lock_held`. -/
def lockHeld (mgr : List LockNode) (txn : Int) (key : Bytes) : Bool :=
  mgr.any fun p => p.txn = txn ∧ p.key = key

/-- `garry_has_conflict`. -/
def hasConflict (mgr : List LockNode) (txn : Int) (key : Bytes) (mode : LockMode) : Bool :=
  mgr.any fun p => p.key = key ∧ p.txn ≠ txn ∧ (p.mode = .exclusive ∨ mode = .exclusive)

/-- `garry_lock_acquire`: the locks when it succeeds. -/
def lockAcquire (mgr : List LockNode) (txn : Int) (key : Bytes) (mode : LockMode) :
    Option (List LockNode) :=
  if lockHeld mgr txn key then some mgr
  else if hasConflict mgr txn key mode then none
  else if key.length > maxKeySize then none
  else some (⟨key, txn, mode⟩ :: mgr)

/-- `garry_lock_release`. -/
def lockRelease (mgr : List LockNode) (txn : Int) : List LockNode := mgr.filter fun p => p.txn ≠ txn

/-! ## Transactions -/

abbrev maxModifiedPages : Nat := 16

/-- `garry_txn_state`. -/
inductive TxnState
  | active | committed | rolledBack
deriving DecidableEq, Repr

/-- An index of `active_txns` and `txn_states`, with the modified pages counted so far. -/
structure TxnInfo where
  txid : Int
  state : TxnState
  modifiedPages : List Int
deriving DecidableEq, Repr

/-- `lz4_compress`, and `lz4_decompress` with the capacity of a record. -/
structure Lz4 where
  compress : Bytes → Option Bytes
  decompress : Bytes → Option Bytes

/-- `garry_engine_handle`; `txns` holds the `active_count` entries of the transaction arrays. -/
structure Engine where
  pool : Pool
  pageSize : Nat
  compression : Int
  maxTxns : Int
  nextTxid : Int
  btreeRoot : Int
  header : DbHeader
  txns : List TxnInfo
  lockMgr : List LockNode
  wal : WalLog
  keyCount : Int

/-- The update of the first entry of a transaction, which `find_txn_slot` returns. -/
def updateTxn (f : TxnInfo → TxnInfo) (txn : Int) : List TxnInfo → List TxnInfo
  | [] => []
  | info :: txns => if info.txid = txn then f info :: txns else info :: updateTxn f txn txns

namespace Engine

/-- `active_txns`. -/
def activeTxns (eng : Engine) : List Int := eng.txns.map TxnInfo.txid

/-- `find_txn_slot`. -/
def findTxn (eng : Engine) (txn : Int) : Option TxnInfo := eng.txns.find? fun info => info.txid = txn

/-- `garry_txn_is_active`. -/
def txnIsActive (eng : Engine) (txn : Int) : Bool :=
  (eng.findTxn txn).any fun info => info.state ≠ .rolledBack

/-- `garry_mvcc_begin`: the transaction id, or `-1`. -/
def mvccBegin (eng : Engine) : Int × Engine :=
  let activeNonRb := eng.txns.countP fun info => info.state ≠ .rolledBack
  if (activeNonRb : Int) ≥ eng.maxTxns then (-1, eng)
  else if (eng.txns.length : Int) ≥ eng.maxTxns * 64 then (-1, eng)
  else
    let txn := eng.nextTxid
    (txn, { eng with nextTxid := txn + 1, txns := eng.txns ++ [⟨txn, .active, []⟩] })

/-- `garry_mvcc_commit`. -/
def mvccCommit (eng : Engine) (txn : Int) : Engine :=
  let pages :=
    match eng.findTxn txn with
    | some info => info.modifiedPages.take maxModifiedPages
    | none => []
  { eng with
    txns := eng.txns.eraseP fun info => info.txid = txn
    lockMgr := lockRelease eng.lockMgr txn
    pool := pages.foldl Pool.flushPage eng.pool }

/-- `garry_mvcc_rollback`: the transaction stays on the list. -/
def mvccRollback (eng : Engine) (txn : Int) : Engine :=
  { eng with
    txns := updateTxn (fun info => { info with state := .rolledBack, modifiedPages := [] }) txn
      eng.txns
    lockMgr := lockRelease eng.lockMgr txn }

/-- `garry_mvcc_get`. -/
def mvccGet (eng : Engine) (txn chainPageId : Int) : Option Bytes :=
  (eng.pool.pinPage chainPageId).bind fun buf =>
    chainPageFindVisible eng.pool buf eng.pageSize txn eng.activeTxns

/-- `garry_mvcc_exists`. -/
def mvccExists (eng : Engine) (txn chainPageId : Int) : Bool :=
  (eng.pool.pinPage chainPageId).any fun buf =>
    chainPageHasVisible buf eng.pageSize txn eng.activeTxns

/-- A chain page is changed: it is dirty, and the transaction remembers it if it has room. -/
def changeChain (eng : Engine) (txn chainPageId : Int) (buf : PageBuffer) : Engine :=
  { eng with
    pool := (eng.pool.setPage chainPageId buf).markDirty chainPageId
    txns := updateTxn (fun info => { info with
      modifiedPages :=
        if info.modifiedPages.length < maxModifiedPages then info.modifiedPages ++ [chainPageId]
        else info.modifiedPages }) txn eng.txns }

/-- `garry_mvcc_set`; the page is looked at again after the overflow pages are written. -/
def mvccSet (eng : Engine) (txn chainPageId : Int) (value : Bytes) : Bool × Engine :=
  match eng.pool.pinPage chainPageId with
  | none => (false, eng)
  | some buf =>
    if value.length > chainInlineCapacity eng.pageSize then
      let (head, pool) := overflowWrite eng.pool value
      let eng := { eng with pool := pool }
      if head < 0 then (false, eng)
      else
        match chainPageAppendOverflow (pool.pages chainPageId) txn value.length head with
        | none => (false, eng)
        | some buf => (true, eng.changeChain txn chainPageId buf)
    else
      match chainPageAppend buf eng.pageSize txn value with
      | none => (false, eng)
      | some buf => (true, eng.changeChain txn chainPageId buf)

/-- `garry_mvcc_delete`. -/
def mvccDelete (eng : Engine) (txn chainPageId : Int) : Bool × Engine :=
  match eng.pool.pinPage chainPageId with
  | none => (false, eng)
  | some buf =>
    match chainPageAppendTombstone buf txn with
    | none => (false, eng)
    | some buf => (true, eng.changeChain txn chainPageId buf)

/-- `garry_chain_allocate`: the page id, or `-1`. -/
def chainAllocate (eng : Engine) : Int × Engine :=
  let (pid, pool) := eng.pool.allocate
  if pid < 0 then (-1, { eng with pool := pool })
  else
    match pool.pinPage pid with
    | none => (-1, { eng with pool := pool })
    | some buf =>
      (pid, { eng with
        pool := (pool.setPage pid (chainPageInit buf eng.pageSize)).markDirty pid })

/-! ## Reads and writes by key -/

/-- `garry_storage_begin`. -/
def storageBegin (eng : Engine) : Int × Engine := eng.mvccBegin

def appendWal (eng : Engine) (record : WalRecord) : Engine :=
  { eng with wal := (walLogAppend eng.wal record).2 }

/-- A record that could be made goes to the log. -/
def appendMade (eng : Engine) : Option WalRecord → Engine
  | some record => eng.appendWal record
  | none => eng

/-- `garry_storage_commit`. -/
def storageCommit (eng : Engine) (txn : Int) : Engine :=
  let eng := eng.appendWal (makeCommitRecord txn)
  { eng with lockMgr := lockRelease eng.lockMgr txn }.mvccCommit txn

/-- `garry_storage_rollback`. -/
def storageRollback (eng : Engine) (txn : Int) : Engine :=
  let eng := eng.appendWal (makeAbortRecord txn)
  { eng with lockMgr := lockRelease eng.lockMgr txn }.mvccRollback txn

/-- `garry_storage_get`. -/
def storageGet (lz4 : Lz4) (eng : Engine) (txn : Int) (key : Bytes) : Option (Option Bytes) :=
  if key.length = 0 ∨ key.length > maxKeySize then some none
  else if eng.txnIsActive txn = false then some none
  else
    (leafFindSearch eng.pool eng.btreeRoot key).map fun lookup => do
      let cid := decodeCidFromDescriptor (← lookup).toBuffer
      if cid < 0 then none
      else
        let val ← eng.mvccGet txn cid
        if eng.compression = compressLz4 then
          (lz4.decompress val).filter fun val => val.length ≤ maxRecordSize
        else some val

/-- The second half of `garry_storage_set`: the log record and the new version of a key whose chain
page is known. -/
def setVersion (lz4 : Lz4) (eng : Engine) (txn cid : Int) (key value : Bytes) (newKey : Bool) :
    Bool × Engine :=
  let (record, pool) := makeUpdateRecord eng.pool txn key value
  let eng := { eng with pool := pool }.appendMade record
  match if eng.compression = compressLz4 then lz4.compress value else some value with
  | none => (false, eng)
  | some value =>
    let (ok, eng) := eng.mvccSet txn cid value
    if ok then (true, { eng with keyCount := if newKey then eng.keyCount + 1 else eng.keyCount })
    else (false, eng)

/-- `garry_storage_set`. -/
def storageSet (lz4 : Lz4) (eng : Engine) (txn : Int) (key value : Bytes) :
    Option (Bool × Engine) :=
  if key.length = 0 ∨ key.length > maxKeySize then some (false, eng)
  else if eng.txnIsActive txn = false then some (false, eng)
  else
    match lockAcquire eng.lockMgr txn key .exclusive with
    | none => some (false, eng)
    | some lockMgr =>
      let eng := { eng with lockMgr := lockMgr }
      match leafFindSearch eng.pool eng.btreeRoot key with
      | none => none
      | some (some lookup) =>
        some (eng.setVersion lz4 txn (decodeCidFromDescriptor lookup.toBuffer) key value false)
      | some none =>
        let (cid, eng) := eng.chainAllocate
        if cid < 0 then some (false, eng)
        else
          match btreeInsert eng.pool eng.btreeRoot key (encodeDescriptor cid false) with
          | none => none
          | some (inserted, pool, root) =>
            let eng := { eng with pool := pool, btreeRoot := root }
            if inserted then some (eng.setVersion lz4 txn cid key value true)
            else some (false, { eng with pool := eng.pool.freePage cid })

/-- `garry_storage_delete`. -/
def storageDelete (eng : Engine) (txn : Int) (key : Bytes) : Option (Bool × Engine) :=
  if key.length = 0 then some (false, eng)
  else if eng.txnIsActive txn = false then some (false, eng)
  else
    match lockAcquire eng.lockMgr txn key .exclusive with
    | none => some (false, eng)
    | some lockMgr =>
      let eng := { eng with lockMgr := lockMgr }
      match leafFindSearch eng.pool eng.btreeRoot key with
      | none => none
      | some none => some (false, eng)
      | some (some lookup) =>
        let cid := decodeCidFromDescriptor lookup.toBuffer
        if cid < 0 then some (false, eng)
        else some ((eng.appendWal (makeDeleteRecord txn key)).mvccDelete txn cid)

end Engine

end Garry
