import Garry.Library.SlotArray
import Garry.Model.Recovery

/-!
# The transaction arrays (`transaction.c`)

`active_txns` and `txn_states` run in parallel, and `active_count` says how many of their elements
are in use. `Engine.txns` is what they hold; here they are as the source has them.
-/

namespace Garry

open SlotArray

/-- `active_txns`, `txn_states` and `active_count`. -/
structure TxnSlots where
  activeTxns : Nat → Int
  txnStates : Nat → TxnInfo
  activeCount : Nat

namespace TxnSlots

/-- `find_txn_slot`. -/
def findTxnSlot (slots : TxnSlots) (txn : Int) : Option Nat :=
  (List.range slots.activeCount).find? fun i => slots.activeTxns i = txn

/-- `remove_active_txn`. -/
def removeActiveTxn (slots : TxnSlots) (txn : Int) : TxnSlots :=
  match (List.range slots.activeCount).find? fun i => slots.activeTxns i = txn with
  | none => slots
  | some i => {
      activeTxns := shiftDown slots.activeTxns i (slots.activeCount - 1 - i)
      txnStates := shiftDown slots.txnStates i (slots.activeCount - 1 - i)
      activeCount := slots.activeCount - 1 }

/-- A store into `txn_states[slot]`. -/
def setState (slots : TxnSlots) (slot : Nat) (info : TxnInfo) : TxnSlots :=
  { slots with txnStates := Function.update slots.txnStates slot info }

/-- The modified page that `garry_mvcc_set` and `garry_mvcc_delete` record. -/
def addModified (slots : TxnSlots) (txn chainPageId : Int) : TxnSlots :=
  match slots.findTxnSlot txn with
  | none => slots
  | some slot =>
    let info := slots.txnStates slot
    if info.modifiedPages.length < maxModifiedPages then
      slots.setState slot { info with modifiedPages := info.modifiedPages ++ [chainPageId] }
    else slots

end TxnSlots

/-- The fields of `garry_engine_handle` that the functions of transactions use. -/
structure SlotEngine where
  pool : Pool
  pageSize : Nat
  maxTxns : Int
  nextTxid : Int
  slots : TxnSlots
  lockMgr : List LockNode

namespace SlotEngine

/-- The largest object. -/
abbrev ptrdiffMax : Nat := 9223372036854775807

/-- `sizeof(..) * settings.max_txns * 64` as a `size_t`. -/
def allocSize (elem : Nat) (maxTxns : Int) : Nat := ((elem * maxTxns * 64) % 18446744073709551616).toNat

/-- `sizeof(garry_txn_id)` and `sizeof(garry_txn_info)`. -/
abbrev txnIdSize : Nat := 4
abbrev txnInfoSize : Nat := 76

/-- `garry_engine_init`. Of which sizes `malloc` returns an object, and what the object holds, is up to
it; that it clears the first elements makes no difference with a count of 0. -/
def engineInit (malloc : Nat → Bool) (activeTxns : Nat → Int) (txnStates : Nat → TxnInfo)
    (file : DataFile) (wal : Bytes) (env : PoolEnv) (settings : EngineSettings) :
    Option SlotEngine :=
  if malloc (allocSize txnIdSize settings.maxTxns) &&
      malloc (allocSize txnInfoSize settings.maxTxns) then
    (Engine.engineInit file wal env settings).map fun eng => {
      pool := eng.pool
      pageSize := eng.pageSize
      maxTxns := eng.maxTxns
      nextTxid := eng.nextTxid
      slots := ⟨activeTxns, txnStates, 0⟩
      lockMgr := eng.lockMgr }
  else none

/-- `garry_mvcc_begin`: the transaction id, or `-1`. -/
def mvccBegin (eng : SlotEngine) : Int × SlotEngine :=
  let activeNonRb := (List.range eng.slots.activeCount).countP fun i =>
    (eng.slots.txnStates i).state ≠ .rolledBack
  if (activeNonRb : Int) ≥ eng.maxTxns then (-1, eng)
  else if (eng.slots.activeCount : Int) ≥ eng.maxTxns * 64 then (-1, eng)
  else
    let txn := eng.nextTxid
    let slot := eng.slots.activeCount
    (txn, { eng with
      nextTxid := txn + 1
      slots := {
        activeTxns := Function.update eng.slots.activeTxns slot txn
        txnStates := Function.update eng.slots.txnStates slot ⟨txn, .active, []⟩
        activeCount := slot + 1 } })

/-- `garry_mvcc_commit`. -/
def mvccCommit (eng : SlotEngine) (txn : Int) : SlotEngine :=
  let (slots, pages) :=
    match eng.slots.findTxnSlot txn with
    | some slot =>
      let info := eng.slots.txnStates slot
      ((eng.slots.setState slot { info with state := .committed, modifiedPages := [] }).removeActiveTxn
        txn, info.modifiedPages.take maxModifiedPages)
    | none => (eng.slots, [])
  { eng with
    slots := slots
    lockMgr := lockRelease eng.lockMgr txn
    pool := pages.foldl Pool.flushPage eng.pool }

/-- `garry_mvcc_rollback`. -/
def mvccRollback (eng : SlotEngine) (txn : Int) : SlotEngine :=
  let slots :=
    match eng.slots.findTxnSlot txn with
    | some slot => eng.slots.setState slot
        { eng.slots.txnStates slot with state := .rolledBack, modifiedPages := [] }
    | none => eng.slots
  { eng with
    slots := slots
    lockMgr := lockRelease eng.lockMgr txn }

/-- `garry_mvcc_set`. -/
def mvccSet (eng : SlotEngine) (txn chainPageId : Int) (value : Bytes) : Bool × SlotEngine :=
  match eng.pool.pinPage chainPageId with
  | none => (false, eng)
  | some buf =>
    let (ok, pool) :=
      if value.length > chainInlineCapacity eng.pageSize then
        let (head, pool) := overflowWrite eng.pool value
        if head < 0 then (none, pool)
        else (chainPageAppendOverflow (pool.pages chainPageId) txn value.length head, pool)
      else (chainPageAppend buf eng.pageSize txn value, eng.pool)
    match ok with
    | none => (false, { eng with pool := pool })
    | some buf => (true, { eng with
        pool := (pool.setPage chainPageId buf).markDirty chainPageId
        slots := eng.slots.addModified txn chainPageId })

/-- `garry_mvcc_delete`. -/
def mvccDelete (eng : SlotEngine) (txn chainPageId : Int) : Bool × SlotEngine :=
  match eng.pool.pinPage chainPageId with
  | none => (false, eng)
  | some buf =>
    match chainPageAppendTombstone buf txn with
    | none => (false, eng)
    | some buf => (true, { eng with
        pool := (eng.pool.setPage chainPageId buf).markDirty chainPageId
        slots := eng.slots.addModified txn chainPageId })

end SlotEngine

/-- A call of a function of transactions; a begin with the id that it returns. -/
inductive TxnCall
  | begin (txn : Int)
  | commit (txn : Int)
  | rollback (txn : Int)
  | set (txn chainPageId : Int) (value : Bytes)
  | delete (txn chainPageId : Int)

end Garry
