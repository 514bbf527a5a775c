import Garry.Model.Engine

/-!
# Log writes that fail (`wal_record.c`, `wal_log.c`)

A log record may find no memory, and its write may stop short. The calls that append a record do
not look at the result.
-/

namespace Garry

/-- What becomes of the log record of a call: whether memory for it is found, and how many of its
bytes the file takes. -/
structure LogWrite where
  found : Bool
  taken : Nat
deriving DecidableEq, Repr

/-- The record is made and written whole. -/
def LogWrite.Whole (w : LogWrite) : Prop := w.found = true ∧ walRecordSize ≤ w.taken

instance (w : LogWrite) : Decidable w.Whole := inferInstanceAs (Decidable (_ ∧ _))

/-- `garry_wal_log_append` when `write` takes `taken` bytes: the sequence number, or `-1`. -/
def walLogAppendShort (wal : WalLog) (record : WalRecord) (taken : Nat) : Int × WalLog :=
  if walRecordSize ≤ taken then walLogAppend wal record
  else if taken = 0 then (-1, wal)
  else
    (-1, { wal with
      bytes := (wal.bytes ++ List.replicate (wal.offset - wal.bytes.length) 0).take wal.offset ++
        (record.encode.take taken ++ wal.bytes.drop (wal.offset + taken))
      offset := wal.offset + taken })

namespace Engine

/-- A record that was made goes to the log. -/
def appendWith (w : LogWrite) (eng : Engine) : Option WalRecord → Engine
  | some record => { eng with wal := (walLogAppendShort eng.wal record w.taken).2 }
  | none => eng

/-- A record without a value goes to the log. -/
def logWith (w : LogWrite) (eng : Engine) (record : WalRecord) : Engine :=
  eng.appendWith w (if w.found then some record else none)

/-- `garry_make_update_record`, which looks for memory first. -/
def makeUpdateWith (w : LogWrite) (pool : Pool) (txn : Int) (key value : Bytes) :
    Option WalRecord × Pool :=
  if w.found then makeUpdateRecord pool txn key value else (none, pool)

/-- The second half of `garry_storage_set`. -/
def setVersionWith (lz4 : Lz4) (w : LogWrite) (eng : Engine) (txn cid : Int) (key value : Bytes)
    (newKey : Bool) : Bool × Engine :=
  let (record, pool) := makeUpdateWith w eng.pool txn key value
  let eng := { eng with pool := pool }.appendWith w record
  match if eng.compression = compressLz4 then lz4.compress value else some value with
  | none => (false, eng)
  | some value =>
    let (ok, eng) := eng.mvccSet txn cid value
    if ok then (true, { eng with keyCount := if newKey then eng.keyCount + 1 else eng.keyCount })
    else (false, eng)

/-- `garry_storage_set`. -/
def storageSetWith (lz4 : Lz4) (w : LogWrite) (eng : Engine) (txn : Int) (key value : Bytes) :
    Option (Bool × Engine) :=
  if key.length = 0 ∨ key.length > maxKeySize then some (false, eng)
  else if eng.txnIsActive txn = false then some (false, eng)
  else
    match lockAcquire eng.lockMgr txn key .exclusive with
    | none => some (false, eng)
    | some lockMgr =>
      let eng := { eng with lockMgr := lockMgr }
      match leafFindSearch eng.pool eng.btreeRoot key with
      | none => none
      | some (some lookup) =>
        some (eng.setVersionWith lz4 w txn (decodeCidFromDescriptor lookup.toBuffer) key value false)
      | some none =>
        let (cid, eng) := eng.chainAllocate
        if cid < 0 then some (false, eng)
        else
          match btreeInsert eng.pool eng.btreeRoot key (encodeDescriptor cid false) with
          | none => none
          | some (inserted, pool, root) =>
            let eng := { eng with pool := pool, btreeRoot := root }
            if inserted then some (eng.setVersionWith lz4 w txn cid key value true)
            else some (false, { eng with pool := eng.pool.freePage cid })

/-- `garry_storage_delete`. -/
def storageDeleteWith (w : LogWrite) (eng : Engine) (txn : Int) (key : Bytes) :
    Option (Bool × Engine) :=
  if key.length = 0 then some (false, eng)
  else if eng.txnIsActive txn = false then some (false, eng)
  else
    match lockAcquire eng.lockMgr txn key .exclusive with
    | none => some (false, eng)
    | some lockMgr =>
      let eng := { eng with lockMgr := lockMgr }
      match leafFindSearch eng.pool eng.btreeRoot key with
      | none => none
      | some none => some (false, eng)
      | some (some lookup) =>
        let cid := decodeCidFromDescriptor lookup.toBuffer
        if cid < 0 then some (false, eng)
        else some ((eng.logWith w (makeDeleteRecord txn key)).mvccDelete txn cid)

/-- `garry_storage_commit`. -/
def storageCommitWith (w : LogWrite) (eng : Engine) (txn : Int) : Engine :=
  let eng := eng.logWith w (makeCommitRecord txn)
  { eng with lockMgr := lockRelease eng.lockMgr txn }.mvccCommit txn

/-- `garry_storage_rollback`. -/
def storageRollbackWith (w : LogWrite) (eng : Engine) (txn : Int) : Engine :=
  let eng := eng.logWith w (makeAbortRecord txn)
  { eng with lockMgr := lockRelease eng.lockMgr txn }.mvccRollback txn

/-! ## Whole writes -/

variable {lz4 : Lz4} {w : LogWrite} {eng : Engine}

theorem appendWith_whole (h : w.Whole) (record : WalRecord) :
    eng.appendWith w (some record) = eng.appendWal record := by
  rw [appendWith, walLogAppendShort, if_pos h.2]
  rfl

theorem logWith_whole (h : w.Whole) (record : WalRecord) :
    eng.logWith w record = eng.appendWal record := by
  rw [logWith, h.1, if_pos rfl, appendWith_whole h]

theorem setVersionWith_whole (h : w.Whole) :
    setVersionWith lz4 w = setVersion lz4 := by
  funext eng txn cid key value newKey
  have hmade {eng : Engine} (record : Option WalRecord) : eng.appendWith w record =
      eng.appendMade record := by
    cases record with
    | none => rfl
    | some record => exact appendWith_whole h record
  simp only [setVersionWith, makeUpdateWith, h.1, if_true, hmade]
  rfl

theorem storageSetWith_whole (h : w.Whole) : storageSetWith lz4 w = storageSet lz4 := by
  funext eng txn key value
  rw [storageSetWith, setVersionWith_whole h]
  rfl

theorem storageDeleteWith_whole (h : w.Whole) : storageDeleteWith w = storageDelete := by
  funext eng txn key
  simp only [storageDeleteWith, logWith_whole h]
  rfl

theorem storageCommitWith_whole (h : w.Whole) : storageCommitWith w = storageCommit := by
  funext eng txn
  simp only [storageCommitWith, logWith_whole h, storageCommit]

theorem storageRollbackWith_whole (h : w.Whole) : storageRollbackWith w = storageRollback := by
  funext eng txn
  simp only [storageRollbackWith, logWith_whole h, storageRollback]

end Engine

end Garry
