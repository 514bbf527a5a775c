import Garry.Model.Recovery

/-!
# The exits of `garry_engine_open` (`transaction.c`, `db_header.c`)
-/

namespace Garry

/-- `garry_validate_db_header`. -/
def validateDbHeader (hdr : DbHeader) : Bool :=
  if hdr.magic ≠ dbMagic then false
  else if hdr.version ≠ dbVersion then false
  else if hdr.pageSize < minPageSize then false
  else if hdr.pageSize > maxPageSize then false
  else if hdr.maxTxns ≤ 0 then false
  else if hdr.maxVersions ≤ 0 then false
  else true

/-- What else decides whether a database opens: the memory of the pool, its frames, the memory of the
arrays for `max_txns` transactions, and the log file. -/
structure OpenEnv where
  poolFails : Bool
  frames : PoolEnv
  arraysFail : Int → Bool
  logFails : Bool

/-- What `garry_engine_open` returns; with `NULL` what it leaves of the data file and the log. -/
inductive OpenResult
  | handle (eng : Engine)
  | null (file : DataFile) (log : Bytes)

namespace Engine

/-- `garry_pool_close` on the way out. -/
def closeNull (eng : Engine) : OpenResult := .null eng.pool.flushAll.file eng.wal.bytes

/-- `garry_engine_open` with every exit; `none` when the recovery does not end. -/
def engineOpenExits (lz4 : Lz4) (file : DataFile) (log : Bytes) (env : OpenEnv) : Option OpenResult :=
  if env.poolFails then some (.null file log)
  else
    match loadEngine file log env.frames with
    | none => some (.null file log)
    | some eng =>
      if env.arraysFail eng.maxTxns then some eng.closeNull
      else if env.logFails then some eng.closeNull
      else (eng.walRecover lz4).map fun (ok, eng) => if ok then .handle eng else eng.closeNull

end Engine

end Garry
