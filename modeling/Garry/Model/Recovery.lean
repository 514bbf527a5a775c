import Garry.Model.Engine

/-!
# Opening, closing and recovery (`transaction.c`, `storage_engine.c`, `wal_recovery.c`,
`wal_checkpoint.c`, `gc.c`)

What survives a crash is the data file and the log file.
-/

namespace Garry

open ByteStore

namespace Engine

/-! ## Recovery -/

/-- The first pass of `garry_wal_recover`: the committed transactions, and the transaction counter
above them. -/
def collectCommits (eng : Engine) (records : List Bytes) : List Int × Engine :=
  let committed := (records.filter fun data => recKind data = WalKind.commit.code).map recTxid
  (committed, { eng with
    nextTxid := committed.foldl (fun next txid => if txid + 1 > next then txid + 1 else next)
      eng.nextTxid })

/-- The value of an update record, when it can be read. -/
def recValue (pool : Pool) (data : Bytes) : Option Bytes :=
  let vlen := readInt32 data.toBuffer walRecVlenOff
  if vlen < 0 ∨ vlen > maxRecordSize then none
  else if readInt32 data.toBuffer walRecNewOverflowFlagOff ≠ 0 then
    overflowRead pool (readInt32 data.toBuffer walRecNewOverflowHeadOff) vlen.toNat
  else if walRecNewOff + vlen > walRecordSize then none
  else some (slice data.toBuffer walRecNewOff vlen.toNat)

/-- The key of a record, when its length is in range. -/
def recKey (data : Bytes) : Option Bytes :=
  let klen := readInt32 data.toBuffer walRecKlenOff
  if klen < 0 ∨ klen > maxRecordSize then none
  else if walRecKeyOff + klen > walRecordSize then none
  else some (slice data.toBuffer walRecKeyOff klen.toNat)

/-- The replay of a committed update of `key`. -/
def replayUpdate (lz4 : Lz4) (eng : Engine) (txid : Int) (key val : Bytes) :
    Option (Bool × Engine) :=
  match leafFindSearch eng.pool eng.btreeRoot key with
  | none => none
  | some (some lookup) =>
    -- The key is there already: its chain page only counts for `next_page`.
    let chainId := (decodeDescriptor lookup.toBuffer lookup.length).1
    some (true,
      if chainId + 1 > eng.pool.nextPage then
        { eng with pool := { eng.pool with nextPage := chainId + 1 } }
      else eng)
  | some none =>
    let (cid, eng) := eng.chainAllocate
    if cid < 0 then some (false, eng)
    else
      match btreeInsert eng.pool eng.btreeRoot key (encodeDescriptor cid false) with
      | none => none
      | some (_, pool, root) =>
        let eng := { eng with pool := pool, btreeRoot := root }
        match if eng.compression = compressLz4 then lz4.compress val else some val with
        | none => some (false, eng)
        | some val => some (eng.mvccSet txid cid val)

/-- The replay of a committed delete of `key`. -/
def replayDelete (eng : Engine) (txid : Int) (key : Bytes) : Option (Bool × Engine) :=
  (leafFindSearch eng.pool eng.btreeRoot key).map fun lookup =>
    match lookup with
    | none => (true, eng)
    | some lookup =>
      (true, (eng.mvccDelete txid (decodeDescriptor lookup.toBuffer lookup.length).1).2)

/-- The second pass of `garry_wal_recover` for one record. -/
def replayRecord (lz4 : Lz4) (committed : List Int) (eng : Engine) (data : Bytes) :
    Option (Bool × Engine) :=
  let kind := recKind data
  let txid := recTxid data
  if kind ≠ WalKind.update.code ∧ kind ≠ WalKind.delete.code then some (true, eng)
  else if txid ∉ committed then some (true, eng)
  else
    match recKey data with
    | none => some (true, eng)
    | some key =>
      if kind = WalKind.delete.code then eng.replayDelete txid key
      else
        match recValue eng.pool data with
        | none => some (true, eng)
        | some val => eng.replayUpdate lz4 txid key val

/-- The second pass of `garry_wal_recover`. -/
def replay (lz4 : Lz4) (committed : List Int) : Engine → List Bytes → Option (Bool × Engine)
  | eng, [] => some (true, eng)
  | eng, data :: records =>
    match eng.replayRecord lz4 committed data with
    | none => none
    | some (false, eng) => some (false, eng)
    | some (true, eng) => replay lz4 committed eng records

/-- `garry_wal_recover`. -/
def walRecover (lz4 : Lz4) (eng : Engine) : Option (Bool × Engine) :=
  let records := walRecords eng.wal.bytes
  let (committed, eng) := eng.collectCommits records
  { eng with wal := eng.wal.atEnd }.replay lz4 committed records

/-! ## Opening and closing -/

/-- The header is stored in its page. -/
def storeHeader (eng : Engine) : Engine :=
  match eng.pool.pinPage headerPage with
  | none => eng
  | some buf =>
    { eng with
      pool := (eng.pool.setPage headerPage (writeDbHeader buf eng.header)).markDirty headerPage }

/-- The root page of a new database becomes an empty leaf. -/
def initRoot (eng : Engine) : Engine :=
  match eng.pool.pinPage eng.btreeRoot with
  | none => eng
  | some _ =>
    let rootNode := loadNode eng.pool eng.btreeRoot
    if rootNode.entryCount = 0 ∧ rootNode.kind ≠ .leaf then
      { eng with pool := storeDirty eng.pool eng.btreeRoot emptyNode }
    else eng

/-- `garry_engine_init` on the data file and the log file. -/
def engineInit (file : DataFile) (wal : Bytes) (env : PoolEnv) (settings : EngineSettings) :
    Option Engine :=
  (Pool.create file settings.pageSize.toNat env).map fun pool =>
    let header := createDbHeader settings
    let eng : Engine := {
      pool := { pool with nextPage := firstPageId, freeListHead := -1 }
      pageSize := settings.pageSize.toNat
      compression := settings.compression
      maxTxns := settings.maxTxns
      nextTxid := 1
      btreeRoot := header.rootPage
      header := header
      txns := []
      lockMgr := []
      wal := walLogInit wal
      keyCount := 0 }
    let eng := eng.storeHeader.initRoot
    let eng := { eng with
      header := { eng.header with
        freeListHead := eng.pool.freeListHead
        totalPages := eng.pool.nextPage } }.storeHeader
    { eng with pool := eng.pool.flushAll }

/-- The page size `garry_engine_open` takes from the raw header; the raw read is one of the largest
page. -/
def openPageSize (file : DataFile) : Nat :=
  let pageSize := (readDbHeader (file.readPage maxPageSize headerPage)).pageSize
  if pageSize < minPageSize ∨ pageSize > maxPageSize then defaultPageSize else pageSize.toNat

/-- `garry_engine_open` before the log is replayed. -/
def loadEngine (file : DataFile) (wal : Bytes) (env : PoolEnv) : Option Engine := do
  let pool ← Pool.create file (openPageSize file) env
  let buf ← pool.pinPage headerPage
  let header := readDbHeader buf
  some {
    pool := { pool with nextPage := header.totalPages, freeListHead := header.freeListHead }
    pageSize := header.pageSize.toNat
    compression := header.compression
    maxTxns := header.maxTxns
    nextTxid := header.nextTxid
    btreeRoot := header.rootPage
    header := header
    txns := []
    lockMgr := []
    wal := walLogInit wal
    keyCount := 0 }

/-- `garry_engine_open` on the data file and the log file: it fails with `false` when the recovery
does. -/
def engineOpen (lz4 : Lz4) (file : DataFile) (wal : Bytes) (env : PoolEnv) :
    Option (Bool × Engine) :=
  (loadEngine file wal env).bind fun eng => eng.walRecover lz4

/-- `garry_engine_close`: what is left in the pool. -/
def engineClose (eng : Engine) : Engine :=
  let eng := { eng with
    header := { eng.header with
      freeListHead := eng.pool.freeListHead
      totalPages := eng.pool.nextPage
      nextTxid := eng.nextTxid } }.storeHeader
  { eng with pool := eng.pool.flushAll }

/-- `garry_storage_close`. -/
def storageClose (eng : Engine) : Engine :=
  let eng := { eng with
    header := { eng.header with
      rootPage := eng.btreeRoot
      totalPages := eng.pool.nextPage
      nextTxid := eng.nextTxid } }.storeHeader
  eng.engineClose

/-! ## Garbage collection and checkpoints -/

/-- `garry_mvcc_gc` for one page. -/
def gcPage (eng : Engine) (pid : Int) : Option Engine :=
  match eng.pool.tryPin pid with
  | none => some eng
  | some buf =>
    if readInt32 buf pageHdrOffType = NodeKind.chain.code then
      (chainPagePrune eng.pool buf eng.pageSize eng.activeTxns).map fun (pool, buf) =>
        { eng with pool := (pool.setPage pid buf).markDirty pid }
    else some eng

/-- `garry_mvcc_gc`. -/
def mvccGc (eng : Engine) : Option Engine :=
  (List.range' 1 (eng.header.totalPages - 1).toNat).foldlM (fun eng (pid : Nat) => eng.gcPage pid) eng

/-- `garry_wal_checkpoint`: the sequence number and the engine; the descriptor of the log stays where
it was. -/
def walCheckpoint (eng : Engine) : Option (Int × Engine) :=
  eng.mvccGc.map fun eng' =>
    (eng.wal.lastLsn, { eng' with
      pool := eng'.pool.flushAll
      wal := { eng'.wal with bytes := [], lastLsn := 0 } })

end Engine

end Garry
