import Garry.Verify.EngineRun

/-!
# Transaction ids across a crash

Recovery takes the transaction counter of the header and raises it above the ids of the commit
records. Nothing else that survives a crash counts: not the ids of updates, deletes and aborts, and
not those of the versions on chain pages.
-/

namespace Garry

open ByteStore

/-- The transactions of the records of a log. -/
def walTxids (bytes : Bytes) : List Int := (walRecords bytes).map recTxid

/-- The transactions with a commit record. -/
def walCommits (bytes : Bytes) : List Int :=
  ((walRecords bytes).filter fun data => recKind data = WalKind.commit.code).map recTxid

/-- The transaction has a version on a chain page of the file. -/
def ChainTxid (file : DataFile) (pageSize : Nat) (txid : Int) : Prop :=
  ∃ (pid : Int) (i : Nat) (recData : Bytes), 0 ≤ pid ∧
    readInt32 (file.readPage pageSize pid) pageHdrOffType = NodeKind.chain.code ∧
    pageGet (file.readPage pageSize pid) i pageSize = some recData ∧
    chainEntryHeaderSize ≤ recData.length ∧ (readVersion recData).txidCreated = txid

/-- The transaction left something that survives a crash. -/
def LeftTraces (file : DataFile) (wal : Bytes) (txid : Int) : Prop :=
  txid ∈ walTxids wal ∨ ChainTxid file (Engine.openPageSize file) txid

/-- The header that an engine opened on the file has. -/
def fileHeader (file : DataFile) : DbHeader :=
  readDbHeader (file.readPage (Engine.openPageSize file) headerPage)

/-- The commit records and the header of a crash image tell that the id is taken. -/
def Covered (file : DataFile) (wal : Bytes) (txid : Int) : Prop :=
  txid < (fileHeader file).nextTxid ∨ ∃ c ∈ walCommits wal, txid ≤ c

theorem LeftTraces.fits32 (h : LeftTraces file wal txid) : Fits32 txid := by
  rcases h with h | ⟨pid, i, recData, -, -, -, -, rfl⟩
  · obtain ⟨data, -, rfl⟩ := List.mem_map.mp h
    exact fits32_getWord ..
  · exact fits32_getWord ..

/-! ## Commit records -/

theorem recKind_encode (record : WalRecord) : recKind record.encode = record.kind.code := by
  have h : Fits32 record.kind.code := by cases record.kind <;> decide
  exact readInt32_toBuffer [] _ h

theorem recTxid_encode {record : WalRecord} (h : Fits32 record.txid) :
    recTxid record.encode = record.txid := by
  have hl : (word32 record.kind.code).length = walRecTxidOff := rfl
  rw [recTxid, WalRecord.encode, ← hl]
  exact readInt32_toBuffer _ _ h

/-- A log of whole records, with the descriptor behind it. -/
structure WalLog.Whole (wal : WalLog) : Prop where
  bytes : walRecordSize ∣ wal.bytes.length
  offset : walRecordSize ∣ wal.offset
  le : wal.bytes.length ≤ wal.offset

theorem WalLog.Whole.bytes_append (h : WalLog.Whole wal) (record : WalRecord) :
    (walLogAppend wal record).2.bytes =
      wal.bytes ++ List.replicate (wal.offset - wal.bytes.length) 0 ++ record.encode := by
  have hle := h.le
  rw [walLogAppend, List.take_of_length_le, List.drop_eq_nil_of_le, List.append_nil]
  · omega
  · rw [List.length_append, List.length_replicate]
    omega

theorem WalLog.Whole.append (h : WalLog.Whole wal) (record : WalRecord) :
    WalLog.Whole (walLogAppend wal record).2 := by
  have hle := h.le
  have hl : (walLogAppend wal record).2.bytes.length = wal.offset + walRecordSize := by
    rw [h.bytes_append, List.length_append, List.length_append, List.length_replicate,
      record.length_encode]
    omega
  have hd : walRecordSize ∣ wal.offset + walRecordSize := Nat.dvd_add h.offset ⟨1, rfl⟩
  exact ⟨hl ▸ hd, hd, hl.le⟩

theorem WalLog.Whole.truncate (h : WalLog.Whole wal) :
    WalLog.Whole { wal with bytes := [], lastLsn := 0 } :=
  ⟨⟨0, rfl⟩, h.offset, Nat.zero_le _⟩

theorem walCommits_append {bytes data : Bytes} (hb : walRecordSize ∣ bytes.length)
    (hd : data.length = walRecordSize) :
    walCommits (bytes ++ data) = walCommits bytes ++
      if recKind data = WalKind.commit.code then [recTxid data] else [] := by
  rw [walCommits, walRecords_append hb hd, List.filter_append, List.map_append]
  congr 1
  split
  · next h => simp [h]
  · next h => simp [h]

/-- The zeros of a gap are no commit records. -/
theorem walCommits_zeros {bytes : Bytes} (hb : walRecordSize ∣ bytes.length) (n : Nat) :
    walCommits (bytes ++ List.replicate (walRecordSize * n) 0) = walCommits bytes := by
  induction n with
  | zero => simp
  | succ n ih =>
    have hz : recKind (List.replicate walRecordSize 0) ≠ WalKind.commit.code := by decide +kernel
    rw [Nat.mul_succ, List.replicate_add, ← List.append_assoc, walCommits_append _ (by simp), ih,
      if_neg hz, List.append_nil]
    rw [List.length_append, List.length_replicate]
    exact Nat.dvd_add hb ⟨n, rfl⟩

/-- What an append adds to the commit records. -/
theorem WalLog.Whole.walCommits_append (h : WalLog.Whole wal) (record : WalRecord) :
    walCommits (walLogAppend wal record).2.bytes = walCommits wal.bytes ++
      if record.kind = .commit then [recTxid record.encode] else [] := by
  obtain ⟨n, hn⟩ : walRecordSize ∣ wal.offset - wal.bytes.length := Nat.dvd_sub h.offset h.bytes
  have hk : record.kind.code = WalKind.commit.code ↔ record.kind = .commit := by
    cases record.kind <;> decide
  rw [h.bytes_append, hn, Garry.walCommits_append _ record.length_encode, walCommits_zeros h.bytes,
    recKind_encode]
  · simp only [hk]
  · rw [List.length_append, List.length_replicate]
    exact Nat.dvd_add h.bytes ⟨n, rfl⟩

namespace Engine

variable {lz4 : Lz4} {eng eng' : Engine} {committed : List Int} {file : DataFile} {wal : Bytes}

/-! ## Recovery and the counter -/

theorem keeps_replayUpdate (h : eng.replayUpdate lz4 txid key val = some (ok, eng')) :
    eng.Keeps eng' := by
  rw [replayUpdate] at h
  split at h
  · cases h
  · obtain ⟨-, rfl⟩ := Prod.mk.inj (Option.some.inj h)
    split
    · exact keeps_pool rfl
    · exact .refl
  · have hk : eng.Keeps eng.chainAllocate.2 := keeps_chainAllocate
    generalize eng.chainAllocate = made at h hk
    obtain ⟨cid, eng₁⟩ := made
    simp only at h hk
    split at h
    · cases h
      exact hk
    split at h
    · cases h
    · next pool root hins =>
      have hk : eng.Keeps { eng₁ with pool := pool, btreeRoot := root } :=
        hk.trans (keeps_tree (btreeInsert_pageSize hins))
      split at h
      · cases h
        exact hk
      · next value' _ =>
        have hs := hk.trans (keeps_mvccSet txid cid value')
        have he := congrArg Prod.snd (Option.some.inj h)
        rw [he] at hs
        exact hs

theorem keeps_replayDelete (h : eng.replayDelete txid key = some (ok, eng')) : eng.Keeps eng' := by
  obtain ⟨lookup, -, h⟩ := Option.map_eq_some_iff.mp h
  cases lookup with
  | none =>
    cases h
    exact .refl
  | some lookup =>
    cases h
    exact keeps_mvccDelete ..

theorem keeps_replayRecord (h : eng.replayRecord lz4 committed data = some (ok, eng')) :
    eng.Keeps eng' := by
  simp only [replayRecord] at h
  split at h
  · cases h
    exact .refl
  split at h
  · cases h
    exact .refl
  split at h
  · cases h
    exact .refl
  split at h
  · exact keeps_replayDelete h
  split at h
  · cases h
    exact .refl
  · exact keeps_replayUpdate h

theorem keeps_replay {records : List Bytes}
    (h : eng.replay lz4 committed records = some (ok, eng')) : eng.Keeps eng' := by
  induction records generalizing eng with
  | nil =>
    cases h
    exact .refl
  | cons data records ih =>
    rw [replay] at h
    split at h
    · cases h
    · next hr =>
      cases h
      exact keeps_replayRecord hr
    · next hr => exact (keeps_replayRecord hr).trans (ih h)

/-- The counter after the first pass is above what it was and above every committed id, and above
nothing else. -/
theorem lt_foldl_next (txid : Int) (committed : List Int) (next : Int) :
    txid < committed.foldl (fun next txid => if txid + 1 > next then txid + 1 else next) next ↔
      txid < next ∨ ∃ c ∈ committed, txid ≤ c := by
  induction committed generalizing next with
  | nil => simp
  | cons c committed ih =>
    have hc : txid < (if c + 1 > next then c + 1 else next) ↔ txid < next ∨ txid ≤ c := by
      split <;> omega
    rw [List.foldl_cons, ih, hc, or_assoc, List.exists_mem_cons_iff]

/-- What an opened engine starts from. -/
structure Opened (file : DataFile) (wal : Bytes) (eng : Engine) : Prop where
  txns : eng.txns = []
  maxTxns : eng.maxTxns = (fileHeader file).maxTxns
  walLog : eng.wal = (walLogInit wal).atEnd
  lt_nextTxid : ∀ txid, txid < eng.nextTxid ↔ Covered file wal txid

theorem openPageSize_range (file : DataFile) :
    ¬ (openPageSize file < minPageSize ∨ openPageSize file > maxPageSize) := by
  simp only [openPageSize, minPageSize, maxPageSize, defaultPageSize]
  split <;> omega

/-- The engine before the recovery: the page size of the pool comes from the raw header, the rest from
the header that the pool reads. -/
structure Loaded (data : DataFile) (log : Bytes) (env : PoolEnv) (eng : Engine) : Prop where
  poolPageSize : eng.pool.pageSize = openPageSize data
  pages : eng.pool.pages = data.readPage (openPageSize data)
  clean : eng.pool.dirty = []
  file : eng.pool.file = data
  nextPage : eng.pool.nextPage = (fileHeader data).totalPages
  freeListHead : eng.pool.freeListHead = (fileHeader data).freeListHead
  env : eng.pool.env = env
  header : eng.header = fileHeader data
  pageSize : eng.pageSize = (fileHeader data).pageSize.toNat
  maxTxns : eng.maxTxns = (fileHeader data).maxTxns
  nextTxid : eng.nextTxid = (fileHeader data).nextTxid
  btreeRoot : eng.btreeRoot = (fileHeader data).rootPage
  txns : eng.txns = []
  lockMgr : eng.lockMgr = []
  wal : eng.wal = walLogInit log
  keyCount : eng.keyCount = 0

theorem loaded_loadEngine (h : loadEngine file log env = some eng) : Loaded file log env eng := by
  simp only [loadEngine, Pool.create] at h
  split at h
  · cases h
  simp only [Option.bind_eq_bind, Option.bind_some] at h
  obtain ⟨buf, hb, h⟩ := Option.bind_eq_some_iff.mp h
  rw [Pool.pinPage, if_neg (by decide)] at hb
  split at hb
  · cases hb
  · have hheader : readDbHeader buf = fileHeader file := by
      rw [← Option.some.inj hb]
      rfl
    simp only [hheader] at h
    cases h
    constructor <;> with_reducible rfl

/-- An engine is loaded if the header page can be pinned. -/
theorem isSome_loadEngine (file : DataFile) (log : Bytes) (env : PoolEnv) :
    (loadEngine file log env).isSome = !env.pinFails headerPage := by
  rw [loadEngine, Pool.create, if_neg (openPageSize_range file)]
  simp only [Option.bind_eq_bind, Option.bind_some]
  rw [Pool.pinPage, if_neg (by decide)]
  cases env.pinFails headerPage <;> rfl

theorem exists_loadEngine (file : DataFile) (log : Bytes) (hpin : env.pinFails headerPage = false) :
    ∃ eng, loadEngine file log env = some eng ∧ Loaded file log env eng := by
  have hsome := isSome_loadEngine file log env
  rw [hpin] at hsome
  obtain ⟨eng, h⟩ := Option.isSome_iff_exists.mp hsome
  exact ⟨eng, h, loaded_loadEngine h⟩

theorem opened_engineOpen (h : engineOpen lz4 file wal env = some (ok, eng)) :
    Opened file wal eng := by
  obtain ⟨eng₁, h₁, h⟩ := Option.bind_eq_some_iff.mp h
  have hl := loaded_loadEngine h₁
  have hk := keeps_replay h
  refine ⟨?_, ?_, ?_, fun txid => ?_⟩
  · have ha := hk.activeTxns
    simp only [activeTxns, hl.txns, List.map_nil, List.map_eq_nil_iff] at ha
    exact ha
  · exact hk.maxTxns.trans hl.maxTxns
  · rw [hk.wal]
    simp only [hl.wal]
  · rw [hk.nextTxid]
    simp only [lt_foldl_next, hl.nextTxid, hl.wal]
    rfl

/-! ## Sessions -/

theorem LogStep.whole (h : LogStep op log log') (hw : log.Whole) : log'.Whole := by
  cases h with
  | same => exact hw
  | append _ => exact hw.append _
  | truncate => exact hw.truncate

/-- A call adds at most the commit record of the transaction it commits. -/
theorem LogStep.commits {log log' : WalLog} (h : LogStep op log log') (hw : log.Whole) :
    ∀ txid ∈ walCommits log'.bytes, txid ∈ walCommits log.bytes ∨
      ∃ txn, op = .commit txn ∧ (Fits32 txn → txid = txn) := by
  intro txid ht
  cases h with
  | same => exact .inl ht
  | @append record hc =>
    rw [hw.walCommits_append] at ht
    rcases List.mem_append.mp ht with ht | ht
    · exact .inl ht
    split at ht
    · next hk =>
      refine .inr ⟨_, hc hk, fun hf => ?_⟩
      rw [List.mem_singleton.mp ht]
      exact recTxid_encode hf
    · simp at ht
  | truncate => exact absurd ht (by simp [walCommits, walRecords])

/-- Only transactions of the session are committed. -/
def OwnCommits (begun : List Int) (op : EngineOp) : Prop := ∀ txn, op = .commit txn → txn ∈ begun

theorem Session.commits (h : eng.Session lz4 OwnCommits eng' begun) (hw : eng.wal.Whole) :
    eng'.wal.Whole ∧
      ∀ txid ∈ walCommits eng'.wal.bytes, txid ∈ walCommits eng.wal.bytes ∨ txid ∈ begun := by
  induction h with
  | refl => exact ⟨hw, fun txid ht => .inl ht⟩
  | begin _ hb _ ih =>
    obtain ⟨-, -, hwal⟩ := hb.nextTxid
    rw [hwal]
    refine ⟨ih.1, fun txid ht => ?_⟩
    rcases ih.2 txid ht with ht | ht
    · exact .inl ht
    · exact .inr (List.mem_cons_of_mem _ ht)
  | step hs hop hown hstep ih =>
    have hl := (logs_step hop hstep).wal
    refine ⟨hl.whole ih.1, fun txid ht => ?_⟩
    rcases hl.commits ih.1 txid ht with ht | ⟨txn, rfl, hf⟩
    · exact ih.2 txid ht
    · have hm := hown txn rfl
      rw [hf (hs.nextTxid_le.2 txn hm).2]
      exact .inr hm

theorem Opened.begun (h : Opened file wal eng) :
    (∀ (eng' : Engine) (begun : List Int), eng.Session lz4 (fun _ _ => True) eng' begun →
      ∀ txn ∈ begun, ∀ txid, LeftTraces file wal txid → txid < txn) ↔
    (0 < (fileHeader file).maxTxns → ∀ txid, LeftTraces file wal txid → Covered file wal txid) := by
  constructor
  · intro hall hm txid ht
    rw [← h.lt_nextTxid]
    by_cases hf : Fits32 eng.nextTxid
    · obtain ⟨eng', hb⟩ := begins_of_nil h.txns (h.maxTxns ▸ hm)
      exact hall eng' [eng.nextTxid] (.begin .refl hb hf) _ (List.mem_singleton_self _) txid ht
    · -- The counter has run out, and every id on file is below it.
      have hhdr : Fits32 (fileHeader file).nextTxid := fits32_getWord ..
      have hlow : -2147483649 < eng.nextTxid :=
        (h.lt_nextTxid _).mpr (.inl (Int.lt_of_lt_of_le (by decide) hhdr.1))
      have hfit := ht.fits32
      simp only [Fits32] at hf hfit
      omega
  · intro hc eng' begun hs txn hb txid ht
    have hlt := (h.lt_nextTxid txid).mpr (hc (h.maxTxns ▸ hs.maxTxns.2 txn hb) txid ht)
    exact hlt.trans_le (hs.nextTxid_le.2 txn hb).1

end Engine

/-- The ids handed out after a recovery are above all ids on file exactly when a commit record or
the header covers those; and then no id on file that was not committed becomes so. -/
theorem storageBegin_ids {lz4 : Lz4} {env : PoolEnv}
    (h : Engine.engineOpen lz4 file wal env = some (true, eng)) :
    ((∀ (eng' : Engine) (begun : List Int), eng.Session lz4 (fun _ _ => True) eng' begun →
        ∀ txn ∈ begun, ∀ txid, LeftTraces file wal txid → txid < txn) ↔
      (0 < (fileHeader file).maxTxns →
        ∀ txid, LeftTraces file wal txid → Covered file wal txid)) ∧
    ((0 < (fileHeader file).maxTxns → ∀ txid, LeftTraces file wal txid → Covered file wal txid) →
      walRecordSize ∣ wal.length →
      ∀ (eng' : Engine) (begun : List Int), eng.Session lz4 Engine.OwnCommits eng' begun →
        walRecordSize ∣ eng'.wal.bytes.length ∧
        ∀ txid ∈ walTxids wal, txid ∈ walCommits eng'.wal.bytes → txid ∈ walCommits wal) := by
  have ho := Engine.opened_engineOpen h
  refine ⟨ho.begun, fun hc hdvd eng' begun hs => ?_⟩
  have hw : eng.wal.Whole := by
    rw [ho.walLog]
    exact ⟨hdvd, hdvd, le_rfl⟩
  obtain ⟨hw', hcommits⟩ := hs.commits hw
  refine ⟨hw'.bytes, fun txid ht hc' => ?_⟩
  rcases hcommits txid hc' with hold | hnew
  · rw [ho.walLog] at hold
    exact hold
  · -- An id of the session is above every id on file.
    have hlt := ho.begun.mpr hc eng' begun (hs.mono fun _ _ _ => trivial) txid hnew txid (.inl ht)
    exact absurd hlt (lt_irrefl _)

/-- The file of a new database. -/
def newFile : DataFile :=
  ((Engine.engineInit .empty [] .roomy defaultEngineSettings).map fun eng =>
    eng.pool.file).getD .empty

theorem not_chainTxid_newFile (txid : Int) :
    ¬ ChainTxid newFile (Engine.openPageSize newFile) txid := by
  rintro ⟨pid, i, recData, hpid, hkind, -⟩
  have hps : Engine.openPageSize newFile = 4096 := by decide +kernel
  have hsize : newFile.size = 8192 := by decide +kernel
  rw [hps] at hkind
  have hlt : pid = 0 ∨ pid = 1 := by
    by_contra hne
    rw [DataFile.readPage, hsize, if_neg (by omega)] at hkind
    exact absurd hkind (by decide)
  rcases hlt with rfl | rfl
  · exact absurd hkind (by decide +kernel)
  · exact absurd hkind (by decide +kernel)

theorem storageBegin_ids_commit : ∃ eng,
    Engine.engineOpen .stored newFile (makeCommitRecord 5).encode .roomy = some (true, eng) ∧
    ∀ (eng' : Engine) (begun : List Int), eng.Session .stored (fun _ _ => True) eng' begun →
      ∀ txn ∈ begun, 5 < txn := by
  have hopen : (Engine.engineOpen .stored newFile (makeCommitRecord 5).encode .roomy).map Prod.fst =
      some true := by decide +kernel
  obtain ⟨⟨ok, eng⟩, hopen, rfl⟩ := Option.map_eq_some_iff.mp hopen
  have hcommits : walCommits (makeCommitRecord 5).encode = [5] := by decide +kernel
  have htxids : walTxids (makeCommitRecord 5).encode = [5] := by decide +kernel
  have hcov : ∀ txid, LeftTraces newFile (makeCommitRecord 5).encode txid →
      Covered newFile (makeCommitRecord 5).encode txid := by
    rintro txid (ht | ht)
    · rw [htxids] at ht
      rw [List.mem_singleton.mp ht]
      exact .inr ⟨5, by simp [hcommits], le_rfl⟩
    · exact absurd ht (not_chainTxid_newFile txid)
  refine ⟨eng, hopen, fun eng' begun hs txn hb => ?_⟩
  exact (storageBegin_ids hopen).1.mpr (fun _ => hcov) eng' begun hs txn hb 5
    (.inl (by simp [htxids]))

/-- A transaction writes `k` and the process dies; the next session gives its id to a transaction
that commits, the process dies again, and a third session reads `k`. -/
def reusedRun : Option (Int × Int × Option Bytes) := do
  let eng ← Engine.engineInit .empty [] .roomy defaultEngineSettings
  let (first, eng) := eng.storageBegin
  let (_, eng) ← eng.storageSet .stored first [107] [118]
  let (_, eng) ← Engine.engineOpen .stored eng.pool.file eng.wal.bytes .roomy
  let (second, eng) := eng.storageBegin
  let eng := eng.storageCommit second
  let (_, eng) ← Engine.engineOpen .stored eng.pool.file eng.wal.bytes .roomy
  let (third, eng) := eng.storageBegin
  let value ← eng.storageGet .stored third [107]
  some (first, second, value)

theorem storageBegin_reuses : reusedRun = some (1, 1, some [118]) := by
  decide +kernel

end Garry
