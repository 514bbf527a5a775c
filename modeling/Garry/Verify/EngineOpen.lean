import Garry.Model.EngineOpen
import Garry.Verify.Reopen

/-!
# Databases with a corrupt header

`garry_engine_open` reads the header and does not validate it.
-/

namespace Garry

open ByteStore

namespace Engine

variable {lz4 : Lz4} {file : DataFile} {log : Bytes} {env : OpenEnv} {eng eng' : Engine}

/-- A database with a header that is not valid is not opened, and nothing is changed. -/
def CorruptRejected (lz4 : Lz4) (file : DataFile) (log : Bytes) (env : OpenEnv) : Prop :=
  validateDbHeader (fileHeader file) = false →
    engineOpenExits lz4 file log env = some (.null file log)

/-- What `garry_engine_open` needs besides the files is missing. -/
def OpenFails (file : DataFile) (env : OpenEnv) : Prop :=
  env.poolFails ∨ env.frames.pinFails headerPage ∨ env.arraysFail (fileHeader file).maxTxns ∨
    env.logFails

/-- The recovery gives up, and has changed no byte of the data file. -/
def RecoveryStops (lz4 : Lz4) (file : DataFile) (log : Bytes) (frames : PoolEnv) : Prop :=
  ∃ eng eng', loadEngine file log frames = some eng ∧ eng.walRecover lz4 = some (false, eng') ∧
    eng'.pool.flushAll.file = file

/-- The log has an update of a committed transaction. -/
def HasCommittedUpdate (log : Bytes) : Prop :=
  ∃ data ∈ walRecords log, recKind data = WalKind.update.code ∧
    ∃ data' ∈ walRecords log, recKind data' = WalKind.commit.code ∧ recTxid data' = recTxid data

theorem Loaded.closeNull {frames : PoolEnv} (h : Loaded file log frames eng) : eng.closeNull = .null file log := by
  rw [Engine.closeNull, Pool.flushAll, h.clean, List.foldl_nil, h.file, h.wal]
  rfl

/-- An exit before the recovery changes nothing. -/
theorem exits_of_openFails (h : OpenFails file env) :
    engineOpenExits lz4 file log env = some (.null file log) := by
  rw [engineOpenExits]
  by_cases hpool : env.poolFails = true
  · exact if_pos hpool
  rw [if_neg hpool]
  have hsome := isSome_loadEngine file log env.frames
  cases hload : loadEngine file log env.frames with
  | none => rfl
  | some eng =>
    have hl := loaded_loadEngine hload
    simp only
    by_cases harr : env.arraysFail eng.maxTxns = true
    · rw [if_pos harr, hl.closeNull]
    rw [if_neg harr]
    rw [hl.maxTxns] at harr
    have hlog : env.logFails = true := by
      rcases h with h | h | h | h
      · exact absurd h hpool
      · rw [hload, h] at hsome
        cases hsome
      · exact absurd h harr
      · exact h
    rw [if_pos hlog, hl.closeNull]

/-- Without such an exit the recovery decides. -/
theorem exits_of_not_openFails (h : ¬ OpenFails file env) :
    ∃ eng, loadEngine file log env.frames = some eng ∧ engineOpenExits lz4 file log env =
      (eng.walRecover lz4).map fun r => if r.1 then .handle r.2 else r.2.closeNull := by
  rw [OpenFails, not_or, not_or, not_or] at h
  obtain ⟨hpool, hpin, harr, hlog⟩ := h
  obtain ⟨eng, hload, hl⟩ := exists_loadEngine file log (Bool.eq_false_iff.mpr hpin)
  refine ⟨eng, hload, ?_⟩
  rw [engineOpenExits, if_neg hpool, hload]
  simp only
  rw [if_neg (hl.maxTxns ▸ harr), if_neg hlog]

/-! ## The recovery -/

theorem walRecover_log (h : eng.walRecover lz4 = some (ok, eng')) :
    eng'.wal.bytes = eng.wal.bytes := by
  rw [walRecover] at h
  have hk := keeps_replay h
  rw [hk.wal]
  rfl

theorem replayDelete_goes (h : eng.replayDelete txid key = some (ok, eng')) : ok = true := by
  obtain ⟨lookup, -, h⟩ := Option.map_eq_some_iff.mp h
  cases lookup with
  | none => exact (Prod.mk.inj h).1.symm
  | some lookup => exact (Prod.mk.inj h).1.symm

/-- A record that is no update of a committed transaction does not stop the recovery. -/
theorem replayRecord_goes {committed : List Int} {data : Bytes}
    (hno : recKind data = WalKind.update.code → recTxid data ∉ committed)
    (h : eng.replayRecord lz4 committed data = some (ok, eng')) : ok = true := by
  simp only [replayRecord] at h
  split at h
  · exact (Prod.mk.inj (Option.some.inj h)).1.symm
  next hkind =>
  split at h
  · exact (Prod.mk.inj (Option.some.inj h)).1.symm
  next hmem =>
  split at h
  · exact (Prod.mk.inj (Option.some.inj h)).1.symm
  split at h
  · exact replayDelete_goes h
  next hdel =>
  have hupdate : recKind data = WalKind.update.code := by
    by_contra hne
    exact hkind ⟨hne, hdel⟩
  exact absurd (hno hupdate) hmem

theorem replay_goes {committed : List Int} {records : List Bytes}
    (hno : ∀ data ∈ records, recKind data = WalKind.update.code → recTxid data ∉ committed)
    (h : eng.replay lz4 committed records = some (ok, eng')) : ok = true := by
  induction records generalizing eng with
  | nil => exact (Prod.mk.inj (Option.some.inj h)).1.symm
  | cons data records ih =>
    rw [replay] at h
    split at h
    · cases h
    · next hr =>
      cases replayRecord_goes (hno data List.mem_cons_self) hr
    · next hr => exact ih (fun data hd => hno data (List.mem_cons_of_mem _ hd)) h

theorem HasCommittedUpdate.of_mem (hd : data ∈ walRecords log)
    (hkind : recKind data = WalKind.update.code)
    (hmem : recTxid data ∈ ((walRecords log).filter fun data =>
      recKind data = WalKind.commit.code).map recTxid) : HasCommittedUpdate log := by
  obtain ⟨data', hd', htxid⟩ := List.mem_map.mp hmem
  obtain ⟨hd', hcommit⟩ := List.mem_filter.mp hd'
  exact ⟨data, hd, hkind, data', hd', of_decide_eq_true hcommit, htxid⟩

theorem RecoveryStops.update {frames : PoolEnv} (h : RecoveryStops lz4 file log frames) :
    HasCommittedUpdate log := by
  obtain ⟨eng, eng', hload, hrec, -⟩ := h
  by_contra hno
  rw [walRecover, (loaded_loadEngine hload).wal] at hrec
  exact absurd (replay_goes (fun data hd hk hmem => hno (.of_mem hd hk hmem)) hrec)
    Bool.false_ne_true

/-- Without an exit before the recovery, nothing is opened or changed when the recovery stops. -/
theorem exits_null_iff (h : ¬ OpenFails file env) :
    engineOpenExits lz4 file log env = some (.null file log) ↔
      RecoveryStops lz4 file log env.frames := by
  obtain ⟨eng, hload, he⟩ := @exits_of_not_openFails lz4 file log env h
  rw [he]
  constructor
  · intro hnull
    obtain ⟨⟨ok, eng'⟩, hrec, hr⟩ := Option.map_eq_some_iff.mp hnull
    cases ok with
    | true => cases hr
    | false =>
      refine ⟨eng, eng', hload, hrec, ?_⟩
      exact (OpenResult.null.inj hr).1
  · rintro ⟨eng₁, eng', hload₁, hrec, hfile⟩
    obtain rfl := Option.some.inj (hload.symm.trans hload₁)
    rw [hrec]
    show some eng'.closeNull = _
    rw [closeNull, hfile, walRecover_log hrec, (loaded_loadEngine hload).wal]
    rfl

end Engine

/-- Nothing is missing. -/
def OpenEnv.granted : OpenEnv := ⟨false, .roomy, fun _ => false, false⟩

/-- The file of a new database, with another byte in the checksum of its header. -/
def corruptFile : Option DataFile :=
  (Engine.engineInit .empty [] .roomy defaultEngineSettings).map fun eng =>
    let file := eng.storageClose.pool.file
    { file with bytes := Function.update file.bytes hdrOffChecksum (file.bytes hdrOffChecksum + 1) }

theorem corruptFile_opens : corruptFile.map (fun file =>
    (validateDbHeader (fileHeader file),
      (Engine.engineOpenExits .stored file [] .granted).map fun r =>
        match r with
        | .handle eng => eng.pool.pageSize
        | .null .. => 0)) = some (false, some 4096) := by
  decide +kernel

end Garry
