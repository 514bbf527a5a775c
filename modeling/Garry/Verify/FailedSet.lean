import Garry.Verify.CursorScan
import Garry.Verify.WriteAhead

/-!
# Sets that fail

A set that its checks turn away leaves no trace. One that fails later has its record in the log,
which recovery replays as that of any other set.
-/

namespace Garry

open ByteStore

/-! ## The replay of a record -/

/-- The value of a short update can be read whatever the pages hold. -/
theorem LogEntry.In.recValue {key value : Bytes} (h : (LogEntry.set txn key value).In data)
    (hv : value.length ≤ byteArraySize) (pool : Pool) : Engine.recValue pool data = some value := by
  obtain ⟨-, -, -, hlen, hval⟩ := h
  rw [if_pos hv] at hval
  simp only [byteArraySize] at hv
  simp only [Engine.recValue, hlen, hval.1]
  rw [if_neg (by simp only [maxRecordSize]; omega), if_neg (by simp),
    if_neg (by simp only [walRecNewOff, walRecordSize]; omega), Int.toNat_natCast, hval.2]

namespace Engine

variable {lz4 : Lz4} {ps : Nat} {eng₀ eng eng' : Engine} {L L' : Layout}

/-- Recovery replays the record of a committed transaction with its key and value. -/
theorem replayRecord_update {key value : Bytes} (h : (LogEntry.set txn key value).In data)
    {committed : List Int} (hc : txn ∈ committed) (hv : recValue eng.pool data = some value) :
    eng.replayRecord lz4 committed data = eng.replayUpdate lz4 txn key value := by
  obtain ⟨hkind, htxid, hkey, -⟩ := h
  rw [replayRecord, hkind, htxid, hkey, hv]
  simp only
  rw [if_neg (by decide), if_neg (not_not.mpr hc), if_neg (by decide)]

theorem replay_append (committed : List Int) (rs rs' : List Bytes) :
    eng.replay lz4 committed (rs ++ rs') = (eng.replay lz4 committed rs).bind fun r =>
      if r.1 then r.2.replay lz4 committed rs' else some (false, r.2) := by
  induction rs generalizing eng with
  | nil => rfl
  | cons data rs ih =>
    rw [List.cons_append, replay, replay]
    cases eng.replayRecord lz4 committed data with
    | none => rfl
    | some r =>
      obtain ⟨ok, eng'⟩ := r
      cases ok with
      | false => rfl
      | true => exact ih

/-- Recovery passes over a record of another kind. -/
theorem replay_commit (committed : List Int) (txn : Int) :
    eng.replay lz4 committed [(makeCommitRecord txn).encode] = some (true, eng) := by
  have hkind : (makeCommitRecord txn).kind.code ≠ WalKind.update.code ∧
      (makeCommitRecord txn).kind.code ≠ WalKind.delete.code :=
    (by decide : WalKind.commit.code ≠ _ ∧ WalKind.commit.code ≠ _)
  rw [replay, replayRecord, recKind_encode, if_pos hkind]
  rfl

theorem collectCommits_update (eng : Engine) (hk : recKind data = WalKind.update.code)
    (rs rs' : List Bytes) : eng.collectCommits (rs ++ data :: rs') = eng.collectCommits (rs ++ rs') := by
  have hf : (rs ++ data :: rs').filter (fun data => recKind data = WalKind.commit.code) =
      (rs ++ rs').filter fun data => recKind data = WalKind.commit.code := by
    rw [List.filter_append, List.filter_append, List.filter_cons_of_neg]
    rw [hk]
    decide
  rw [collectCommits, collectCommits, hf]

/-- Recovery with one more record of a transaction that commits: what it would give without the
record, and then the replay of the record. -/
theorem recoverFrom_update {key value : Bytes} (hin : (LogEntry.set txn key value).In data)
    (ht : Fits32 txn) {rs : List Bytes}
    (h : eng.recoverFrom lz4 (rs ++ [(makeCommitRecord txn).encode]) = some (true, eng'))
    (hv : recValue eng'.pool data = some value) :
    eng.recoverFrom lz4 (rs ++ data :: [(makeCommitRecord txn).encode]) =
      eng'.replayUpdate lz4 txn key value := by
  rw [recoverFrom, collectCommits_update _ hin.1]
  rw [recoverFrom] at h
  have hc : txn ∈ (eng.collectCommits (rs ++ [(makeCommitRecord txn).encode])).1 := by
    apply List.mem_map.mpr
    refine ⟨(makeCommitRecord txn).encode, ?_, @recTxid_encode (makeCommitRecord txn) ht⟩
    exact List.mem_filter.mpr ⟨List.mem_append_right _ (List.mem_singleton_self _), by
      rw [recKind_encode]
      rfl⟩
  generalize eng.collectCommits (rs ++ [(makeCommitRecord txn).encode]) = collected at h hc ⊢
  obtain ⟨committed, eng₁⟩ := collected
  simp only at h hc ⊢
  rw [replay_append] at h ⊢
  obtain ⟨⟨ok, eng₂⟩, hrs, h⟩ := Option.bind_eq_some_iff.mp h
  cases ok with
  | false =>
    cases h
  | true =>
    have he : eng₂ = eng' := by
      replace h : eng₂.replay lz4 committed [(makeCommitRecord txn).encode] = some (true, eng') := h
      rw [replay_commit] at h
      exact (Prod.mk.inj (Option.some.inj h)).2
    subst he
    rw [hrs, Option.bind_some]
    show eng₂.replay lz4 committed (data :: [(makeCommitRecord txn).encode]) = _
    rw [replay, replayRecord_update hin hc hv]
    cases eng₂.replayUpdate lz4 txn key value with
    | none => rfl
    | some r =>
      obtain ⟨ok, eng₃⟩ := r
      cases ok with
      | false => rfl
      | true => exact replay_commit committed txn

/-! ## Reads -/

/-- `garry_storage_get` of any transaction. -/
theorem Inv.storageGet_eq (h : Inv ps eng L) (txn : Int) (key : Bytes) :
    eng.storageGet lz4 txn key =
      if key.length = 0 ∨ key.length > maxKeySize ∨ eng.txnIsActive txn = false then some none
      else some (((eng.store L).read txn key).bind (eng.shown lz4)) := by
  by_cases hlen : key.length = 0 ∨ key.length > maxKeySize
  · rw [Engine.storageGet, if_pos hlen, if_pos (by tauto)]
  by_cases hact : eng.txnIsActive txn = false
  · rw [Engine.storageGet, if_neg hlen, if_pos hact, if_pos (by tauto)]
  · rw [if_neg (by tauto)]
    rw [not_or] at hlen
    have hlive := h.live_iff.mp (Bool.of_not_eq_false hact)
    exact h.storageGet hlive (Nat.pos_of_ne_zero hlen.1) (not_lt.mp hlen.2)

/-- `garry_storage_exists` of any transaction. -/
theorem Inv.storageExists_eq (h : Inv ps eng L) (txn : Int) (key : Bytes) :
    eng.storageExists txn key =
      if key.length = 0 ∨ eng.txnIsActive txn = false then some false
      else some ((eng.store L).read txn key).isSome := by
  by_cases hlen : key.length = 0
  · rw [Engine.storageExists, if_pos hlen, if_pos (.inl hlen)]
  by_cases hact : eng.txnIsActive txn = false
  · rw [Engine.storageExists, if_neg hlen, if_pos hact, if_pos (.inr hact)]
  · rw [if_neg (by tauto)]
    exact h.storageExists (Bool.of_not_eq_false hact) (Nat.pos_of_ne_zero hlen)

/-- A transaction reads the same with `garry_storage_get`, `garry_storage_exists` and
`garry_storage_count`. -/
structure SameReads (lz4 : Lz4) (eng eng' : Engine) : Prop where
  active : ∀ txn, eng'.txnIsActive txn = eng.txnIsActive txn
  get : ∀ txn key, eng'.storageGet lz4 txn key = eng.storageGet lz4 txn key
  has : ∀ txn key, eng'.storageExists txn key = eng.storageExists txn key
  count : ∀ txn, eng'.storageCount txn = eng.storageCount txn

/-- A write that fails changes no read. -/
theorem Inv.sameReads (h : Inv ps eng L) (h' : Inv ps eng' L')
    (hw : Written (eng.store L) (eng'.store L') txn key x false)
    (hc : eng'.compression = eng.compression) (hk : eng'.keyCount = eng.keyCount) :
    SameReads lz4 eng eng' := by
  have hread (t : Int) (k : Bytes) : (eng'.store L').read t k = (eng.store L).read t k := by
    cases hw with
    | rejected he => rw [he]
    | failed _ _ he =>
      rw [he]
      rfl
  have hlive (t : Int) : (eng'.store L').Live t ↔ (eng.store L).Live t := by
    cases hw with
    | rejected he => rw [he]
    | failed _ _ he =>
      rw [he]
      rfl
  have hact (t : Int) : eng'.txnIsActive t = eng.txnIsActive t := by
    rw [Bool.eq_iff_iff, h'.live_iff, h.live_iff, hlive]
  have hshown : eng'.shown lz4 = eng.shown lz4 := by
    funext v
    rw [shown, shown, hc]
  refine ⟨hact, fun t k => ?_, fun t k => ?_, fun t => ?_⟩
  · rw [h'.storageGet_eq, h.storageGet_eq, hread, hact, hshown]
  · rw [h'.storageExists_eq, h.storageExists_eq, hread, hact]
  · rw [storageCount, storageCount, hact, hk]

/-- A transaction scans and navigates the same, up to `garry_storage_last`. -/
structure SameScans (lz4 : Lz4) (eng eng' : Engine) : Prop where
  scan : ∀ txn pfx, eng.txnIsActive txn = true → ∃ found cur cur',
    eng.cursorOpen txn pfx = some cur ∧ eng.Scans lz4 cur found ∧
      eng'.cursorOpen txn pfx = some cur' ∧ eng'.Scans lz4 cur' found
  first : ∀ txn, eng'.storageFirst lz4 txn = eng.storageFirst lz4 txn
  nextKey : ∀ txn key, eng'.storageNextKey lz4 txn key = eng.storageNextKey lz4 txn key
  prevKey : ∀ txn key, eng'.storagePrevKey lz4 txn key = eng.storagePrevKey lz4 txn key

theorem eq_of_spec {x y : Option (Option Bytes)} {P : Bytes → Prop}
    (hx : ∃ found, x = some found ∧ ∀ key, found = some key ↔ P key)
    (hy : ∃ found, y = some found ∧ ∀ key, found = some key ↔ P key) : x = y := by
  obtain ⟨found, rfl, hf⟩ := hx
  obtain ⟨found', rfl, hf'⟩ := hy
  congr 1
  apply Option.ext
  intro key
  rw [hf, hf']

/-- Scans and navigation follow from `garry_storage_get`. -/
theorem SameReads.sameScans (h : SameReads lz4 eng eng') (hi : Inv ps eng L)
    (hi' : Inv ps eng' L') (hraw : eng.compression ≠ compressLz4)
    (hc : eng'.compression = eng.compression) : SameScans lz4 eng eng' := by
  have hact := h.active
  have hx := hi.index hraw
  have hx' := hi'.index (hc ▸ hraw)
  have hvisible (txn : Int) : eng'.visibleKeys lz4 txn = eng.visibleKeys lz4 txn := by
    ext key
    simp only [visibleKeys, h.get]
  refine ⟨fun txn pfx ha => ?_, fun txn => ?_, fun txn key => ?_, fun txn key => ?_⟩
  · obtain ⟨cur, found, hopen, hscan, hp, hm⟩ := hx.scan lz4 ha pfx
    obtain ⟨cur', found', hopen', hscan', hp', hm'⟩ := hx'.scan lz4 ((hact txn).trans ha) pfx
    have he : found = found' := by
      apply SortedAssoc.Sorted.ext (List.pairwise_map.mp hp) (List.pairwise_map.mp hp')
      intro e
      rw [hm e.1 e.2, hm' e.1 e.2, h.get]
    subst he
    exact ⟨found, cur, cur', hopen, hscan, hopen', hscan'⟩
  · cases ha : eng.txnIsActive txn with
    | false => rw [storageFirst, storageFirst, hact, ha, if_pos rfl, if_pos rfl]
    | true =>
      apply eq_of_spec (hx'.storageFirst lz4 ((hact txn).trans ha))
      rw [hvisible]
      exact hx.storageFirst lz4 ha
  · cases ha : eng.txnIsActive txn with
    | false => rw [storageNextKey, storageNextKey, hact, ha, if_pos rfl, if_pos rfl]
    | true =>
      rcases Nat.eq_zero_or_pos key.length with hz | hpos
      · rw [storageNextKey, storageNextKey, hact, ha, if_neg (by decide), if_pos hz,
          if_neg (by decide), if_pos hz]
      · apply eq_of_spec (hx'.storageNextKey lz4 ((hact txn).trans ha) hpos)
        rw [hvisible]
        exact hx.storageNextKey lz4 ha hpos
  · cases ha : eng.txnIsActive txn with
    | false => rw [storagePrevKey, storagePrevKey, hact, ha, if_pos rfl, if_pos rfl]
    | true =>
      apply eq_of_spec (hx'.storagePrevKey lz4 ((hact txn).trans ha) key)
      rw [hvisible]
      exact hx.storagePrevKey lz4 ha key

/-! ## A set that fails -/

theorem mvccSet_keyCount (txn cid : Int) (value : Bytes) :
    (eng.mvccSet txn cid value).2.keyCount = eng.keyCount := by
  rw [mvccSet]
  split
  · rfl
  split
  · generalize overflowWrite eng.pool value = written
    obtain ⟨head, pool⟩ := written
    simp only
    split
    · rfl
    split
    · rfl
    · rfl
  · split
    · rfl
    · rfl

/-- Only a set that succeeds counts a key. -/
theorem setVersion_keyCount (h : eng.setVersion lz4 txn cid key value newKey = (ok, eng')) :
    eng'.keyCount = if ok && newKey then eng.keyCount + 1 else eng.keyCount := by
  rw [setVersion] at h
  generalize makeUpdateRecord eng.pool txn key value = made at h
  obtain ⟨record, pool⟩ := made
  simp only at h
  have hcount : (({ eng with pool := pool } : Engine).appendMade record).keyCount = eng.keyCount := by
    cases record <;> rfl
  generalize ({ eng with pool := pool } : Engine).appendMade record = eng₁ at h hcount
  split at h
  · obtain ⟨rfl, rfl⟩ := Prod.mk.inj h
    exact hcount
  · next v _ =>
    have hset := (mvccSet_keyCount txn cid v : (eng₁.mvccSet txn cid v).2.keyCount = _)
    split at h
    · obtain ⟨rfl, rfl⟩ := Prod.mk.inj h
      simp only [hset, hcount, Bool.true_and]
    · obtain ⟨rfl, rfl⟩ := Prod.mk.inj h
      exact hset.trans hcount

theorem chainAllocate_keyCount : eng.chainAllocate.2.keyCount = eng.keyCount := by
  rw [chainAllocate]
  generalize eng.pool.allocate = got
  obtain ⟨pid, pool⟩ := got
  simp only
  split
  · rfl
  split
  · rfl
  · rfl

/-- A set that succeeds counts a key that was not in the tree. -/
theorem storageSet_keyCount (h : eng.storageSet lz4 txn key value = some (ok, eng')) :
    eng'.keyCount =
      if ok && decide (leafFindSearch eng.pool eng.btreeRoot key = some none) then eng.keyCount + 1
      else eng.keyCount := by
  rw [storageSet] at h
  split at h
  · cases h
    rfl
  split at h
  · cases h
    rfl
  split at h
  · cases h
    rfl
  next locks _ =>
  have hmade := @chainAllocate_keyCount { eng with lockMgr := locks }
  simp only at h
  split at h
  · cases h
  · next hs =>
    rw [@setVersion_keyCount _ { eng with lockMgr := locks } _ _ _ _ _ _ _ (Option.some.inj h), hs,
      Bool.and_false]
    simp
  · next hs =>
    rw [hs, decide_eq_true rfl, Bool.and_true]
    generalize ({ eng with lockMgr := locks } : Engine).chainAllocate = made at h hmade
    obtain ⟨cid, eng₁⟩ := made
    simp only at h hmade
    split at h
    · cases h
      exact hmade
    split at h
    · cases h
    next inserted pool root _ =>
    split at h
    · have hset := @setVersion_keyCount _ { eng₁ with pool := pool, btreeRoot := root } _ _ _ _ _ _
        _ (Option.some.inj h)
      rw [hset, Bool.and_true]
      simp only [hmade]
    · cases h
      exact hmade

/-- The checks come first. -/
theorem storageSet_turnedAway (h : eng.storageSet lz4 txn key value = some (ok, eng'))
    (hacc : eng.accepts txn key = false) : ok = false ∧ eng' = eng := by
  rw [storageSet] at h
  split at h
  · cases h
    exact ⟨rfl, rfl⟩
  next hlen =>
  split at h
  · cases h
    exact ⟨rfl, rfl⟩
  next hact =>
  split at h
  · cases h
    exact ⟨rfl, rfl⟩
  next hlock =>
  rw [accepts, decide_eq_true (by omega), hlock, Bool.of_not_eq_false hact] at hacc
  cases hacc

/-! ## The log -/

theorem Run.whole {ok : Engine → Engine → EngineOp → Prop} (hrun : Run lz4 ok eng eng')
    (hw : eng.wal.Whole) : eng'.wal.Whole := by
  induction hrun with
  | refl => exact hw
  | step _ hs _ ih =>
    rename_i eng₁ eng₂ op _ _
    by_cases hb : op = .begin
    · subst hb
      cases hs
      rw [(storageBegin_aside eng₁).1]
      exact ih
    · exact (logs_step hb hs).wal.whole ih

theorem initPages_wal (eng : Engine) : eng.initPages.wal = eng.wal := by
  obtain ⟨pool, header, heq⟩ := initPages_fields eng
  rw [heq]

theorem Created.whole (h : Created ps eng) : eng.wal.Whole := by
  obtain ⟨settings, env, -, -, hinit⟩ := h
  obtain ⟨pool, -, rfl⟩ := Option.map_eq_some_iff.mp hinit
  have hwal : ∀ eng : Engine, eng.wal = walLogInit [] → eng.initPages.wal.Whole := by
    intro eng he
    rw [initPages_wal, he]
    exact ⟨⟨0, rfl⟩, ⟨0, rfl⟩, le_rfl⟩
  exact hwal _ rfl

/-- Behind an append there is no gap. -/
theorem padded_append {wal : WalLog} (hw : wal.Whole) (record : WalRecord) :
    (walLogAppend wal record).2.padded = (walLogAppend wal record).2.bytes := by
  have hle := (hw.append record).le
  have hb := hw.bytes_append record
  have ho : (walLogAppend wal record).2.offset = wal.offset + walRecordSize := rfl
  have hlen : (walLogAppend wal record).2.bytes.length = wal.offset + walRecordSize := by
    have hp := hw.length_padded
    rw [WalLog.padded] at hp
    rw [hb, List.length_append, hp, record.length_encode]
  rw [WalLog.padded, ho, hlen, Nat.sub_self]
  exact List.append_nil _

theorem storageCommit_records (hw : eng.wal.Whole) (txn : Int) :
    walRecords (eng.storageCommit txn).wal.bytes =
      walRecords eng.wal.padded ++ [(makeCommitRecord txn).encode] :=
  hw.walRecords_append _

/-- A set that fails behind its checks has a record in the log, for a value that can be read. -/
theorem Inv.failedRecord (hw : eng.wal.Whole) {L' : Layout} (hi : Inv ps eng' L')
    (hlogs : SetLogs ps eng eng' L L' txn key value) (hkey : key.length ≤ maxKeySize)
    (hints : IntArgs (.set txn key value)) (hacc : eng.accepts txn key = true) :
    ∃ data, walRecords eng'.wal.bytes = walRecords eng.wal.padded ++ [data] ∧
      (LogEntry.set txn key value).In data ∧
      (LogEntry.set txn key value).ReadsBack eng'.pool data ∧
      walRecords (eng'.storageCommit txn).wal.bytes =
        walRecords eng.wal.padded ++ data :: [(makeCommitRecord txn).encode] := by
  obtain ⟨record, hwal, hrec⟩ := hlogs.accepted hacc
  have hpages := hrec.onPages hi hints.1 hints.2 hkey
  have hrecords : walRecords eng'.wal.bytes = walRecords eng.wal.padded ++ [record.encode] := by
    rw [hwal]
    exact hw.walRecords_append record
  refine ⟨record.encode, hrecords, hpages.1, hpages.readsBack hi, ?_⟩
  have hw' : eng'.wal.Whole := hwal ▸ hw.append record
  have hpad : eng'.wal.padded = eng'.wal.bytes := by
    rw [hwal]
    exact padded_append hw record
  rw [storageCommit_records hw', hpad, hrecords, List.append_assoc]
  rfl

/-- A set whose record is in the log has changed the log. -/
theorem wal_ne_of_records
    (h : walRecords eng'.wal.bytes = walRecords eng.wal.padded ++ [data]) : eng'.wal ≠ eng.wal := by
  intro he
  rw [he] at h
  have hle := eng.wal.sublist_padded.length_le
  rw [h, List.length_append, List.length_singleton] at hle
  omega

end Engine

/-- A version that is rolled back fills the chain page of `k`; a set of `k` fails, its transaction
commits, and `k` is read before the crash and after the recovery. -/
def failedRun (filler : Bytes) : Option (Bool × Option Bytes × Option Bytes) := do
  let eng ← Engine.engineInit .empty [] .roomy defaultEngineSettings
  let (first, eng) := eng.storageBegin
  let (_, eng) ← eng.storageSet .stored first [107] filler
  let eng := eng.storageRollback first
  let (second, eng) := eng.storageBegin
  let (ok, eng) ← eng.storageSet .stored second [107] [118]
  let before ← eng.storageGet .stored second [107]
  let eng := eng.storageCommit second
  let (_, eng) ← Engine.engineOpen .stored eng.pool.file eng.wal.bytes .roomy
  let (third, eng) := eng.storageBegin
  let value ← eng.storageGet .stored third [107]
  some (ok, before, value)

example : failedRun [0] = some (true, some [118], some [118]) := by
  decide +kernel

end Garry
