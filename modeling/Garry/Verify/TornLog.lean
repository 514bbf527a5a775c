import Garry.Verify.TxnIds

/-!
# A log with a torn tail

Records are found by position alone. Recovery stops at the first incomplete record, and the next
append continues behind what is left of it.
-/

namespace Garry

open ByteStore

/-! ## The records of a log -/

theorem length_walRecords (bytes : Bytes) :
    (walRecords bytes).length = bytes.length / walRecordSize := by
  simp [walRecords]

theorem getElem?_walRecords (bytes : Bytes) (i : Nat) (h : i < bytes.length / walRecordSize) :
    (walRecords bytes)[i]? = some ((bytes.drop (walRecordSize * i)).take walRecordSize) := by
  rw [walRecords, List.getElem?_map, List.getElem?_range h]
  rfl

/-- A cut log has the records that are complete before the cut. -/
theorem walRecords_take (bytes : Bytes) (n : Nat) :
    walRecords (bytes.take n) = (walRecords bytes).take (n / walRecordSize) := by
  apply List.ext_getElem?
  intro i
  by_cases hi : i < (bytes.take n).length / walRecordSize
  · have hlen : (i + 1) * walRecordSize ≤ (bytes.take n).length :=
      (Nat.le_div_iff_mul_le (by decide)).mp hi
    rw [List.length_take, Nat.le_min] at hlen
    have hn : i < n / walRecordSize := (Nat.le_div_iff_mul_le (by decide)).mpr hlen.1
    have hb : i < bytes.length / walRecordSize := (Nat.le_div_iff_mul_le (by decide)).mpr hlen.2
    rw [getElem?_walRecords _ i hi, List.getElem?_take_of_lt hn, getElem?_walRecords _ i hb,
      List.drop_take, List.take_take, Nat.min_eq_left]
    have h1 := hlen.1
    rw [Nat.succ_mul, Nat.mul_comm] at h1
    omega
  · have hr : ¬ i < (walRecords (bytes.take n)).length := by rwa [length_walRecords]
    rw [List.getElem?_eq_none (Nat.le_of_not_lt hr), List.getElem?_eq_none]
    rw [List.length_take, length_walRecords]
    rw [List.length_take] at hi
    apply Nat.le_of_not_lt
    intro hlt
    apply hi
    rw [Nat.lt_min] at hlt
    apply (Nat.le_div_iff_mul_le (by decide)).mpr
    apply Nat.le_min.mpr
    exact ⟨(Nat.le_div_iff_mul_le (by decide)).mp hlt.1, (Nat.le_div_iff_mul_le (by decide)).mp hlt.2⟩

/-- The file that appends of the records make. -/
def walBytes (records : List WalRecord) : Bytes := (records.map WalRecord.encode).flatten

theorem length_walBytes (records : List WalRecord) :
    (walBytes records).length = walRecordSize * records.length := by
  induction records with
  | nil => rfl
  | cons record records ih =>
    have h : walBytes (record :: records) = record.encode ++ walBytes records := rfl
    rw [h, List.length_append, record.length_encode, ih, List.length_cons, Nat.mul_succ,
      Nat.add_comm]

theorem walBytes_append (records records' : List WalRecord) :
    walBytes (records ++ records') = walBytes records ++ walBytes records' := by
  rw [walBytes, List.map_append, List.flatten_append]
  rfl

theorem walRecords_walBytes (records : List WalRecord) :
    walRecords (walBytes records) = records.map WalRecord.encode := by
  induction records using List.reverseRecOn with
  | nil => rfl
  | append_singleton records record ih =>
    have hone : walBytes [record] = record.encode := List.append_nil _
    rw [walBytes_append, hone, walRecords_append _ record.length_encode, ih, List.map_append]
    · rfl
    · exact ⟨_, length_walBytes records⟩

/-- Whole records before the cut. -/
theorem walBytes_take (records : List WalRecord) (k : Nat) :
    (walBytes records).take (walRecordSize * k) = walBytes (records.take k) := by
  by_cases hk : k ≤ records.length
  · have hl : (walBytes (records.take k)).length = walRecordSize * k := by
      rw [length_walBytes, List.length_take, Nat.min_eq_left hk]
    calc (walBytes records).take (walRecordSize * k)
        = (walBytes (records.take k ++ records.drop k)).take (walRecordSize * k) := by
          rw [List.take_append_drop]
      _ = walBytes (records.take k) := by
          rw [walBytes_append, ← hl, List.take_left]
  · have hk : records.length ≤ k := by omega
    rw [List.take_of_length_le hk, List.take_of_length_le]
    rw [length_walBytes]
    exact Nat.mul_le_mul_left _ hk

/-! ## Appends -/

/-- The records are appended one after the other. -/
def walAppends (wal : WalLog) (records : List WalRecord) : WalLog :=
  records.foldl (fun wal record => (walLogAppend wal record).2) wal

/-- Appends with the descriptor at the end of the file. -/
theorem walAppends_bytes {wal : WalLog} (h : wal.offset = wal.bytes.length)
    (records : List WalRecord) :
    (walAppends wal records).bytes = wal.bytes ++ walBytes records := by
  induction records generalizing wal with
  | nil => exact (List.append_nil _).symm
  | cons record records ih =>
    have hb : (walLogAppend wal record).2.bytes = wal.bytes ++ record.encode := by
      rw [walLogAppend, h, Nat.sub_self, List.replicate_zero, List.append_nil, List.take_length,
        List.drop_eq_nil_of_le (Nat.le_add_right ..), List.append_nil]
    have ho : (walLogAppend wal record).2.offset = (walLogAppend wal record).2.bytes.length := by
      rw [hb, List.length_append, record.length_encode, ← h]
      rfl
    have hc : walBytes (record :: records) = record.encode ++ walBytes records := rfl
    rw [walAppends, List.foldl_cons]
    exact (ih ho).trans (by rw [hb, hc, List.append_assoc])

/-- Wherever the file is cut, the records are read back whole and in order. -/
def ReadsBack (bytes : Bytes) (records : List WalRecord) : Prop :=
  ∀ m, walRecords (bytes.take m) = (records.take (m / walRecordSize)).map WalRecord.encode

theorem readsBack_walBytes (records : List WalRecord) : ReadsBack (walBytes records) records := by
  intro m
  rw [walRecords_take, walRecords_walBytes, List.map_take]

/-- A commit record that is read back counts as one. -/
theorem ReadsBack.mem_walCommits (h : ReadsBack bytes records) (m : Nat) {record : WalRecord}
    (hr : record ∈ records.take (m / walRecordSize)) (hk : record.kind = .commit)
    (hf : Fits32 record.txid) : record.txid ∈ walCommits (bytes.take m) := by
  rw [walCommits, h m]
  apply List.mem_map.mpr
  refine ⟨record.encode, List.mem_filter.mpr ⟨List.mem_map_of_mem hr, ?_⟩, recTxid_encode hf⟩
  rw [recKind_encode, hk]
  rfl

/-- The first byte of a record tells its kind. -/
theorem encode_head (record : WalRecord) :
    record.encode[0]? = some (byteAt record.kind.code 1) := rfl

/-- A record that is read back behind a torn one starts with the byte of that one. -/
theorem ReadsBack.head {t : Bytes} {records : List WalRecord} {record : WalRecord}
    (h : ReadsBack (t ++ walBytes [record]) (records ++ [record]))
    (hd : ¬ walRecordSize ∣ t.length) (hk : records.length = t.length / walRecordSize) :
    record.encode[0]? = t[walRecordSize * records.length]? := by
  have hmod : 0 < t.length % walRecordSize :=
    Nat.pos_of_ne_zero fun h => hd (Nat.dvd_of_mod_eq_zero h)
  have hdiv := Nat.div_add_mod t.length walRecordSize
  have hlen : (t ++ walBytes [record]).length = t.length + walRecordSize := by
    rw [List.length_append, length_walBytes]
    rfl
  have hlt : records.length < (t ++ walBytes [record]).length / walRecordSize := by
    rw [hlen, hk, Nat.add_div_right _ (by decide)]
    exact Nat.lt_succ_self _
  have hr := congrArg (·[records.length]?) (h (t ++ walBytes [record]).length)
  rw [List.take_length, getElem?_walRecords _ _ hlt, List.getElem?_map,
    List.getElem?_take_of_lt hlt, List.getElem?_append_right le_rfl, Nat.sub_self] at hr
  have hrec : List.take walRecordSize
      (List.drop (walRecordSize * records.length) (t ++ walBytes [record])) = record.encode :=
    Option.some.inj hr
  rw [← hrec, List.getElem?_take_of_lt (by decide), List.getElem?_drop, Nat.add_zero,
    List.getElem?_append_left]
  rw [hk]
  omega

/-- Behind a torn record not every record is read back: two of different kinds start with different
bytes. -/
theorem not_readsBack {t : Bytes} {records : List WalRecord} (hd : ¬ walRecordSize ∣ t.length)
    (hk : records.length = t.length / walRecordSize) :
    ¬ ∀ record, ReadsBack (t ++ walBytes [record]) (records ++ [record]) := by
  intro hall
  have h := ((hall (makeCommitRecord 1)).head hd hk).trans
    ((hall (makeAbortRecord 1)).head hd hk).symm
  rw [encode_head, encode_head] at h
  exact absurd (Option.some.inj h) (by decide)

namespace Engine

/-- `garry_wal_recover` on the records. -/
def recoverFrom (lz4 : Lz4) (eng : Engine) (records : List Bytes) : Option (Bool × Engine) :=
  let (committed, eng) := eng.collectCommits records
  { eng with wal := eng.wal.atEnd }.replay lz4 committed records

theorem engineOpen_recoverFrom (lz4 : Lz4) (file : DataFile) (wal : Bytes) (env : PoolEnv) :
    engineOpen lz4 file wal env =
      (loadEngine file wal env).bind fun eng => eng.recoverFrom lz4 (walRecords wal) := by
  rw [engineOpen]
  cases h : loadEngine file wal env with
  | none => rfl
  | some eng =>
    have hw := (loaded_loadEngine h).wal
    rw [Option.bind_some, Option.bind_some, walRecover, recoverFrom, hw]
    rfl

end Engine

/-- A cut log is recovered by its complete records. What the recovered session appends is read back
whole and in order after every later crash exactly when the cut left no part of a record; its
commit records then count. -/
theorem walRecover_tornLog {lz4 : Lz4} {file : DataFile} {env : PoolEnv} {eng : Engine}
    {old : List WalRecord} {n : Nat} (hn : n ≤ (walBytes old).length)
    (h : Engine.engineOpen lz4 file ((walBytes old).take n) env = some (true, eng)) :
    ((Engine.loadEngine file ((walBytes old).take n) env).bind fun eng =>
        eng.recoverFrom lz4 ((old.take (n / walRecordSize)).map WalRecord.encode)) =
      some (true, eng) ∧
    ((∀ new : List WalRecord,
        ReadsBack (walAppends eng.wal new).bytes (old.take (n / walRecordSize) ++ new)) ↔
      walRecordSize ∣ n) ∧
    (walRecordSize ∣ n → ∀ (new : List WalRecord) (m : Nat), ∀ record ∈ new,
      record ∈ (old.take (n / walRecordSize) ++ new).take (m / walRecordSize) →
      record.kind = .commit → Fits32 record.txid →
      record.txid ∈ walCommits ((walAppends eng.wal new).bytes.take m)) := by
  have hw : eng.wal = (walLogInit ((walBytes old).take n)).atEnd := (Engine.opened_engineOpen h).walLog
  have hbytes : ∀ new, (walAppends eng.wal new).bytes = (walBytes old).take n ++ walBytes new := by
    intro new
    rw [hw]
    exact walAppends_bytes rfl new
  have hlen : ((walBytes old).take n).length = n := List.length_take_of_le hn
  have hread : walRecordSize ∣ n → ∀ new,
      ReadsBack (walAppends eng.wal new).bytes (old.take (n / walRecordSize) ++ new) := by
    intro hd new
    have hcut : (walBytes old).take n = walBytes (old.take (n / walRecordSize)) := by
      rw [← walBytes_take, Nat.mul_div_cancel' hd]
    rw [hbytes, hcut, ← walBytes_append]
    exact readsBack_walBytes _
  refine ⟨?_, ⟨fun hall => ?_, hread⟩, fun hd new m record _ hr hk hf => ?_⟩
  · rw [Engine.engineOpen_recoverFrom, readsBack_walBytes old n] at h
    exact h
  · by_contra hd
    have hk : (old.take (n / walRecordSize)).length =
        ((walBytes old).take n).length / walRecordSize := by
      rw [hlen, List.length_take, Nat.min_eq_left]
      rw [length_walBytes] at hn
      exact Nat.div_le_of_le_mul hn
    have hd : ¬ walRecordSize ∣ ((walBytes old).take n).length := by rwa [hlen]
    apply not_readsBack hd hk
    intro record
    rw [← hbytes]
    exact hall [record]
  · exact (hread hd new).mem_walCommits m hr hk hf

theorem walRecover_tornLog_commit : ∃ eng,
    Engine.engineOpen .stored newFile ((walBytes [makeCommitRecord 5]).take 792) .roomy =
      some (true, eng) ∧
    ∀ new : List WalRecord,
      ReadsBack (walAppends eng.wal new).bytes ([makeCommitRecord 5] ++ new) := by
  have hopen : (Engine.engineOpen .stored newFile ((walBytes [makeCommitRecord 5]).take 792)
      .roomy).map Prod.fst = some true := by decide +kernel
  obtain ⟨⟨ok, eng⟩, hopen, rfl⟩ := Option.map_eq_some_iff.mp hopen
  exact ⟨eng, hopen, (walRecover_tornLog (by decide +kernel) hopen).2.1.mpr ⟨1, rfl⟩⟩

/-- A crash cuts the only record of a log; the next session commits a value, and the one after it
reads. -/
def tornRun (cut : Nat) : Option (Int × List Int × Option Bytes) := do
  let eng ← Engine.engineInit .empty [] .roomy defaultEngineSettings
  let (first, eng) := eng.storageBegin
  let (_, eng) ← eng.storageSet .stored first [97] [98]
  let (_, eng) ← Engine.engineOpen .stored eng.pool.file (eng.wal.bytes.take cut) .roomy
  let (second, eng) := eng.storageBegin
  let (_, eng) ← eng.storageSet .stored second [107] [118]
  let eng := eng.storageCommit second
  let (_, eng) ← Engine.engineOpen .stored eng.pool.file eng.wal.bytes .roomy
  let (third, eng) := eng.storageBegin
  let value ← eng.storageGet .stored third [107]
  some (second, walCommits eng.wal.bytes, value)

example : tornRun 0 = some (1, [1], some [118]) := by
  decide +kernel

/-- Behind 400 bytes of a record the committed transaction is lost. -/
theorem walRecover_tornLog_lost : tornRun 400 = some (1, [], none) := by
  decide +kernel

end Garry
