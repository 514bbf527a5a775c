import Garry.Model.LogFaults
import Garry.Model.Recovery
import Garry.Verify.EngineHistory
import Garry.Verify.TornLog

/-!
# The log is written ahead

A write that succeeds has its record in the log, behind those of the writes before, as long as every
record is made and written whole: no call looks at what becomes of its record.
-/

namespace Garry

open ByteStore

/-! ## The fields of a record -/

/-- A block of a record holds its bytes from the start. -/
theorem slice_byteArray (pre post : Bytes) {bs : Bytes} (h : bs.length ≤ byteArraySize) :
    slice (pre ++ (byteArray bs ++ post)).toBuffer pre.length bs.length = bs := by
  apply slice_eq_iff.mpr
  intro j hj
  have hlt : j < (byteArray bs).length := by
    rw [length_byteArray]
    omega
  rw [Bytes.toBuffer, List.getD_append_right _ _ _ _ (Nat.le_add_right ..), Nat.add_sub_cancel_left,
    List.getD_append _ _ _ _ hlt, List.getD_eq_getElem _ _ hlt]
  simp [byteArray, hj]

namespace WalRecord

variable {record : WalRecord}

theorem readInt32_klen (h : Fits32 record.key.length) :
    readInt32 record.encode.toBuffer walRecKlenOff = record.key.length := by
  rw [encode, ← List.append_assoc]
  exact readInt32_toBuffer (word32 record.kind.code ++ word32 record.txid) _ h

theorem readInt32_vlen (h : Fits32 record.valueLen) :
    readInt32 record.encode.toBuffer walRecVlenOff = record.valueLen := by
  rw [encode, ← List.append_assoc, ← List.append_assoc]
  exact readInt32_toBuffer (word32 record.kind.code ++ word32 record.txid ++
    word32 record.key.length) _ h

/-- The part of a record before its last two words. -/
def blocks (record : WalRecord) : Bytes :=
  word32 record.kind.code ++ word32 record.txid ++ word32 record.key.length ++
    word32 record.valueLen ++ byteArray record.key ++ byteArray [] ++ byteArray record.newData

theorem length_blocks : record.blocks.length = walRecNewOverflowFlagOff := by
  simp only [blocks, List.length_append, length_word32, length_byteArray]
  rfl

theorem encode_blocks : record.encode = record.blocks ++
    (word32 (if record.newIsOverflow then 1 else 0) ++ word32 record.newOverflowHead) := by
  simp only [encode, blocks, List.append_assoc]

theorem readInt32_flag : readInt32 record.encode.toBuffer walRecNewOverflowFlagOff =
    if record.newIsOverflow then 1 else 0 := by
  rw [encode_blocks, ← @length_blocks record]
  apply readInt32_toBuffer
  split <;> decide

theorem readInt32_head (h : Fits32 record.newOverflowHead) :
    readInt32 record.encode.toBuffer walRecNewOverflowHeadOff = record.newOverflowHead := by
  have hl : (record.blocks ++ word32 (if record.newIsOverflow then 1 else 0)).length =
      walRecNewOverflowHeadOff := by
    rw [List.length_append, length_blocks, length_word32]
  have hr := readInt32_toBuffer (record.blocks ++ word32 (if record.newIsOverflow then 1 else 0)) []
    h
  rw [List.append_nil, List.append_assoc, ← encode_blocks, hl] at hr
  exact hr

theorem slice_key (h : record.key.length ≤ byteArraySize) :
    slice record.encode.toBuffer walRecKeyOff record.key.length = record.key := by
  have e : record.encode = (word32 record.kind.code ++ word32 record.txid ++
      word32 record.key.length ++ word32 record.valueLen) ++ (byteArray record.key ++
        (byteArray [] ++ (byteArray record.newData ++
          (word32 (if record.newIsOverflow then 1 else 0) ++ word32 record.newOverflowHead)))) := by
    simp only [encode, List.append_assoc]
  rw [e]
  exact slice_byteArray _ _ h

theorem slice_newData (h : record.newData.length ≤ byteArraySize) :
    slice record.encode.toBuffer walRecNewOff record.newData.length = record.newData := by
  have e : record.encode = (word32 record.kind.code ++ word32 record.txid ++
      word32 record.key.length ++ word32 record.valueLen ++ byteArray record.key ++ byteArray []) ++
        (byteArray record.newData ++ (word32 (if record.newIsOverflow then 1 else 0) ++
          word32 record.newOverflowHead)) := by
    simp only [encode, List.append_assoc]
  have hl : (word32 record.kind.code ++ word32 record.txid ++ word32 record.key.length ++
      word32 record.valueLen ++ byteArray record.key ++ byteArray []).length = walRecNewOff := by
    simp only [List.length_append, length_word32, length_byteArray]
    rfl
  rw [e, ← hl]
  exact slice_byteArray _ _ h

/-- `recKey` of a record gives its key. -/
theorem recKey_encode (h : record.key.length ≤ byteArraySize) :
    Engine.recKey record.encode = some record.key := by
  simp only [byteArraySize] at h
  have hk := @readInt32_klen record ⟨by omega, by omega⟩
  simp only [Engine.recKey, hk]
  rw [if_neg (by simp only [maxRecordSize]; omega),
    if_neg (by simp only [walRecKeyOff, walRecordSize]; omega), Int.toNat_natCast, slice_key h]

end WalRecord

/-! ## What the log is to hold -/

/-- A write that a call reports as done, or a commit. -/
inductive LogEntry
  | set (txn : Int) (key value : Bytes)
  | delete (txn : Int) (key : Bytes)
  | commit (txn : Int)
deriving DecidableEq

namespace LogEntry

/-- The record holds the entry, a long value through its overflow flag and head. -/
def In : LogEntry → Bytes → Prop
  | .set txn key value, data => recKind data = WalKind.update.code ∧ recTxid data = txn ∧
      Engine.recKey data = some key ∧ readInt32 data.toBuffer walRecVlenOff = value.length ∧
      if value.length ≤ byteArraySize then
        readInt32 data.toBuffer walRecNewOverflowFlagOff = 0 ∧
          slice data.toBuffer walRecNewOff value.length = value
      else readInt32 data.toBuffer walRecNewOverflowFlagOff = 1
  | .delete txn key, data => recKind data = WalKind.delete.code ∧ recTxid data = txn ∧
      Engine.recKey data = some key
  | .commit txn, data => recKind data = WalKind.commit.code ∧ recTxid data = txn

/-- `garry_overflow_read` gives a long value back. -/
def ReadsBack (pool : Pool) : LogEntry → Bytes → Prop
  | .set _ _ value, data => byteArraySize < value.length →
      overflowRead pool (readInt32 data.toBuffer walRecNewOverflowHeadOff) value.length = some value
  | _, _ => True

end LogEntry

/-- The log has a record for every entry, in this order. -/
def InOrder (bytes : Bytes) (entries : List LogEntry) (P : LogEntry → Bytes → Prop) : Prop :=
  ∃ datas : List Bytes, datas.Sublist (walRecords bytes) ∧ List.Forall₂ P entries datas

/-- The file up to the position of the descriptor. -/
def WalLog.padded (wal : WalLog) : Bytes :=
  wal.bytes ++ List.replicate (wal.offset - wal.bytes.length) 0

/-- What the log held it holds with the zeros. -/
theorem WalLog.sublist_padded (wal : WalLog) :
    (walRecords wal.bytes).Sublist (walRecords wal.padded) := by
  have ht : wal.padded.take wal.bytes.length = wal.bytes := List.take_left
  rw [← ht, walRecords_take]
  exact List.take_sublist ..

namespace WalLog.Whole

variable {wal : WalLog}

theorem length_padded (h : wal.Whole) : wal.padded.length = wal.offset := by
  have hle := h.le
  rw [padded, List.length_append, List.length_replicate]
  omega

/-- An append adds one record. -/
theorem walRecords_append (h : wal.Whole) (record : WalRecord) :
    walRecords (walLogAppend wal record).2.bytes = walRecords wal.padded ++ [record.encode] := by
  rw [h.bytes_append]
  apply Garry.walRecords_append
  · show walRecordSize ∣ wal.padded.length
    rw [h.length_padded]
    exact h.offset
  · exact record.length_encode

theorem inOrder_append (h : wal.Whole) {entries : List LogEntry} {P : LogEntry → Bytes → Prop}
    (ho : InOrder wal.bytes entries P) (record : WalRecord) :
    InOrder (walLogAppend wal record).2.bytes entries P ∧
      ∀ e, P e record.encode → InOrder (walLogAppend wal record).2.bytes (entries ++ [e]) P := by
  obtain ⟨datas, hsub, hall⟩ := ho
  have hsub' := hsub.trans wal.sublist_padded
  rw [InOrder, h.walRecords_append]
  refine ⟨⟨datas, hsub'.trans (List.sublist_append_left ..), hall⟩, fun e he => ?_⟩
  rw [InOrder, h.walRecords_append]
  exact ⟨datas ++ [record.encode], hsub'.append (List.Sublist.refl _),
    List.rel_append hall (.cons he .nil)⟩

end WalLog.Whole

/-! ## Records of the calls -/

section

variable {record : WalRecord}

theorem in_update (hk : record.kind = .update) (ht : Fits32 record.txid)
    (hkey : record.key.length ≤ maxKeySize) (hl : record.valueLen = value.length)
    (hfit : Fits32 value.length)
    (hv : if value.length ≤ byteArraySize then record.newIsOverflow = false ∧ record.newData = value
      else record.newIsOverflow = true) :
    (LogEntry.set record.txid record.key value).In record.encode := by
  refine ⟨by rw [recKind_encode, hk], recTxid_encode ht, record.recKey_encode hkey, ?_, ?_⟩
  · rw [← hl]
    exact record.readInt32_vlen (hl ▸ hfit)
  · split
    · next hle =>
      rw [if_pos hle] at hv
      obtain ⟨ho, rfl⟩ := hv
      refine ⟨?_, record.slice_newData hle⟩
      rw [record.readInt32_flag, ho]
      rfl
    · next hgt =>
      rw [if_neg hgt] at hv
      rw [record.readInt32_flag, hv]
      rfl

/-- A record is made if its value is short or gets overflow pages. -/
theorem makeUpdateRecord_made (pool : Pool) (txn : Int) (key value : Bytes) :
    ((makeUpdateRecord pool txn key value).1.isSome ↔
      value.length ≤ byteArraySize ∨ 0 ≤ (overflowWrite pool value).1) ∧
    ∀ record, (makeUpdateRecord pool txn key value).1 = some record →
      record.kind = .update ∧ record.txid = txn ∧ record.key = key ∧
        record.valueLen = value.length ∧
        if value.length ≤ byteArraySize then
          record.newIsOverflow = false ∧ record.newData = value
        else record.newIsOverflow = true := by
  rw [makeUpdateRecord]
  split
  · next hle =>
    refine ⟨⟨fun _ => .inl hle, fun _ => rfl⟩, fun record h => ?_⟩
    cases h
    exact ⟨rfl, rfl, rfl, rfl, rfl, rfl⟩
  · next hgt =>
    generalize overflowWrite pool value = written
    obtain ⟨head, pool'⟩ := written
    simp only
    split
    · next hneg =>
      refine ⟨⟨fun h => ?_, fun h => ?_⟩, fun record h => ?_⟩
      · cases h
      · exact absurd (h.resolve_left hgt) (not_le.mpr hneg)
      · cases h
    · next hpos =>
      refine ⟨⟨fun _ => .inr (not_lt.mp hpos), fun _ => rfl⟩, fun record h => ?_⟩
      cases h
      exact ⟨rfl, rfl, rfl, rfl, rfl⟩

theorem in_delete (ht : Fits32 txn) (hkey : key.length ≤ maxKeySize) :
    (LogEntry.delete txn key).In (makeDeleteRecord txn key).encode :=
  ⟨recKind_encode _, @recTxid_encode (makeDeleteRecord txn key) ht,
    (makeDeleteRecord txn key).recKey_encode hkey⟩

theorem in_commit (ht : Fits32 txn) :
    (LogEntry.commit txn).In (makeCommitRecord txn).encode :=
  ⟨recKind_encode _, @recTxid_encode (makeCommitRecord txn) ht⟩

end

namespace Engine

variable {lz4 : Lz4} {w : LogWrite} {ps : Nat} {eng eng' : Engine} {L : Layout}

/-! ## Calls -/

/-- A call with what becomes of its log record, and whether it reports success. -/
def callWith (lz4 : Lz4) (w : LogWrite) (eng : Engine) : EngineOp → Option (Bool × Engine)
  | .set txn key value => eng.storageSetWith lz4 w txn key value
  | .delete txn key => eng.storageDeleteWith w txn key
  | .commit txn => some (true, eng.storageCommitWith w txn)
  | .rollback txn => some (true, eng.storageRollbackWith w txn)
  | op => (eng.step lz4 op).map fun eng => (true, eng)

/-- What the log is to hold after a call. -/
def entriesAfter (entries : List LogEntry) (done : Bool) : EngineOp → List LogEntry
  | .set txn key value => if done then entries ++ [.set txn key value] else entries
  | .delete txn key => if done then entries ++ [.delete txn key] else entries
  | .commit txn => entries ++ [.commit txn]
  | .checkpoint => []
  | _ => entries

/-- The runs of calls, every one with `ok`, and what the log is to hold since the last
checkpoint. -/
inductive LogRun (lz4 : Lz4) (ok : LogWrite → Engine → Engine → EngineOp → Prop) (eng : Engine) :
    Engine → List LogEntry → Prop
  | refl : LogRun lz4 ok eng eng []
  | call {w : LogWrite} {eng' eng'' : Engine} {op : EngineOp} {done : Bool}
    {entries : List LogEntry} : LogRun lz4 ok eng eng' entries →
    eng'.callWith lz4 w op = some (done, eng'') → ok w eng' eng'' op →
    LogRun lz4 ok eng eng'' (entriesAfter entries done op)

/-- The pool when `garry_storage_set` makes its log record. -/
def recordPool (eng : Engine) (key : Bytes) : Option Pool :=
  match leafFindSearch eng.pool eng.btreeRoot key with
  | none => none
  | some (some _) => some eng.pool
  | some none =>
    let (cid, eng) := eng.chainAllocate
    if cid < 0 then none
    else
      match btreeInsert eng.pool eng.btreeRoot key (encodeDescriptor cid false) with
      | some (true, pool, _) => some pool
      | _ => none

/-- The record of a set is made: its value fits in a record, or `garry_overflow_write` has pages for
it. -/
def RecordMade (eng : Engine) : EngineOp → Prop
  | .set _ key value => value.length ≤ byteArraySize ∨
      ∀ pool, eng.recordPool key = some pool → 0 ≤ (overflowWrite pool value).1
  | _ => True

/-- The transactions and the lengths of values are `int`s. -/
def IntArgs : EngineOp → Prop
  | .set txn _ value => Fits32 txn ∧ Fits32 value.length
  | .delete txn _ => Fits32 txn
  | .commit txn => Fits32 txn
  | _ => True

/-- The record of the call is made and written whole. -/
structure LogsWell (w : LogWrite) (eng eng' : Engine) (op : EngineOp) : Prop where
  whole : w.Whole
  ints : IntArgs op
  made : eng.RecordMade op

/-- The locks are on keys that the lock table can hold. -/
def LocksFit (eng : Engine) : Prop := ∀ p ∈ eng.lockMgr, p.key.length ≤ maxKeySize

theorem LocksFit.acquire {mgr : List LockNode} (h : eng.LocksFit)
    (ha : lockAcquire eng.lockMgr txn key mode = some mgr) :
    key.length ≤ maxKeySize ∧ ({ eng with lockMgr := mgr } : Engine).LocksFit := by
  rw [lockAcquire] at ha
  split at ha
  · next hheld =>
    cases ha
    obtain ⟨p, hp, hpk⟩ := List.any_eq_true.mp hheld
    exact ⟨(of_decide_eq_true hpk).2 ▸ h p hp, h⟩
  split at ha
  · cases ha
  split at ha
  · cases ha
  · next hlen =>
    cases ha
    refine ⟨not_lt.mp hlen, fun p hp => ?_⟩
    rcases List.mem_cons.mp hp with rfl | hp
    · exact not_lt.mp hlen
    · exact h p hp

theorem LocksFit.release (h : eng.LocksFit) (txn : Int) :
    ∀ p ∈ lockRelease eng.lockMgr txn, p.key.length ≤ maxKeySize :=
  fun p hp => h p (List.mem_filter.mp hp).1

theorem mvccSet_lockMgr (txn cid : Int) (value : Bytes) :
    (eng.mvccSet txn cid value).2.lockMgr = eng.lockMgr := by
  rw [mvccSet]
  split
  · rfl
  split
  · generalize overflowWrite eng.pool value = written
    obtain ⟨head, pool⟩ := written
    simp only
    split
    · rfl
    split
    · rfl
    · rfl
  · split
    · rfl
    · rfl

theorem mvccDelete_lockMgr (txn cid : Int) :
    (eng.mvccDelete txn cid).2.lockMgr = eng.lockMgr := by
  rw [mvccDelete]
  split
  · rfl
  split
  · rfl
  · rfl

theorem setVersionWith_wal (txn cid : Int) (key value : Bytes) (newKey : Bool) :
    (eng.setVersionWith lz4 w txn cid key value newKey).2.lockMgr = eng.lockMgr ∧
      (eng.setVersionWith lz4 w txn cid key value newKey).2.wal =
        (eng.appendWith w (makeUpdateWith w eng.pool txn key value).1).wal := by
  rw [setVersionWith]
  generalize makeUpdateWith w eng.pool txn key value = made
  obtain ⟨record, pool⟩ := made
  simp only
  have hl : (({ eng with pool := pool } : Engine).appendWith w record).lockMgr = eng.lockMgr := by
    cases record <;> rfl
  have hw : (({ eng with pool := pool } : Engine).appendWith w record).wal =
      (eng.appendWith w record).wal := by
    cases record <;> rfl
  generalize ({ eng with pool := pool } : Engine).appendWith w record = eng₁ at hl hw
  split
  · exact ⟨hl, hw⟩
  · next v _ =>
    have hl₂ := (mvccSet_lockMgr txn cid v : (eng₁.mvccSet txn cid v).2.lockMgr = _).trans hl
    have hw₂ := (keeps_mvccSet txn cid v : eng₁.Keeps (eng₁.mvccSet txn cid v).2).wal.trans hw
    split
    · exact ⟨hl₂, hw₂⟩
    · exact ⟨hl₂, hw₂⟩

/-- What `garry_storage_set` leaves in the log: nothing, or the record of its value if there is
one. -/
theorem storageSetWith_wal (hl : eng.LocksFit)
    (h : eng.storageSetWith lz4 w txn key value = some (ok, eng')) :
    eng'.LocksFit ∧ ((ok = false ∧ eng'.wal = eng.wal) ∨
      (key.length ≤ maxKeySize ∧ ∃ pool, eng.recordPool key = some pool ∧
        eng'.wal = (eng.appendWith w (makeUpdateWith w pool txn key value).1).wal)) := by
  have hskip : eng.LocksFit ∧ ((false = false ∧ eng.wal = eng.wal) ∨
      (key.length ≤ maxKeySize ∧ ∃ pool, eng.recordPool key = some pool ∧
        eng.wal = (eng.appendWith w (makeUpdateWith w pool txn key value).1).wal)) :=
    ⟨hl, .inl ⟨rfl, rfl⟩⟩
  rw [storageSetWith] at h
  split at h
  · cases h
    exact hskip
  next hlen =>
  split at h
  · cases h
    exact hskip
  split at h
  · cases h
    exact hskip
  next lockMgr hlock =>
  have hkey : key.length ≤ maxKeySize := not_lt.mp fun hlt => hlen (.inr hlt)
  have hfit := (hl.acquire hlock).2
  have hwal (record : Option WalRecord) : (({ eng with lockMgr := lockMgr } : Engine).appendWith w
      record).wal = (eng.appendWith w record).wal := by
    cases record <;> rfl
  simp only at h
  split at h
  · cases h
  · next lookup hsearch =>
    have hpool : eng.recordPool key = some eng.pool := by
      rw [recordPool, hsearch]
    have hset := @setVersionWith_wal lz4 w { eng with lockMgr := lockMgr } txn
      (decodeCidFromDescriptor lookup.toBuffer) key value false
    rw [Option.some.inj h, hwal] at hset
    refine ⟨?_, .inr ⟨hkey, eng.pool, hpool, hset.2⟩⟩
    rw [LocksFit, hset.1]
    exact hfit
  · next hsearch =>
    have hpool : eng.recordPool key =
        if eng.chainAllocate.1 < 0 then none
        else
          match btreeInsert eng.chainAllocate.2.pool eng.chainAllocate.2.btreeRoot key
              (encodeDescriptor eng.chainAllocate.1 false) with
          | some (true, pool, _) => some pool
          | _ => none := by
      rw [recordPool, hsearch]
    have hmade : ({ eng with lockMgr := lockMgr } : Engine).chainAllocate =
        (eng.chainAllocate.1, { eng.chainAllocate.2 with lockMgr := lockMgr }) := by
      simp only [chainAllocate]
      split
      · rfl
      split
      · rfl
      · rfl
    have hk : eng.Keeps eng.chainAllocate.2 := keeps_chainAllocate
    rw [hmade] at h
    simp only at h
    generalize eng.chainAllocate = made at h hpool hk
    obtain ⟨cid, eng₁⟩ := made
    simp only at h hpool hk
    split at h
    · cases h
      exact ⟨hfit, .inl ⟨rfl, hk.wal⟩⟩
    next hcid =>
    rw [if_neg hcid] at hpool
    split at h
    · cases h
    next inserted pool root hins =>
    rw [hins] at hpool
    have hins' : (eng₁.appendWith w (makeUpdateWith w pool txn key value).1).wal =
        (eng.appendWith w (makeUpdateWith w pool txn key value).1).wal := by
      cases (makeUpdateWith w pool txn key value).1 with
      | none => exact hk.wal
      | some record => simp only [appendWith, hk.wal]
    split at h
    · next hin =>
      subst hin
      have hset := @setVersionWith_wal lz4 w { eng₁ with
        pool := pool, btreeRoot := root, lockMgr := lockMgr } txn cid key value true
      rw [Option.some.inj h] at hset
      refine ⟨?_, .inr ⟨hkey, pool, hpool, hset.2.trans ?_⟩⟩
      · rw [LocksFit, hset.1]
        exact hfit
      · rw [← hins']
        cases (makeUpdateWith w pool txn key value).1 <;> rfl
    · cases h
      exact ⟨hfit, .inl ⟨rfl, hk.wal⟩⟩

/-- What `garry_storage_delete` leaves in the log: nothing, or its record. -/
theorem storageDeleteWith_wal (hl : eng.LocksFit)
    (h : eng.storageDeleteWith w txn key = some (ok, eng')) :
    eng'.LocksFit ∧ ((ok = false ∧ eng'.wal = eng.wal) ∨
      (key.length ≤ maxKeySize ∧ eng'.wal = (eng.logWith w (makeDeleteRecord txn key)).wal)) := by
  have hskip : eng.LocksFit ∧ ((false = false ∧ eng.wal = eng.wal) ∨
      (key.length ≤ maxKeySize ∧ eng.wal = (eng.logWith w (makeDeleteRecord txn key)).wal)) :=
    ⟨hl, .inl ⟨rfl, rfl⟩⟩
  rw [storageDeleteWith] at h
  split at h
  · cases h
    exact hskip
  split at h
  · cases h
    exact hskip
  split at h
  · cases h
    exact hskip
  next lockMgr hlock =>
  obtain ⟨hkey, hfit⟩ := hl.acquire hlock
  simp only at h
  split at h
  · cases h
  · cases h
    exact ⟨hfit, .inl ⟨rfl, rfl⟩⟩
  · split at h
    · cases h
      exact ⟨hfit, .inl ⟨rfl, rfl⟩⟩
    · next lookup _ _ =>
      have hlog : ((({ eng with lockMgr := lockMgr } : Engine).logWith w
          (makeDeleteRecord txn key)).wal = (eng.logWith w (makeDeleteRecord txn key)).wal) ∧
          ((({ eng with lockMgr := lockMgr } : Engine).logWith w
            (makeDeleteRecord txn key)).lockMgr = lockMgr) := by
        rw [logWith, logWith]
        split
        · exact ⟨rfl, rfl⟩
        · exact ⟨rfl, rfl⟩
      generalize ({ eng with lockMgr := lockMgr } : Engine).logWith w (makeDeleteRecord txn key) = eng₁
        at h hlog
      have hk := (keeps_mvccDelete txn (decodeCidFromDescriptor lookup.toBuffer) :
        eng₁.Keeps (eng₁.mvccDelete txn (decodeCidFromDescriptor lookup.toBuffer)).2).wal
      have hm := (mvccDelete_lockMgr txn (decodeCidFromDescriptor lookup.toBuffer) :
        (eng₁.mvccDelete txn (decodeCidFromDescriptor lookup.toBuffer)).2.lockMgr = _)
      rw [Option.some.inj h] at hk hm
      refine ⟨?_, .inr ⟨hkey, hk.trans hlog.1⟩⟩
      rw [LocksFit, hm, hlog.2]
      exact hfit

/-! ## Runs -/

/-- The log holds the entries in order, and the next record goes behind them. -/
structure HoldsLog (P : LogEntry → Bytes → Prop) (eng : Engine) (entries : List LogEntry) : Prop where
  whole : eng.wal.Whole
  locks : eng.LocksFit
  inOrder : InOrder eng.wal.bytes entries P

variable {P Q : LogEntry → Bytes → Prop} {entries : List LogEntry}

theorem HoldsLog.mono (h : HoldsLog P eng entries) (hpq : ∀ e data, P e data → Q e data) :
    HoldsLog Q eng entries := by
  obtain ⟨datas, hsub, hall⟩ := h.inOrder
  exact ⟨h.whole, h.locks, datas, hsub, hall.imp hpq⟩

/-- Calls that leave the log and the locks as they are. -/
theorem HoldsLog.same (h : HoldsLog P eng entries) (hw : eng'.wal = eng.wal)
    (hl : eng'.lockMgr = eng.lockMgr) : HoldsLog P eng' entries where
  whole := hw ▸ h.whole
  locks := by
    rw [LocksFit, hl]
    exact h.locks
  inOrder := hw ▸ h.inOrder

/-- A record more. -/
theorem HoldsLog.append {record : WalRecord} (h : HoldsLog P eng entries)
    (hw : eng'.wal = (walLogAppend eng.wal record).2) (hl : eng'.LocksFit) :
    HoldsLog P eng' entries ∧ ∀ e, P e record.encode → HoldsLog P eng' (entries ++ [e]) := by
  have hwhole : eng'.wal.Whole := hw ▸ h.whole.append record
  obtain ⟨h1, h2⟩ := h.whole.inOrder_append h.inOrder record
  rw [← hw] at h1 h2
  exact ⟨⟨hwhole, hl, h1⟩, fun e he => ⟨hwhole, hl, h2 e he⟩⟩

theorem storageBegin_aside (eng : Engine) :
    eng.storageBegin.2.wal = eng.wal ∧ eng.storageBegin.2.lockMgr = eng.lockMgr := by
  rcases begins_or eng with e | hb
  · rw [e]
    exact ⟨rfl, rfl⟩
  · rw [hb.eq]
    exact ⟨rfl, rfl⟩

/-- A set whose record is made and written whole. -/
theorem HoldsLog.set (h : HoldsLog LogEntry.In eng entries)
    (hs : eng.storageSetWith lz4 w txn key value = some (done, eng'))
    (hok : LogsWell w eng eng' (.set txn key value)) :
    HoldsLog LogEntry.In eng' (entriesAfter entries done (.set txn key value)) := by
  have hw := hok.whole
  obtain ⟨hl, ⟨rfl, hwal⟩ | ⟨hkey, pool, hpool, hwal⟩⟩ := storageSetWith_wal h.locks hs
  · exact ⟨hwal ▸ h.whole, hl, hwal ▸ h.inOrder⟩
  · obtain ⟨hsome, hfields⟩ := makeUpdateRecord_made pool txn key value
    obtain ⟨record, hrec⟩ := Option.isSome_iff_exists.mp
      (hsome.mpr (hok.made.imp_right fun hp => hp pool hpool))
    obtain ⟨hk, hid, hke, hlen, hval⟩ := hfields record hrec
    rw [makeUpdateWith, hw.1, if_pos rfl, hrec, appendWith_whole hw] at hwal
    obtain ⟨h1, h2⟩ := h.append hwal hl
    rw [entriesAfter]
    split
    · apply h2
      subst hid hke
      exact in_update hk hok.ints.1 hkey hlen hok.ints.2 hval
    · exact h1

/-- Another call whose record is written whole. -/
theorem HoldsLog.other (h : HoldsLog P eng entries) {op : EngineOp}
    (hset : ∀ txn key value, op ≠ .set txn key value)
    (hP : ∀ e data, e.In data → (∀ txn key value, e ≠ .set txn key value) → P e data)
    (hc : eng.callWith lz4 w op = some (done, eng')) (hw : w.Whole) (hi : IntArgs op) :
    HoldsLog P eng' (entriesAfter entries done op) := by
  cases op with
  | begin =>
    cases hc
    exact h.same (storageBegin_aside eng).1 (storageBegin_aside eng).2
  | set txn key value => exact absurd rfl (hset txn key value)
  | delete txn key =>
    obtain ⟨hl, ⟨rfl, hwal⟩ | ⟨hkey, hwal⟩⟩ := storageDeleteWith_wal h.locks hc
    · exact ⟨hwal ▸ h.whole, hl, hwal ▸ h.inOrder⟩
    · rw [logWith_whole hw] at hwal
      obtain ⟨h1, h2⟩ := h.append hwal hl
      rw [entriesAfter]
      split
      · exact h2 _ (hP _ _ (in_delete hi hkey) (by simp))
      · exact h1
  | commit txn =>
    obtain ⟨rfl, rfl⟩ := Prod.mk.inj (Option.some.inj hc)
    rw [storageCommitWith_whole hw]
    refine (h.append rfl fun p hp => ?_).2 _ (hP _ _ (in_commit hi) (by simp))
    exact h.locks.release txn p (List.mem_filter.mp hp).1
  | rollback txn =>
    obtain ⟨rfl, rfl⟩ := Prod.mk.inj (Option.some.inj hc)
    rw [storageRollbackWith_whole hw]
    refine (h.append rfl fun p hp => ?_).1
    exact h.locks.release txn p (List.mem_filter.mp hp).1
  | gc =>
    obtain ⟨eng₁, hs, he⟩ := Option.map_eq_some_iff.mp hc
    cases he
    refine h.same (keeps_mvccGc hs).wal ?_
    rw [mvccGc_eq hs]
  | checkpoint =>
    obtain ⟨eng₁, hs, he⟩ := Option.map_eq_some_iff.mp hc
    cases he
    obtain ⟨r, hr, rfl⟩ := Option.map_eq_some_iff.mp hs
    obtain ⟨eng₂, hgc, rfl⟩ := Option.map_eq_some_iff.mp hr
    refine ⟨?_, ?_, [], List.nil_sublist _, .nil⟩
    · have hwal := (keeps_mvccGc hgc).wal
      simp only [hwal]
      exact h.whole.truncate
    · rw [LocksFit]
      have hl : eng₂.lockMgr = eng.lockMgr := by rw [mvccGc_eq hgc]
      simp only [hl]
      exact h.locks
  | evict pid =>
    cases hc
    exact h.same rfl rfl
  | frames env =>
    cases hc
    exact h.same rfl rfl

theorem LogRun.holdsLog (hrun : eng.LogRun lz4 LogsWell eng' entries) (hw : eng.wal.Whole)
    (hl : eng.LocksFit) : HoldsLog LogEntry.In eng' entries := by
  induction hrun with
  | refl => exact ⟨hw, hl, [], List.nil_sublist _, .nil⟩
  | call _ hc hok ih =>
    rename_i w eng₁ eng₂ op done entries _
    by_cases hset : ∃ txn key value, op = .set txn key value
    · obtain ⟨txn, key, value, rfl⟩ := hset
      exact ih.set hc hok
    · refine ih.other (fun txn key value e => hset ⟨txn, key, value, e⟩) (fun _ _ h _ => h) hc
        hok.whole hok.ints

/-! ## Long values -/

/-- The record holds the entry, and a long value is on pages of the log. -/
def OnPages (ps : Nat) (pool : Pool) (L : Layout) (e : LogEntry) (data : Bytes) : Prop :=
  e.In data ∧ ∀ txn key value, e = .set txn key value → byteArraySize < value.length →
    ∃ l, OverflowAt ps pool.pages l (readInt32 data.toBuffer walRecNewOverflowHeadOff) value ∧
      ∀ p ∈ l, L.own p = some .log

theorem OnPages.kept {pool pool' : Pool} {L' : Layout} {e : LogEntry}
    (h : OnPages ps pool L e data) (hk : LogKept pool pool' L L') : OnPages ps pool' L' e data := by
  refine ⟨h.1, fun txn key value he hlong => ?_⟩
  obtain ⟨l, hl, hown⟩ := h.2 txn key value he hlong
  exact ⟨l, hl.congr fun p hp => (hk p (hown p hp)).2, fun p hp => (hk p (hown p hp)).1⟩

theorem OnPages.readsBack {e : LogEntry} (h : OnPages ps eng.pool L e data) (hi : Inv ps eng L) :
    e.ReadsBack eng.pool data := by
  cases e with
  | set txn key value =>
    intro hlong
    obtain ⟨l, hl, -⟩ := h.2 txn key value rfl hlong
    have hps := hi.pages.pageSize
    have hc := hi.pages.chunk
    rw [← hps] at hl hc
    exact hl.read hi.pages.serves hc
  | delete txn key => trivial
  | commit txn => trivial

theorem UpdateLogged.onPages {key value : Bytes} {record : WalRecord} (hi : Inv ps eng L)
    (h : UpdateLogged ps eng.pool L txn key value record) (ht : Fits32 txn)
    (hv : Fits32 value.length) (hkey : key.length ≤ maxKeySize) :
    OnPages ps eng.pool L (.set txn key value) record.encode := by
  obtain ⟨hk, rfl, rfl, hlen, hval⟩ := h
  refine ⟨in_update hk ht hkey hlen hv ?_, fun txn key value' he hlong => ?_⟩
  · split
    · next hle => exact (hval.resolve_right fun hr => absurd hr.1 (not_lt.mpr hle)).2
    · next hgt => exact (hval.resolve_left fun hl => hgt hl.1).2.1
  · obtain ⟨-, -, rfl⟩ := LogEntry.set.inj he
    obtain ⟨-, -, l, hl, hown⟩ := hval.resolve_left fun h => absurd h.1 (not_le.mpr hlong)
    have hne : value ≠ [] := by
      rintro rfl
      exact absurd hlong (Nat.not_lt_zero _)
    obtain ⟨l', rfl⟩ := hl.ne_nil hne
    have hr := hi.pages.range (hown _ (List.mem_cons_self ..))
    have hn := hi.toSound.next_le
    refine ⟨_, ?_, hown⟩
    rw [record.readInt32_head ⟨by omega, by omega⟩]
    exact hl

/-- The call is proper, and its record is written whole. -/
structure ServesWell (lz4 : Lz4) (w : LogWrite) (eng eng' : Engine) (op : EngineOp) : Prop where
  whole : w.Whole
  ints : IntArgs op
  proper : Proper lz4 eng eng' op

theorem callWith_step (hw : w.Whole) {op : EngineOp}
    (hc : eng.callWith lz4 w op = some (done, eng')) : eng.step lz4 op = some eng' := by
  cases op with
  | begin =>
    cases hc
    rfl
  | set txn key value =>
    rw [callWith, storageSetWith_whole hw] at hc
    rw [step, hc]
    rfl
  | delete txn key =>
    rw [callWith, storageDeleteWith_whole hw] at hc
    rw [step, hc]
    rfl
  | commit txn =>
    rw [callWith, storageCommitWith_whole hw] at hc
    cases hc
    rfl
  | rollback txn =>
    rw [callWith, storageRollbackWith_whole hw] at hc
    cases hc
    rfl
  | gc =>
    obtain ⟨eng₁, hs, he⟩ := Option.map_eq_some_iff.mp hc
    cases he
    exact hs
  | checkpoint =>
    obtain ⟨eng₁, hs, he⟩ := Option.map_eq_some_iff.mp hc
    cases he
    exact hs
  | evict pid =>
    cases hc
    rfl
  | frames env =>
    cases hc
    rfl

/-- A set keeps the long values of the log and adds its own. -/
theorem Inv.setLogged (h : Inv ps eng L) (hlog : HoldsLog (OnPages ps eng.pool L) eng entries)
    (hs : eng.storageSetWith lz4 w txn key value = some (done, eng'))
    (hok : ServesWell lz4 w eng eng' (.set txn key value)) :
    ∃ L', Inv ps eng' L' ∧ HoldsLog (OnPages ps eng'.pool L') eng'
      (entriesAfter entries done (.set txn key value)) := by
  have hl := (storageSetWith_wal hlog.locks hs).1
  rw [storageSetWith_whole hok.whole] at hs
  obtain ⟨L', hi, -, hdone, -, hlogs⟩ := h.set hok.proper.2.1 hok.proper.2.2 hs hok.proper.1
  have hkept := hlog.mono fun e data hp => OnPages.kept hp hlogs.versions.log
  refine ⟨L', hi, ?_⟩
  cases hacc : eng.accepts txn key with
  | false =>
    have he := hlogs.rejected hacc
    rw [hacc, Bool.false_and] at hdone
    subst he hdone
    exact hkept
  | true =>
    obtain ⟨record, hwal, hrec⟩ := hlogs.accepted hacc
    obtain ⟨h1, h2⟩ := hkept.append hwal hl
    rw [entriesAfter]
    split
    · have hkey : key.length ≤ maxKeySize := hok.proper.2.1.trans (by decide)
      exact h2 _ (hrec.onPages hi hok.ints.1 hok.ints.2 hkey)
    · exact h1

theorem LogRun.onPages (hrun : eng.LogRun lz4 (ServesWell lz4) eng' entries) (h : Inv ps eng L)
    (hw : eng.wal.Whole) (hl : eng.LocksFit) :
    ∃ L', Inv ps eng' L' ∧ HoldsLog (OnPages ps eng'.pool L') eng' entries := by
  induction hrun with
  | refl => exact ⟨L, h, hw, hl, [], List.nil_sublist _, .nil⟩
  | call _ hc hok ih =>
    rename_i w eng₁ eng₂ op done entries _
    obtain ⟨L₁, hi, hlog⟩ := ih
    by_cases hset : ∃ txn key value, op = .set txn key value
    · obtain ⟨txn, key, value, rfl⟩ := hset
      exact hi.setLogged hlog hc hok
    · obtain ⟨L₂, hi₂, -, -, hkept, -⟩ := hi.call (callWith_step hok.whole hc) hok.proper
      have hlog₂ := hlog.mono (Q := OnPages ps eng₂.pool L₂) fun e data hp => hp.kept hkept
      have hplain (e : LogEntry) (data : Bytes) (hin : e.In data)
          (hne : ∀ txn key value, e ≠ .set txn key value) : OnPages ps eng₂.pool L₂ e data :=
        ⟨hin, fun txn key value he => absurd he (hne txn key value)⟩
      exact ⟨L₂, hi₂, hlog₂.other (fun txn key value e => hset ⟨txn, key, value, e⟩) hplain hc
        hok.whole hok.ints⟩

/-! ## Records that are lost -/

/-- A record more means that one was made and written whole. -/
theorem appendWith_adds (hw : eng.wal.Whole) {record : Option WalRecord} {data : Bytes}
    (h : walRecords (eng.appendWith w record).wal.bytes = walRecords eng.wal.padded ++ [data]) :
    record.isSome = true ∧ walRecordSize ≤ w.taken := by
  have hlen := congrArg List.length h
  rw [List.length_append, List.length_singleton] at hlen
  have hsame : (walRecords eng.wal.bytes).length ≤ (walRecords eng.wal.padded).length :=
    eng.wal.sublist_padded.length_le
  cases record with
  | none =>
    replace hlen : (walRecords eng.wal.bytes).length = (walRecords eng.wal.padded).length + 1 := hlen
    omega
  | some record =>
    refine ⟨rfl, ?_⟩
    by_contra hshort
    simp only [appendWith, walLogAppendShort, if_neg hshort] at hlen
    split at hlen
    · replace hlen : (walRecords eng.wal.bytes).length = (walRecords eng.wal.padded).length + 1 := hlen
      omega
    · -- What follows the records is shorter than one.
      have hle := hw.le
      have hpad := hw.length_padded
      have hdrop : eng.wal.bytes.drop (eng.wal.offset + w.taken) = [] :=
        List.drop_eq_nil_of_le (by omega)
      have htake : (eng.wal.bytes ++ List.replicate (eng.wal.offset - eng.wal.bytes.length) 0).take
          eng.wal.offset = eng.wal.padded := List.take_of_length_le hpad.le
      obtain ⟨n, hn⟩ := hw.offset
      rw [htake, hdrop, List.append_nil, length_walRecords, length_walRecords, List.length_append,
        List.length_take, WalRecord.length_encode, hpad, hn, Nat.min_eq_left (by omega),
        Nat.mul_add_div (by decide), Nat.mul_div_cancel_left _ (by decide),
        Nat.div_eq_of_lt (not_le.mp hshort)] at hlen
      omega

/-- A set that succeeds has its record in the log exactly when it is made and written whole. -/
theorem storageSetWith_adds (hw : eng.wal.Whole) (hl : eng.LocksFit)
    (hi : IntArgs (.set txn key value))
    (h : eng.storageSetWith lz4 w txn key value = some (true, eng')) :
    (∃ data, walRecords eng'.wal.bytes = walRecords eng.wal.padded ++ [data] ∧
      (LogEntry.set txn key value).In data) ↔ w.Whole ∧ eng.RecordMade (.set txn key value) := by
  obtain ⟨-, ⟨hf, -⟩ | ⟨hkey, pool, hpool, hwal⟩⟩ := storageSetWith_wal hl h
  · cases hf
  obtain ⟨hsome, hfields⟩ := makeUpdateRecord_made pool txn key value
  constructor
  · rintro ⟨data, hdata, -⟩
    rw [hwal] at hdata
    obtain ⟨hmade, htaken⟩ := appendWith_adds hw hdata
    rw [makeUpdateWith] at hmade
    split at hmade
    · next hfound =>
      refine ⟨⟨hfound, htaken⟩, (hsome.mp hmade).imp_right fun hp pool' hpool' => ?_⟩
      rw [hpool] at hpool'
      rw [← Option.some.inj hpool']
      exact hp
    · cases hmade
  · rintro ⟨hwhole, hmade⟩
    obtain ⟨record, hrec⟩ := Option.isSome_iff_exists.mp
      (hsome.mpr (hmade.imp_right fun hp => hp pool hpool))
    obtain ⟨hk, hid, hke, hlen, hval⟩ := hfields record hrec
    rw [makeUpdateWith, hwhole.1, if_pos rfl, hrec, appendWith_whole hwhole] at hwal
    refine ⟨record.encode, ?_, ?_⟩
    · rw [hwal]
      exact hw.walRecords_append record
    · subst hid hke
      exact in_update hk hi.1 hkey hlen hi.2 hval

/-- A delete that succeeds has its record in the log exactly when it is made and written whole. -/
theorem storageDeleteWith_adds (hw : eng.wal.Whole) (hl : eng.LocksFit) (ht : Fits32 txn)
    (h : eng.storageDeleteWith w txn key = some (true, eng')) :
    (∃ data, walRecords eng'.wal.bytes = walRecords eng.wal.padded ++ [data] ∧
      (LogEntry.delete txn key).In data) ↔ w.Whole := by
  obtain ⟨-, ⟨hf, -⟩ | ⟨hkey, hwal⟩⟩ := storageDeleteWith_wal hl h
  · cases hf
  constructor
  · rintro ⟨data, hdata, -⟩
    rw [hwal, logWith] at hdata
    obtain ⟨hmade, htaken⟩ := appendWith_adds hw hdata
    split at hmade
    · next hfound => exact ⟨hfound, htaken⟩
    · cases hmade
  · intro hwhole
    rw [logWith_whole hwhole] at hwal
    refine ⟨(makeDeleteRecord txn key).encode, ?_, in_delete ht hkey⟩
    rw [hwal]
    exact hw.walRecords_append _

end Engine

/-- In every run whose records are made and written whole, the log holds the writes that succeeded
and the commits, in order. As long as no page is refused besides, long values can be read back. And
a write that succeeds without its record being made and written whole is not in the log. -/
theorem storageSet_writeAhead {lz4 : Lz4} {eng₀ eng : Engine} {entries : List LogEntry}
    (hw : eng₀.wal.Whole) (hl : eng₀.lockMgr = []) :
    (eng₀.LogRun lz4 Engine.LogsWell eng entries →
      InOrder eng.wal.bytes entries LogEntry.In) ∧
    (∀ ps, Engine.Created ps eng₀ → eng₀.LogRun lz4 (Engine.ServesWell lz4) eng entries →
      InOrder eng.wal.bytes entries fun e data => e.In data ∧ e.ReadsBack eng.pool data) ∧
    (eng₀.LogRun lz4 Engine.LogsWell eng entries →
      ∀ (w : LogWrite) (txn : Int) (key value : Bytes) (eng' : Engine),
        Engine.IntArgs (.set txn key value) →
        (eng.storageSetWith lz4 w txn key value = some (true, eng') →
          ((∃ data, walRecords eng'.wal.bytes = walRecords eng.wal.padded ++ [data] ∧
            (LogEntry.set txn key value).In data) ↔
              w.Whole ∧ eng.RecordMade (.set txn key value))) ∧
        (eng.storageDeleteWith w txn key = some (true, eng') →
          ((∃ data, walRecords eng'.wal.bytes = walRecords eng.wal.padded ++ [data] ∧
            (LogEntry.delete txn key).In data) ↔ w.Whole))) := by
  have hfit : eng₀.LocksFit := by
    intro p hp
    rw [hl] at hp
    cases hp
  refine ⟨fun hrun => (hrun.holdsLog hw hfit).inOrder, fun ps h0 hrun => ?_, fun hrun => ?_⟩
  · obtain ⟨L, hi, hlog⟩ := hrun.onPages h0.inv.1 hw hfit
    exact (hlog.mono fun e data hp => ⟨hp.1, hp.readsBack hi⟩).inOrder
  · have hlog := hrun.holdsLog hw hfit
    intro w txn key value eng' hi
    exact ⟨fun h => Engine.storageSetWith_adds hlog.whole hlog.locks hi h,
      fun h => Engine.storageDeleteWith_adds hlog.whole hlog.locks hi.1 h⟩

namespace Engine

/-- The calls, whose records are all written with `w`. -/
def logCalls (lz4 : Lz4) (w : LogWrite) (eng : Engine) (entries : List LogEntry) :
    List EngineOp → Option (Engine × List LogEntry)
  | [] => some (eng, entries)
  | op :: ops =>
    (eng.callWith lz4 w op).bind fun (done, eng) =>
      eng.logCalls lz4 w (entriesAfter entries done op) ops

theorem LogRun.calls {lz4 : Lz4} {w : LogWrite} {ok : LogWrite → Engine → Engine → EngineOp → Prop}
    {eng₀ eng eng' : Engine} {entries entries' : List LogEntry} {ops : List EngineOp}
    (hrun : eng₀.LogRun lz4 ok eng entries)
    (h : eng.logCalls lz4 w entries ops = some (eng', entries'))
    (hok : ∀ op ∈ ops, ∀ eng eng', ok w eng eng' op) : eng₀.LogRun lz4 ok eng' entries' := by
  induction ops generalizing eng entries with
  | nil =>
    cases h
    exact hrun
  | cons op ops ih =>
    obtain ⟨⟨done, eng₁⟩, hc, h⟩ := Option.bind_eq_some_iff.mp h
    exact ih (hrun.call hc (hok op List.mem_cons_self ..)) h
      fun op hop => hok op (List.mem_cons_of_mem _ hop)

end Engine

theorem storageSet_writeAhead_set : ∃ eng₀ eng : Engine,
    Engine.engineInit .empty [] .roomy defaultEngineSettings = some eng₀ ∧
    InOrder eng.wal.bytes [.set 1 [107] [118], .commit 1] LogEntry.In := by
  have hinit : (Engine.engineInit .empty [] .roomy defaultEngineSettings).map (fun eng =>
      (eng.wal.bytes, eng.wal.offset, eng.lockMgr,
        (eng.logCalls .stored ⟨true, 792⟩ [] [.begin, .set 1 [107] [118], .commit 1]).map
          Prod.snd)) = some ([], 0, [], some [.set 1 [107] [118], .commit 1]) := by
    decide +kernel
  obtain ⟨eng₀, h0, hrest⟩ := Option.map_eq_some_iff.mp hinit
  obtain ⟨hbytes, hoffset, hlocks, hrun⟩ := by simpa only [Prod.mk.injEq] using hrest
  obtain ⟨⟨eng, entries⟩, hrun, rfl⟩ := Option.map_eq_some_iff.mp hrun
  have hw : eng₀.wal.Whole := by
    refine ⟨?_, ?_, ?_⟩
    · rw [hbytes]
      exact ⟨0, rfl⟩
    · rw [hoffset]
      exact ⟨0, rfl⟩
    · rw [hbytes, hoffset]
      exact le_rfl
  have hok : ∀ op ∈ [EngineOp.begin, .set 1 [107] [118], .commit 1], ∀ eng eng' : Engine,
      Engine.LogsWell ⟨true, 792⟩ eng eng' op := by
    intro op hop eng eng'
    simp only [List.mem_cons, List.not_mem_nil, or_false] at hop
    rcases hop with rfl | rfl | rfl
    · exact ⟨by decide, trivial, trivial⟩
    · exact ⟨by decide, ⟨⟨by decide, by decide⟩, ⟨by decide, by decide⟩⟩, .inl (by decide)⟩
    · exact ⟨by decide, ⟨by decide, by decide⟩, trivial⟩
  exact ⟨eng₀, eng, h0, (storageSet_writeAhead hw hlocks).1 (Engine.LogRun.refl.calls hrun hok)⟩

/-- A page of a long log record is refused; the set and the commit succeed, and after a crash the
value is gone. -/
def unloggedRun (value : Bytes) : Option (Bool × Nat × Option Bytes) := do
  let env : PoolEnv := { PoolEnv.roomy with allocFails := fun pid => decide (3 ≤ pid) }
  let eng ← Engine.engineInit .empty [] env defaultEngineSettings
  let (txn, eng) := eng.storageBegin
  let (ok, eng) ← eng.storageSet .stored txn [107] value
  let records := (walRecords eng.wal.bytes).length
  let eng := eng.storageCommit txn
  let (_, eng) ← Engine.engineOpen .stored eng.pool.file eng.wal.bytes .roomy
  let (txn, eng) := eng.storageBegin
  let value ← eng.storageGet .stored txn [107]
  some (ok, records, value)

example : unloggedRun [118] = some (true, 1, some [118]) := by
  decide +kernel

theorem storageSet_unlogged : unloggedRun (List.replicate 300 118) = some (true, 0, none) := by
  decide +kernel

end Garry
