import Garry.Model.VersionChain

/-!
# The log (`wal_record.c`, `wal_log.c`)

The log file is a byte string with the position of its descriptor; reads and writes succeed.
-/

namespace Garry

open ByteStore

abbrev walRecordSize : Nat := 792
abbrev walRecKindOff : Nat := 0
abbrev walRecTxidOff : Nat := 4
abbrev walRecKlenOff : Nat := 8
abbrev walRecVlenOff : Nat := 12
abbrev walRecKeyOff : Nat := 16
abbrev walRecOldOff : Nat := 272
abbrev walRecNewOff : Nat := 528
abbrev walRecNewOverflowFlagOff : Nat := 784
abbrev walRecNewOverflowHeadOff : Nat := 788

/-- The size of a `garry_byte_array`. -/
abbrev byteArraySize : Nat := 256

/-- `garry_wal_record_kind`. -/
inductive WalKind
  | update | commit | abort | checkpoint | delete
deriving DecidableEq, Repr

def WalKind.code : WalKind → Int
  | .update => 0
  | .commit => 1
  | .abort => 2
  | .checkpoint => 3
  | .delete => 4

/-- `garry_wal_record`; `old_data` stays zero. -/
structure WalRecord where
  kind : WalKind
  txid : Int
  key : Bytes
  valueLen : Int
  newData : Bytes
  newIsOverflow : Bool
  newOverflowHead : Int

/-- `garry_make_update_record`: no record when a long value gets no overflow pages. -/
def makeUpdateRecord (pool : Pool) (txn : Int) (key newVal : Bytes) : Option WalRecord × Pool :=
  let record : WalRecord := {
    kind := .update
    txid := txn
    key := key
    valueLen := newVal.length
    newData := []
    newIsOverflow := false
    newOverflowHead := 0 }
  if newVal.length ≤ byteArraySize then (some { record with newData := newVal }, pool)
  else
    let (head, pool) := overflowWrite pool newVal
    if head < 0 then (none, pool)
    else (some { record with newIsOverflow := true, newOverflowHead := head }, pool)

/-- A record without a value. -/
def makeRecord (kind : WalKind) (txn : Int) (key : Bytes) : WalRecord where
  kind := kind
  txid := txn
  key := key
  valueLen := 0
  newData := []
  newIsOverflow := false
  newOverflowHead := 0

/-- `garry_make_delete_record`. -/
def makeDeleteRecord (txn : Int) (key : Bytes) : WalRecord := makeRecord .delete txn key

/-- `garry_make_commit_record`. -/
def makeCommitRecord (txn : Int) : WalRecord := makeRecord .commit txn []

/-- `garry_make_abort_record`. -/
def makeAbortRecord (txn : Int) : WalRecord := makeRecord .abort txn []

/-- A `garry_byte_array` that starts with the bytes. -/
def byteArray (bs : Bytes) : Bytes := (bs ++ List.replicate byteArraySize 0).take byteArraySize

/-- The bytes that `wal_write_record` writes. -/
def WalRecord.encode (record : WalRecord) : Bytes :=
  word32 record.kind.code ++ (word32 record.txid ++ (word32 record.key.length ++
    (word32 record.valueLen ++ (byteArray record.key ++ (byteArray [] ++ (byteArray record.newData ++
      (word32 (if record.newIsOverflow then 1 else 0) ++ word32 record.newOverflowHead)))))))

/-- `garry_wal_log`. -/
structure WalLog where
  bytes : Bytes
  offset : Nat
  lastLsn : Int

/-- `garry_wal_log_init` on the log file. -/
def walLogInit (bytes : Bytes) : WalLog := ⟨bytes, 0, 0⟩

/-- `garry_wal_log_append`: the sequence number. A write past the end of the file leaves zeros in
between. -/
def walLogAppend (wal : WalLog) (record : WalRecord) : Int × WalLog :=
  let lsn := wal.lastLsn + 1
  (lsn, {
    bytes := (wal.bytes ++ List.replicate (wal.offset - wal.bytes.length) 0).take wal.offset ++
      (record.encode ++ wal.bytes.drop (wal.offset + walRecordSize))
    offset := wal.offset + walRecordSize
    lastLsn := lsn })

/-- The complete records that reads from the start of the log give. -/
def walRecords (bytes : Bytes) : List Bytes :=
  (List.range (bytes.length / walRecordSize)).map fun i =>
    (bytes.drop (walRecordSize * i)).take walRecordSize

/-- The descriptor after it has been read to its end. -/
def WalLog.atEnd (wal : WalLog) : WalLog := { wal with offset := wal.bytes.length }

/-! ## Records of the log -/

@[simp] theorem length_byteArray (bs : Bytes) : (byteArray bs).length = byteArraySize := by
  simp [byteArray]

theorem WalRecord.length_encode (record : WalRecord) : record.encode.length = walRecordSize := by
  simp only [encode, List.length_append, length_word32, length_byteArray]
  rfl

/-- The transaction of a record. -/
def recTxid (data : Bytes) : Int := readInt32 data.toBuffer walRecTxidOff

def recKind (data : Bytes) : Int := readInt32 data.toBuffer walRecKindOff

theorem walRecords_append {bytes data : Bytes} (hb : walRecordSize ∣ bytes.length)
    (hd : data.length = walRecordSize) : walRecords (bytes ++ data) = walRecords bytes ++ [data] := by
  obtain ⟨n, hn⟩ := hb
  have h1 : bytes.length / walRecordSize = n := by
    rw [hn]
    exact Nat.mul_div_cancel_left n (by decide)
  have h2 : (bytes ++ data).length / walRecordSize = n + 1 := by
    rw [List.length_append, hn, hd, ← Nat.mul_succ]
    exact Nat.mul_div_cancel_left (n + 1) (by decide)
  rw [walRecords, walRecords, h1, h2, List.range_succ, List.map_append]
  congr 1
  · refine List.map_congr_left fun i hi => ?_
    have hi : i < n := List.mem_range.mp hi
    have hle : walRecordSize * i + walRecordSize ≤ bytes.length := by
      rw [hn, ← Nat.mul_succ]
      exact Nat.mul_le_mul_left _ hi
    rw [List.drop_append_of_le_length (by omega), List.take_append_of_le_length]
    rw [List.length_drop]
    omega
  · rw [List.map_singleton, ← hn, List.drop_left, List.take_of_length_le hd.le]

end Garry
