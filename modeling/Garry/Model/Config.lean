import Garry.Library.ByteStore

/-!
# Limits and types (`garry/config.h`, `garry/types.h`, `storage_core.h`, `util_endian.h`)

A C buffer is a `PageBuffer`, a byte string with its length is a `Bytes`. Page ids, transaction
ids and the signed fields of a page header are `Int`, with the sentinel `-1` of the source.
-/

namespace Garry

open ByteStore

/-- A `garry_byte *` together with its length. -/
abbrev Bytes := List UInt8

/-- A `garry_page_buffer`. -/
abbrev PageBuffer := Store

/-- The bytes of a record as the buffer it was copied into. -/
def Bytes.toBuffer (bs : Bytes) : Store := fun i => bs.getD i 0

abbrev maxKeysPerNode : Nat := 3
abbrev btreeMinKeys : Nat := 1
abbrev metaSlot : Nat := 0
abbrev pageIdBias : Int := 100000
abbrev firstPageId : Int := 2
abbrev maxKeySize : Nat := 256
abbrev maxRecordSize : Nat := 16384
abbrev overflowPtrSize : Nat := 4
abbrev minPageSize : Nat := 512
abbrev maxPageSize : Nat := 65536
abbrev defaultPageSize : Nat := 4096
abbrev pageHeaderSize : Nat := 32
abbrev maxSlots : Nat := 128
abbrev slotSize : Nat := 4
abbrev lookupBufSize : Nat := 512
abbrev maxVersionsPerPage : Nat := 128
abbrev chainEntryHeaderSize : Nat := 14
abbrev chainPruneMinLen : Nat := 8

/-! Offsets of the page header fields. -/

abbrev pageHdrOffType : Nat := 0
abbrev pageHdrOffLevel : Nat := 4
abbrev pageHdrOffCount : Nat := 8
abbrev pageHdrOffFreeStart : Nat := 12
abbrev pageHdrOffFreeEnd : Nat := 16
abbrev pageHdrOffCompression : Nat := 20
abbrev pageHdrOffParent : Nat := 24
abbrev pageHdrOffChecksum : Nat := 28

abbrev compressNone : Int := 0
abbrev compressLz4 : Int := 1

/-- `garry_node_kind`, also the page type. -/
inductive NodeKind
  | internal | leaf | overflow | free | chain
deriving DecidableEq, Repr

/-- The number the page header stores for a kind. -/
def NodeKind.code : NodeKind → Int
  | .internal => 0
  | .leaf => 1
  | .overflow => 2
  | .free => 3
  | .chain => 4

/-- `garry_read_le32`, `garry_read_int32`. -/
def readInt32 (buf : Store) (offset : Nat) : Int := getWord buf offset

/-- `garry_write_le32`, `garry_write_int32`. -/
def writeInt32 (buf : Store) (offset : Nat) (val : Int) : Store := putWord buf offset val

theorem readInt32_writeInt32 (buf : Store) (o : Nat) (hv : Fits32 v) :
    readInt32 (writeInt32 buf o v) o = v := getWord_putWord _ _ hv

theorem readInt32_writeInt32_of_ne (h : o + 4 ≤ off ∨ off + 4 ≤ o) :
    readInt32 (writeInt32 buf off v) o = readInt32 buf o := getWord_putWord_of_ne h

theorem readInt32_blit_of_le (h : o + 4 ≤ off) : readInt32 (blit buf off bs) o = readInt32 buf o :=
  getWord_blit_of_le h

theorem readInt32_congr {m m' : Store} (h : ∀ j < 4, m (off + j) = m' (off + j)) :
    readInt32 m off = readInt32 m' off := getWord_congr h

/-- A word inside a byte string. -/
theorem readInt32_toBuffer (pre post : Bytes) (hv : Fits32 v) :
    readInt32 (pre ++ (word32 v ++ post)).toBuffer pre.length = v := by
  refine getWord_of_bytes (fun j hj => ?_) hv
  have hlt : j < (word32 v).length := hj
  rw [Bytes.toBuffer, List.getD_append_right _ _ _ _ (Nat.le_add_right ..), Nat.add_sub_cancel_left,
    List.getD_append _ _ _ _ hlt, List.getD_eq_getElem _ _ hlt]
  rfl

theorem writeInt32_of_ne (h : i < off ∨ off + 4 ≤ i) : writeInt32 buf off v i = buf i := by
  rcases h with h | h
  · exact blit_of_lt h
  · exact blit_of_le (by simpa using h)

end Garry
