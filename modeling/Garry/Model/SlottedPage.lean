import Garry.Model.Config

/-!
# Slotted pages (`slotted_page.c`)

A 32-byte header, a directory of 4-byte slots growing up from it and the records growing down
from the end of the page.
-/

namespace Garry

open ByteStore

/-- `garry_slot_entry`. -/
structure SlotEntry where
  offset : Nat
  length : Nat
deriving DecidableEq, Repr

def slotOffset (idx : Nat) : Nat := pageHeaderSize + idx * slotSize

/-- `garry_read_slot`. -/
def readSlot (buf : PageBuffer) (idx : Nat) : SlotEntry where
  offset := (buf (slotOffset idx)).toNat + (buf (slotOffset idx + 1)).toNat * 256
  length := (buf (slotOffset idx + 2)).toNat + (buf (slotOffset idx + 3)).toNat * 256

/-- `garry_write_slot`. -/
def writeSlot (buf : PageBuffer) (idx : Nat) (entry : SlotEntry) : PageBuffer :=
  blit buf (slotOffset idx)
    [UInt8.ofNat (entry.offset % 256), UInt8.ofNat (entry.offset / 256 % 256),
      UInt8.ofNat (entry.length % 256), UInt8.ofNat (entry.length / 256 % 256)]

/-- `garry_page_record_count`. -/
def pageRecordCount (buf : PageBuffer) : Int := readInt32 buf pageHdrOffCount

/-- `garry_page_init`. -/
def pageInit (buf : PageBuffer) (ptype : NodeKind) (level : Int) (pageSize : Nat) : PageBuffer :=
  let buf : PageBuffer := fun i => if i < pageSize then 0 else buf i
  let buf := writeInt32 buf pageHdrOffType ptype.code
  let buf := writeInt32 buf pageHdrOffLevel level
  let buf := writeInt32 buf pageHdrOffCount 0
  let buf := writeInt32 buf pageHdrOffFreeStart pageHeaderSize
  let buf := writeInt32 buf pageHdrOffFreeEnd pageSize
  let buf := writeInt32 buf pageHdrOffCompression 0
  let buf := writeInt32 buf pageHdrOffParent 0
  writeInt32 buf pageHdrOffChecksum 0

/-- `garry_copy_bytes_in`. -/
def copyBytesIn (buf : PageBuffer) (offset : Nat) (src : Bytes) : PageBuffer := blit buf offset src

/-- The writes of `garry_page_insert` once its checks have passed: directory entry `count`, the
header words and the record bytes below the old end of the free gap. -/
def placeRecord (buf : PageBuffer) (count freeStart freeEnd : Int) (data : Bytes) : PageBuffer :=
  let buf := writeSlot buf count.toNat ⟨freeEnd.toNat, data.length⟩
  let buf := writeInt32 buf pageHdrOffCount (count + 1)
  let buf := writeInt32 buf pageHdrOffFreeStart freeStart
  let buf := writeInt32 buf pageHdrOffFreeEnd freeEnd
  copyBytesIn buf freeEnd.toNat data

/-- `garry_page_insert`: the slot index and the new page, or `none` for `-1` (the page is then
unchanged). -/
def pageInsert (buf : PageBuffer) (data : Bytes) : Option (Nat × PageBuffer) :=
  let dlen : Int := data.length
  let count := readInt32 buf pageHdrOffCount
  let freeStart := readInt32 buf pageHdrOffFreeStart
  let freeEnd := readInt32 buf pageHdrOffFreeEnd
  if count ≥ maxSlots then none
  else if freeStart + slotSize > freeEnd then none
  else if freeEnd - dlen < pageHeaderSize then none
  else if freeEnd - freeStart < dlen + slotSize then none
  else if freeEnd - dlen < freeStart + slotSize then none
  else some (count.toNat, placeRecord buf count (freeStart + slotSize) (freeEnd - dlen) data)

/-- `garry_page_get`: the bytes of a record, or `none` for `-1`. -/
def pageGet (buf : PageBuffer) (slotIdx : Nat) (pageSize : Nat) : Option Bytes :=
  if (slotIdx : Int) ≥ pageRecordCount buf then none
  else
    let entry := readSlot buf slotIdx
    if entry.length + pageHeaderSize > pageSize then none
    else some (slice buf entry.offset entry.length)

/-! ## A page holds a list of records -/

/-- The bytes a list of records takes up. -/
def usedBytes (recs : List Bytes) : Nat := (recs.map List.length).sum

@[simp] theorem usedBytes_nil : usedBytes [] = 0 := rfl
@[simp] theorem usedBytes_cons : usedBytes (r :: recs) = r.length + usedBytes recs := by
  simp [usedBytes]
@[simp] theorem usedBytes_append :
    usedBytes (recs ++ recs') = usedBytes recs + usedBytes recs' := by simp [usedBytes]

theorem usedBytes_take_le (recs : List Bytes) (n : Nat) :
    usedBytes (recs.take n) ≤ usedBytes recs := by
  calc usedBytes (recs.take n)
      ≤ usedBytes (recs.take n) + usedBytes (recs.drop n) := Nat.le_add_right ..
    _ = usedBytes recs := by rw [← usedBytes_append, List.take_append_drop]

theorem usedBytes_take_succ {recs : List Bytes} (h : recs[i]? = some r) :
    usedBytes (recs.take (i + 1)) = usedBytes (recs.take i) + r.length := by
  rw [List.take_add_one, h]; simp

/-- The bytes of the header, the slot directory and the records fit the page. -/
def RecordsFit (pageSize : Nat) (recs : List Bytes) : Prop :=
  pageHeaderSize + slotSize * recs.length + usedBytes recs ≤ pageSize

instance : Decidable (RecordsFit ps recs) := inferInstanceAs (Decidable (_ ≤ _))

theorem RecordsFit.sublist (h : RecordsFit ps recs) (hs : recs'.Sublist recs) :
    RecordsFit ps recs' := by
  have hlen := hs.length_le
  have hused : usedBytes recs' ≤ usedBytes recs := (hs.map List.length).sum_le_sum (by simp)
  simp only [RecordsFit, pageHeaderSize, slotSize] at h ⊢
  omega

/-- The page stores exactly the records `recs`, in insertion order. -/
structure Holds (pageSize : Nat) (buf : PageBuffer) (recs : List Bytes) : Prop where
  size : pageSize ≤ maxPageSize
  count : readInt32 buf pageHdrOffCount = recs.length
  freeStart : readInt32 buf pageHdrOffFreeStart = pageHeaderSize + slotSize * recs.length
  freeEnd : readInt32 buf pageHdrOffFreeEnd = pageSize - usedBytes recs
  slot : ∀ {i r}, recs[i]? = some r →
    readSlot buf i = ⟨pageSize - usedBytes (recs.take (i + 1)), r.length⟩
  record : ∀ {i r}, recs[i]? = some r →
    slice buf (pageSize - usedBytes (recs.take (i + 1))) r.length = r
  fits : RecordsFit pageSize recs
  slots : recs.length ≤ maxSlots
  nonempty : ∀ r ∈ recs, r ≠ []

theorem readSlot_congr {buf buf' : PageBuffer}
    (h : ∀ j < 4, buf (slotOffset i + j) = buf' (slotOffset i + j)) :
    readSlot buf i = readSlot buf' i := by
  have h0 : buf (slotOffset i) = buf' (slotOffset i) := h 0 (by omega)
  simp only [readSlot, h0, h 1 (by omega), h 2 (by omega), h 3 (by omega)]

theorem readSlot_writeSlot (buf : PageBuffer) (i : Nat) (ho : e.offset < 65536)
    (hl : e.length < 65536) : readSlot (writeSlot buf i e) i = e := by
  have h (j : Nat) (hj : j < 4) := blit_of_mem buf (slotOffset i)
    (show j < [UInt8.ofNat (e.offset % 256), UInt8.ofNat (e.offset / 256 % 256),
      UInt8.ofNat (e.length % 256), UInt8.ofNat (e.length / 256 % 256)].length from hj)
  have h0 := h 0 (by omega)
  rw [Nat.add_zero] at h0
  simp only [readSlot, writeSlot, h0, h 1 (by omega), h 2 (by omega), h 3 (by omega)]
  cases e
  simp_all
  omega

/-- Only the first `pageSize` bytes matter. -/
theorem Holds.congr {buf buf' : PageBuffer} (H : Holds ps buf recs)
    (h : ∀ i < ps, buf i = buf' i) : Holds ps buf' recs := by
  have hf : 32 + 4 * recs.length + usedBytes recs ≤ ps := H.fits
  have word (o : Nat) (ho : o + 4 ≤ 32) : readInt32 buf' o = readInt32 buf o :=
    readInt32_congr fun j hj => (h (o + j) (by omega)).symm
  refine { H with
    count := (word _ (by decide)).trans H.count
    freeStart := (word _ (by decide)).trans H.freeStart
    freeEnd := (word _ (by decide)).trans H.freeEnd
    slot := fun {i r} hi => ?_
    record := fun {i r} hi => ?_ }
  · have hlt : i < recs.length := (List.getElem?_eq_some_iff.mp hi).1
    rw [← H.slot hi]
    refine readSlot_congr fun j hj => (h _ ?_).symm
    simp only [slotOffset, pageHeaderSize, slotSize]; omega
  · have h1 := usedBytes_take_succ hi
    have h2 := usedBytes_take_le recs (i + 1)
    conv_rhs => rw [← H.record hi]
    exact slice_congr fun j hj => (h _ (by omega)).symm

/-- Reading a header word through the writes of the other header words. -/
theorem pageInit_word (buf : PageBuffer) (kind : NodeKind) (level : Int) (ps : Nat) :
    readInt32 (pageInit buf kind level ps) pageHdrOffType = kind.code ∧
    (Fits32 level → readInt32 (pageInit buf kind level ps) pageHdrOffLevel = level) ∧
    readInt32 (pageInit buf kind level ps) pageHdrOffCount = 0 ∧
    readInt32 (pageInit buf kind level ps) pageHdrOffFreeStart = 32 ∧
    (Fits32 ps → readInt32 (pageInit buf kind level ps) pageHdrOffFreeEnd = ps) := by
  have hk : Fits32 kind.code := by cases kind <;> decide
  have h0 : Fits32 0 := by decide
  have h32 : Fits32 32 := by decide
  simp only [pageInit, pageHdrOffChecksum, pageHdrOffParent, pageHdrOffCompression,
    pageHdrOffFreeEnd, pageHdrOffFreeStart, pageHdrOffCount, pageHdrOffLevel, pageHdrOffType,
    pageHeaderSize]
  refine ⟨?_, fun hl => ?_, ?_, ?_, fun hps => ?_⟩ <;>
    simp (disch := omega) only [readInt32_writeInt32_of_ne]
  · exact readInt32_writeInt32 _ _ hk
  · exact readInt32_writeInt32 _ _ hl
  · exact readInt32_writeInt32 _ _ h0
  · exact readInt32_writeInt32 _ _ h32
  · exact readInt32_writeInt32 _ _ hps

theorem fits32_pageSize (h : ps ≤ maxPageSize) : Fits32 (ps : Int) := by
  simp only [maxPageSize] at h; constructor <;> omega

/-- A fresh page holds no record. -/
theorem pageInit_holds (buf : PageBuffer) (kind : NodeKind) (level : Int)
    (h1 : pageHeaderSize ≤ ps) (h2 : ps ≤ maxPageSize) :
    Holds ps (pageInit buf kind level ps) [] := by
  obtain ⟨-, -, hc, hs, he⟩ := pageInit_word buf kind level ps
  exact {
    size := h2
    count := hc
    freeStart := hs
    freeEnd := by simpa using he (fits32_pageSize h2)
    slot := by simp
    record := by simp
    fits := by simpa [RecordsFit, usedBytes] using h1
    slots := by simp
    nonempty := by simp }

/-! ## Insertion appends a record, or fails when there is no room -/

theorem readSlot_writeInt32 (h : o + 4 ≤ pageHeaderSize) :
    readSlot (writeInt32 buf o v) i = readSlot buf i := by
  refine readSlot_congr fun j _ => writeInt32_of_ne (.inr ?_)
  simp only [slotOffset]; omega

/-- There is room for one more record of `n` bytes. -/
def HasRoom (pageSize : Nat) (recs : List Bytes) (n : Nat) : Prop :=
  recs.length < maxSlots ∧
    pageHeaderSize + slotSize * (recs.length + 1) + usedBytes recs + n ≤ pageSize

instance : Decidable (HasRoom ps recs n) := inferInstanceAs (Decidable (_ ∧ _))

theorem pageInsert_none (H : Holds ps buf recs) (h : ¬ HasRoom ps recs data.length) :
    pageInsert buf data = none := by
  have hc := H.count
  have hs := H.freeStart
  have he := H.freeEnd
  simp only [HasRoom, maxSlots, pageHeaderSize, slotSize] at h hs
  simp only [pageInsert, hc, hs, he, maxSlots, pageHeaderSize, slotSize]
  split
  · rfl
  split
  · rfl
  split
  · rfl
  split
  · rfl
  exfalso; omega

section placeRecord

variable {buf : PageBuffer} {n off : Nat} {s : Int} {data : Bytes}

theorem placeRecord_below (h : pageHeaderSize + slotSize * (n + 1) ≤ off) (ho : o + 4 ≤ 8) :
    readInt32 (placeRecord buf n s off data) o = readInt32 buf o := by
  simp only [pageHeaderSize, slotSize] at h
  simp only [placeRecord, copyBytesIn, pageHdrOffCount, pageHdrOffFreeStart, pageHdrOffFreeEnd,
    Int.toNat_natCast]
  rw [readInt32_blit_of_le (by omega)]
  simp (disch := omega) only [readInt32_writeInt32_of_ne]
  refine readInt32_blit_of_le ?_
  simp only [slotOffset, pageHeaderSize]; omega

/-- The three header words after the writes. -/
theorem placeRecord_words (buf : PageBuffer) (data : Bytes)
    (h : pageHeaderSize + slotSize * (n + 1) ≤ off) (hn : n < maxSlots)
    (hs : Fits32 s) (ho : Fits32 off) :
    readInt32 (placeRecord buf n s off data) pageHdrOffCount = n + 1 ∧
    readInt32 (placeRecord buf n s off data) pageHdrOffFreeStart = s ∧
    readInt32 (placeRecord buf n s off data) pageHdrOffFreeEnd = off := by
  have hn1 : Fits32 ((n : Int) + 1) := by simp only [maxSlots] at hn; constructor <;> omega
  simp only [pageHeaderSize, slotSize] at h
  simp only [placeRecord, copyBytesIn, pageHdrOffCount, pageHdrOffFreeStart, pageHdrOffFreeEnd,
    Int.toNat_natCast]
  refine ⟨?_, ?_, ?_⟩ <;> rw [readInt32_blit_of_le (by omega)]
  · simp (disch := omega) only [readInt32_writeInt32_of_ne]
    exact readInt32_writeInt32 _ _ hn1
  · simp (disch := omega) only [readInt32_writeInt32_of_ne]
    exact readInt32_writeInt32 _ _ hs
  · exact readInt32_writeInt32 _ _ ho

theorem readSlot_writeSlot_of_lt (h : i < n) : readSlot (writeSlot buf n e) i = readSlot buf i := by
  refine readSlot_congr fun j hj => blit_of_lt ?_
  simp only [slotOffset, slotSize]; omega

/-- The directory: the new entry is added and the earlier ones stay. -/
theorem placeRecord_slot (h : pageHeaderSize + slotSize * (n + 1) ≤ off)
    (ho : off < maxPageSize) (hd : data.length < maxPageSize) (hi : i ≤ n) :
    readSlot (placeRecord buf n s off data) i =
      if i = n then ⟨off, data.length⟩ else readSlot buf i := by
  have e1 : readSlot (placeRecord buf n s off data) i =
      readSlot (writeSlot buf n ⟨off, data.length⟩) i := by
    simp only [slotSize] at h
    simp only [placeRecord, copyBytesIn, Int.toNat_natCast]
    rw [readSlot_congr fun j hj => blit_of_lt (by simp only [slotOffset, slotSize]; omega)]
    simp (disch := decide) only [readSlot_writeInt32]
  rw [e1]
  split
  · next hin => rw [hin]; exact readSlot_writeSlot _ _ ho hd
  · exact readSlot_writeSlot_of_lt (by omega)

/-- The record area above the new record stays, and the record is written. -/
theorem placeRecord_slice (h : pageHeaderSize + slotSize * (n + 1) ≤ off)
    (ho : off + data.length ≤ o) :
    slice (placeRecord buf n s off data) o k = slice buf o k := by
  refine slice_congr fun j _ => ?_
  simp only [pageHeaderSize, slotSize] at h
  simp only [placeRecord, copyBytesIn, Int.toNat_natCast, pageHdrOffCount, pageHdrOffFreeStart,
    pageHdrOffFreeEnd]
  rw [blit_of_le (by omega)]
  simp (disch := omega) only [writeInt32_of_ne]
  refine blit_of_le ?_
  simp only [slotOffset, pageHeaderSize, slotSize, List.length_cons, List.length_nil]; omega

theorem placeRecord_slice_self : slice (placeRecord buf n s off data) off data.length = data := by
  simp only [placeRecord, copyBytesIn, Int.toNat_natCast, slice_blit_self]

end placeRecord

theorem pageInsert_some (H : Holds ps buf recs) (hd : data ≠ [])
    (h : HasRoom ps recs data.length) :
    ∃ buf', pageInsert buf data = some (recs.length, buf') ∧ Holds ps buf' (recs ++ [data]) ∧
      ∀ o, o + 4 ≤ pageHdrOffCount → readInt32 buf' o = readInt32 buf o := by
  have hsize := H.size
  have hpos : 0 < data.length := List.length_pos_iff.mpr hd
  obtain ⟨hn, hroom⟩ := h
  simp only [maxSlots, pageHeaderSize, slotSize, maxPageSize] at hn hroom hsize
  obtain ⟨off, hoff⟩ : ∃ off, ps = off + data.length + usedBytes recs :=
    ⟨ps - data.length - usedBytes recs, by omega⟩
  have hgap : pageHeaderSize + slotSize * (recs.length + 1) ≤ off := by
    simp only [pageHeaderSize, slotSize]; omega
  have hfs : Fits32 ((pageHeaderSize : Int) + slotSize * (recs.length + 1)) := by
    simp only [pageHeaderSize, slotSize]; constructor <;> omega
  have hofits : Fits32 (off : Int) := by constructor <;> omega
  refine ⟨placeRecord buf recs.length (pageHeaderSize + slotSize * (recs.length + 1)) off data,
    ?_, ?_, fun o ho => placeRecord_below hgap ho⟩
  · have e1 : (ps : Int) - usedBytes recs - data.length = off := by omega
    have e2 : (pageHeaderSize : Int) + slotSize * recs.length + slotSize =
      pageHeaderSize + slotSize * (recs.length + 1) := by simp only [slotSize]; omega
    simp only [pageInsert, H.count, H.freeStart, H.freeEnd, e1, e2, Int.toNat_natCast]
    simp only [pageHeaderSize, slotSize, maxSlots]
    rw [if_neg (by omega), if_neg (by omega), if_neg (by omega), if_neg (by omega),
      if_neg (by omega)]
  obtain ⟨hc, hs, he⟩ := placeRecord_words buf data hgap hn hfs hofits
  have cases_append {i : Nat} {r : Bytes} (hi : (recs ++ [data])[i]? = some r) :
      i < recs.length ∧ recs[i]? = some r ∨ i = recs.length ∧ r = data := by
    rcases Nat.lt_trichotomy i recs.length with h | h | h
    · rw [List.getElem?_append_left h] at hi; exact .inl ⟨h, hi⟩
    · subst h; simp at hi; exact .inr ⟨rfl, hi.symm⟩
    · rw [List.getElem?_eq_none (by simp; omega)] at hi; cases hi
  have take_old {i : Nat} (hi : i < recs.length) :
      (recs ++ [data]).take (i + 1) = recs.take (i + 1) := by
    rw [List.take_append_of_le_length (by omega)]
  have take_new : ps - usedBytes ((recs ++ [data]).take (recs.length + 1)) = off := by
    rw [List.take_of_length_le (by simp)]; simp; omega
  refine {
    size := H.size
    count := by simpa using hc
    freeStart := by simpa using hs
    freeEnd := by rw [he]; simp; omega
    slot := fun {i r} hi => ?_
    record := fun {i r} hi => ?_
    fits := ?_
    slots := by simp only [maxSlots, List.length_append, List.length_singleton]; omega
    nonempty := fun r hr => ?_ }
  · rcases cases_append hi with ⟨hlt, hi⟩ | ⟨rfl, rfl⟩
    · rw [placeRecord_slot hgap (by simp only [maxPageSize]; omega)
        (by simp only [maxPageSize]; omega) (by omega), if_neg (by omega), take_old hlt, H.slot hi]
    · rw [placeRecord_slot hgap (by simp only [maxPageSize]; omega)
        (by simp only [maxPageSize]; omega) (Nat.le_refl _), if_pos rfl, take_new]
  · rcases cases_append hi with ⟨hlt, hi⟩ | ⟨rfl, rfl⟩
    · have h2 := usedBytes_take_le recs (i + 1)
      rw [take_old hlt, placeRecord_slice hgap (by omega), H.record hi]
    · rw [take_new, placeRecord_slice_self]
  · simp only [RecordsFit, pageHeaderSize, slotSize, List.length_append, List.length_singleton,
      usedBytes_append, usedBytes_cons, usedBytes_nil]; omega
  · rcases List.mem_append.mp hr with hr | hr
    · exact H.nonempty r hr
    · rw [List.mem_singleton.mp hr]; exact hd

/-- `garry_page_get` reads back the record inserted under that index. -/
theorem pageGet_holds (H : Holds ps buf recs) (h : recs[i]? = some r) :
    pageGet buf i ps = some r := by
  have hlt : i < recs.length := (List.getElem?_eq_some_iff.mp h).1
  have h1 := usedBytes_take_succ h
  have h2 := usedBytes_take_le recs (i + 1)
  have hf : pageHeaderSize + slotSize * recs.length + usedBytes recs ≤ ps := H.fits
  simp only [slotSize] at hf
  simp only [pageGet, pageRecordCount, H.count, H.slot h]
  rw [if_neg (by omega), if_neg (by omega), H.record h]

theorem pageGet_none (H : Holds ps buf recs) (h : recs.length ≤ i) :
    pageGet buf i ps = none := by
  simp only [pageGet, pageRecordCount, H.count]
  rw [if_pos (by omega)]

theorem pageGet_eq (H : Holds ps buf recs) (i : Nat) : pageGet buf i ps = recs[i]? := by
  by_cases hi : i < recs.length
  · have hr : recs[i]? = some recs[i] := List.getElem?_eq_getElem hi
    rw [pageGet_holds H hr, hr]
  · rw [pageGet_none H (by omega), List.getElem?_eq_none (by omega)]

/-- A page holds one list of records. -/
theorem Holds.unique (H : Holds ps buf recs) (H' : Holds ps buf recs') : recs = recs' := by
  apply List.ext_getElem?
  intro i
  rw [← pageGet_eq H, pageGet_eq H']

end Garry
