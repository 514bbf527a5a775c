import Garry.Model.DbHeader
import Garry.Library.XorHash

/-!
# The checksum of the database header

A header is read back as it was written. A change of one byte of the fields changes the checksum of
the page, a change of one byte of the checksum the stored one, so that the magic number is cleared.
-/

namespace Garry

open ByteStore

/-- The fields of a header have 32 bits. -/
structure DbHeader.Fits (h : DbHeader) : Prop where
  magic : Fits32 h.magic
  version : Fits32 h.version
  pageSize : Fits32 h.pageSize
  compression : Fits32 h.compression
  rootPage : Fits32 h.rootPage
  freeListHead : Fits32 h.freeListHead
  totalPages : Fits32 h.totalPages
  maxTxns : Fits32 h.maxTxns
  maxVersions : Fits32 h.maxVersions
  maxKeySize : Fits32 h.maxKeySize
  maxSubscripts : Fits32 h.maxSubscripts
  btreeFlags : Fits32 h.btreeFlags
  nextTxid : Fits32 h.nextTxid

/-! ## Words -/

theorem ofBytes32_inj {a0 a1 a2 a3 b0 b1 b2 b3 : UInt8}
    (h : ofBytes32 a0 a1 a2 a3 = ofBytes32 b0 b1 b2 b3) : a0 = b0 ∧ a1 = b1 ∧ a2 = b2 ∧ a3 = b3 := by
  have e (a b : UInt8) : a = b ↔ a.toNat = b.toNat := UInt8.toNat_inj.symm
  have l (a : UInt8) : a.toNat < 256 := a.toNat_lt
  have := l a0; have := l a1; have := l a2; have := l a3
  have := l b0; have := l b1; have := l b2; have := l b3
  simp only [e]
  simp only [ofBytes32] at h
  split at h <;> split at h <;> omega

/-- Words that are equal have equal bytes. -/
theorem getWord_inj {m m' : Store} (h : getWord m off = getWord m' off) (hj : j < 4) :
    m (off + j) = m' (off + j) := by
  obtain ⟨h0, h1, h2, h3⟩ := ofBytes32_inj h
  interval_cases j
  · exact h0
  · exact h1
  · exact h2
  · exact h3

/-! ## The checksum -/

theorem computeHeaderChecksum_fits (buf : PageBuffer) : Fits32 (computeHeaderChecksum buf) := by
  simp only [computeHeaderChecksum, Fits32]
  omega

theorem computeHeaderChecksum_congr {buf buf' : PageBuffer}
    (h : ∀ i < headerChecksumLen, buf i = buf' i) :
    computeHeaderChecksum buf = computeHeaderChecksum buf' := by
  have hs : slice buf 0 headerChecksumLen = slice buf' 0 headerChecksumLen :=
    slice_congr fun i hi => by rw [Nat.zero_add]; exact h i hi
  rw [computeHeaderChecksum, computeHeaderChecksum, hs]

theorem foldl_checksumStep (l : Bytes) (hash : Nat) : l.foldl checksumStep hash =
    (l.map UInt8.toNat).foldl (XorHash.step 16777619 4294967296) hash := by
  rw [List.foldl_map]
  rfl

theorem slice_add (m : Store) (off a b : Nat) :
    slice m off (a + b) = slice m off a ++ slice m (off + a) b := by
  simp only [slice, List.range_add, List.map_append, List.map_map, List.append_cancel_left_eq]
  apply List.map_congr_left
  intro j _
  simp only [Function.comp_apply, Nat.add_assoc]

/-- The checksummed bytes around one of them. -/
theorem slice_around (m : Store) (hi : i < n) :
    slice m 0 n = slice m 0 i ++ m i :: slice m (i + 1) (n - (i + 1)) := by
  obtain ⟨k, rfl⟩ := Nat.exists_eq_add_of_lt hi
  have hk : i + k + 1 = i + (1 + k) := by omega
  have hone : slice m (0 + i) 1 = [m i] := by simp [slice]
  rw [hk, slice_add, slice_add, hone, Nat.zero_add, Nat.add_sub_add_left, Nat.add_sub_cancel_left]
  rfl

/-- A byte of the fields that changes changes the checksum. -/
theorem computeHeaderChecksum_update {buf : PageBuffer} (hi : i < headerChecksumLen)
    (h : computeHeaderChecksum (Function.update buf i b) = computeHeaderChecksum buf) :
    b = buf i := by
  have hbefore : slice (Function.update buf i b) 0 i = slice buf 0 i :=
    slice_congr fun j hj => Function.update_of_ne (by omega) ..
  have hafter : slice (Function.update buf i b) (i + 1) (headerChecksumLen - (i + 1)) =
      slice buf (i + 1) (headerChecksumLen - (i + 1)) :=
    slice_congr fun j hj => Function.update_of_ne (by omega) ..
  rw [computeHeaderChecksum, computeHeaderChecksum, slice_around _ hi, slice_around buf hi, hbefore,
    hafter, Function.update_self, foldl_checksumStep, foldl_checksumStep, List.map_append,
    List.map_append, List.map_cons, List.map_cons] at h
  have hmod := Int.ofNat.inj h
  apply UInt8.toNat_inj.mp
  have hlt (c : UInt8) : c.toNat < 2 ^ 31 := c.toNat_lt.trans (by decide)
  exact XorHash.foldl_change ⟨2, rfl⟩ (by decide) (hlt b) (hlt (buf i)) _ _ hmod

/-! ## The fields -/

/-- The checksum is stored behind the fields, which stay. -/
theorem readInt32_writeDbHeader (buf : PageBuffer) (hdr : DbHeader) {off : Nat}
    (h : off + 4 ≤ hdrOffChecksum) :
    readInt32 (writeDbHeader buf hdr) off = readInt32 (writeHeaderFields buf hdr) off :=
  readInt32_writeInt32_of_ne (.inl h)

theorem checksum_writeDbHeader (buf : PageBuffer) (hdr : DbHeader) :
    readInt32 (writeDbHeader buf hdr) hdrOffChecksum =
      computeHeaderChecksum (writeDbHeader buf hdr) := by
  have hsame : computeHeaderChecksum (writeDbHeader buf hdr) =
      computeHeaderChecksum (writeHeaderFields buf hdr) :=
    computeHeaderChecksum_congr fun i hi => writeInt32_of_ne (.inl hi)
  rw [hsame]
  exact readInt32_writeInt32 _ _ (computeHeaderChecksum_fits _)

/-- The words of the page are the fields. -/
structure FieldsAt (buf : PageBuffer) (h : DbHeader) : Prop where
  magic : readInt32 buf hdrOffMagic = h.magic
  version : readInt32 buf hdrOffVersion = h.version
  pageSize : readInt32 buf hdrOffPageSize = h.pageSize
  compression : readInt32 buf hdrOffCompression = h.compression
  rootPage : readInt32 buf hdrOffRootPage = h.rootPage
  freeListHead : readInt32 buf hdrOffFreeList = h.freeListHead
  totalPages : readInt32 buf hdrOffTotalPages = h.totalPages
  maxTxns : readInt32 buf hdrOffMaxTxns = h.maxTxns
  maxVersions : readInt32 buf hdrOffMaxVersions = h.maxVersions
  maxKeySize : readInt32 buf hdrOffMaxKeySize = h.maxKeySize
  maxSubscripts : readInt32 buf hdrOffMaxSubscripts = h.maxSubscripts
  btreeFlags : readInt32 buf hdrOffBtreeFlags = h.btreeFlags
  nextTxid : readInt32 buf hdrOffNextTxid = h.nextTxid

/-- No field is overwritten by a later one. -/
theorem fieldsAt_writeHeaderFields (buf : PageBuffer) {hdr : DbHeader} (h : hdr.Fits) :
    FieldsAt (writeHeaderFields buf hdr) hdr := by
  constructor <;> simp (disch := decide) only [writeHeaderFields, readInt32_writeInt32_of_ne]
  · exact readInt32_writeInt32 _ _ h.magic
  · exact readInt32_writeInt32 _ _ h.version
  · exact readInt32_writeInt32 _ _ h.pageSize
  · exact readInt32_writeInt32 _ _ h.compression
  · exact readInt32_writeInt32 _ _ h.rootPage
  · exact readInt32_writeInt32 _ _ h.freeListHead
  · exact readInt32_writeInt32 _ _ h.totalPages
  · exact readInt32_writeInt32 _ _ h.maxTxns
  · exact readInt32_writeInt32 _ _ h.maxVersions
  · exact readInt32_writeInt32 _ _ h.maxKeySize
  · exact readInt32_writeInt32 _ _ h.maxSubscripts
  · exact readInt32_writeInt32 _ _ h.btreeFlags
  · exact readInt32_writeInt32 _ _ h.nextTxid

/-- A header is read back with the checksum of its page. -/
theorem readDbHeader_writeDbHeader (buf : PageBuffer) {hdr : DbHeader} (h : hdr.Fits) :
    readDbHeader (writeDbHeader buf hdr) =
      { hdr with checksum := computeHeaderChecksum (writeDbHeader buf hdr) } := by
  have f := fieldsAt_writeHeaderFields buf h
  have hread {off : Nat} (hoff : off + 4 ≤ hdrOffChecksum) := readInt32_writeDbHeader buf hdr hoff
  rw [readDbHeader, if_pos (checksum_writeDbHeader buf hdr), checksum_writeDbHeader]
  simp (disch := decide) only [hread, f.magic, f.version, f.pageSize, f.compression, f.rootPage,
    f.freeListHead, f.totalPages, f.maxTxns, f.maxVersions, f.maxKeySize, f.maxSubscripts,
    f.btreeFlags, f.nextTxid]

/-- A page whose checksum is stored with it loses its magic number by a change of one byte. -/
theorem magic_update {page : PageBuffer}
    (hc : readInt32 page hdrOffChecksum = computeHeaderChecksum page)
    (hi : i < headerChecksumLen + 4) (hb : b ≠ page i) :
    (readDbHeader (Function.update page i b)).magic = 0 := by
  rw [readDbHeader]
  apply if_neg
  intro he
  rcases Nat.lt_or_ge i headerChecksumLen with hlt | hge
  · -- The stored checksum stays and the computed one changes.
    have hstored : readInt32 (Function.update page i b) hdrOffChecksum =
        readInt32 page hdrOffChecksum :=
      getWord_congr fun j _ => Function.update_of_ne (Nat.ne_of_gt (Nat.lt_add_right j hlt)) ..
    rw [hstored, hc] at he
    exact hb (computeHeaderChecksum_update hlt he.symm)
  · -- The computed checksum stays and the stored one changes.
    have hsame : computeHeaderChecksum (Function.update page i b) = computeHeaderChecksum page :=
      computeHeaderChecksum_congr fun j hj => Function.update_of_ne (by omega) ..
    rw [hsame, ← hc] at he
    obtain ⟨j, rfl⟩ := Nat.exists_eq_add_of_le hge
    have hj : j < 4 := by omega
    have hbyte := getWord_inj he hj
    rw [Function.update_self] at hbyte
    exact hb hbyte

/-- A header is read back as it was written, and a change of one byte of its fields or of its
checksum is detected. -/
theorem dbHeader_corruption (buf : PageBuffer) (hdr : DbHeader) :
    (hdr.Fits → readDbHeader (writeDbHeader buf hdr) =
      { hdr with checksum := computeHeaderChecksum (writeDbHeader buf hdr) }) ∧
    ∀ i < headerChecksumLen + 4, ∀ b ≠ writeDbHeader buf hdr i,
      (readDbHeader (Function.update (writeDbHeader buf hdr) i b)).magic = 0 :=
  ⟨readDbHeader_writeDbHeader buf, fun _ hi _ hb => magic_update (checksum_writeDbHeader buf hdr) hi hb⟩

theorem dbHeader_corruption_default :
    (readDbHeader (writeDbHeader (fun _ => 0) (createDbHeader defaultEngineSettings))).magic =
        dbMagic ∧
      (readDbHeader (Function.update
        (writeDbHeader (fun _ => 0) (createDbHeader defaultEngineSettings)) 0 0)).magic = 0 := by
  obtain ⟨hread, hchange⟩ :=
    dbHeader_corruption (fun _ => 0) (createDbHeader defaultEngineSettings)
  refine ⟨?_, hchange 0 (by decide) 0 (by decide)⟩
  rw [hread (by constructor <;> decide)]
  rfl

end Garry
