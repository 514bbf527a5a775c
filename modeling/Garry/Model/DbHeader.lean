import Garry.Model.Config

/-!
# The database header (`db_header.c`, `engine_settings.c`)
-/

namespace Garry

open ByteStore

abbrev dbMagic : Int := 0x52435350
abbrev dbVersion : Int := 2
abbrev headerPage : Int := 0
abbrev defaultMaxTxns : Int := 4
abbrev defaultMaxVersions : Int := 64
abbrev defaultMaxKeySize : Int := 256
abbrev defaultMaxSubscripts : Int := 16

abbrev hdrOffMagic : Nat := 0
abbrev hdrOffVersion : Nat := 4
abbrev hdrOffPageSize : Nat := 8
abbrev hdrOffCompression : Nat := 12
abbrev hdrOffRootPage : Nat := 16
abbrev hdrOffFreeList : Nat := 20
abbrev hdrOffTotalPages : Nat := 24
abbrev hdrOffMaxTxns : Nat := 28
abbrev hdrOffMaxVersions : Nat := 32
abbrev hdrOffMaxKeySize : Nat := 36
abbrev hdrOffMaxSubscripts : Nat := 40
abbrev hdrOffBtreeFlags : Nat := 44
abbrev hdrOffNextTxid : Nat := 48
abbrev hdrOffChecksum : Nat := 52
abbrev headerChecksumLen : Nat := 52

/-- The fields of `garry_engine_settings` that end up in the header. -/
structure EngineSettings where
  pageSize : Int
  compression : Int
  maxTxns : Int
  maxVersions : Int
  maxKeySize : Int
  maxSubscripts : Int

/-- `garry_default_engine_settings`. -/
def defaultEngineSettings : EngineSettings where
  pageSize := defaultPageSize
  compression := compressNone
  maxTxns := defaultMaxTxns
  maxVersions := defaultMaxVersions
  maxKeySize := defaultMaxKeySize
  maxSubscripts := defaultMaxSubscripts

/-- `garry_db_header`. -/
structure DbHeader where
  magic : Int
  version : Int
  pageSize : Int
  compression : Int
  rootPage : Int
  freeListHead : Int
  totalPages : Int
  maxTxns : Int
  maxVersions : Int
  maxKeySize : Int
  maxSubscripts : Int
  btreeFlags : Int
  nextTxid : Int
  checksum : Int
deriving DecidableEq

/-- `garry_create_db_header`. -/
def createDbHeader (settings : EngineSettings) : DbHeader :=
  if settings.pageSize ≥ minPageSize ∧ settings.pageSize ≤ maxPageSize ∧
      settings.pageSize % minPageSize = 0 then {
    magic := dbMagic
    version := dbVersion
    pageSize := settings.pageSize
    compression := settings.compression
    rootPage := 1
    freeListHead := -1
    totalPages := 1
    maxTxns := settings.maxTxns
    maxVersions := settings.maxVersions
    maxKeySize := settings.maxKeySize
    maxSubscripts := settings.maxSubscripts
    btreeFlags := 0
    nextTxid := 1
    checksum := 0 }
  else ⟨0, 0, 0, 0, 0, 0, 0, 0, 0, 0, 0, 0, 0, 0⟩

/-- One round of `garry_compute_header_checksum`. -/
def checksumStep (hash : Nat) (b : UInt8) : Nat := (hash ^^^ b.toNat) * 16777619 % 4294967296

/-- `garry_compute_header_checksum`. -/
def computeHeaderChecksum (buf : PageBuffer) : Int :=
  ((slice buf 0 headerChecksumLen).foldl checksumStep 2166136261 % 2147483648 : Nat)

/-- The fields of a header up to the checksum, in a page. -/
def writeHeaderFields (buf : PageBuffer) (hdr : DbHeader) : PageBuffer :=
  let buf := writeInt32 buf hdrOffMagic hdr.magic
  let buf := writeInt32 buf hdrOffVersion hdr.version
  let buf := writeInt32 buf hdrOffPageSize hdr.pageSize
  let buf := writeInt32 buf hdrOffCompression hdr.compression
  let buf := writeInt32 buf hdrOffRootPage hdr.rootPage
  let buf := writeInt32 buf hdrOffFreeList hdr.freeListHead
  let buf := writeInt32 buf hdrOffTotalPages hdr.totalPages
  let buf := writeInt32 buf hdrOffMaxTxns hdr.maxTxns
  let buf := writeInt32 buf hdrOffMaxVersions hdr.maxVersions
  let buf := writeInt32 buf hdrOffMaxKeySize hdr.maxKeySize
  let buf := writeInt32 buf hdrOffMaxSubscripts hdr.maxSubscripts
  let buf := writeInt32 buf hdrOffBtreeFlags hdr.btreeFlags
  writeInt32 buf hdrOffNextTxid hdr.nextTxid

/-- `garry_write_db_header`. -/
def writeDbHeader (buf : PageBuffer) (hdr : DbHeader) : PageBuffer :=
  let buf := writeHeaderFields buf hdr
  writeInt32 buf hdrOffChecksum (computeHeaderChecksum buf)

/-- `garry_read_db_header`: a wrong checksum clears the magic number. -/
def readDbHeader (buf : PageBuffer) : DbHeader where
  magic :=
    if readInt32 buf hdrOffChecksum = computeHeaderChecksum buf then readInt32 buf hdrOffMagic else 0
  version := readInt32 buf hdrOffVersion
  pageSize := readInt32 buf hdrOffPageSize
  compression := readInt32 buf hdrOffCompression
  rootPage := readInt32 buf hdrOffRootPage
  freeListHead := readInt32 buf hdrOffFreeList
  totalPages := readInt32 buf hdrOffTotalPages
  maxTxns := readInt32 buf hdrOffMaxTxns
  maxVersions := readInt32 buf hdrOffMaxVersions
  maxKeySize := readInt32 buf hdrOffMaxKeySize
  maxSubscripts := readInt32 buf hdrOffMaxSubscripts
  btreeFlags := readInt32 buf hdrOffBtreeFlags
  nextTxid := readInt32 buf hdrOffNextTxid
  checksum := readInt32 buf hdrOffChecksum

end Garry
