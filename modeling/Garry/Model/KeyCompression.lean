import Garry.Library.LocalArray
import Garry.Model.KeyEncoding
import Garry.Model.RecordCodec

/-!
# Prefix compression of keys (`btree_compression.c`)

A result is the caller's `garry_byte_array`, which has the size of the longest key. It is cleared
first; `none` is a store past its end.
-/

namespace Garry

open ByteStore LocalArray

/-- The loop of `garry_common_prefix_length` from index `i` on. -/
def commonPrefixLoop (a b : Bytes) : Nat → Nat → Nat
  | 0, i => i
  | n + 1, i => if a[i]? = b[i]? then commonPrefixLoop a b n (i + 1) else i

/-- `garry_common_prefix_length`. -/
def commonPrefixLength (a b : Bytes) : Nat :=
  let limit := if a.length < b.length then a.length else b.length
  commonPrefixLoop a b limit 0

/-- `garry_minimum_separator`. -/
def minimumSeparator (left right : Bytes) : Option Store :=
  let plen := commonPrefixLength left right
  let sepLen := if plen + 1 > right.length then right.length else plen + 1
  (storeList maxKeySize (fun _ => 0) 0 (right.take sepLen)).bind fun result =>
    if byteCompare (slice result 0 sepLen) left ≤ 0 then
      let sepLen := if left.length > maxKeySize then maxKeySize else left.length
      storeList maxKeySize result 0 (left.take sepLen)
    else some result

/-- `garry_compress_key`. -/
def compressKey (fullKey : Bytes) (prefixLen : Nat) : Option Store :=
  let suffixLen : Int := fullKey.length - prefixLen
  storeList maxKeySize (fun _ => 0) 0
    (toByte prefixLen :: toByte suffixLen :: fullKey.drop prefixLen)

/-- `garry_decompress_key`. -/
def decompressKey (compressed : Store) (prevKey : Bytes) : Option Store :=
  let prefixLen := (compressed 0).toNat
  let suffixLen := (compressed 1).toNat
  (storeList maxKeySize (fun _ => 0) 0 (slice prevKey.toBuffer 0 prefixLen)).bind fun result =>
    storeList maxKeySize result prefixLen (slice compressed 2 suffixLen)

end Garry
