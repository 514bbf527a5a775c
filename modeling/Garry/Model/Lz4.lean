import Garry.Model.Engine

/-!
# LZ4 blocks (`lz4.c`)

Every access to memory is a step that can fail: a read of the source or of the output behind its
bytes and a write of the output behind its capacity stop the run with a fault of their own.
-/

namespace Garry

def lz4MaxInputSize : Nat := 65536

def hashTableSize : Nat := 32768

def minMatch : Nat := 4

def maxMatch : Nat := 65536

/-- `lz4_compress_bound`. -/
def lz4CompressBound (srcLen : Nat) : Nat :=
  if srcLen > lz4MaxInputSize then 0 else srcLen + srcLen / 255 + 16

/-- How a run ends without a result: the source returns `NULL`, or it accesses memory that it must
not access, or a loop does not end. -/
inductive Lz4Stop
  | null
  | sourceRead
  | outputRead
  | outputWrite
  | endless
deriving DecidableEq, Repr

/-- `src[i]`. -/
def sourceByte (src : Bytes) (i : Nat) : Except Lz4Stop UInt8 :=
  match src[i]? with
  | some b => .ok b
  | none => .error .sourceRead

/-- `out_buf[i]` among the bytes written. -/
def outputByte (out : Bytes) (i : Nat) : Except Lz4Stop UInt8 :=
  match out[i]? with
  | some b => .ok b
  | none => .error .outputRead

/-- `out_buf[op] = b; op++` for a buffer with room for `cap` bytes; `op` is the length of `out`. -/
def outputPut (cap : Nat) (out : Bytes) (b : UInt8) : Except Lz4Stop Bytes :=
  if out.length < cap then .ok (out ++ [b]) else .error .outputWrite

/-! ## Match finding -/

/-- The hash of the three bytes at a position. -/
def lz77Hash (b0 b1 b2 : UInt8) : Nat :=
  ((((b0.toNat <<< 8) ^^^ b1.toNat) <<< 8) ^^^ b2.toNat) &&& (hashTableSize - 1)

/-- The comparison loop of `lz77_match_find`. -/
def compareLoop (src : Bytes) (s ip maxCmp : Nat) : Nat → Nat → Except Lz4Stop Nat
  | 0, _ => .error .endless
  | fuel + 1, len =>
    if len < maxCmp then do
      let a ← sourceByte src (s + len)
      let b ← sourceByte src (ip + len)
      if a = b then compareLoop src s ip maxCmp fuel (len + 1) else .ok len
    else .ok len

/-- The candidate loop of `lz77_match_find`: the best length and its offset. -/
def searchLoop (src : Bytes) (ip limit minMatch : Nat) :
    Nat → Nat → Nat → Nat → Except Lz4Stop (Nat × Nat)
  | 0, _, _, _ => .error .endless
  | fuel + 1, s, bestLen, bestOff =>
    if s < ip ∧ bestLen < limit then do
      let maxCmp := ip - s
      let maxCmp := if maxCmp > limit then limit else maxCmp
      let maxCmp := if maxCmp > src.length - ip then src.length - ip else maxCmp
      let len ← compareLoop src s ip maxCmp (maxCmp + 1) 0
      if len ≥ minMatch ∧ len > bestLen then searchLoop src ip limit minMatch fuel (s + 1) len (ip - s)
      else searchLoop src ip limit minMatch fuel (s + 1) bestLen bestOff
    else .ok (bestLen, bestOff)

/-- `lz77_match_find`: the offset and the length of the match, `0` and `0` for none, and the hash
table. -/
def lz77MatchFind (src : Bytes) (ip : Nat) (table : Nat → Int) (minMatch maxMatch : Nat) :
    Except Lz4Stop ((Nat × Nat) × (Nat → Int)) :=
  if ip + minMatch > src.length then .ok ((0, 0), table)
  else do
    let b0 ← sourceByte src ip
    let b1 ← sourceByte src (ip + 1)
    let b2 ← sourceByte src (ip + 2)
    let h := lz77Hash b0 b1 b2
    let idx := table h
    if idx < 0 ∨ idx.toNat ≥ ip then .ok ((0, 0), Function.update table h ip)
    else
      let limit := if ip > maxMatch then maxMatch else ip
      let (bestLen, bestOff) ← searchLoop src ip limit minMatch (ip + 1) idx.toNat 0 0
      let table := Function.update table h (ip : Int)
      if bestLen ≥ minMatch then .ok ((bestOff, bestLen), table) else .ok ((0, 0), table)

/-! ## Compression -/

/-- The loop that writes the bytes of an extended length. -/
def extensionLoop (cap : Nat) : Nat → Nat → Bytes → Except Lz4Stop Bytes
  | 0, _, _ => .error .endless
  | fuel + 1, ext, out =>
    if ext ≥ 255 then do
      let out ← outputPut cap out 255
      extensionLoop cap fuel (ext - 255) out
    else outputPut cap out (UInt8.ofNat ext)

/-- The extension of a length that does not fit its half of the token. -/
def putExtension (cap len : Nat) (out : Bytes) : Except Lz4Stop Bytes :=
  if len ≥ 15 then extensionLoop cap (len + 1) (len - 15) out else .ok out

/-- The copy of `n` literals from `src[anchor]` on. -/
def putLiterals (src : Bytes) (cap : Nat) : Nat → Nat → Bytes → Except Lz4Stop Bytes
  | 0, _, out => .ok out
  | n + 1, anchor, out => do
    let b ← sourceByte src anchor
    let out ← outputPut cap out b
    putLiterals src cap n (anchor + 1) out

/-- The token of a sequence, with `matchLen` the length that is coded. -/
def lz4Token (litLen matchLen : Nat) : UInt8 :=
  if litLen > 15 then
    if matchLen > 15 then UInt8.ofNat (15 * 16 + 15) else UInt8.ofNat (15 * 16 + matchLen)
  else if matchLen > 15 then UInt8.ofNat (litLen * 16 + 15)
  else UInt8.ofNat (litLen * 16 + matchLen)

/-- The sequence that `lz4_compress` writes for a match at `ip`. The byte of the token is passed
over and written last. -/
def putSequence (src : Bytes) (cap anchor ip offset matchLen : Nat) (out : Bytes) :
    Except Lz4Stop Bytes := do
  let litLen := ip - anchor
  let matchLen := matchLen - minMatch
  let tokenPos := out.length
  let out ← outputPut cap out 0
  let out ← putExtension cap litLen out
  let out ← putLiterals src cap litLen anchor out
  let out ← outputPut cap out (UInt8.ofNat (offset % 256))
  let out ← outputPut cap out (UInt8.ofNat (offset / 256))
  let out ← putExtension cap matchLen out
  .ok (out.set tokenPos (lz4Token litLen matchLen))

/-- The last sequence: the literals from `anchor` on. -/
def putLast (src : Bytes) (cap anchor : Nat) (out : Bytes) : Except Lz4Stop Bytes := do
  let litLen := src.length - anchor
  let tokenPos := out.length
  let out ← outputPut cap out 0
  let out ← putExtension cap litLen out
  let token := if litLen > 15 then UInt8.ofNat (15 * 16) else UInt8.ofNat (litLen * 16)
  putLiterals src cap litLen anchor (out.set tokenPos token)

/-- The main loop of `lz4_compress`: the end of the last match and the output. -/
def compressLoop (src : Bytes) (cap : Nat) :
    Nat → Nat → Nat → (Nat → Int) → Bytes → Except Lz4Stop (Nat × Bytes)
  | 0, _, _, _, _ => .error .endless
  | fuel + 1, ip, anchor, table, out =>
    if ip < src.length - 12 then do
      let ((matchOff, matchLen), table) ← lz77MatchFind src ip table minMatch maxMatch
      if matchLen ≥ minMatch then
        let out ← putSequence src cap anchor ip matchOff matchLen out
        compressLoop src cap fuel (ip + matchLen) (ip + matchLen) table out
      else compressLoop src cap fuel (ip + 1) anchor table out
    else .ok (anchor, out)

/-- `lz4_compress`, where memory can be allocated. -/
def lz4Compress (src : Bytes) : Except Lz4Stop Bytes :=
  if src.length = 0 ∨ src.length > lz4MaxInputSize then .error .null
  else if src.length < 12 then putLast src (lz4CompressBound src.length) 0 []
  else do
    let (anchor, out) ← compressLoop src (lz4CompressBound src.length) (src.length + 1) 0 0
      (fun _ => -1) []
    putLast src (lz4CompressBound src.length) anchor out

/-! ## Decompression -/

/-- A sum of type `size_t`. -/
def sizeAdd (a b : Nat) : Nat := (a + b) % 2 ^ 64

/-- The bytes that extend a length of the token: the next position and the length. -/
def readExtension (src : Bytes) : Nat → Nat → Nat → Except Lz4Stop (Nat × Nat)
  | 0, _, _ => .error .endless
  | fuel + 1, ip, len =>
    if ip ≥ src.length then .error .null
    else do
      let ext ← sourceByte src ip
      let len := sizeAdd len ext.toNat
      if ext = 255 then readExtension src fuel (ip + 1) len else .ok (ip + 1, len)

/-- A length whose half of the token is `len`. -/
def readLength (src : Bytes) (ip len : Nat) : Except Lz4Stop (Nat × Nat) :=
  if len = 15 then readExtension src (src.length + 1) ip len else .ok (ip, len)

/-- The copy of the literals: the next position and the output. -/
def copyLiterals (src : Bytes) (cap : Nat) : Nat → Nat → Bytes → Except Lz4Stop (Nat × Bytes)
  | 0, ip, out => .ok (ip, out)
  | litLen + 1, ip, out =>
    if out.length ≥ cap ∨ ip ≥ src.length then .error .null
    else do
      let b ← sourceByte src ip
      let out ← outputPut cap out b
      copyLiterals src cap litLen (ip + 1) out

/-- The byte that a match copies: before the output there are zeros. -/
def matchByte (offset : Nat) (out : Bytes) : Except Lz4Stop UInt8 :=
  if offset > 0 ∧ offset ≤ out.length then outputByte out (out.length - offset) else .ok 0

/-- The copy of a match from the output. -/
def copyMatch (cap offset : Nat) : Nat → Bytes → Except Lz4Stop Bytes
  | 0, out => .ok out
  | matchLen + 1, out =>
    if out.length ≥ cap then .error .null
    else do
      let b ← matchByte offset out
      let out ← outputPut cap out b
      copyMatch cap offset matchLen out

/-- The main loop of `lz4_decompress`. -/
def decompressLoop (src : Bytes) (cap : Nat) : Nat → Nat → Bytes → Except Lz4Stop Bytes
  | 0, _, _ => .error .endless
  | fuel + 1, ip, out =>
    if ip < src.length then do
      let token ← sourceByte src ip
      let (ip, litLen) ← readLength src (ip + 1) (token.toNat / 16)
      let (ip, out) ← copyLiterals src cap litLen ip out
      if ip ≥ src.length then .ok out
      else if ip + 2 > src.length then .error .null
      else
        let b0 ← sourceByte src ip
        let b1 ← sourceByte src (ip + 1)
        let offset := b0.toNat + b1.toNat * 256
        if offset = 0 then .error .null
        else
          let (ip, matchLen) ← readLength src (ip + 2) (token.toNat % 16)
          let out ← copyMatch cap offset (sizeAdd matchLen minMatch) out
          decompressLoop src cap fuel ip out
    else .ok out

/-- `lz4_decompress`, where memory can be allocated. -/
def lz4Decompress (src : Bytes) (dstCapacity : Nat) : Except Lz4Stop Bytes :=
  if src.length = 0 ∨ dstCapacity = 0 then .error .null
  else decompressLoop src dstCapacity (src.length + 1) 0 []

/-- The codec of the store. -/
def Lz4.block : Lz4 where
  compress value := (lz4Compress value).toOption
  decompress val := (lz4Decompress val maxRecordSize).toOption

end Garry
