import Mathlib

/-!
# Byte stores

A buffer is a function from indices to bytes. `blit` writes a block of bytes at an offset and
`slice` reads one back; a 32-bit word is stored in four bytes, least significant first.
-/

namespace ByteStore

/-- The contents of a buffer: the byte at each index. -/
abbrev Store := Nat → UInt8

/-- Write the block `bs` at offset `off`. -/
def blit (m : Store) (off : Nat) (bs : List UInt8) : Store :=
  fun i => if off ≤ i ∧ i < off + bs.length then bs.getD (i - off) 0 else m i

/-- Read `n` bytes from offset `off`. -/
def slice (m : Store) (off n : Nat) : List UInt8 := (List.range n).map fun j => m (off + j)

@[simp] theorem length_slice : (slice m off n).length = n := by simp [slice]

theorem blit_of_lt (h : i < off) : blit m off bs i = m i := by
  simp only [blit]; rw [if_neg (by omega)]

theorem blit_of_le (h : off + bs.length ≤ i) : blit m off bs i = m i := by
  simp only [blit]; rw [if_neg (by omega)]

theorem blit_congr {m m' : Store} (h : m i = m' i) : blit m off bs i = blit m' off bs i := by
  simp only [blit, h]

theorem blit_of_mem (m : Store) (off : Nat) {bs : List UInt8} (h : j < bs.length) :
    blit m off bs (off + j) = bs[j] := by
  simp only [blit]
  rw [if_pos (by omega)]
  simp [h]

/-- Two blocks, one behind the other. -/
theorem blit_blit (m : Store) (off : Nat) (as bs : List UInt8) :
    blit (blit m off as) (off + as.length) bs = blit m off (as ++ bs) := by
  funext i
  simp only [blit, List.length_append]
  split
  · next h =>
    rw [if_pos (by omega), List.getD_append_right _ _ _ _ (by omega), Nat.sub_add_eq]
  · next h =>
    split
    · next h' => rw [if_pos (by omega), List.getD_append _ _ _ _ (by omega)]
    · next h' => rw [if_neg (by omega)]

theorem slice_congr {m m' : Store} (h : ∀ j < n, m (off + j) = m' (off + j)) :
    slice m off n = slice m' off n := by
  simp only [slice, List.map_inj_left, List.mem_range]
  exact h

theorem slice_blit_self (m : Store) (off : Nat) (bs : List UInt8) :
    slice (blit m off bs) off bs.length = bs := by
  apply List.ext_getElem (by simp)
  intro j h1 h2
  simp [slice, blit_of_mem m off h2]

theorem slice_eq_iff {m : Store} {bs : List UInt8} :
    slice m off bs.length = bs ↔ ∀ j (h : j < bs.length), m (off + j) = bs[j] := by
  constructor
  · intro h j hj
    have := congrArg (·[j]?) h
    simpa [slice, hj] using this
  · intro h
    apply List.ext_getElem (by simp)
    intro j h1 h2
    simp [slice, h j h2]

/-! ## Little-endian 32-bit words -/

/-- The byte of `v` at radix position `p`. -/
def byteAt (v p : Int) : UInt8 := UInt8.ofNat (v / p % 256).toNat

/-- The four bytes of a 32-bit word in two's complement. -/
def word32 (v : Int) : List UInt8 := [byteAt v 1, byteAt v 256, byteAt v 65536, byteAt v 16777216]

@[simp] theorem length_word32 : (word32 v).length = 4 := rfl

/-- The signed word made of four bytes. -/
def ofBytes32 (b0 b1 b2 b3 : UInt8) : Int :=
  let n : Nat := b0.toNat + 256 * b1.toNat + 65536 * b2.toNat + 16777216 * b3.toNat
  if n < 2147483648 then n else n - 4294967296

/-- A value that fits a signed 32-bit word. -/
def Fits32 (v : Int) : Prop := -2147483648 ≤ v ∧ v < 2147483648

instance : Decidable (Fits32 v) := inferInstanceAs (Decidable (_ ∧ _))

theorem toNat_byteAt (v p : Int) : ((byteAt v p).toNat : Int) = v / p % 256 := by
  have h : (v / p % 256).toNat < 256 := by omega
  have hn : (byteAt v p).toNat = (v / p % 256).toNat := by
    simp only [byteAt, UInt8.toNat_ofNat']
    exact Nat.mod_eq_of_lt h
  rw [hn]; omega

theorem ofBytes32_byteAt (h : Fits32 v) :
    ofBytes32 (byteAt v 1) (byteAt v 256) (byteAt v 65536) (byteAt v 16777216) = v := by
  obtain ⟨h1, h2⟩ := h
  have e0 := toNat_byteAt v 1
  have e1 := toNat_byteAt v 256
  have e2 := toNat_byteAt v 65536
  have e3 := toNat_byteAt v 16777216
  simp only [ofBytes32]
  split <;> omega

/-- The signed word stored at `off`. -/
def getWord (m : Store) (off : Nat) : Int :=
  ofBytes32 (m off) (m (off + 1)) (m (off + 2)) (m (off + 3))

theorem fits32_getWord (m : Store) (off : Nat) : Fits32 (getWord m off) := by
  have h0 := (m off).toNat_lt
  have h1 := (m (off + 1)).toNat_lt
  have h2 := (m (off + 2)).toNat_lt
  have h3 := (m (off + 3)).toNat_lt
  simp only [Fits32, getWord, ofBytes32]
  split <;> omega

/-- Store a signed word at `off`. -/
def putWord (m : Store) (off : Nat) (v : Int) : Store := blit m off (word32 v)

theorem getWord_congr {m m' : Store} (h : ∀ j < 4, m (off + j) = m' (off + j)) :
    getWord m off = getWord m' off := by
  have h0 : m off = m' off := h 0 (by omega)
  simp only [getWord, h0, h 1 (by omega), h 2 (by omega), h 3 (by omega)]

theorem getWord_of_bytes {m : Store} (h : ∀ j (hj : j < 4), m (off + j) = (word32 v)[j])
    (hv : Fits32 v) : getWord m off = v := by
  have h0 : m off = byteAt v 1 := h 0 (by omega)
  have h1 : m (off + 1) = byteAt v 256 := h 1 (by omega)
  have h2 : m (off + 2) = byteAt v 65536 := h 2 (by omega)
  have h3 : m (off + 3) = byteAt v 16777216 := h 3 (by omega)
  simp only [getWord, h0, h1, h2, h3]
  exact ofBytes32_byteAt hv

theorem getWord_putWord (m : Store) (off : Nat) (hv : Fits32 v) :
    getWord (putWord m off v) off = v :=
  getWord_of_bytes (fun _ hj => blit_of_mem _ _ hj) hv

theorem getWord_blit_of_le (h : o + 4 ≤ off) : getWord (blit m off bs) o = getWord m o :=
  getWord_congr fun _ _ => blit_of_lt (by omega)

theorem getWord_blit_of_ge (h : off + bs.length ≤ o) : getWord (blit m off bs) o = getWord m o :=
  getWord_congr fun _ _ => blit_of_le (by omega)

theorem getWord_putWord_of_ne (h : o + 4 ≤ off ∨ off + 4 ≤ o) :
    getWord (putWord m off v) o = getWord m o := by
  rcases h with h | h
  · exact getWord_blit_of_le h
  · exact getWord_blit_of_ge (by simpa using h)

end ByteStore
