import Garry.Model.Serializer

/-!
# Value codec

A value is a tag and what the tag asks for: a fixed number of bytes, bytes behind their number, or
values behind theirs. The grammar and the faults of the decoder are built up along it, for values that
are nested at most as deep as the input is long.
-/

namespace Garry

open LeBytes Parsing

variable {n : Nat} {data : Bytes}

/-! ## Numbers -/

theorem asUsize_eq (v : BitVec 32) :
    asUsize v = if v.toNat < 2147483648 then v.toNat else v.toNat + 18446744069414584320 := by
  rw [asUsize, BitVec.toNat_signExtend, BitVec.toNat_setWidth, BitVec.msb_eq_decide]
  have hv := v.isLt
  split <;> split <;> simp_all <;> omega

/-- The bytes of a number. -/
def Bits (n : Nat) : Grammar UInt8 (BitVec (8 * n)) := fun v bs => bs = leBytes n v.toNat

theorem decodeFixed_reads (k : Nat) : Reads n data (decodeFixed data k)
    (fun v bs => bs.length = k ∧ v = ofLeBytes bs) fun _ _ => False where
  ok pre bs rest v hd _ h := by
    obtain ⟨rfl, rfl⟩ := h
    rw [decodeFixed, hd, if_neg (by simp only [List.length_append]; omega), List.drop_left,
      List.take_left, List.length_append]
  panic _ _ _ _ h := h.elim
  of_ok pre rest v c hd _ h := by
    rw [decodeFixed, hd] at h
    split at h
    · cases h
    · next hle =>
      rw [List.length_append] at hle
      rw [List.drop_left] at h
      cases h
      refine ⟨rest.take k, rest.drop k, (List.take_append_drop k rest).symm, ⟨?_, rfl⟩, ?_⟩
      · rw [List.length_take]
        omega
      · rw [List.length_append, List.length_take]
        omega
  of_panic pre rest _ _ h := by
    rw [decodeFixed] at h
    split at h <;> cases h

theorem decodeBits_reads (k : Nat) :
    Reads n data (decodeBits data k) (Bits k) fun _ _ => False := by
  apply ((decodeFixed_reads k).bind fun v => Reads.pure (BitVec.ofNat (8 * k) v)).congr
  · intro v bs _
    have hpow : 2 ^ (8 * k) = 256 ^ k := by rw [Nat.pow_mul]
    constructor
    · rintro rfl
      have hv := v.isLt
      rw [hpow] at hv
      refine ⟨_, leBytes k v.toNat, [], (List.append_nil _).symm, ⟨length_leBytes .., rfl⟩, ?_, rfl⟩
      apply BitVec.eq_of_toNat_eq
      rw [ofLeBytes_leBytes, BitVec.toNat_ofNat, hpow, Nat.mod_mod, Nat.mod_eq_of_lt hv]
    · rintro ⟨a, xs, ys, rfl, ⟨rfl, rfl⟩, rfl, rfl⟩
      have hlt := ofLeBytes_lt xs
      rw [Bits, List.append_nil, BitVec.toNat_ofNat, hpow, Nat.mod_eq_of_lt hlt, leBytes_ofLeBytes]
  · intro c rest _
    simp [Fault.seq]

/-! ## Bytes -/

theorem decodeSlice_reads (hmem : data.length ≤ isizeMax) (len : Nat) :
    Reads n data (decodeSlice data len) (fun b bs => bs = b ∧ b.length = len)
      fun c _ => usizeCount ≤ c + len where
  ok pre bs rest b hd _ h := by
    obtain ⟨rfl, rfl⟩ := h
    have hlen : data.length = pre.length + (bs.length + rest.length) := by
      rw [hd, List.length_append, List.length_append]
    rw [decodeSlice, if_neg (by simp only [usizeCount, isizeMax] at *; omega), if_neg (by omega), hd,
      List.drop_left, List.take_left, List.length_append]
  panic pre rest _ _ h := if_pos h
  of_ok pre rest b c hd _ h := by
    have hlen : data.length = pre.length + rest.length := by
      rw [hd, List.length_append]
    rw [decodeSlice] at h
    split at h
    · cases h
    split at h
    · cases h
    · next hle =>
      rw [hd, List.drop_left] at h
      cases h
      refine ⟨rest.take len, rest.drop len, (List.take_append_drop len rest).symm, ⟨rfl, ?_⟩, ?_⟩
      · rw [List.length_take]
        omega
      · rw [List.length_append, List.length_take]
        omega
  of_panic pre rest _ _ h := by
    rw [decodeSlice] at h
    split at h
    · next hge => exact hge
    split at h <;> cases h

/-- The length of so many bytes, items or entries. -/
def Count (n : Nat) (bs : Bytes) : Prop := n < 2147483648 ∧ bs = leBytes 4 n

/-- A length that says `-k`. -/
def Negative (k : Nat) (bs : Bytes) : Prop :=
  0 < k ∧ k ≤ 2147483648 ∧ bs = leBytes 4 (4294967296 - k)

/-- Bytes behind their number. -/
def Chunk : Grammar UInt8 Bytes := fun b bs => ∃ len, Count b.length len ∧ bs = len ++ b

/-- A negative length that takes the position behind it to the start of the input or further. -/
def ChunkFault : Fault UInt8 := fun c rest =>
  ∃ k len tail, Negative k len ∧ rest = len ++ tail ∧ k ≤ c + 4

theorem exists_bits_count {m : Nat} {len : Bytes} :
    (∃ v : BitVec 32, Bits 4 v len ∧ asUsize v = m ∧ m ≤ isizeMax) ↔ Count m len := by
  constructor
  · rintro ⟨v, rfl, hm, hle⟩
    rw [asUsize_eq] at hm
    split at hm
    · next hlt => exact ⟨hm ▸ hlt, by rw [hm]⟩
    · simp only [isizeMax] at hle
      omega
  · rintro ⟨hlt, rfl⟩
    have hv : (BitVec.ofNat 32 m).toNat = m := by
      rw [BitVec.toNat_ofNat]
      omega
    refine ⟨BitVec.ofNat 32 m, ?_, ?_, ?_⟩
    · rw [Bits, hv]
    · rw [asUsize_eq, hv, if_pos hlt]
    · simp only [isizeMax]
      omega

/-- A length that is no count is a negative one. -/
theorem exists_bits_negative {k : Nat} {len : Bytes} :
    (∃ v : BitVec 32, Bits 4 v len ∧ asUsize v + k = usizeCount ∧ isizeMax < asUsize v) ↔
      Negative k len := by
  constructor
  · rintro ⟨v, rfl, hk, hgt⟩
    have hv := v.isLt
    rw [asUsize_eq] at hk hgt
    simp only [usizeCount, isizeMax] at hk hgt
    by_cases hlt : v.toNat < 2147483648
    · rw [if_pos hlt] at hgt
      omega
    · rw [if_neg hlt] at hk
      refine ⟨by omega, by omega, ?_⟩
      congr 1
      omega
  · rintro ⟨hpos, hle, rfl⟩
    have hv : (BitVec.ofNat 32 (4294967296 - k)).toNat = 4294967296 - k := by
      rw [BitVec.toNat_ofNat]
      omega
    refine ⟨BitVec.ofNat 32 (4294967296 - k), ?_, ?_, ?_⟩
    · rw [Bits, hv]
    · rw [asUsize_eq, hv, if_neg (by omega)]
      simp only [usizeCount]
      omega
    · rw [asUsize_eq, hv, if_neg (by omega)]
      simp only [isizeMax]
      omega

theorem length_of_bits {v : BitVec 32} {len : Bytes} (h : Bits 4 v len) : len.length = 4 := by
  rw [h, length_leBytes]

theorem decodeBytes_reads (hmem : data.length ≤ isizeMax) :
    Reads n data (decodeBytes data) Chunk ChunkFault := by
  apply ((decodeBits_reads 4).bind fun len => decodeSlice_reads hmem (asUsize len)).congr
  · intro b bs hlen
    constructor
    · rintro ⟨len, hcount, rfl⟩
      obtain ⟨v, hv, hm, -⟩ := exists_bits_count.mpr hcount
      exact ⟨v, len, b, rfl, hv, rfl, hm.symm⟩
    · rintro ⟨v, len, b, rfl, hv, rfl, hm⟩
      rw [List.length_append] at hlen
      exact ⟨len, exists_bits_count.mp ⟨v, hv, hm.symm, by omega⟩, rfl⟩
  · intro c rest hlen
    constructor
    · rintro ⟨k, len, tail, hneg, rfl, hk⟩
      obtain ⟨v, hv, hsum, -⟩ := exists_bits_negative.mpr hneg
      refine .inr ⟨v, len, tail, rfl, hv, ?_⟩
      rw [length_of_bits hv]
      omega
    · rintro (h | ⟨v, len, tail, rfl, hv, hsum⟩)
      · exact h.elim
      · rw [length_of_bits hv] at hsum
        rw [List.length_append, length_of_bits hv] at hlen
        have hlt : asUsize v < usizeCount := BitVec.isLt _
        simp only [usizeCount, isizeMax] at hsum hlt hmem
        refine ⟨usizeCount - asUsize v, len, tail, exists_bits_negative.mp ⟨v, hv, ?_, ?_⟩, rfl, ?_⟩
        · simp only [usizeCount]
          omega
        · simp only [isizeMax]
          omega
        · simp only [usizeCount]
          omega

theorem fromUtf8_eq_some {bytes : Bytes} {s : String} :
    fromUtf8 bytes = some s ↔ asBytes s = bytes := by
  rw [fromUtf8, String.fromUTF8?]
  constructor
  · intro h
    split at h
    · cases h
      rfl
    · cases h
  · rintro rfl
    have hbytes : (⟨(asBytes s).toArray⟩ : ByteArray) = s.toByteArray := rfl
    rw [hbytes, dif_pos s.isValidUTF8]
    rfl

/-- A string behind the number of its bytes. -/
def Text : Grammar UInt8 String := fun s bs => Chunk (asBytes s) bs

theorem decodeUtf8_reads (bytes : Bytes) : Reads n data (decodeUtf8 bytes)
    (fun s bs => asBytes s = bytes ∧ bs = []) fun _ _ => False := by
  cases h : fromUtf8 bytes with
  | none =>
    have hfail : decodeUtf8 bytes = fun _ => .err .invalidUtf8 := by
      funext cursor
      rw [decodeUtf8, h]
    rw [hfail]
    apply (Reads.fail _).congr
    · intro s bs _
      refine iff_of_false ?_ fun h => h
      rintro ⟨hs, -⟩
      rw [fromUtf8_eq_some.mpr hs] at h
      cases h
    · exact fun _ _ _ => Iff.rfl
  | some s =>
    have hpure : decodeUtf8 bytes = fun cursor => .ok (s, cursor) := by
      funext cursor
      rw [decodeUtf8, h]
    rw [hpure]
    apply (Reads.pure s).congr
    · intro s' bs _
      rw [← fromUtf8_eq_some, h, Option.some_inj, eq_comm]
    · exact fun _ _ _ => Iff.rfl

theorem decodeStr_reads (hmem : data.length ≤ isizeMax) :
    Reads n data (decodeStr data) Text ChunkFault := by
  apply ((decodeBytes_reads hmem).bind decodeUtf8_reads).congr
  · intro s bs _
    constructor
    · intro h
      exact ⟨asBytes s, bs, [], (List.append_nil bs).symm, h, rfl, rfl⟩
    · rintro ⟨b, xs, ys, rfl, h, rfl, rfl⟩
      rw [List.append_nil]
      exact h
  · intro c rest _
    constructor
    · exact .inl
    · rintro (h | ⟨_, _, _, _, _, h⟩)
      · exact h
      · exact h.elim

/-! ## Values -/

theorem withCapacity_reads (len : Nat) : Reads n data (withCapacity len)
    (fun _ bs => len ≤ isizeMax ∧ bs = []) fun _ _ => isizeMax < len where
  ok pre bs rest _ _ _ h := by
    obtain ⟨hle, rfl⟩ := h
    rw [withCapacity, if_neg (not_lt_of_ge hle), List.append_nil]
  panic _ _ _ _ h := if_pos h
  of_ok pre rest a c _ _ h := by
    rw [withCapacity] at h
    split at h
    · cases h
    · next hle =>
      cases h
      exact ⟨[], rest, rfl, ⟨not_lt.mp hle, rfl⟩, by rw [List.append_nil]⟩
  of_panic _ _ _ _ h := by
    rw [withCapacity] at h
    split at h
    · next hgt => exact hgt
    · cases h

variable {σ : Type} {g : Grammar UInt8 Value} {f : Fault UInt8}
  {part : σ → Grammar UInt8 σ} {fault : σ → Fault UInt8}

/-- So many parts behind their number, from this state on. -/
def Counted (part : σ → Grammar UInt8 σ) (s : σ) : Grammar UInt8 σ := fun s' bs =>
  ∃ k len tail, Count k len ∧ bs = len ++ tail ∧ Grammar.iter part k s s' tail

/-- A negative number of parts, or a fault in one of them. -/
def CountedFault (part : σ → Grammar UInt8 σ) (fault : σ → Fault UInt8) (s : σ) : Fault UInt8 :=
  fun c rest =>
    (∃ k len tail, Negative k len ∧ rest = len ++ tail) ∨
    ∃ k len tail, Count k len ∧ rest = len ++ tail ∧ Fault.iter part fault k s (c + 4) tail

/-- The loops over the items of an array and over the entries of a map. -/
theorem counted_reads {step : σ → Nat → Outcome DecodeError (σ × Nat)}
    (h : ∀ s, Reads n data (step s) (part s) (fault s)) (s : σ) (make : σ → Value) :
    Reads n data (fun cursor => (decodeBits data 4 cursor).bind fun r =>
        (withCapacity (asUsize r.1) r.2).bind fun u =>
          (forRange step (asUsize r.1) s u.2).bind fun r => .ok (make r.1, r.2))
      (fun v bs => ∃ s', Counted part s s' bs ∧ v = make s') (CountedFault part fault s) := by
  have hloop (v : BitVec 32) := (withCapacity_reads (asUsize v)).bind fun _ =>
    (Reads.forRange h (asUsize v) s).bind fun s' => Reads.pure (make s')
  apply ((decodeBits_reads 4).bind hloop).congr
  · intro v bs _
    constructor
    · rintro ⟨s', ⟨k, len, tail, hcount, rfl, hiter⟩, rfl⟩
      obtain ⟨w, hw, rfl, hle⟩ := exists_bits_count.mpr hcount
      exact ⟨w, len, tail, rfl, hw, (), [], tail, rfl, ⟨hle, rfl⟩, s', tail, [],
        (List.append_nil tail).symm, hiter, rfl, rfl⟩
    · rintro ⟨w, len, _, rfl, hw, _, _, _, rfl, ⟨hle, rfl⟩, s', tail, _, rfl, hiter, rfl, rfl⟩
      rw [List.nil_append, List.append_nil]
      exact ⟨s', ⟨asUsize w, len, tail, exists_bits_count.mp ⟨w, hw, rfl, hle⟩, rfl, hiter⟩, rfl⟩
  · intro c rest _
    constructor
    · rintro (⟨k, len, tail, hneg, rfl⟩ | ⟨k, len, tail, hcount, rfl, hfault⟩)
      · obtain ⟨w, hw, -, hgt⟩ := exists_bits_negative.mpr hneg
        exact .inr ⟨w, len, tail, rfl, hw, .inl hgt⟩
      · obtain ⟨w, hw, rfl, hle⟩ := exists_bits_count.mpr hcount
        refine .inr ⟨w, len, tail, rfl, hw, .inr ⟨(), [], tail, rfl, ⟨hle, rfl⟩, .inl ?_⟩⟩
        rw [length_of_bits hw]
        exact hfault
    · rintro (h | ⟨w, len, tail, rfl, hw, hgt | ⟨_, _, _, rfl, ⟨hle, rfl⟩, hfault | hfault⟩⟩)
      · exact h.elim
      · have hlt : asUsize w < usizeCount := BitVec.isLt _
        refine .inl ⟨usizeCount - asUsize w, len, tail,
          exists_bits_negative.mp ⟨w, hw, by omega, hgt⟩, rfl⟩
      · rw [length_of_bits hw] at hfault
        exact .inr ⟨asUsize w, len, _, exists_bits_count.mp ⟨w, hw, rfl, hle⟩, rfl, hfault⟩
      · obtain ⟨_, _, _, _, _, h⟩ := hfault
        exact h.elim

/-- An item of an array behind the ones before. -/
def ItemPart (g : Grammar UInt8 Value) (items : List Value) : Grammar UInt8 (List Value) :=
  fun items' bs => ∃ v, g v bs ∧ items' = items ++ [v]

theorem decodeAs_reads {α : Type} {p : Nat → Outcome DecodeError (α × Nat)} {g : Grammar UInt8 α}
    {f : Fault UInt8} (h : Reads n data p g f) {γ : Type} (make : α → γ) :
    Reads n data (fun cursor => (p cursor).bind fun r => .ok (make r.1, r.2))
      (fun v bs => ∃ a, g a bs ∧ v = make a) f := by
  apply (h.bind fun a => Reads.pure (make a)).congr
  · intro v bs _
    constructor
    · rintro ⟨a, ha, rfl⟩
      exact ⟨a, bs, [], (List.append_nil bs).symm, ha, rfl, rfl⟩
    · rintro ⟨a, xs, ys, rfl, ha, rfl, rfl⟩
      rw [List.append_nil]
      exact ⟨a, ha, rfl⟩
  · intro c rest _
    constructor
    · exact .inl
    · rintro (h | ⟨_, _, _, _, _, h⟩)
      · exact h
      · exact h.elim

theorem decodeArray_reads {item : Nat → Outcome DecodeError (Value × Nat)}
    (h : Reads n data item g f) : Reads n data (decodeArray item data)
      (fun v bs => ∃ items, Counted (ItemPart g) [] items bs ∧ v = .array items)
      (CountedFault (ItemPart g) (fun _ => f) []) :=
  counted_reads (fun items => decodeAs_reads h fun v => items ++ [v]) [] .array

/-- A key and its value. -/
def EntryPart (g : Grammar UInt8 Value) (map : List (String × Value)) :
    Grammar UInt8 (List (String × Value)) :=
  fun map' bs => ∃ key xs val ys, bs = xs ++ ys ∧ Text key xs ∧ g val ys ∧
    map' = insertEntry map key val

/-- A fault in the length of a key or in the value behind it. -/
def EntryFault (f : Fault UInt8) : Fault UInt8 := fun c rest =>
  ChunkFault c rest ∨ ∃ key xs ys, rest = xs ++ ys ∧ Text key xs ∧ f (c + xs.length) ys

theorem decodeEntry_reads (hmem : data.length ≤ isizeMax)
    {item : Nat → Outcome DecodeError (Value × Nat)} (h : Reads n data item g f)
    (map : List (String × Value)) :
    Reads n data (decodeEntry item data map) (EntryPart g map) (EntryFault f) := by
  have hval (key : String) := decodeAs_reads h fun val => insertEntry map key val
  apply ((decodeStr_reads hmem).bind hval).congr
  · intro map' bs _
    constructor
    · rintro ⟨key, xs, val, ys, rfl, hkey, hv, rfl⟩
      exact ⟨key, xs, ys, rfl, hkey, val, hv, rfl⟩
    · rintro ⟨key, xs, ys, rfl, hkey, val, hv, rfl⟩
      exact ⟨key, xs, val, ys, rfl, hkey, hv, rfl⟩
  · exact fun _ _ _ => Iff.rfl

theorem decodeMap_reads (hmem : data.length ≤ isizeMax)
    {item : Nat → Outcome DecodeError (Value × Nat)} (h : Reads n data item g f) :
    Reads n data (decodeMap item data)
      (fun v bs => ∃ map, Counted (EntryPart g) [] map bs ∧ v = .map map)
      (CountedFault (EntryPart g) (fun _ => EntryFault f) []) :=
  counted_reads (decodeEntry_reads hmem h) [] .map

theorem decodeBool_reads : Reads n data (decodeBool data)
    (fun v bs => ∃ b : UInt8, bs = [b] ∧ v = .bool (b ≠ 0)) fun _ _ => False := by
  have hpure (b : UInt8) : Reads n data
      (fun c => (.ok (.bool (b ≠ 0), c) : Outcome DecodeError (Value × Nat)))
      (fun v bs => v = .bool (b ≠ 0) ∧ bs = []) fun _ _ => False := Reads.pure _
  have hhead : Reads (n + 1) data (decodeBool data)
      (fun v bs => ∃ (b : UInt8) (tail : Bytes), bs = b :: tail ∧ v = .bool (b ≠ 0) ∧ tail = [])
      fun _ rest => ∃ (b : UInt8) (tail : Bytes), rest = b :: tail ∧ False := by
    refine Reads.head (e := DecodeError.truncatedData) ?_ ?_ hpure
    · intro c hnone
      rw [decodeBool, hnone]
    · intro c b hsome
      rw [decodeBool, hsome]
  apply (hhead.mono (Nat.le_succ n)).congr
  · intro v bs _
    constructor
    · rintro ⟨b, rfl, rfl⟩
      exact ⟨b, [], rfl, rfl, rfl⟩
    · rintro ⟨b, _, rfl, rfl, rfl⟩
      exact ⟨b, rfl, rfl⟩
  · intro c rest _
    refine iff_of_false (fun h => h) ?_
    rintro ⟨_, _, _, h⟩
    exact h

/-- What stands behind a tag. -/
def Body (g : Grammar UInt8 Value) (tag : UInt8) : Grammar UInt8 Value :=
  if tag = tagNull then fun v bs => v = .null ∧ bs = []
  else if tag = tagBool then fun v bs => ∃ b : UInt8, bs = [b] ∧ v = .bool (b ≠ 0)
  else if tag = tagI32 then fun v bs => ∃ x, Bits 4 x bs ∧ v = .i32 x
  else if tag = tagI64 then fun v bs => ∃ x, Bits 8 x bs ∧ v = .i64 x
  else if tag = tagF32 then fun v bs => ∃ x, Bits 4 x bs ∧ v = .f32 x
  else if tag = tagF64 then fun v bs => ∃ x, Bits 8 x bs ∧ v = .f64 x
  else if tag = tagString then fun v bs => ∃ s, Text s bs ∧ v = .string s
  else if tag = tagBytes then fun v bs => ∃ b, Chunk b bs ∧ v = .bytes b
  else if tag = tagArray then
    fun v bs => ∃ items, Counted (ItemPart g) [] items bs ∧ v = .array items
  else if tag = tagMap then fun v bs => ∃ map, Counted (EntryPart g) [] map bs ∧ v = .map map
  else fun _ _ => False

/-- The faults behind a tag. -/
def BodyFault (g : Grammar UInt8 Value) (f : Fault UInt8) (tag : UInt8) : Fault UInt8 :=
  if tag = tagString ∨ tag = tagBytes then ChunkFault
  else if tag = tagArray then CountedFault (ItemPart g) (fun _ => f) []
  else if tag = tagMap then CountedFault (EntryPart g) (fun _ => EntryFault f) []
  else fun _ _ => False

theorem decodeBody_reads (hmem : data.length ≤ isizeMax)
    {item : Nat → Outcome DecodeError (Value × Nat)} (h : Reads n data item g f) (tag : UInt8) :
    Reads n data (decodeBody item data tag) (Body g tag) (BodyFault g f tag) := by
  have hchain := Reads.ite (c := tag = tagNull) (fun _ => Reads.pure Value.null) fun _ =>
    Reads.ite (c := tag = tagBool) (fun _ => decodeBool_reads) fun _ =>
    Reads.ite (c := tag = tagI32) (fun _ => decodeAs_reads (decodeBits_reads 4) Value.i32) fun _ =>
    Reads.ite (c := tag = tagI64) (fun _ => decodeAs_reads (decodeBits_reads 8) Value.i64) fun _ =>
    Reads.ite (c := tag = tagF32) (fun _ => decodeAs_reads (decodeBits_reads 4) Value.f32) fun _ =>
    Reads.ite (c := tag = tagF64) (fun _ => decodeAs_reads (decodeBits_reads 8) Value.f64) fun _ =>
    Reads.ite (c := tag = tagString)
      (fun _ => decodeAs_reads (decodeStr_reads hmem) Value.string) fun _ =>
    Reads.ite (c := tag = tagBytes)
      (fun _ => decodeAs_reads (decodeBytes_reads hmem) Value.bytes) fun _ =>
    Reads.ite (c := tag = tagArray) (fun _ => decodeArray_reads h) fun _ =>
    Reads.ite (c := tag = tagMap) (fun _ => decodeMap_reads hmem h) fun _ =>
    Reads.fail (DecodeError.unexpectedTag tag)
  apply hchain.congr
  · exact fun _ _ _ => Iff.rfl
  · intro c rest _
    rw [BodyFault]
    by_cases htext : tag = tagString ∨ tag = tagBytes
    · rw [if_pos htext]
      rcases htext with rfl | rfl <;> exact Iff.rfl
    rw [if_neg htext]
    rw [not_or] at htext
    by_cases harray : tag = tagArray
    · subst harray
      exact Iff.rfl
    rw [if_neg harray]
    by_cases hmap : tag = tagMap
    · subst hmap
      exact Iff.rfl
    rw [if_neg hmap]
    rw [if_neg htext.1, if_neg htext.2]
    simp only [ite_self]

/-! ## The decoder -/

/-- A value nested at most so deep. -/
def Item : Nat → Grammar UInt8 Value
  | 0 => fun _ _ => False
  | n + 1 => fun v bs => ∃ tag tail, bs = tag :: tail ∧ Body (Item n) tag v tail

/-- A fault at most so deep. -/
def ItemFault : Nat → Fault UInt8
  | 0 => fun _ _ => False
  | n + 1 => fun pos rest =>
    ∃ tag tail, rest = tag :: tail ∧ BodyFault (Item n) (ItemFault n) tag (pos + 1) tail

theorem decodeAt_reads (hmem : data.length ≤ isizeMax) (n : Nat) :
    Reads n data (decodeAt data n) (Item n) (ItemFault n) := by
  induction n with
  | zero => exact Reads.fail DecodeError.emptyInput
  | succ n ih =>
    apply Reads.head (q := decodeBody (decodeAt data n) data)
    · intro c hnone
      rw [decodeAt, hnone]
    · intro c tag hsome
      rw [decodeAt, hsome]
    · exact decodeBody_reads hmem ih

/-! The calls inside a call begin behind its tag, so that their number is bounded by the bytes left. -/

theorem decodeBits_agrees (k lo : Nat) : Agrees lo (decodeBits data k) (decodeBits data k) := by
  have hfixed : Agrees lo (decodeFixed data k) (decodeFixed data k) := by
    apply Agrees.refl
    intro c v c' h
    rw [decodeFixed] at h
    split at h
    · cases h
    · cases h
      exact Nat.le_add_right c k
  exact hfixed.bind fun v => Agrees.pure (BitVec.ofNat (8 * k) v)

theorem decodeBytes_agrees (lo : Nat) : Agrees lo (decodeBytes data) (decodeBytes data) := by
  have hslice (len : Nat) : Agrees lo (decodeSlice data len) (decodeSlice data len) := by
    apply Agrees.refl
    intro c b c' h
    rw [decodeSlice] at h
    split at h
    · cases h
    split at h
    · cases h
    · cases h
      exact Nat.le_add_right c len
  exact (decodeBits_agrees 4 lo).bind fun len => hslice (asUsize len)

theorem decodeStr_agrees (lo : Nat) : Agrees lo (decodeStr data) (decodeStr data) := by
  have hutf8 (bytes : Bytes) : Agrees lo (decodeUtf8 bytes) (decodeUtf8 bytes) := by
    apply Agrees.refl
    intro c s c' h
    rw [decodeUtf8] at h
    split at h
    · cases h
    · cases h
      exact le_rfl
  exact (decodeBytes_agrees lo).bind hutf8

theorem decodeAs_agrees {α : Type} {lo : Nat} {p p' : Nat → Outcome DecodeError (α × Nat)}
    (h : Agrees lo p p') {γ : Type} (make : α → γ) :
    Agrees lo (fun cursor => (p cursor).bind fun r => .ok (make r.1, r.2))
      fun cursor => (p' cursor).bind fun r => .ok (make r.1, r.2) :=
  h.bind fun a => Agrees.pure (make a)

theorem counted_agrees {lo : Nat} {step step' : σ → Nat → Outcome DecodeError (σ × Nat)}
    (h : ∀ s, Agrees lo (step s) (step' s)) (s : σ) (make : σ → Value) :
    Agrees lo (fun cursor => (decodeBits data 4 cursor).bind fun r =>
        (withCapacity (asUsize r.1) r.2).bind fun u =>
          (forRange step (asUsize r.1) s u.2).bind fun r => .ok (make r.1, r.2))
      fun cursor => (decodeBits data 4 cursor).bind fun r =>
        (withCapacity (asUsize r.1) r.2).bind fun u =>
          (forRange step' (asUsize r.1) s u.2).bind fun r => .ok (make r.1, r.2) := by
  have hcapacity (len : Nat) : Agrees lo (withCapacity len) (withCapacity len) := by
    apply Agrees.refl
    intro c u c' h
    rw [withCapacity] at h
    split at h
    · cases h
    · cases h
      exact le_rfl
  have hloop (len : BitVec 32) := (hcapacity (asUsize len)).bind fun _ =>
    decodeAs_agrees (Agrees.forRange h (asUsize len) s) make
  exact (decodeBits_agrees 4 lo).bind hloop

theorem decodeBody_agrees {lo : Nat} {item item' : Nat → Outcome DecodeError (Value × Nat)}
    (h : Agrees lo item item') (tag : UInt8) :
    Agrees lo (decodeBody item data tag) (decodeBody item' data tag) := by
  have hbool : Agrees lo (decodeBool data) (decodeBool data) := by
    apply Agrees.refl
    intro c v c' h
    rw [decodeBool] at h
    split at h
    · cases h
    · cases h
      exact Nat.le_succ c
  have hentry (map : List (String × Value)) :
      Agrees lo (decodeEntry item data map) (decodeEntry item' data map) :=
    (decodeStr_agrees lo).bind fun key => decodeAs_agrees h (insertEntry map key)
  have hfail : Agrees lo (fun _ => (.err (.unexpectedTag tag) : Outcome DecodeError (Value × Nat)))
      fun _ => .err (.unexpectedTag tag) := by
    apply Agrees.refl
    intro c v c' h
    cases h
  exact .ite (.pure Value.null) <| .ite hbool <|
    .ite (decodeAs_agrees (decodeBits_agrees 4 lo) Value.i32) <|
    .ite (decodeAs_agrees (decodeBits_agrees 8 lo) Value.i64) <|
    .ite (decodeAs_agrees (decodeBits_agrees 4 lo) Value.f32) <|
    .ite (decodeAs_agrees (decodeBits_agrees 8 lo) Value.f64) <|
    .ite (decodeAs_agrees (decodeStr_agrees lo) Value.string) <|
    .ite (decodeAs_agrees (decodeBytes_agrees lo) Value.bytes) <|
    .ite (counted_agrees (fun items => decodeAs_agrees h fun v => items ++ [v]) [] Value.array) <|
    .ite (counted_agrees hentry [] Value.map) hfail

theorem decodeAt_of_length_le (h : data.length ≤ pos) (n : Nat) :
    decodeAt data n pos = .err .emptyInput := by
  cases n with
  | zero => rfl
  | succ n => rw [decodeAt, List.getElem?_eq_none h]

/-- As many calls as there are bytes left are enough. -/
theorem decodeAt_agrees {m lo : Nat} (hm : data.length ≤ lo + m) (hn : data.length ≤ lo + n) :
    Agrees lo (decodeAt data m) (decodeAt data n) := by
  induction m generalizing n lo with
  | zero =>
    constructor
    · intro c hc
      rw [decodeAt_of_length_le (hm.trans hc) n, decodeAt]
    · intro c v c' _ h
      cases h
  | succ m ih =>
    -- behind the tag the calls that are left are still enough
    have hbody (c : Nat) (hc : lo ≤ c) (k : Nat) (hk : data.length ≤ lo + (k + 1)) (tag : UInt8) :
        Agrees (c + 1) (decodeBody (decodeAt data m) data tag)
          (decodeBody (decodeAt data k) data tag) :=
      decodeBody_agrees (ih (by omega) (by omega)) tag
    constructor
    · intro c hc
      cases hget : data[c]? with
      | none =>
        have hle := List.getElem?_eq_none_iff.mp hget
        rw [decodeAt_of_length_le hle, decodeAt_of_length_le hle]
      | some tag =>
        obtain ⟨hlt, -⟩ := List.getElem?_eq_some_iff.mp hget
        cases n with
        | zero => omega
        | succ n =>
          rw [decodeAt, decodeAt, hget]
          exact (hbody c hc n hn tag).eq (c + 1) le_rfl
    · intro c v c' hc h
      rw [decodeAt] at h
      split at h
      · cases h
      · next tag _ =>
        exact (Nat.le_succ c).trans ((hbody c hc m hm tag).forward (c + 1) v c' le_rfl h)

/-- The recursion of `decode_at`, which does not depend on the number of calls that is allowed for. -/
theorem decodeAt_eq_body {tag : UInt8} (htag : data[pos]? = some tag)
    (hn : data.length ≤ pos + n) :
    decodeAt data n pos = decodeBody (decodeAt data n) data tag (pos + 1) := by
  obtain ⟨hlt, -⟩ := List.getElem?_eq_some_iff.mp htag
  have hsucc : decodeAt data n pos = decodeAt data (n + 1) pos :=
    (decodeAt_agrees hn (by omega)).eq pos le_rfl
  rw [hsucc, decodeAt, htag]

theorem decode_eq_ok (hmem : data.length ≤ isizeMax) {v : Value} :
    decode data = .ok v ↔ Item data.length v data := by
  rw [← (decodeAt_reads hmem data.length).whole_ok le_rfl, decode]
  constructor
  · intro h
    obtain ⟨⟨a, c⟩, hat, h⟩ := Outcome.bind_eq_ok.mp h
    simp only at h
    split at h
    · cases h
    · next hc =>
      cases h
      rw [hat, not_not.mp hc]
  · intro h
    apply Outcome.bind_eq_ok.mpr
    exact ⟨_, h, if_neg fun hc => hc rfl⟩

theorem decode_eq_panic (hmem : data.length ≤ isizeMax) :
    decode data = .panic ↔ ItemFault data.length 0 data := by
  rw [← (decodeAt_reads hmem data.length).whole_panic le_rfl, decode]
  constructor
  · intro h
    rcases Outcome.bind_eq_panic.mp h with h | ⟨⟨a, c⟩, -, h⟩
    · exact h
    · simp only at h
      split at h <;> cases h
  · intro h
    exact Outcome.bind_eq_panic.mpr (.inl h)

/-- `decode` returns, and the value that it returns takes up the whole input, unless the parts of the
input lead it to a negative length. -/
theorem decode_returns (hmem : data.length ≤ isizeMax) :
    (((∃ v, decode data = .ok v) ∨ ∃ e, decode data = .err e) ∧
      ∀ v, decode data = .ok v →
        decodeAt data data.length 0 = .ok (v, data.length) ∧ Item data.length v data) ↔
      ¬ ItemFault data.length 0 data := by
  rw [← decode_eq_panic hmem]
  constructor
  · rintro ⟨⟨v, hok⟩ | ⟨e, herr⟩, -⟩ hpanic
    · rw [hok] at hpanic
      cases hpanic
    · rw [herr] at hpanic
      cases hpanic
  · intro hpanic
    constructor
    · cases h : decode data with
      | ok v => exact .inl ⟨v, rfl⟩
      | err e => exact .inr ⟨e, rfl⟩
      | panic => exact absurd h hpanic
    · intro v hok
      have hitem := (decode_eq_ok hmem).mp hok
      exact ⟨((decodeAt_reads hmem data.length).whole_ok le_rfl v).mpr hitem, hitem⟩

/-- A value that is whole, and the bytes of which are those of the input. -/
theorem decode_returns_null :
    ((∃ v, decode [0x00] = .ok v) ∨ ∃ e, decode [0x00] = .err e) ∧
      ∀ v, decode [0x00] = .ok v → decodeAt [0x00] 1 0 = .ok (v, 1) ∧ Item 1 v [0x00] := by
  apply (@decode_returns [0x00] (by decide)).mpr
  rintro ⟨tag, tail, heq, hfault⟩
  cases heq
  exact hfault

/-- An array of -1 items, and -5 bytes behind a length that ends at the position 5. -/
theorem decode_negative_length :
    decode [0x0E, 0xFF, 0xFF, 0xFF, 0xFF] = .panic ∧
      decode [0x0D, 0xFB, 0xFF, 0xFF, 0xFF] = .panic ∧
      ¬ ∀ data : Bytes, data.length ≤ isizeMax →
        (∃ v, decode data = .ok v) ∨ ∃ e, decode data = .err e := by
  refine ⟨rfl, rfl, fun h => ?_⟩
  obtain ⟨v, hok⟩ | ⟨e, herr⟩ := h [0x0E, 0xFF, 0xFF, 0xFF, 0xFF] (by decide)
  · cases hok
  · cases herr

end Garry
