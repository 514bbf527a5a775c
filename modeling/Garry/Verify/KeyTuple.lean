import Garry.Library.PrefixCode
import Garry.Model.KeyTuple

/-!
# Tuple keys

The encoding of a tuple is the encodings of its parts one after the other, and each parser that
stands before a part reads its length and goes on to the next one. No encoding of a part begins
another, so that the prefixes of a key that are keys are the keys of the first parts.
-/

namespace Garry

open ByteStore

variable {key pre post part : Bytes} {offset : Int}

/-! ## Bytes of a key -/

theorem byteIn_append (pre bs : Bytes) (j : Nat) :
    byteIn (pre ++ bs) (pre.length + j) = (bs[j]?).map fun b => (b.toNat : Int) := by
  rw [byteIn, if_neg (by omega), show ((pre.length : Int) + j).toNat = pre.length + j by omega,
    List.getElem?_append_right (Nat.le_add_right ..), Nat.add_sub_cancel_left]

theorem byteIn_head (pre : Bytes) (b : UInt8) (post : Bytes) :
    byteIn (pre ++ b :: post) pre.length = some (b.toNat : Int) := by
  have h := byteIn_append pre (b :: post) 0
  rwa [Nat.cast_zero, Int.add_zero] at h

theorem bytesIn_append (pre bs post : Bytes) :
    bytesIn (pre ++ (bs ++ post)) pre.length bs.length = some bs := by
  rw [bytesIn]
  split
  · next h =>
    have hnil : bs = [] := List.length_eq_zero_iff.mp (by omega)
    rw [hnil]
  · rw [if_pos ⟨by omega, by simp only [List.length_append]; omega⟩, Int.toNat_natCast,
      Int.toNat_natCast, List.drop_left, List.take_left]

theorem byteIn_some {key : Bytes} {i v : Int} (h : byteIn key i = some v) :
    0 ≤ i ∧ i < key.length ∧ 0 ≤ v := by
  rw [byteIn] at h
  split at h
  · cases h
  · obtain ⟨b, hb, rfl⟩ := Option.map_eq_some_iff.mp h
    obtain ⟨hlt, -⟩ := List.getElem?_eq_some_iff.mp hb
    omega

theorem decodeLengthPrefix_some {key : Bytes} {offset plen : Int}
    (h : decodeLengthPrefix key offset = some plen) :
    0 ≤ offset ∧ offset < key.length ∧ 0 ≤ plen := by
  obtain ⟨v0, h0, h⟩ := Option.bind_eq_some_iff.mp h
  obtain ⟨hle, hlt, hv0⟩ := byteIn_some h0
  refine ⟨hle, hlt, ?_⟩
  split at h
  · cases h
    exact hv0
  · obtain ⟨v1, h1, h⟩ := Option.bind_eq_some_iff.mp h
    obtain ⟨v2, h2, h⟩ := Option.bind_eq_some_iff.mp h
    cases h
    have hv1 := (byteIn_some h1).2.2
    have hv2 := (byteIn_some h2).2.2
    omega

theorem bytesIn_some {key : Bytes} {off len : Int} {bs : Bytes} (hlen : 0 ≤ len)
    (h : bytesIn key off len = some bs) :
    (bs.length : Int) = len ∧ (0 < len → off + len ≤ key.length) := by
  rw [bytesIn] at h
  split at h
  · cases h
    simp only [List.length_nil]
    omega
  · obtain ⟨hif, hbs⟩ := Option.ite_none_right_eq_some.mp h
    cases hbs
    simp only [List.length_take, List.length_drop]
    omega

/-! ## One part -/

/-- The encoding of one part. -/
def encodePart (part : Bytes) : Bytes := encodeLengthPrefix part.length ++ part

theorem encodeKeyTuple_cons (part : Bytes) (t : KeyTuple) :
    encodeKeyTuple (part :: t) = encodePart part ++ encodeKeyTuple t := List.flatMap_cons

theorem encodeKeyTuple_append (s t : KeyTuple) :
    encodeKeyTuple (s ++ t) = encodeKeyTuple s ++ encodeKeyTuple t := List.flatMap_append

theorem length_encodeLengthPrefix (plen : Int) :
    ((encodeLengthPrefix plen).length : Int) = lengthPrefixSize plen := by
  rw [encodeLengthPrefix, lengthPrefixSize]
  split <;> rfl

theorem length_encodePart (part : Bytes) :
    ((encodePart part).length : Int) = lengthPrefixSize part.length + part.length := by
  rw [encodePart, List.length_append, Nat.cast_add, length_encodeLengthPrefix]

theorem lengthPrefixSize_pos (plen : Int) : 0 < lengthPrefixSize plen := by
  rw [lengthPrefixSize]
  split <;> decide

/-- The encoding of the part stands at the offset. -/
structure PartAt (key : Bytes) (offset : Int) (part : Bytes) : Prop where
  fits : part.length < 65536
  split : ∃ pre post : Bytes, key = pre ++ (encodePart part ++ post) ∧ offset = pre.length

namespace PartAt

/-- The marker tells long parts. -/
theorem marker (h : PartAt key offset part) :
    ∃ v0, byteIn key offset = some v0 ∧ (v0 = lenPrefixLongMarker ↔ 128 ≤ part.length) := by
  obtain ⟨pre, post, rfl, rfl⟩ := h.split
  rw [encodePart, encodeLengthPrefix]
  split
  · next hlt =>
    replace hlt : (part.length : Int) < 128 := hlt
    refine ⟨part.length, ?_, ?_⟩
    · rw [List.append_assoc, List.singleton_append, byteIn_head, toNat_toByte (by omega) (by omega)]
    · simp only [lenPrefixLongMarker]
      omega
  · next hlt =>
    replace hlt : ¬ (part.length : Int) < 128 := hlt
    refine ⟨255, ?_, iff_of_true rfl (by omega)⟩
    rw [List.append_assoc, List.cons_append, byteIn_head]
    rfl

theorem decodeLengthPrefix (h : PartAt key offset part) :
    decodeLengthPrefix key offset = some (part.length : Int) := by
  have hfits := h.fits
  obtain ⟨v0, hv0, hmarker⟩ := h.marker
  obtain ⟨pre, post, rfl, rfl⟩ := h.split
  rw [Garry.decodeLengthPrefix, hv0]
  rw [encodePart, encodeLengthPrefix] at hv0 ⊢
  simp only [Option.bind_eq_bind, Option.bind_some]
  split at hv0
  · next hlt =>
    replace hlt : (part.length : Int) < 128 := hlt
    rw [if_pos (mt hmarker.mp (by omega))]
    rw [List.append_assoc, List.singleton_append, byteIn_head,
      toNat_toByte (by omega) (by omega)] at hv0
    exact hv0.symm
  · next hlt =>
    replace hlt : ¬ (part.length : Int) < 128 := hlt
    rw [if_neg (not_not.mpr (hmarker.mpr (by omega))), if_neg hlt]
    have h1 := byteIn_append pre ([toByte lenPrefixLongMarker, toByte (part.length / 256 % 256),
      toByte (part.length % 256)] ++ part ++ post) 1
    have h2 := byteIn_append pre ([toByte lenPrefixLongMarker, toByte (part.length / 256 % 256),
      toByte (part.length % 256)] ++ part ++ post) 2
    rw [Nat.cast_one] at h1
    rw [Nat.cast_two] at h2
    rw [h1, h2]
    simp only [List.cons_append, List.getElem?_cons_succ, List.getElem?_cons_zero, Option.map_some,
      Option.bind_some]
    rw [toNat_toByte (by omega) (by omega), toNat_toByte (by omega) (by omega)]
    congr 1
    omega

theorem bytesIn (h : PartAt key offset part) :
    bytesIn key (offset + lengthPrefixSize part.length) part.length = some part := by
  obtain ⟨pre, post, rfl, rfl⟩ := h.split
  have hb := bytesIn_append (pre ++ encodeLengthPrefix part.length) part post
  rw [List.length_append, Nat.cast_add, length_encodeLengthPrefix] at hb
  rw [encodePart]
  simpa only [List.append_assoc] using hb

theorem lt (h : PartAt key offset part) :
    offset + lengthPrefixSize part.length + part.length ≤ key.length := by
  obtain ⟨pre, post, rfl, rfl⟩ := h.split
  have hl := length_encodePart part
  simp only [List.length_append]
  omega

end PartAt

/-! ## All parts -/

variable {s t : KeyTuple}

theorem length_le_encodeKeyTuple (h : part ∈ t) : part.length ≤ (encodeKeyTuple t).length := by
  obtain ⟨a, b, rfl⟩ := List.append_of_mem h
  rw [encodeKeyTuple_append, encodeKeyTuple_cons, encodePart]
  simp only [List.length_append]
  omega

theorem short_of_length (h : (encodeKeyTuple t).length ≤ maxKeySize) : ∀ p ∈ t, p.length < 65536 := by
  intro p hp
  have hle := length_le_encodeKeyTuple hp
  simp only [maxKeySize] at h
  omega

/-- The first part of the rest stands where the encoding of the others ends. -/
theorem partAt_encodeKeyTuple (h : ∀ p ∈ part :: t, p.length < 65536) :
    PartAt (encodeKeyTuple (s ++ part :: t)) (encodeKeyTuple s).length part := by
  refine ⟨h part List.mem_cons_self, encodeKeyTuple s, encodeKeyTuple t, ?_, rfl⟩
  rw [encodeKeyTuple_append, encodeKeyTuple_cons]

/-- From there a parser goes on to where the encoding with one part more ends. -/
theorem length_encodeKeyTuple_concat (s : KeyTuple) (part : Bytes) :
    ((encodeKeyTuple (s ++ [part])).length : Int) =
      (encodeKeyTuple s).length + lengthPrefixSize part.length + part.length := by
  rw [encodeKeyTuple_append, encodeKeyTuple_cons, List.length_append, List.length_append]
  have hl := length_encodePart part
  simp only [encodeKeyTuple, List.flatMap_nil, List.length_nil]
  omega

theorem length_encodeKeyTuple_lt (s : KeyTuple) (part : Bytes) (t : KeyTuple) :
    ((encodeKeyTuple s).length : Int) < (encodeKeyTuple (s ++ part :: t)).length := by
  have hpos := lengthPrefixSize_pos part.length
  have hl := length_encodePart part
  rw [encodeKeyTuple_append, encodeKeyTuple_cons, List.length_append, List.length_append]
  omega

theorem tupleLength_eq (t : KeyTuple) : tupleLength t = (encodeKeyTuple t).length := by
  induction t using List.reverseRecOn with
  | nil => rfl
  | append_singleton s part ih =>
    rw [tupleLength, List.foldl_concat, ← tupleLength, ih, length_encodeKeyTuple_concat,
      Int.add_assoc]

theorem subscriptCountLoop_encodeKeyTuple (ht : ∀ p ∈ t, p.length < 65536)
    (hfuel : (encodeKeyTuple (s ++ t)).length ≤ (encodeKeyTuple s).length + n) :
    subscriptCountLoop (encodeKeyTuple (s ++ t)) n (encodeKeyTuple s).length =
      some (t.length : Int) := by
  induction t generalizing s n with
  | nil =>
    cases n with
    | zero => rfl
    | succ n =>
      rw [List.append_nil, subscriptCountLoop, if_neg (lt_irrefl _)]
      rfl
  | cons part t ih =>
    have hlt := length_encodeKeyTuple_lt s part t
    have hconcat := length_encodeKeyTuple_concat s part
    have hpos := lengthPrefixSize_pos part.length
    cases n with
    | zero => omega
    | succ n =>
      rw [subscriptCountLoop, if_pos hlt, (partAt_encodeKeyTuple ht).decodeLengthPrefix]
      have hrest := ih (s := s ++ [part]) (n := n)
        (fun p hp => ht p (List.mem_cons_of_mem part hp))
        (by rw [List.append_assoc, List.singleton_append]; omega)
      rw [List.append_assoc, List.singleton_append, hconcat] at hrest
      simp only [Option.bind_eq_bind, Option.bind_some]
      rw [hrest, List.length_cons]
      rfl

theorem skipSubscripts_encodeKeyTuple (ht : ∀ p ∈ t, p.length < 65536) {n : Nat}
    (hn : n ≤ t.length) :
    skipSubscripts (encodeKeyTuple (s ++ t)) n (encodeKeyTuple s).length =
      some (some ((encodeKeyTuple (s ++ t.take n)).length : Int)) := by
  induction t generalizing s n with
  | nil =>
    obtain rfl := Nat.le_zero.mp hn
    rw [List.take_nil, List.append_nil]
    rfl
  | cons part t ih =>
    cases n with
    | zero =>
      rw [List.take_zero, List.append_nil]
      rfl
    | succ n =>
      have hpart := partAt_encodeKeyTuple (s := s) ht
      have hend := hpart.lt
      have hrest := ih (s := s ++ [part]) (fun p hp => ht p (List.mem_cons_of_mem part hp))
        (Nat.le_of_succ_le_succ hn)
      rw [List.append_assoc, List.singleton_append, length_encodeKeyTuple_concat,
        List.append_assoc, List.singleton_append] at hrest
      rw [skipSubscripts, if_neg (not_le_of_gt (length_encodeKeyTuple_lt s part t)),
        hpart.decodeLengthPrefix]
      simp only [Option.bind_eq_bind, Option.bind_some]
      rw [if_neg (not_lt_of_ge hend), hrest, List.take_succ_cons]

theorem decodeKeyTupleLoop_encodeKeyTuple (ht : ∀ p ∈ t, p.length < 65536) {n : Nat}
    (hn : t.length ≤ n) :
    (decodeKeyTupleLoop (encodeKeyTuple (s ++ t)) n (encodeKeyTuple s).length).bind
      (tupleParts (encodeKeyTuple (s ++ t))) = some t := by
  induction t generalizing s n with
  | nil =>
    cases n with
    | zero => rfl
    | succ n =>
      rw [List.append_nil, decodeKeyTupleLoop, if_neg (lt_irrefl _)]
      rfl
  | cons part t ih =>
    cases n with
    | zero => cases hn
    | succ n =>
      have hpart := partAt_encodeKeyTuple (s := s) ht
      obtain ⟨v0, hv0, hmarker⟩ := hpart.marker
      have hsize : (if v0 = lenPrefixLongMarker then 3 else 1) = lengthPrefixSize part.length := by
        rw [lengthPrefixSize]
        simp only [hmarker, lenPrefixInlineMax]
        split <;> split <;> first | rfl | omega
      have hrest := ih (s := s ++ [part]) (fun p hp => ht p (List.mem_cons_of_mem part hp))
        (Nat.le_of_succ_le_succ hn)
      rw [List.append_assoc, List.singleton_append, length_encodeKeyTuple_concat] at hrest
      obtain ⟨offs, hoffs, hparts⟩ := Option.bind_eq_some_iff.mp hrest
      rw [decodeKeyTupleLoop, if_pos (length_encodeKeyTuple_lt s part t), hpart.decodeLengthPrefix,
        hv0]
      simp only [Option.bind_eq_bind, Option.bind_some]
      rw [hsize, hoffs]
      simp only [Option.bind_some]
      rw [tupleParts, List.mapM_cons, hpart.bytesIn, ← tupleParts, hparts]
      rfl

/-! ## The operations on a key -/

theorem subscriptCount_encodeKeyTuple (ht : ∀ p ∈ t, p.length < 65536) :
    subscriptCount (encodeKeyTuple t) = some (t.length : Int) :=
  subscriptCountLoop_encodeKeyTuple (s := []) ht (Nat.le_add_left ..)

theorem getSubscriptOffset_encodeKeyTuple (ht : ∀ p ∈ t, p.length < 65536) {i : Nat}
    (hi : i ≤ t.length) :
    getSubscriptOffset (encodeKeyTuple t) i = some ((encodeKeyTuple (t.take i)).length : Int) := by
  have hskip := skipSubscripts_encodeKeyTuple (s := []) ht hi
  rw [List.nil_append, List.nil_append] at hskip
  rw [getSubscriptOffset, Int.toNat_natCast]
  exact congrArg (Option.map _) hskip

theorem decodeKeyTuple_encodeKeyTuple (ht : ∀ p ∈ t, p.length < 65536)
    (hcount : t.length ≤ maxSubscripts) :
    (decodeKeyTuple (encodeKeyTuple t)).bind (tupleParts (encodeKeyTuple t)) = some t :=
  decodeKeyTupleLoop_encodeKeyTuple (s := []) ht hcount

theorem extractSubscript_encodeKeyTuple (ht : ∀ p ∈ t, p.length < 65536) {i : Nat}
    (hi : i < t.length) : extractSubscript (encodeKeyTuple t) i = some t[i] := by
  have hsplit : t.take i ++ t[i] :: t.drop (i + 1) = t := by
    rw [← List.drop_eq_getElem_cons hi, List.take_append_drop]
  have hpart := partAt_encodeKeyTuple (s := t.take i) (t := t.drop (i + 1))
    fun p (hp : p ∈ t[i] :: _) => ht p (by rw [← hsplit]; exact List.mem_append_right _ hp)
  rw [hsplit] at hpart
  rw [extractSubscript, getSubscriptOffset_encodeKeyTuple ht hi.le]
  simp only [Option.bind_eq_bind, Option.bind_some]
  rw [hpart.decodeLengthPrefix]
  exact hpart.bytesIn

/-- The bytes of the first parts, over a cleared buffer. -/
theorem keyPrefix_encodeKeyTuple (ht : ∀ p ∈ t, p.length < 65536) {i : Nat} (hi : i ≤ t.length)
    (out : Store) {outSize : Int} (hout : ((encodeKeyTuple (t.take i)).length : Int) ≤ outSize) :
    ∃ out', keyPrefix (encodeKeyTuple t) i out outSize =
        some (((encodeKeyTuple (t.take i)).length : Int), out') ∧
      slice out' 0 (encodeKeyTuple (t.take i)).length = encodeKeyTuple (t.take i) := by
  have hbytes := bytesIn_append [] (encodeKeyTuple (t.take i)) (encodeKeyTuple (t.drop i))
  rw [← encodeKeyTuple_append, List.take_append_drop] at hbytes
  rw [keyPrefix, getSubscriptOffset_encodeKeyTuple ht hi]
  simp only [Option.bind_eq_bind, Option.bind_some]
  rw [if_neg (not_lt_of_ge hout)]
  refine ⟨_, congrArg (Option.bind · _) hbytes, ?_⟩
  exact slice_blit_self ..

/-- The key with one part more. -/
theorem concatPrefix_encodeKeyTuple (t : KeyTuple) (sub : Bytes) (out : Store) {outSize : Int}
    (hout : ((encodeKeyTuple (t ++ [sub])).length : Int) ≤ outSize) :
    ∃ out', concatPrefix (encodeKeyTuple t) sub out outSize =
        (((encodeKeyTuple (t ++ [sub])).length : Int), out') ∧
      slice out' 0 (encodeKeyTuple (t ++ [sub])).length = encodeKeyTuple (t ++ [sub]) := by
  have hlen := length_encodeKeyTuple_concat t sub
  rw [concatPrefix, ← hlen]
  simp only [if_neg (not_lt_of_ge hout)]
  refine ⟨_, rfl, ?_⟩
  have hall : encodeKeyTuple (t ++ [sub]) =
      encodeKeyTuple t ++ (encodeLengthPrefix sub.length ++ sub) := by
    rw [encodeKeyTuple_append, encodeKeyTuple_cons, encodePart]
    simp [encodeKeyTuple]
  have hblit (as bs : Bytes) :
      blit (blit (blit out 0 (List.replicate outSize.toNat 0)) 0 as) as.length bs =
        blit (blit out 0 (List.replicate outSize.toNat 0)) 0 (as ++ bs) := by
    have h := blit_blit (blit out 0 (List.replicate outSize.toNat 0)) 0 as bs
    rwa [Nat.zero_add] at h
  rw [hall, hblit, ← List.length_append, hblit, List.append_assoc]
  exact slice_blit_self ..

/-- What `garry_decode_key_tuple`, `garry_tuple_length` and the subscript functions make of the
encoding of a tuple. -/
theorem keyTuple_roundTrip (hcount : t.length ≤ maxSubscripts)
    (hlen : (encodeKeyTuple t).length ≤ maxKeySize) :
    (decodeKeyTuple (encodeKeyTuple t)).bind (tupleParts (encodeKeyTuple t)) = some t ∧
    tupleLength t = (encodeKeyTuple t).length ∧
    subscriptCount (encodeKeyTuple t) = some (t.length : Int) ∧
    (∀ i : Nat, i ≤ t.length →
      getSubscriptOffset (encodeKeyTuple t) i = some ((encodeKeyTuple (t.take i)).length : Int) ∧
      ∀ out outSize, ((encodeKeyTuple (t.take i)).length : Int) ≤ outSize →
        ∃ out', keyPrefix (encodeKeyTuple t) i out outSize =
            some (((encodeKeyTuple (t.take i)).length : Int), out') ∧
          slice out' 0 (encodeKeyTuple (t.take i)).length = encodeKeyTuple (t.take i)) ∧
    (∀ (i : Nat) (hi : i < t.length), extractSubscript (encodeKeyTuple t) i = some t[i]) ∧
    ∀ sub out outSize, ((encodeKeyTuple (t ++ [sub])).length : Int) ≤ outSize →
      ∃ out', concatPrefix (encodeKeyTuple t) sub out outSize =
          (((encodeKeyTuple (t ++ [sub])).length : Int), out') ∧
        slice out' 0 (encodeKeyTuple (t ++ [sub])).length = encodeKeyTuple (t ++ [sub]) := by
  have ht := short_of_length hlen
  exact ⟨decodeKeyTuple_encodeKeyTuple ht hcount, tupleLength_eq t, subscriptCount_encodeKeyTuple ht,
    fun i hi => ⟨getSubscriptOffset_encodeKeyTuple ht hi,
      fun out outSize hout => keyPrefix_encodeKeyTuple ht hi out hout⟩,
    fun i hi => extractSubscript_encodeKeyTuple ht hi,
    fun sub out outSize hout => concatPrefix_encodeKeyTuple t sub out hout⟩

/-- A key with an empty part, a part at the limit of the short prefix and one over it. -/
theorem keyTuple_roundTrip_three :
    (decodeKeyTuple (encodeKeyTuple [[], List.replicate 50 1, List.replicate 130 2])).bind
        (tupleParts (encodeKeyTuple [[], List.replicate 50 1, List.replicate 130 2])) =
      some [[], List.replicate 50 1, List.replicate 130 2] :=
  (keyTuple_roundTrip (t := [[], List.replicate 50 1, List.replicate 130 2])
    (by decide) (by decide +kernel)).1

/-! ## Prefixes -/

/-- No encoding of a part begins another one. -/
theorem encodePart_prefixCode : PrefixCode.On {p : Bytes | p.length < 65536} encodePart where
  ne_nil p _ hnil := by
    have hl := length_encodePart p
    have hpos := lengthPrefixSize_pos p.length
    rw [hnil] at hl
    simp only [List.length_nil] at hl
    omega
  head {a b u v} ha hb he := by
    have hat : PartAt (encodePart a ++ u) 0 a := ⟨ha, [], u, (List.nil_append _).symm, rfl⟩
    have hbt : PartAt (encodePart a ++ u) 0 b := ⟨hb, [], v, he.trans (List.nil_append _).symm, rfl⟩
    have hlen : (a.length : Int) = b.length :=
      Option.some.inj (hat.decodeLengthPrefix.symm.trans hbt.decodeLengthPrefix)
    have hbytes := hbt.bytesIn
    rw [← hlen] at hbytes
    exact Option.some.inj (hat.bytesIn.symm.trans hbytes)

/-- The encodings that begin with another one are those of the tuples that begin with it. -/
theorem encodeKeyTuple_prefix (hs : ∀ p ∈ s, p.length < 65536) (ht : ∀ p ∈ t, p.length < 65536) :
    encodeKeyTuple s <+: encodeKeyTuple t ↔ s <+: t :=
  encodePart_prefixCode.flatMap_prefix hs ht

/-! ## Order -/

/-- The componentwise comparison of two tuples. -/
def compareTuples : KeyTuple → KeyTuple → Int
  | [], [] => 0
  | [], _ :: _ => -1
  | _ :: _, [] => 1
  | a :: s, b :: t => if byteCompare a b = 0 then compareTuples s t else byteCompare a b

theorem byteCompare_append_left (a u v : Bytes) :
    byteCompare (a ++ u) (a ++ v) = byteCompare u v := by
  induction a with
  | nil => rfl
  | cons x a ih => rw [List.cons_append, List.cons_append, byteCompare, if_neg (lt_irrefl x),
      if_neg (lt_irrefl x), ih]

theorem byteCompare_eq_zero {a b : Bytes} : byteCompare a b = 0 ↔ a = b := by
  constructor
  · intro h
    have h1 := mt byteCompare_lt_zero.mpr (not_lt_of_ge h.ge)
    have h2 := mt byteCompare_gt_zero.mpr (not_lt_of_ge h.le)
    exact le_antisymm (not_lt.mp h2) (not_lt.mp h1)
  · rintro rfl
    have h := byteCompare_append_left a [] []
    rwa [List.append_nil] at h

/-- The order of two encodings of parts with more behind them. -/
def comparePrefixed (a b : Bytes) : Int :=
  if a.length < b.length then -1 else if b.length < a.length then 1 else byteCompare a b

theorem byteCompare_swap (a b : Bytes) : byteCompare b a = -byteCompare a b := by
  induction a generalizing b with
  | nil => cases b <;> rfl
  | cons x a ih =>
    cases b with
    | nil => rfl
    | cons y b =>
      rw [byteCompare, byteCompare, ih]
      rcases lt_trichotomy x y with h | rfl | h
      · rw [if_neg (not_lt_of_gt h), if_pos h, if_pos h]
        rfl
      · rw [if_neg (lt_irrefl x), if_neg (lt_irrefl x), if_neg (lt_irrefl x), if_neg (lt_irrefl x)]
      · rw [if_pos h, if_neg (not_lt_of_gt h), if_pos h]

theorem byteCompare_append {a b : Bytes} (hlen : a.length = b.length) (hne : a ≠ b) (u v : Bytes) :
    byteCompare (a ++ u) (b ++ v) = byteCompare a b := by
  induction a generalizing b with
  | nil => exact absurd (List.length_eq_zero_iff.mp hlen.symm).symm hne
  | cons x a ih =>
    cases b with
    | nil => cases hlen
    | cons y b =>
      rw [List.cons_append, List.cons_append, byteCompare, byteCompare]
      split
      · rfl
      split
      · rfl
      · next h h' =>
        obtain rfl : x = y := le_antisymm (not_lt.mp h') (not_lt.mp h)
        exact ih (Nat.succ.inj hlen) fun he => hne (congrArg (x :: ·) he)

theorem toByte_lt {x y : Int} (hx : 0 ≤ x) (hxy : x < y) (hy : y < 256) : toByte x < toByte y := by
  rw [UInt8.lt_iff_toNat_lt]
  have h1 := toNat_toByte hx (by omega)
  have h2 := toNat_toByte (by omega : 0 ≤ y) hy
  omega

/-- The prefix of the shorter part is the smaller one. -/
theorem byteCompare_encodeLengthPrefix {m n : Int} (hm : 0 ≤ m) (hmn : m < n) (hn : n < 65536)
    (u v : Bytes) : byteCompare (encodeLengthPrefix m ++ u) (encodeLengthPrefix n ++ v) = -1 := by
  have hless {x y : Int} (hx : 0 ≤ x) (hxy : x < y) (hy : y < 256) (u v : Bytes) :
      byteCompare (toByte x :: u) (toByte y :: v) = -1 := by
    rw [byteCompare, if_pos (toByte_lt hx hxy hy)]
  have hsame (x : Int) (u v : Bytes) :
      byteCompare (toByte x :: u) (toByte x :: v) = byteCompare u v :=
    byteCompare_append_left [toByte x] u v
  rw [encodeLengthPrefix, encodeLengthPrefix]
  simp only [lenPrefixInlineMax, lenPrefixLongMarker]
  by_cases hn' : n < 128
  · rw [if_pos hn', if_pos (by omega)]
    exact hless hm hmn (by omega) ..
  rw [if_neg hn']
  by_cases hm' : m < 128
  · rw [if_pos hm']
    exact hless hm (by omega) (by omega) ..
  rw [if_neg hm']
  simp only [List.cons_append, List.nil_append]
  rw [hsame]
  rcases lt_or_eq_of_le (show m / 256 ≤ n / 256 by omega) with hhi | hhi
  · exact hless (by omega) (by omega) (by omega) ..
  · rw [hhi, hsame]
    exact hless (by omega) (by omega) (by omega) ..

/-- The encodings of two parts compare as their lengths do, and as the parts when these are equal. -/
theorem byteCompare_encodePart {a b : Bytes} (ha : a.length < 65536) (hb : b.length < 65536)
    (hne : a ≠ b) (u v : Bytes) :
    byteCompare (encodePart a ++ u) (encodePart b ++ v) = comparePrefixed a b := by
  rw [encodePart, encodePart, List.append_assoc, List.append_assoc, comparePrefixed]
  rcases lt_trichotomy a.length b.length with h | h | h
  · rw [if_pos h]
    exact byteCompare_encodeLengthPrefix (by omega) (by omega) (by omega) ..
  · rw [if_neg h.not_lt, if_neg h.symm.not_lt, h, byteCompare_append_left]
    exact byteCompare_append h hne u v
  · rw [if_neg (not_lt_of_gt h), if_pos h, byteCompare_swap]
    exact congrArg Neg.neg
      (byteCompare_encodeLengthPrefix (by omega) (by omega) (by omega) ..)

/-- The encodings of two tuples compare as the first parts that differ. -/
theorem byteCompare_encodeKeyTuple {a b : Bytes} (ha : a.length < 65536) (hb : b.length < 65536)
    (s t : KeyTuple) : byteCompare (encodeKeyTuple (a :: s)) (encodeKeyTuple (b :: t)) =
      if a = b then byteCompare (encodeKeyTuple s) (encodeKeyTuple t) else comparePrefixed a b := by
  rw [encodeKeyTuple_cons, encodeKeyTuple_cons]
  split
  · next h => rw [h, byteCompare_append_left]
  · next h => exact byteCompare_encodePart ha hb h _ _

theorem byteCompare_cases {a b : Bytes} (hne : a ≠ b) :
    byteCompare a b = -1 ∨ byteCompare a b = 1 := by
  induction a generalizing b with
  | nil =>
    cases b with
    | nil => exact absurd rfl hne
    | cons y b => exact .inl rfl
  | cons x a ih =>
    cases b with
    | nil => exact .inr rfl
    | cons y b =>
      rw [byteCompare]
      split
      · exact .inl rfl
      split
      · exact .inr rfl
      · next h h' =>
        obtain rfl : x = y := le_antisymm (not_lt.mp h') (not_lt.mp h)
        exact ih fun he => hne (congrArg (x :: ·) he)

/-- The shorter one of two parts is the smaller one. -/
def ShorterFirst (a b : Bytes) : Prop :=
  a.length = b.length ∨ (a.length < b.length ↔ byteCompare a b < 0)

theorem comparePrefixed_eq {a b : Bytes} (hne : a ≠ b) :
    comparePrefixed a b = byteCompare a b ↔ ShorterFirst a b := by
  rw [comparePrefixed, ShorterFirst]
  rcases lt_trichotomy a.length b.length with h | h | h
  · rw [if_pos h]
    rcases byteCompare_cases hne with hc | hc
    · exact iff_of_true hc.symm (.inr (iff_of_true h (by omega)))
    · refine iff_of_false (by omega) ?_
      rintro (he | hiff)
      · omega
      · have := hiff.mp h
        omega
  · rw [if_neg h.not_lt, if_neg h.symm.not_lt]
    exact iff_of_true rfl (.inl h)
  · rw [if_neg (not_lt_of_gt h), if_pos h]
    rcases byteCompare_cases hne with hc | hc
    · refine iff_of_false (by omega) ?_
      rintro (he | hiff)
      · omega
      · have := hiff.mpr (by omega)
        omega
    · exact iff_of_true hc.symm (.inr (iff_of_false (not_lt_of_gt h) (by omega)))

/-- Of the first parts that differ the shorter one is the smaller one. -/
def DifferShorterFirst (s t : KeyTuple) : Prop :=
  ∀ pre a b s' t', s = pre ++ a :: s' → t = pre ++ b :: t' → a ≠ b → ShorterFirst a b

theorem differShorterFirst_cons {a b : Bytes} : DifferShorterFirst (a :: s) (b :: t) ↔
    if a = b then DifferShorterFirst s t else ShorterFirst a b := by
  split
  · next h =>
    subst h
    constructor
    · intro hd pre x y s' t' hs ht
      exact hd (a :: pre) x y s' t' (congrArg (a :: ·) hs) (congrArg (a :: ·) ht)
    · intro hd pre x y s' t' hs ht hne
      cases pre with
      | nil =>
        obtain ⟨rfl, -⟩ := List.cons.inj hs
        exact absurd (List.cons.inj ht).1 hne
      | cons z pre =>
        exact hd pre x y s' t' (List.cons.inj hs).2 (List.cons.inj ht).2 hne
  · next h =>
    constructor
    · intro hd
      exact hd [] a b s t rfl rfl h
    · intro hd pre x y s' t' hs ht hne
      cases pre with
      | nil =>
        obtain ⟨rfl, -⟩ := List.cons.inj hs
        obtain ⟨rfl, -⟩ := List.cons.inj ht
        exact hd
      | cons z pre =>
        exact absurd ((List.cons.inj hs).1.trans (List.cons.inj ht).1.symm) h

theorem differShorterFirst_of_nil (h : s = [] ∨ t = []) : DifferShorterFirst s t := by
  intro pre a b s' t' hs ht
  rcases h with rfl | rfl
  · cases pre <;> cases hs
  · cases pre <;> cases ht

theorem encodeKeyTuple_cons_ne_nil (part : Bytes) (t : KeyTuple) :
    encodeKeyTuple (part :: t) ≠ [] := by
  intro hnil
  have hlt := length_encodeKeyTuple_lt [] part t
  rw [List.nil_append, hnil] at hlt
  exact lt_irrefl _ hlt

/-- The order of the encodings is the componentwise order of the tuples just when, of the first parts
that differ, the shorter one is the smaller one. -/
theorem byteCompare_tuples (hs : ∀ p ∈ s, p.length < 65536) (ht : ∀ p ∈ t, p.length < 65536) :
    byteCompare (encodeKeyTuple s) (encodeKeyTuple t) = compareTuples s t ↔
      DifferShorterFirst s t := by
  induction s generalizing t with
  | nil =>
    refine iff_of_true ?_ (differShorterFirst_of_nil (.inl rfl))
    cases t with
    | nil => rfl
    | cons b t =>
      obtain ⟨x, l, hx⟩ := List.exists_cons_of_ne_nil (encodeKeyTuple_cons_ne_nil b t)
      rw [hx]
      rfl
  | cons a s ih =>
    cases t with
    | nil =>
      refine iff_of_true ?_ (differShorterFirst_of_nil (.inr rfl))
      obtain ⟨x, l, hx⟩ := List.exists_cons_of_ne_nil (encodeKeyTuple_cons_ne_nil a s)
      rw [hx]
      rfl
    | cons b t =>
      rw [byteCompare_encodeKeyTuple (hs a List.mem_cons_self) (ht b List.mem_cons_self),
        compareTuples, differShorterFirst_cons]
      by_cases h : a = b
      · rw [if_pos h, if_pos h, if_pos (byteCompare_eq_zero.mpr h)]
        exact ih (fun p hp => hs p (List.mem_cons_of_mem a hp))
          fun p hp => ht p (List.mem_cons_of_mem b hp)
      · rw [if_neg h, if_neg h, if_neg (mt byteCompare_eq_zero.mp h)]
        exact comparePrefixed_eq h

/-- The same for tuples whose encodings are keys. -/
theorem keyTuple_order (hs : (encodeKeyTuple s).length ≤ maxKeySize)
    (ht : (encodeKeyTuple t).length ≤ maxKeySize) :
    byteCompare (encodeKeyTuple s) (encodeKeyTuple t) = compareTuples s t ↔
      DifferShorterFirst s t :=
  byteCompare_tuples (short_of_length hs) (short_of_length ht)

/-- Two keys that differ in parts of one length. -/
theorem keyTuple_order_last : DifferShorterFirst [[97], [98]] [[97], [99]] :=
  (keyTuple_order (by decide) (by decide)).mp (by decide)

/-- The part `b` is behind the part `aa`, but its encoding is before that of `aa`. -/
theorem keyTuple_order_swapped : byteCompare (encodeKeyTuple [[98]]) (encodeKeyTuple [[97, 97]]) = -1 ∧
    compareTuples [[98]] [[97, 97]] = 1 := by
  decide

end Garry
