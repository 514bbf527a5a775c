import Garry.Verify.KeyTuple

/-!
# Reads of the key parsers

A parser that stands before a prefix reads its length and goes on behind the bytes that the length
announces. It stays inside the key just when the prefixes that it comes to lie whole in the key, and
the bytes that it copies as well.
-/

namespace Garry

/-! ## Prefixes -/

/-- A whole prefix at an offset of the key, with its first byte and the length that it gives. -/
inductive PrefixAt (key : Bytes) (o : Nat) : UInt8 → Nat → Prop
  | short : key[o]? = some v → v ≠ 255 → PrefixAt key o v v.toNat
  | long {v1 v2 : UInt8} : key[o]? = some 255 → key[o + 1]? = some v1 → key[o + 2]? = some v2 →
    PrefixAt key o 255 (v1.toNat * 256 + v2.toNat)

variable {key : Bytes} {v : UInt8} {plen start n o : Nat} {size : UInt8 → Nat → Nat}

theorem PrefixAt.head (h : PrefixAt key o v plen) : key[o]? = some v := by
  cases h with
  | short h _ => exact h
  | long h _ _ => exact h

theorem PrefixAt.lt (h : PrefixAt key o v plen) : o < key.length :=
  (List.getElem?_eq_some_iff.mp h.head).1

theorem byteIn_natCast (key : Bytes) (o : Nat) :
    byteIn key o = (key[o]?).map fun b => (b.toNat : Int) := by
  rw [byteIn, if_neg (not_lt_of_ge (Int.natCast_nonneg o)), Int.toNat_natCast]

theorem ne_marker (v : UInt8) : (v.toNat : Int) ≠ lenPrefixLongMarker ↔ v ≠ 255 := by
  apply not_congr
  constructor
  · intro h
    exact UInt8.toNat_inj.mp (Int.ofNat_inj.mp h)
  · rintro rfl
    rfl

theorem PrefixAt.decodeLengthPrefix (h : PrefixAt key o v plen) :
    decodeLengthPrefix key o = some (plen : Int) := by
  have hhead := h.head
  rw [Garry.decodeLengthPrefix, byteIn_natCast, hhead]
  simp only [Option.map_some, Option.bind_eq_bind, Option.bind_some]
  cases h with
  | short _ hv =>
    rw [if_pos ((ne_marker v).mpr hv)]
  | long _ h1 h2 =>
    rw [if_neg fun h => (ne_marker 255).mp h rfl, ← Nat.cast_one, ← Nat.cast_add, byteIn_natCast, h1,
      ← Nat.cast_two, ← Nat.cast_add, byteIn_natCast, h2]
    simp only [Option.map_some, Option.bind_some]
    push_cast
    rfl

/-- A prefix that is read lies whole in the key. -/
theorem prefixAt_of_decode {p : Int} (h : decodeLengthPrefix key o = some p) :
    ∃ v plen, PrefixAt key o v plen ∧ p = plen := by
  obtain ⟨v0, h0, h⟩ := Option.bind_eq_some_iff.mp h
  rw [byteIn_natCast] at h0
  obtain ⟨v, hv, rfl⟩ := Option.map_eq_some_iff.mp h0
  by_cases hmark : v = 255
  · subst hmark
    rw [if_neg fun h => (ne_marker 255).mp h rfl] at h
    obtain ⟨v1, h1, h⟩ := Option.bind_eq_some_iff.mp h
    obtain ⟨v2, h2, h⟩ := Option.bind_eq_some_iff.mp h
    rw [← Nat.cast_one, ← Nat.cast_add, byteIn_natCast] at h1
    rw [← Nat.cast_two, ← Nat.cast_add, byteIn_natCast] at h2
    obtain ⟨w1, hw1, rfl⟩ := Option.map_eq_some_iff.mp h1
    obtain ⟨w2, hw2, rfl⟩ := Option.map_eq_some_iff.mp h2
    refine ⟨255, _, .long hv hw1 hw2, ?_⟩
    rw [← Option.some.inj h]
    push_cast
    rfl
  · rw [if_pos ((ne_marker v).mpr hmark)] at h
    exact ⟨v, _, .short hv hmark, (Option.some.inj h).symm⟩

theorem PrefixAt.unique {w : UInt8} {qlen : Nat} (h : PrefixAt key o v plen)
    (h' : PrefixAt key o w qlen) : v = w ∧ plen = qlen := by
  have hv := Option.some.inj (h.head.symm.trans h'.head)
  have hlen := Option.some.inj (h.decodeLengthPrefix.symm.trans h'.decodeLengthPrefix)
  exact ⟨hv, Int.ofNat_inj.mp hlen⟩

/-! ## Walks -/

/-- The offset of the n-th prefix after this one, where `size` is the number of bytes that the parser
takes for a prefix. -/
inductive Met (size : UInt8 → Nat → Nat) (key : Bytes) : Nat → Nat → Nat → Prop
  | start (o : Nat) : Met size key o 0 o
  | next {v : UInt8} {plen start n o : Nat} : PrefixAt key start v plen →
    Met size key (start + size v plen + plen) n o → Met size key start (n + 1) o

/-- The bytes that `garry_length_prefix_size` takes for a prefix. -/
def sizeOfLength (_ : UInt8) (plen : Nat) : Nat := if plen < 128 then 1 else 3

/-- The bytes that `garry_decode_key_tuple` takes for a prefix. -/
def sizeOfMarker (v : UInt8) (_ : Nat) : Nat := if v = 255 then 3 else 1

theorem lengthPrefixSize_natCast (v : UInt8) (plen : Nat) :
    lengthPrefixSize plen = (sizeOfLength v plen : Int) := by
  rw [lengthPrefixSize, sizeOfLength]
  simp only [lenPrefixInlineMax]
  split <;> split <;> first | rfl | omega

theorem Met.zero (h : Met size key start 0 o) : o = start := by
  cases h
  rfl

theorem Met.succ (h : Met size key start (n + 1) o) (hp : PrefixAt key start v plen) :
    Met size key (start + size v plen + plen) n o := by
  cases h with
  | next hp' h =>
    obtain ⟨rfl, rfl⟩ := hp.unique hp'
    exact h

theorem Met.le (h : Met size key start n o) : start ≤ o := by
  induction h with
  | start => exact le_rfl
  | next _ _ ih => omega

/-- Every prefix that a parser comes to lies whole in the key. -/
def PrefixesWhole (size : UInt8 → Nat → Nat) (key : Bytes) (start : Nat) : Prop :=
  ∀ n o, Met size key start n o → o < key.length → ∃ v plen, PrefixAt key o v plen

theorem PrefixesWhole.next (h : PrefixesWhole size key start) (hp : PrefixAt key start v plen) :
    PrefixesWhole size key (start + size v plen + plen) :=
  fun n o hmet => h (n + 1) o (.next hp hmet)

theorem prefixesWhole_iff (hp : PrefixAt key start v plen) :
    PrefixesWhole size key start ↔ PrefixesWhole size key (start + size v plen + plen) := by
  refine ⟨fun h => h.next hp, fun h n o hmet => ?_⟩
  cases n with
  | zero =>
    rw [hmet.zero]
    exact fun _ => ⟨v, plen, hp⟩
  | succ n => exact h n o (hmet.succ hp)

/-! ## The hierarchical parsers -/

theorem next_natCast (v : UInt8) (plen start : Nat) :
    (start : Int) + lengthPrefixSize plen + plen =
      ((start + sizeOfLength v plen + plen : Nat) : Int) := by
  rw [lengthPrefixSize_natCast v]
  push_cast
  rfl

theorem sizeOfLength_pos (v : UInt8) (plen : Nat) : 0 < sizeOfLength v plen := by
  rw [sizeOfLength]
  split <;> decide

theorem subscriptCountLoop_isSome (start n : Nat) (hn : key.length ≤ start + n) :
    subscriptCountLoop key n start ≠ none ↔ PrefixesWhole sizeOfLength key start := by
  have hend {start : Nat} (h : key.length ≤ start) : PrefixesWhole sizeOfLength key start := by
    intro n o hmet hlt
    exact absurd hmet.le (by omega)
  induction n generalizing start with
  | zero => exact iff_of_true (fun h => by cases h) (hend hn)
  | succ n ih =>
    rw [subscriptCountLoop]
    by_cases hlt : start < key.length
    · rw [if_pos (Int.ofNat_lt.mpr hlt)]
      cases hp : decodeLengthPrefix key start with
      | none =>
        refine iff_of_false (fun h => h rfl) fun h => ?_
        obtain ⟨v, plen, hat⟩ := h 0 start (.start start) hlt
        rw [hat.decodeLengthPrefix] at hp
        cases hp
      | some p =>
        obtain ⟨v, plen, hat, rfl⟩ := prefixAt_of_decode hp
        have hpos := sizeOfLength_pos v plen
        have ih := ih (start + sizeOfLength v plen + plen) (by omega)
        simp only [Option.bind_eq_bind, Option.bind_some, next_natCast v]
        apply Iff.trans _ (ih.trans (prefixesWhole_iff hat).symm)
        cases subscriptCountLoop key n ((start + sizeOfLength v plen + plen : Nat) : Int) with
        | none => exact iff_of_false (fun h => h rfl) fun h => h rfl
        | some c => exact iff_of_true (fun h => by cases h) fun h => by cases h
    · rw [if_neg (by omega)]
      exact iff_of_true (fun h => by cases h) (hend (not_lt.mp hlt))

/-- `garry_subscript_count` stays inside the key just when each prefix that it comes to does. -/
theorem subscriptCount_isSome :
    subscriptCount key ≠ none ↔ PrefixesWhole sizeOfLength key 0 :=
  subscriptCountLoop_isSome 0 key.length (Nat.le_add_left ..)

theorem skipSubscripts_isSome (h : PrefixesWhole sizeOfLength key start) :
    ∃ r, skipSubscripts key n start = some r := by
  induction n generalizing start with
  | zero => exact ⟨_, rfl⟩
  | succ n ih =>
    rw [skipSubscripts]
    split
    · exact ⟨_, rfl⟩
    · next hlt =>
      obtain ⟨v, plen, hat⟩ := h 0 start (.start start) (by omega)
      rw [hat.decodeLengthPrefix]
      simp only [Option.bind_eq_bind, Option.bind_some, next_natCast v]
      split
      · exact ⟨_, rfl⟩
      · exact ih (h.next hat)

/-- Where the skipping loop ends inside the key. -/
theorem skipSubscripts_eq_some {r : Int} (start : Nat) (hstart : start ≤ key.length) :
    skipSubscripts key n start = some (some r) ↔
      ∃ o : Nat, r = o ∧ Met sizeOfLength key start n o ∧ o ≤ key.length := by
  induction n generalizing start with
  | zero =>
    constructor
    · intro h
      exact ⟨start, (Option.some.inj (Option.some.inj h)).symm, .start start, hstart⟩
    · rintro ⟨o, rfl, hmet, -⟩
      rw [hmet.zero]
      rfl
  | succ n ih =>
    rw [skipSubscripts]
    split
    · next hge =>
      refine iff_of_false (fun h => by cases h) ?_
      rintro ⟨o, rfl, hmet, hle⟩
      cases hmet with
      | next hat _ =>
        have := hat.lt
        omega
    · next hlt =>
      constructor
      · intro h
        obtain ⟨p, hp, h⟩ := Option.bind_eq_some_iff.mp h
        obtain ⟨v, plen, hat, rfl⟩ := prefixAt_of_decode hp
        simp only [next_natCast v] at h
        split at h
        · cases h
        · next hle =>
          obtain ⟨o, rfl, hmet, ho⟩ := (ih _ (by omega)).mp h
          exact ⟨o, rfl, .next hat hmet, ho⟩
      · rintro ⟨o, rfl, hmet, ho⟩
        cases hmet with
        | next hat hmet =>
          rename_i v plen
          have hle := hmet.le
          rw [hat.decodeLengthPrefix]
          simp only [Option.bind_eq_bind, Option.bind_some, next_natCast v]
          rw [if_neg (by omega)]
          exact (ih _ (by omega)).mpr ⟨o, rfl, hmet, ho⟩

/-- A part that a parser comes to, with its bytes in the key. -/
def PartIn (size : UInt8 → Nat → Nat) (key : Bytes) (o : Nat) : Prop :=
  ∃ v plen, PrefixAt key o v plen ∧ o + size v plen + plen ≤ key.length

theorem bytesIn_isSome {off len : Nat} :
    bytesIn key off len ≠ none ↔ len = 0 ∨ off + len ≤ key.length := by
  rw [bytesIn]
  split
  · exact iff_of_true (fun h => by cases h) (.inl (by omega))
  · rw [Option.ne_none_iff_isSome]
    split
    · exact iff_of_true rfl (.inr (by omega))
    · refine iff_of_false (fun h => by cases h) ?_
      omega

/-- `garry_extract_subscript` stays inside the key just when the part is there. -/
theorem extractSubscript_isSome (idx : Int) : extractSubscript key idx ≠ none ↔
    ∃ o : Nat, Met sizeOfLength key 0 idx.toNat o ∧ PartIn sizeOfLength key o := by
  constructor
  · intro h
    obtain ⟨bs, h⟩ := Option.ne_none_iff_exists'.mp h
    obtain ⟨offset, hoff, h⟩ := Option.bind_eq_some_iff.mp h
    obtain ⟨p, hp, h⟩ := Option.bind_eq_some_iff.mp h
    obtain ⟨hnonneg, -, -⟩ := decodeLengthPrefix_some hp
    obtain ⟨r, hskip, hr⟩ := Option.map_eq_some_iff.mp hoff
    cases r with
    | none =>
      rw [← hr] at hnonneg
      exact absurd hnonneg (by decide)
    | some r =>
      obtain rfl : r = offset := hr
      obtain ⟨o, rfl, hmet, -⟩ :=
        (skipSubscripts_eq_some 0 (Nat.zero_le key.length)).mp hskip
      obtain ⟨v, plen, hat, rfl⟩ := prefixAt_of_decode hp
      have hpos := sizeOfLength_pos v plen
      refine ⟨o, hmet, v, plen, hat, ?_⟩
      rw [lengthPrefixSize_natCast v, ← Nat.cast_add] at h
      have hlt := hat.lt
      rcases bytesIn_isSome.mp (Option.ne_none_iff_exists'.mpr ⟨bs, h⟩) with rfl | hle
      · have hsize : sizeOfLength v 0 = 1 := rfl
        omega
      · exact hle
  · rintro ⟨o, hmet, v, plen, hat, hle⟩
    have hskip := (skipSubscripts_eq_some 0 (Nat.zero_le _)).mpr ⟨o, rfl, hmet, hat.lt.le⟩
    rw [extractSubscript, getSubscriptOffset, ← Nat.cast_zero, hskip]
    simp only [Option.bind_eq_bind, Option.map_some, Option.getD_some, Option.bind_some,
      hat.decodeLengthPrefix, lengthPrefixSize_natCast v]
    exact bytesIn_isSome.mpr (.inr hle)

/-- `garry_subscript_equal` copies nothing that it has not compared with the length of the key. -/
theorem subscriptEqual_isSome (h : PrefixesWhole sizeOfLength key 0) (idx : Int) (expected : Bytes) :
    subscriptEqual key idx expected ≠ none := by
  obtain ⟨r, hskip⟩ := skipSubscripts_isSome (n := idx.toNat) h
  rw [Nat.cast_zero] at hskip
  rw [subscriptEqual, hskip]
  simp only [Option.bind_eq_bind, Option.bind_some]
  cases r with
  | none => exact fun h => by cases h
  | some r =>
    obtain ⟨o, rfl, hmet, hle⟩ := (skipSubscripts_eq_some 0 (Nat.zero_le _)).mp hskip
    simp only
    split
    · exact fun h => by cases h
    · next hlt =>
      obtain ⟨v, plen, hat⟩ := h _ o hmet (by omega)
      rw [hat.decodeLengthPrefix, Option.bind_some]
      split
      · exact fun h => by cases h
      · next hfit =>
        split
        · exact fun h => by cases h
        · rw [next_natCast v] at hfit
          rw [lengthPrefixSize_natCast v, ← Nat.cast_add]
          obtain ⟨bs, hbs⟩ := Option.ne_none_iff_exists'.mp
            (bytesIn_isSome.mpr (.inr (Int.ofNat_le.mp (not_lt.mp hfit))))
          rw [hbs]
          exact fun h => by cases h

/-! ## The tuple decoder -/

/-- A part as `garry_decode_key_tuple` returns it lies in the key. -/
def Inside (key : Bytes) (part : Int × Int) : Prop :=
  0 ≤ part.1 ∧ 0 ≤ part.2 ∧ part.1 + part.2 ≤ key.length

theorem decodeKeyTupleLoop_inside (key : Bytes) (n start : Nat) :
    (∃ parts, decodeKeyTupleLoop key n start = some parts ∧ ∀ part ∈ parts, Inside key part) ↔
      ∀ m o, m < n → Met sizeOfMarker key start m o → o < key.length →
        PartIn sizeOfMarker key o := by
  induction n generalizing start with
  | zero =>
    refine iff_of_true ⟨[], rfl, fun part h => by cases h⟩ fun m o h => ?_
    cases h
  | succ n ih =>
    rw [decodeKeyTupleLoop]
    by_cases hlt : start < key.length
    · rw [if_pos (Int.ofNat_lt.mpr hlt)]
      cases hp : decodeLengthPrefix key start with
      | none =>
        refine iff_of_false ?_ fun h => ?_
        · rintro ⟨parts, hsome, -⟩
          cases hsome
        obtain ⟨v, plen, hat, -⟩ := h 0 start n.succ_pos (.start start) hlt
        rw [hat.decodeLengthPrefix] at hp
        cases hp
      | some p =>
        obtain ⟨v, plen, hat, rfl⟩ := prefixAt_of_decode hp
        have hsize : (if (v.toNat : Int) = lenPrefixLongMarker then 3 else 1 : Int) =
            (sizeOfMarker v plen : Int) := by
          have hv := not_iff_not.mp (ne_marker v)
          rw [sizeOfMarker]
          split
          · next h => rw [if_pos (hv.mp h)]; rfl
          · next h => rw [if_neg (mt hv.mpr h)]; rfl
        have ih := ih (start + sizeOfMarker v plen + plen)
        simp only [Option.bind_eq_bind, Option.bind_some, byteIn_natCast, hat.head,
          Option.map_some, hsize]
        push_cast at ih ⊢
        constructor
        · rintro ⟨parts, h, hin⟩
          obtain ⟨rest, hrest, h⟩ := Option.bind_eq_some_iff.mp h
          obtain rfl := Option.some.inj h
          have hfirst := (hin _ List.mem_cons_self).2.2
          have hall := ih.mp ⟨rest, hrest, fun part h => hin part (List.mem_cons_of_mem _ h)⟩
          intro m o hm hmet ho
          cases m with
          | zero =>
            rw [hmet.zero]
            exact ⟨v, plen, hat, by simp only at hfirst; omega⟩
          | succ m => exact hall m o (Nat.lt_of_succ_lt_succ hm) (hmet.succ hat) ho
        · intro hall
          obtain ⟨rest, hrest, hin⟩ := ih.mpr fun m o hm hmet ho =>
            hall (m + 1) o (Nat.succ_lt_succ hm) (.next hat hmet) ho
          obtain ⟨w, qlen, hat', hle⟩ := hall 0 start n.succ_pos (.start start) hlt
          obtain ⟨rfl, rfl⟩ := hat.unique hat'
          rw [hrest]
          refine ⟨_, rfl, ?_⟩
          intro part hpart
          rcases List.mem_cons.mp hpart with rfl | hpart
          · refine ⟨?_, ?_, ?_⟩ <;> simp only <;> omega
          · exact hin part hpart
    · rw [if_neg (by omega)]
      refine iff_of_true ⟨[], rfl, fun part h => by cases h⟩ fun m o _ hmet ho => ?_
      exact absurd hmet.le (by omega)

/-- The parsers read no byte outside the key, and return no part outside it, just when every prefix
that the subscript parsers come to lies whole in the key, the subscript asked for is there with its
bytes, and so are the parts that the tuple decoder comes to. -/
theorem keyParsers_inside (key : Bytes) (idx : Int) (expected : Bytes) :
    (subscriptCount key ≠ none ∧ getSubscriptOffset key idx ≠ none ∧
      subscriptEqual key idx expected ≠ none ∧ extractSubscript key idx ≠ none ∧
      ∃ parts, decodeKeyTuple key = some parts ∧ ∀ part ∈ parts, Inside key part) ↔
    PrefixesWhole sizeOfLength key 0 ∧
      (∃ o, Met sizeOfLength key 0 idx.toNat o ∧ PartIn sizeOfLength key o) ∧
      ∀ n o, n < maxSubscripts → Met sizeOfMarker key 0 n o → o < key.length →
        PartIn sizeOfMarker key o := by
  have htuple := decodeKeyTupleLoop_inside key maxSubscripts 0
  rw [← subscriptCount_isSome, ← extractSubscript_isSome, ← htuple]
  constructor
  · rintro ⟨hcount, -, -, hextract, hdecode⟩
    exact ⟨hcount, hextract, hdecode⟩
  · rintro ⟨hcount, hextract, hdecode⟩
    have hwhole := subscriptCount_isSome.mp hcount
    obtain ⟨r, hskip⟩ := skipSubscripts_isSome (n := idx.toNat) hwhole
    refine ⟨hcount, ?_, subscriptEqual_isSome hwhole idx expected, hextract, hdecode⟩
    rw [getSubscriptOffset]
    rw [Nat.cast_zero] at hskip
    rw [hskip]
    exact fun h => by cases h

/-- A marker at the end, a subscript behind the last one, and a length that runs past the key. -/
theorem keyParsers_outside : subscriptCount [255] = none ∧ extractSubscript [1, 97] 1 = none ∧
    extractSubscript [1, 97] 2 = none ∧ decodeKeyTuple [5, 97] = some [(1, 5)] := by
  decide

end Garry
