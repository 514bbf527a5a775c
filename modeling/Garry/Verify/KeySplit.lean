import Garry.Model.KeySplit
import Garry.Verify.KeyTuple

/-!
# Split keys

`garry_key_split` writes each segment behind one byte with its length. The tuple parsers take that
byte for a prefix of their own, which it is for segments below 128 bytes only. `garry_key_unsplit`
puts a delimiter before each segment that is not written at the start of its output.
-/

namespace Garry

open ByteStore

variable {str seg rest done out : Bytes} {delimiter : UInt8} {segs : List Bytes}

/-! ## Segments -/

/-- The segments of a string, each of which ends at a delimiter or at the end of the string: those
between the delimiters, without an empty one at the end. -/
def segments (delimiter : UInt8) (str : Bytes) : List Bytes :=
  if (str.splitOn delimiter).getLast? = some [] then (str.splitOn delimiter).dropLast
  else str.splitOn delimiter

theorem segments_nil : segments delimiter [] = [] := rfl

theorem segments_single (h : delimiter ∉ seg) (hne : seg ≠ []) : segments delimiter seg = [seg] := by
  rw [segments, List.splitOn_eq_singleton h, if_neg]
  simpa using hne

theorem segments_append (h : delimiter ∉ seg) (rest : Bytes) :
    segments delimiter (seg ++ delimiter :: rest) = seg :: segments delimiter rest := by
  have hne := List.splitOn_ne_nil delimiter rest
  rw [segments, segments, List.splitOn_append_cons_self_of_not_mem h,
    List.getLast?_cons_of_ne_nil hne, List.dropLast_cons_of_ne_nil hne]
  split <;> rfl

/-- A string is empty, a segment, or a segment before a delimiter. -/
theorem segment_cases (delimiter : UInt8) (str : Bytes) :
    str = [] ∨ (str ≠ [] ∧ delimiter ∉ str) ∨
      ∃ seg rest, str = seg ++ delimiter :: rest ∧ delimiter ∉ seg := by
  by_cases h : delimiter ∈ str
  · obtain ⟨a, b, rfl, ha⟩ := List.eq_append_cons_of_mem h
    exact .inr (.inr ⟨a, b, rfl, ha⟩)
  · by_cases hne : str = []
    · exact .inl hne
    · exact .inr (.inl ⟨hne, h⟩)

/-- The last piece is empty when the string is or ends with the delimiter. -/
theorem getLast?_splitOn (delimiter : UInt8) (str : Bytes) :
    (str.splitOn delimiter).getLast? = some [] ↔ str = [] ∨ str.getLast? = some delimiter := by
  induction hl : str.length using Nat.strong_induction_on generalizing str with
  | _ l ih =>
    rcases segment_cases delimiter str with rfl | ⟨hne, hno⟩ | ⟨seg, rest, rfl, hno⟩
    · exact iff_of_true rfl (.inl rfl)
    · rw [List.splitOn_eq_singleton hno]
      refine iff_of_false (by simpa using hne) ?_
      rintro (h | h)
      · exact hne h
      · exact hno (List.mem_of_getLast? h)
    · rw [List.splitOn_append_cons_self_of_not_mem hno,
        List.getLast?_cons_of_ne_nil (List.splitOn_ne_nil delimiter rest),
        ih rest.length (by simp [← hl]; omega) rest rfl]
      cases rest with
      | nil => simp
      | cons c rest => simp

/-- The key of a list of segments. -/
def encodeSegments (segs : List Bytes) : Bytes := segs.flatMap fun seg => toByte seg.length :: seg

/-! ## Splitting -/

theorem charAt_append (done rest : Bytes) (j : Nat) :
    charAt (done ++ rest) (done.length + j) = (rest ++ [0])[j]? := by
  rw [charAt, List.append_assoc, List.getElem?_append_right (Nat.le_add_right ..),
    Nat.add_sub_cancel_left]

theorem ne_of_notMem (hnul : 0 ∉ seg) (hno : delimiter ∉ seg) :
    ∀ c ∈ seg, c ≠ 0 ∧ c ≠ delimiter := by
  intro c hc
  constructor
  · rintro rfl
    exact hnul hc
  · rintro rfl
    exact hno hc

/-- The byte behind a segment. -/
def SegmentEnds (delimiter : UInt8) (rest : Bytes) : Prop := rest = [] ∨ rest.head? = some delimiter

theorem charAt_head (done : Bytes) {c : UInt8} : charAt (done ++ c :: rest) done.length = some c :=
  charAt_append done (c :: rest) 0

theorem charAt_end (done : Bytes) : charAt (done ++ []) done.length = some 0 :=
  charAt_append done [] 0

theorem scanSegment_eq (done : Bytes) (n : Nat) (hseg : ∀ c ∈ seg, c ≠ 0 ∧ c ≠ delimiter)
    (hrest : SegmentEnds delimiter rest) (hn : seg.length ≤ n) :
    scanSegment (done ++ (seg ++ rest)) delimiter n done.length =
      some (done.length + seg.length) := by
  induction seg generalizing done n with
  | nil =>
    rw [scanSegment.eq_def, List.nil_append]
    cases rest with
    | nil =>
      rw [charAt_end, Option.bind_some, if_neg fun h => h.1 rfl]
      rfl
    | cons c rest =>
      have hc : c = delimiter := by simpa [SegmentEnds] using hrest
      rw [charAt_head, Option.bind_some, if_neg fun h => h.2 hc]
      rfl
  | cons x seg ih =>
    cases n with
    | zero => cases hn
    | succ n =>
      have ih := ih (done ++ [x]) n (fun c hc => hseg c (List.mem_cons_of_mem x hc))
        (Nat.le_of_succ_le_succ hn)
      rw [List.append_assoc, List.singleton_append, List.length_append, List.length_singleton] at ih
      rw [scanSegment, List.cons_append, charAt_head, Option.bind_some,
        if_pos (hseg x List.mem_cons_self), ih, List.length_cons]
      congr 1
      omega

theorem take_drop_append (done seg rest : Bytes) :
    ((done ++ (seg ++ rest)).drop done.length).take (done.length + seg.length - done.length) =
      seg := by
  rw [List.drop_left, Nat.add_sub_cancel_left, List.take_left]

/-- One round of the outer loop, before a segment that fits. -/
theorem keySplitLoop_segment (done seg rest out : Bytes) (n : Nat)
    (hseg : ∀ c ∈ seg, c ≠ 0 ∧ c ≠ delimiter) (hrest : SegmentEnds delimiter rest) (hne : seg ++ rest ≠ [])
    (hnul : 0 ∉ seg ++ rest) (hlen : seg.length ≤ maxSegmentLen)
    (hfit : out.length + 1 + seg.length ≤ maxKeySize) :
    keySplitLoop (done ++ (seg ++ rest)) delimiter (n + 1) done.length out =
      (charAt (done ++ (seg ++ rest)) (done.length + seg.length)).bind fun c =>
        keySplitLoop (done ++ (seg ++ rest)) delimiter n
          (if c = delimiter then done.length + seg.length + 1 else done.length + seg.length)
          (out ++ toByte seg.length :: seg) := by
  have hhead : ∃ c, charAt (done ++ (seg ++ rest)) done.length = some c ∧ c ≠ 0 := by
    obtain ⟨c, tail, hc⟩ := List.exists_cons_of_ne_nil hne
    rw [hc] at hnul ⊢
    exact ⟨c, charAt_head done, fun h => hnul (h ▸ List.mem_cons_self)⟩
  obtain ⟨c, hc, hc0⟩ := hhead
  rw [keySplitLoop, hc, Option.bind_some, if_neg hc0]
  simp only
  rw [scanSegment_eq done maxSegmentLen hseg hrest hlen, Option.bind_some, take_drop_append,
    Nat.add_sub_cancel_left, if_neg (not_lt_of_ge hfit)]

theorem length_encodeSegments_cons (seg : Bytes) (segs : List Bytes) :
    (encodeSegments (seg :: segs)).length = 1 + seg.length + (encodeSegments segs).length := by
  rw [encodeSegments, List.flatMap_cons, List.length_append, List.length_cons, ← encodeSegments]
  omega

/-- The outer loop writes the segments of the rest of the string. -/
theorem keySplitLoop_eq (done rest out : Bytes) (n : Nat) (hdelim : delimiter ≠ 0)
    (hnul : 0 ∉ rest) (hseg : ∀ seg ∈ segments delimiter rest, seg.length ≤ maxSegmentLen)
    (hcount : (segments delimiter rest).length ≤ n)
    (hfit : out.length + (encodeSegments (segments delimiter rest)).length ≤ maxKeySize) :
    keySplitLoop (done ++ rest) delimiter n done.length out =
      some (out ++ encodeSegments (segments delimiter rest)) := by
  have hnil (done out : Bytes) (n : Nat) : keySplitLoop (done ++ []) delimiter n done.length out =
      some (out ++ encodeSegments (segments delimiter [])) := by
    rw [keySplitLoop.eq_def, charAt_end, Option.bind_some, if_pos rfl, segments_nil]
    exact congrArg some (List.append_nil out).symm
  induction hl : rest.length using Nat.strong_induction_on generalizing rest done out n with
  | _ l ih =>
    rcases segment_cases delimiter rest with rfl | ⟨hne, hno⟩ | ⟨seg, tail, rfl, hno⟩
    · exact hnil done out n
    · rw [segments_single hno hne] at hseg hcount hfit ⊢
      obtain ⟨n, rfl⟩ := Nat.exists_eq_succ_of_ne_zero (Nat.ne_of_gt hcount)
      rw [length_encodeSegments_cons] at hfit
      have hloop := keySplitLoop_segment done rest [] out n (ne_of_notMem hnul hno) (.inl rfl)
        (by simpa using hne) (by simpa using hnul) (hseg rest List.mem_cons_self) (by omega)
      rw [List.append_nil, ← List.length_append] at hloop
      rw [hloop]
      have hend := charAt_end (done ++ rest)
      have htail := hnil (done ++ rest) (out ++ toByte rest.length :: rest) n
      rw [List.append_nil] at hend htail
      rw [hend, Option.bind_some, if_neg hdelim.symm, htail, segments_nil]
      simp [encodeSegments]
    · rw [segments_append hno] at hseg hcount hfit ⊢
      obtain ⟨n, rfl⟩ := Nat.exists_eq_succ_of_ne_zero
        (Nat.ne_of_gt ((Nat.succ_pos _).trans_le hcount))
      rw [length_encodeSegments_cons] at hfit
      rw [keySplitLoop_segment done seg (delimiter :: tail) out n
        (ne_of_notMem (fun h => hnul (List.mem_append_left _ h)) hno) (.inr rfl) (by simp) hnul
        (hseg seg List.mem_cons_self) (by omega)]
      have hend := charAt_append done (seg ++ delimiter :: tail) seg.length
      rw [List.append_assoc, List.getElem?_append_right le_rfl, Nat.sub_self] at hend
      rw [hend]
      simp only [List.cons_append, List.getElem?_cons_zero, Option.bind_some, if_true]
      have ih := ih tail.length (by simp [← hl]; omega) (done ++ seg ++ [delimiter]) tail
        (out ++ toByte seg.length :: seg) n
        (fun h => hnul (List.mem_append_right _ (List.mem_cons_of_mem _ h)))
        (fun s hs => hseg s (List.mem_cons_of_mem seg hs)) (Nat.le_of_succ_le_succ hcount)
        (by simp only [List.length_append, List.length_cons]; omega) rfl
      simp only [List.length_append, List.length_singleton, List.append_assoc, List.cons_append,
        List.nil_append, Nat.add_assoc] at ih ⊢
      rw [ih]
      simp [encodeSegments]

/-- `garry_key_split` with a delimiter that is not the terminator. -/
theorem keySplit_eq (hdelim : delimiter ≠ 0) (hnul : 0 ∉ str)
    (hseg : ∀ seg ∈ segments delimiter str, seg.length ≤ maxSegmentLen)
    (hcount : (segments delimiter str).length ≤ maxSubscripts)
    (hfit : (encodeSegments (segments delimiter str)).length ≤ maxKeySize) :
    keySplit str delimiter = some (encodeSegments (segments delimiter str)) :=
  keySplitLoop_eq [] str [] maxSubscripts hdelim hnul hseg hcount
    (by simpa only [List.length_nil, Nat.zero_add] using hfit)

/-- With the terminator as the delimiter it goes on behind the string. -/
theorem keySplit_nul (hne : str ≠ []) (hnul : 0 ∉ str) (hlen : str.length ≤ maxSegmentLen) :
    keySplit str 0 = none := by
  have hloop := keySplitLoop_segment [] str [] [] 15 (ne_of_notMem hnul hnul) (.inl rfl)
    (by simpa using hne) (by simpa using hnul) hlen
    (by simp only [maxSegmentLen, maxKeySize, List.length_nil] at hlen ⊢; omega)
  have hend := charAt_end str
  have hbehind (out : Bytes) : keySplitLoop str 0 15 (str.length + 1) out = none := by
    have hnone : charAt str (str.length + 1) = none := by
      rw [charAt, List.getElem?_eq_none]
      simp
    rw [keySplitLoop.eq_def, hnone]
    rfl
  rw [List.append_nil] at hend
  rw [List.append_nil, List.nil_append, List.length_nil, Nat.zero_add, hend, Option.bind_some,
    if_pos rfl, hbehind] at hloop
  exact hloop

theorem makeKeyPartsLoop_eq (parts : List Bytes) (n : Nat) (out : Bytes)
    (hseg : ∀ part ∈ parts, part.length ≤ maxSegmentLen) (hcount : parts.length ≤ n)
    (hfit : out.length + (encodeSegments parts).length ≤ maxKeySize) :
    makeKeyPartsLoop n parts out = out ++ encodeSegments parts := by
  induction parts generalizing n out with
  | nil =>
    cases n with
    | zero => exact (List.append_nil out).symm
    | succ n => exact (List.append_nil out).symm
  | cons part parts ih =>
    cases n with
    | zero => cases hcount
    | succ n =>
      rw [length_encodeSegments_cons] at hfit
      have hlen : segmentLength part = part.length := min_eq_left (hseg part List.mem_cons_self)
      rw [makeKeyPartsLoop, hlen]
      rw [if_neg (by omega), List.take_length,
        ih _ _ (fun p hp => hseg p (List.mem_cons_of_mem part hp)) (Nat.le_of_succ_le_succ hcount)
        (by simp only [List.length_append, List.length_cons]; omega)]
      simp [encodeSegments]

theorem makeKeyParts_eq {parts : List Bytes}
    (hseg : ∀ part ∈ parts, part.length ≤ maxSegmentLen) (hcount : parts.length ≤ maxSubscripts)
    (hfit : (encodeSegments parts).length ≤ maxKeySize) :
    makeKeyParts parts = encodeSegments parts :=
  makeKeyPartsLoop_eq parts maxSubscripts [] hseg hcount
    (by simpa only [List.length_nil, Nat.zero_add] using hfit)

theorem makeKey_eq (hlen : str.length ≤ maxSegmentLen) : makeKey str = encodeSegments [str] := by
  have hmin : segmentLength str = str.length := min_eq_left hlen
  rw [makeKey, hmin]
  simp only [maxSegmentLen, maxKeySize] at hlen ⊢
  rw [if_neg (by omega), List.take_length]
  simp [encodeSegments]

/-! ## The tuple parsers on these keys -/

/-- The tuple parsers find exactly these parts. -/
structure ParsesTo (key : Bytes) (parts : List Bytes) : Prop where
  count : subscriptCount key = some (parts.length : Int)
  extract : ∀ (i : Nat) (hi : i < parts.length), extractSubscript key i = some parts[i]
  decode : (decodeKeyTuple key).bind (tupleParts key) = some parts

theorem ParsesTo.unique {key : Bytes} {parts parts' : List Bytes} (h : ParsesTo key parts)
    (h' : ParsesTo key parts') : parts = parts' := Option.some.inj (h.decode.symm.trans h'.decode)

theorem encodeSegments_short (h : ∀ seg ∈ segs, seg.length < 128) :
    encodeSegments segs = encodeKeyTuple segs := by
  refine List.flatMap_congr fun seg hs => ?_
  have hlt := h seg hs
  rw [encodeLengthPrefix, if_pos (by simp only [lenPrefixInlineMax]; omega)]
  rfl

/-- The skipping loop goes on from where it has got to. -/
theorem skipSubscripts_succ {key : Bytes} {n : Nat} {offset offset' : Int}
    (h : skipSubscripts key n offset = some (some offset')) :
    skipSubscripts key (n + 1) offset = skipSubscripts key 1 offset' := by
  induction n generalizing offset with
  | zero =>
    cases h
    rfl
  | succ n ih =>
    rw [skipSubscripts] at h
    split at h
    · cases h
    · next hlt =>
      obtain ⟨plen, hplen, h⟩ := Option.bind_eq_some_iff.mp h
      simp only at h
      split at h
      · cases h
      · next hle =>
        rw [skipSubscripts, if_neg hlt, hplen]
        simp only [Option.bind_eq_bind, Option.bind_some]
        rw [if_neg hle]
        exact ih h

/-- Where the parts are read, they take as many bytes as their encoding. -/
theorem skipSubscripts_of_extract {key : Bytes} {parts : List Bytes}
    (h : ∀ (i : Nat) (hi : i < parts.length), extractSubscript key i = some parts[i]) {n : Nat}
    (hn : n ≤ parts.length) :
    skipSubscripts key n 0 = some (some ((encodeKeyTuple (parts.take n)).length : Int)) ∧
      ((encodeKeyTuple (parts.take n)).length : Int) ≤ key.length := by
  induction n with
  | zero => exact ⟨rfl, Int.natCast_nonneg _⟩
  | succ n ih =>
    obtain ⟨hskip, hle⟩ := ih (by omega)
    have hpart := h n hn
    rw [extractSubscript, getSubscriptOffset, Int.toNat_natCast, hskip] at hpart
    simp only [Option.bind_eq_bind, Option.map_some, Option.getD_some, Option.bind_some] at hpart
    obtain ⟨plen, hplen, hbytes⟩ := Option.bind_eq_some_iff.mp hpart
    obtain ⟨-, hlt, hpos⟩ := decodeLengthPrefix_some hplen
    obtain ⟨hlen, hend⟩ := bytesIn_some hpos hbytes
    have hconcat := length_encodeKeyTuple_concat (parts.take n) parts[n]
    rw [List.take_append_getElem, hlen] at hconcat
    have hsize : plen = 0 → lengthPrefixSize plen = 1 := by
      rintro rfl
      rfl
    have hfit : (encodeKeyTuple (parts.take n)).length + lengthPrefixSize plen + plen ≤ key.length := by
      by_cases h0 : plen = 0
      · have := hsize h0
        omega
      · exact hend (by omega)
    rw [hconcat]
    refine ⟨?_, hfit⟩
    rw [skipSubscripts_succ hskip, skipSubscripts, if_neg (not_le_of_gt hlt), hplen]
    simp only [Option.bind_eq_bind, Option.bind_some]
    rw [if_neg (not_lt_of_ge hfit)]
    rfl

theorem length_encodeSegments_le (segs : List Bytes) :
    (encodeSegments segs).length ≤ (encodeKeyTuple segs).length := by
  induction segs with
  | nil => exact Nat.zero_le _
  | cons seg segs ih =>
    rw [length_encodeSegments_cons, encodeKeyTuple_cons, List.length_append]
    have hl := length_encodePart seg
    have hpos := lengthPrefixSize_pos seg.length
    omega

theorem length_encodeSegments_lt (h : ∃ seg ∈ segs, 128 ≤ seg.length) :
    (encodeSegments segs).length < (encodeKeyTuple segs).length := by
  obtain ⟨seg, hs, hlong⟩ := h
  obtain ⟨a, b, rfl⟩ := List.append_of_mem hs
  have ha := length_encodeSegments_le a
  have hb := length_encodeSegments_le b
  have hl := length_encodePart seg
  rw [lengthPrefixSize, if_neg (by simp only [lenPrefixInlineMax]; omega)] at hl
  rw [encodeKeyTuple_append, encodeKeyTuple_cons, encodeSegments, List.flatMap_append,
    List.length_append, ← encodeSegments, ← encodeSegments, length_encodeSegments_cons]
  simp only [List.length_append]
  omega

theorem ParsesTo.length_le {key : Bytes} {parts : List Bytes} (h : ParsesTo key parts) :
    (encodeKeyTuple parts).length ≤ key.length := by
  have hle := (skipSubscripts_of_extract h.extract le_rfl).2
  rw [List.take_length] at hle
  exact Int.ofNat_le.mp hle

/-- The parsers find these segments just when all of them are short. -/
theorem parsesTo_encodeSegments (hcount : segs.length ≤ maxSubscripts) :
    ParsesTo (encodeSegments segs) segs ↔ ∀ seg ∈ segs, seg.length < 128 := by
  constructor
  · intro h
    by_contra hlong
    push Not at hlong
    exact not_le_of_gt (length_encodeSegments_lt hlong) h.length_le
  · intro hshort
    have ht : ∀ p ∈ segs, p.length < 65536 := by
      intro p hp
      have := hshort p hp
      omega
    rw [encodeSegments_short hshort]
    exact ⟨subscriptCount_encodeKeyTuple ht, fun i hi => extractSubscript_encodeKeyTuple ht hi,
      decodeKeyTuple_encodeKeyTuple ht hcount⟩

/-- The pieces of a string with an empty one at the end are not found. -/
theorem not_parsesTo_splitOn (h : (str.splitOn delimiter).getLast? = some []) :
    ¬ ParsesTo (encodeSegments (segments delimiter str)) (str.splitOn delimiter) := by
  intro hreads
  have hne := List.splitOn_ne_nil delimiter str
  have hlast : str.splitOn delimiter = segments delimiter str ++ [[]] := by
    rw [List.getLast?_eq_some_getLast hne] at h
    rw [segments, if_pos (by rw [List.getLast?_eq_some_getLast hne, h]), ← Option.some.inj h,
      List.dropLast_concat_getLast hne]
  have hle := hreads.length_le
  have hseg := length_encodeSegments_le (segments delimiter str)
  have hmore := length_encodeKeyTuple_lt (segments delimiter str) [] []
  rw [← hlast] at hmore
  omega

theorem keySplit_parsesTo (hnul : 0 ∉ str)
    (hseg : ∀ seg ∈ segments delimiter str, seg.length ≤ maxSegmentLen)
    (hcount : (segments delimiter str).length ≤ maxSubscripts)
    (hfit : (encodeSegments (segments delimiter str)).length ≤ maxKeySize) (parts : List Bytes) :
    (∃ key, keySplit str delimiter = some key ∧ ParsesTo key parts) ↔
      (str = [] ∨ delimiter ≠ 0) ∧ ParsesTo (encodeSegments (segments delimiter str)) parts := by
  by_cases h0 : delimiter = 0
  · subst h0
    by_cases hne : str = []
    · subst hne
      exact ⟨fun ⟨key, hkey, hreads⟩ => ⟨.inl rfl, by cases hkey; exact hreads⟩,
        fun h => ⟨[], rfl, h.2⟩⟩
    · rw [segments_single hnul hne] at hseg
      rw [keySplit_nul hne hnul (hseg str List.mem_cons_self)]
      exact iff_of_false (fun ⟨_, hkey, _⟩ => by cases hkey) fun h => h.1.elim hne fun h => h rfl
  · rw [keySplit_eq h0 hnul hseg hcount hfit]
    exact ⟨fun ⟨key, hkey, hreads⟩ => ⟨.inr h0, by cases hkey; exact hreads⟩,
      fun h => ⟨_, rfl, h.2⟩⟩

/-- The parsers find the segments of a split string, of a list of strings and of one string just when
these are short, and a segment after a delimiter at the end is none of them. -/
theorem splitKey_reads (hnul : 0 ∉ str)
    (hseg : ∀ seg ∈ segments delimiter str, seg.length ≤ maxSegmentLen)
    (hcount : (segments delimiter str).length ≤ maxSubscripts)
    (hfit : (encodeSegments (segments delimiter str)).length ≤ maxKeySize) :
    ((∃ key, keySplit str delimiter = some key ∧ ParsesTo key (segments delimiter str)) ↔
      (str = [] ∨ delimiter ≠ 0) ∧ ∀ seg ∈ segments delimiter str, seg.length < 128) ∧
    ((∃ key, keySplit str delimiter = some key ∧ ParsesTo key (str.splitOn delimiter)) ↔
      delimiter ≠ 0 ∧ str ≠ [] ∧ str.getLast? ≠ some delimiter ∧
        ∀ seg ∈ segments delimiter str, seg.length < 128) ∧
    (∀ parts : List Bytes, (∀ part ∈ parts, part.length ≤ maxSegmentLen) →
      parts.length ≤ maxSubscripts → (encodeSegments parts).length ≤ maxKeySize →
      (ParsesTo (makeKeyParts parts) parts ↔ ∀ part ∈ parts, part.length < 128)) ∧
    ∀ part : Bytes, part.length ≤ maxSegmentLen →
      (ParsesTo (makeKey part) [part] ↔ part.length < 128) := by
  have hsplit := keySplit_parsesTo hnul hseg hcount hfit
  have hshort := parsesTo_encodeSegments hcount
  refine ⟨?_, ?_, ?_, ?_⟩
  · rw [hsplit, hshort]
  · rw [hsplit]
    by_cases hlast : str = [] ∨ str.getLast? = some delimiter
    · refine iff_of_false (fun h => not_parsesTo_splitOn ((getLast?_splitOn ..).mpr hlast) h.2) ?_
      rintro ⟨-, hne, hend, -⟩
      exact hlast.elim hne hend
    · have hpieces : str.splitOn delimiter = segments delimiter str := by
        rw [segments, if_neg (mt (getLast?_splitOn ..).mp hlast)]
      rw [hpieces, hshort]
      push Not at hlast
      constructor
      · rintro ⟨h, hs⟩
        exact ⟨h.resolve_left hlast.1, hlast.1, hlast.2, hs⟩
      · rintro ⟨h, -, -, hs⟩
        exact ⟨.inr h, hs⟩
  · intro parts hlen hnum hsum
    rw [makeKeyParts_eq hlen hnum hsum]
    exact parsesTo_encodeSegments hnum
  · intro part hlen
    have hone : [part].length ≤ maxSubscripts := Nat.le_add_left 1 15
    rw [makeKey_eq hlen, parsesTo_encodeSegments hone]
    exact List.forall_mem_singleton

/-- A path of three segments, the second of them empty. -/
theorem splitKey_reads_path : ∃ key, keySplit [97, 46, 46, 98, 99] 46 = some key ∧
    ParsesTo key (segments 46 [97, 46, 46, 98, 99]) :=
  (splitKey_reads (by decide) (by decide) (by decide) (by decide)).1.mpr
    ⟨.inr (by decide), by decide⟩

/-- The header of a segment of 200 bytes is read as one of three bytes. -/
theorem splitKey_reads_long : ∃ key, keySplit (List.replicate 200 97) 46 = some key ∧
    segments 46 (List.replicate 200 97) = [List.replicate 200 97] ∧
    extractSubscript key 0 ≠ some (List.replicate 200 97) := by
  refine ⟨200 :: List.replicate 200 97, ?_, ?_, ?_⟩ <;> decide +kernel

end Garry
