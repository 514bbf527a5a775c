import Garry.Verify.KeySplit

/-!
# Rejoined keys

`garry_key_unsplit` puts the delimiter before every segment but those at the start of its output, so
that the empty segments at the start of a key leave nothing behind. An empty key is returned on
before the terminator is written.
-/

namespace Garry

open ByteStore

variable {str seg text pre : Bytes} {delimiter : UInt8} {segs : List Bytes} {out : Store}

/-! ## Joined segments -/

/-- The text with one segment more. -/
def joinNext (delimiter : UInt8) (text seg : Bytes) : Bytes :=
  if text = [] then seg else text ++ delimiter :: seg

/-- The text with the segments behind it. -/
def rejoin (delimiter : UInt8) (text : Bytes) (segs : List Bytes) : Bytes :=
  segs.foldl (joinNext delimiter) text

theorem length_joinNext_le (text seg : Bytes) :
    text.length ≤ (joinNext delimiter text seg).length := by
  rw [joinNext]
  split
  · next h =>
    rw [h]
    exact Nat.zero_le _
  · rw [List.length_append]
    exact Nat.le_add_right ..

theorem length_le_rejoin (delimiter : UInt8) (text : Bytes) (segs : List Bytes) :
    text.length ≤ (rejoin delimiter text segs).length := by
  induction segs generalizing text with
  | nil => exact le_rfl
  | cons seg segs ih => exact (length_joinNext_le text seg).trans (ih _)

theorem rejoin_of_ne_nil (h : text ≠ []) (segs : List Bytes) :
    rejoin delimiter text segs = text ++ segs.flatMap (delimiter :: ·) := by
  induction segs generalizing text with
  | nil => exact (List.append_nil text).symm
  | cons seg segs ih =>
    have hnext : joinNext delimiter text seg = text ++ delimiter :: seg := if_neg h
    have hrest := ih (List.append_ne_nil_of_left_ne_nil h (delimiter :: seg))
    rw [rejoin, List.foldl_cons, ← rejoin, hnext, hrest, List.append_assoc, List.flatMap_cons]

theorem intercalate_cons (seg : Bytes) (segs : List Bytes) :
    [delimiter].intercalate (seg :: segs) = seg ++ segs.flatMap (delimiter :: ·) := by
  induction segs generalizing seg with
  | nil => simp
  | cons s segs ih =>
    rw [List.intercalate_cons_cons, ih, List.flatMap_cons]
    simp

theorem rejoin_cons (h : seg ≠ []) (segs : List Bytes) :
    rejoin delimiter [] (seg :: segs) = [delimiter].intercalate (seg :: segs) := by
  rw [intercalate_cons, rejoin, List.foldl_cons, ← rejoin]
  exact rejoin_of_ne_nil h segs

theorem length_rejoin_le (delimiter : UInt8) (segs : List Bytes) :
    (rejoin delimiter [] segs).length ≤ ([delimiter].intercalate segs).length := by
  induction segs with
  | nil => exact Nat.zero_le _
  | cons seg segs ih =>
    by_cases h : seg = []
    · subst h
      apply ih.trans
      cases segs with
      | nil => exact Nat.zero_le _
      | cons s segs =>
        rw [List.intercalate_cons_cons, List.length_append]
        exact Nat.le_add_left ..
    · rw [rejoin_cons h]

/-! ## The loop -/

theorem blit_append (m : Store) (as bs : Bytes) :
    blit (blit m 0 as) as.length bs = blit m 0 (as ++ bs) := by
  have h := blit_blit m 0 as bs
  rwa [Nat.zero_add] at h

/-- One round of the loop, with room for the segment. -/
theorem keyUnsplitLoop_segment {outSize : Int} (pre seg rest text : Bytes) (n : Nat) (count : Int)
    (hlen : seg.length ≤ maxSegmentLen)
    (hfit : ((joinNext delimiter text seg).length : Int) ≤ outSize) :
    keyUnsplitLoop (pre ++ toByte seg.length :: (seg ++ rest)) delimiter outSize (n + 1) pre.length
      text.length count (blit out 0 text) =
    keyUnsplitLoop (pre ++ toByte seg.length :: (seg ++ rest)) delimiter outSize n
      (pre.length + 1 + seg.length) (joinNext delimiter text seg).length (count + 1)
      (blit out 0 (joinNext delimiter text seg)) := by
  have hkey : pre ++ toByte seg.length :: (seg ++ rest) =
      (pre ++ [toByte seg.length]) ++ (seg ++ rest) := by
    rw [List.append_assoc, List.singleton_append]
  have hbyte : ((pre ++ toByte seg.length :: (seg ++ rest)).getD pre.length 0).toNat =
      seg.length := by
    rw [List.getD_append_right _ _ _ _ le_rfl, Nat.sub_self]
    exact Int.ofNat_inj.mp (toNat_toByte (by omega) (by simp only [maxSegmentLen] at hlen; omega))
  have hbytes : ((pre ++ toByte seg.length :: (seg ++ rest)).drop (pre.length + 1)).take seg.length =
      seg := by
    have hpre : pre.length + 1 = (pre ++ [toByte seg.length]).length := by
      rw [List.length_append, List.length_singleton]
    rw [hkey, hpre, List.drop_left, List.take_left]
  have hklen : pre.length + 1 + seg.length ≤
      (pre ++ toByte seg.length :: (seg ++ rest)).length := by
    simp only [List.length_append, List.length_cons]
    omega
  rw [keyUnsplitLoop, if_pos (by omega)]
  simp only
  rw [hbyte, hbytes, if_neg (not_lt_of_ge hklen)]
  rw [joinNext] at hfit ⊢
  split at hfit
  · next h =>
    subst h
    rw [if_neg (fun h => absurd h.1 (lt_irrefl 0)), if_pos rfl]
    simp only [List.length_nil, lt_irrefl, if_false, Nat.zero_add]
    rw [if_neg (by omega)]
    exact congrArg _ (blit_append out [] seg)
  · next h =>
    have hpos : text.length > 0 := List.length_pos_of_ne_nil h
    rw [List.length_append, List.length_cons] at hfit
    rw [if_neg (by omega), if_neg h]
    simp only [if_pos hpos]
    have hout : blit (blit (blit out 0 text) text.length [delimiter]) (text.length + 1) seg =
        blit out 0 (text ++ delimiter :: seg) := by
      have hlast := blit_append out (text ++ [delimiter]) seg
      rw [List.length_append, List.length_singleton] at hlast
      rw [blit_append, hlast, List.append_assoc, List.singleton_append]
    have hpos : (text ++ delimiter :: seg).length = text.length + 1 + seg.length := by
      rw [List.length_append, List.length_cons]
      omega
    rw [if_neg (by omega), hout, hpos]

theorem keyUnsplitLoop_eq {outSize : Int} (out : Store) (pre text : Bytes) (segs : List Bytes)
    (n : Nat) (count : Int) (hlen : ∀ seg ∈ segs, seg.length ≤ maxSegmentLen) (hn : segs.length ≤ n)
    (hfit : ((rejoin delimiter text segs).length : Int) ≤ outSize) :
    keyUnsplitLoop (pre ++ encodeSegments segs) delimiter outSize n pre.length text.length count
      (blit out 0 text) =
      ((rejoin delimiter text segs).length, count + segs.length,
        blit out 0 (rejoin delimiter text segs)) := by
  induction segs generalizing pre text n count with
  | nil =>
    have hcount : count + (([] : List Bytes).length : Int) = count := Int.add_zero count
    rw [hcount]
    cases n with
    | zero => rfl
    | succ n =>
      rw [keyUnsplitLoop, if_neg (by simp [encodeSegments])]
      rfl
  | cons seg segs ih =>
    cases n with
    | zero => cases hn
    | succ n =>
      have hnext := length_le_rejoin delimiter (joinNext delimiter text seg) segs
      have hrest := ih (pre ++ toByte seg.length :: seg) (joinNext delimiter text seg) n (count + 1)
        (fun s hs => hlen s (List.mem_cons_of_mem seg hs)) (Nat.le_of_succ_le_succ hn) hfit
      have hkey : encodeSegments (seg :: segs) =
          toByte seg.length :: (seg ++ encodeSegments segs) := rfl
      rw [hkey, keyUnsplitLoop_segment pre seg _ text n count (hlen seg List.mem_cons_self)
        (le_trans (Int.ofNat_le.mpr hnext) hfit)]
      rw [List.length_append, List.length_cons, List.append_assoc, List.cons_append] at hrest
      rw [Nat.add_assoc, Nat.add_comm 1, hrest, List.length_cons, Nat.cast_succ, Int.add_assoc,
        Int.add_comm 1]
      rfl

/-! ## Rejoining -/

theorem length_le_encodeSegments (segs : List Bytes) : segs.length ≤ (encodeSegments segs).length := by
  induction segs with
  | nil => exact Nat.zero_le _
  | cons seg segs ih =>
    rw [length_encodeSegments_cons, List.length_cons]
    omega

/-- The segments of a key, rejoined and terminated. -/
theorem keyUnsplit_eq {outSize : Int} (hne : segs ≠ [])
    (hlen : ∀ seg ∈ segs, seg.length ≤ maxSegmentLen) (out : Store)
    (hfit : ((rejoin delimiter [] segs).length : Int) < outSize) :
    keyUnsplit (encodeSegments segs) delimiter out outSize =
      ((segs.length : Int), blit out 0 (rejoin delimiter [] segs ++ [0])) := by
  have hloop := keyUnsplitLoop_eq out [] [] segs (encodeSegments segs).length 0 hlen
    (length_le_encodeSegments segs) hfit.le
  have hout : blit out 0 [] = out := by
    funext i
    exact blit_of_le (Nat.zero_le i)
  rw [List.nil_append, Int.zero_add, hout, List.length_nil] at hloop
  have hpos := List.length_pos_of_ne_nil hne
  have hklen := length_le_encodeSegments segs
  rw [keyUnsplit, if_neg (by omega), hloop]
  simp only
  rw [if_pos hfit, blit_append]

/-- The output begins with these bytes, and the number of segments is returned. -/
def Unsplits (str : Bytes) (delimiter : UInt8) (text : Bytes) : Prop :=
  ∃ key, keySplit str delimiter = some key ∧ ∀ out outSize, (str.length : Int) + 1 ≤ outSize →
    ∃ out', keyUnsplit key delimiter out outSize =
        (((segments delimiter str).length : Int), out') ∧
      slice out' 0 text.length = text

/-- The pieces of a string that begins with the delimiter rejoin to less than the string. -/
theorem length_rejoin_lt (h : str.head? = some delimiter) :
    (rejoin delimiter [] (str.splitOn delimiter)).length < str.length := by
  cases str with
  | nil => cases h
  | cons c rest =>
    obtain rfl : c = delimiter := Option.some.inj h
    have hsplit := List.splitOn_append_cons_self_of_not_mem (List.not_mem_nil (a := c)) rest
    have hle := length_rejoin_le c (rest.splitOn c)
    rw [List.intercalate_splitOn] at hle
    rw [List.nil_append] at hsplit
    rw [hsplit, List.length_cons]
    exact Nat.lt_succ_of_le hle

theorem rejoin_splitOn (hne : str ≠ []) (h : str.head? ≠ some delimiter) :
    rejoin delimiter [] (str.splitOn delimiter) = str := by
  obtain ⟨seg, segs, hsplit⟩ := List.exists_cons_of_ne_nil (List.splitOn_ne_nil delimiter str)
  have hjoin : [delimiter].intercalate (str.splitOn delimiter) = str :=
    List.intercalate_splitOn delimiter
  have hseg : seg ≠ [] := by
    rintro rfl
    rw [hsplit, intercalate_cons] at hjoin
    cases segs with
    | nil => exact hne hjoin.symm
    | cons s segs =>
      rw [← hjoin] at h
      exact h rfl
  rw [hsplit, rejoin_cons hseg, ← hsplit, hjoin]

theorem segments_of_ne_nil (hne : str ≠ []) (hend : str.getLast? ≠ some delimiter) :
    segments delimiter str = str.splitOn delimiter := by
  rw [segments, if_neg]
  intro hlast
  exact ((getLast?_splitOn delimiter str).mp hlast).elim hne hend

theorem slice_blit_prefix {text bs : Bytes} (h : text <+: bs) (m : Store) :
    slice (blit m 0 bs) 0 text.length = text := by
  rw [slice_eq_iff]
  intro j hj
  rw [blit_of_mem m 0 (hj.trans_le h.length_le)]
  exact (h.getElem hj).symm

theorem unsplits_iff (hne : str ≠ []) (hdelim : delimiter ≠ 0) (hnul : 0 ∉ str)
    (hend : str.getLast? ≠ some delimiter)
    (hseg : ∀ seg ∈ segments delimiter str, seg.length ≤ maxSegmentLen)
    (hcount : (segments delimiter str).length ≤ maxSubscripts)
    (hfit : (encodeSegments (segments delimiter str)).length ≤ maxKeySize)
    (htext : str <+: text) (htext' : text <+: str ++ [0]) :
    Unsplits str delimiter text ↔ str.head? ≠ some delimiter := by
  have hsplit := keySplit_eq hdelim hnul hseg hcount hfit
  have hpieces := segments_of_ne_nil hne hend
  have hsegs : segments delimiter str ≠ [] := by
    rw [hpieces]
    exact List.splitOn_ne_nil delimiter str
  constructor
  · rintro ⟨key, hkey, hout⟩ hhead
    obtain rfl := Option.some.inj (hsplit.symm.trans hkey)
    have hlt := length_rejoin_lt hhead
    obtain ⟨out', hunsplit, hslice⟩ := hout (fun _ => 0) (str.length + 1) le_rfl
    rw [keyUnsplit_eq hsegs hseg _ (by rw [hpieces]; omega), hpieces] at hunsplit
    obtain ⟨-, rfl⟩ := Prod.mk.inj hunsplit
    -- the terminator stands where a byte of the string should
    have hlt' := hlt.trans_le htext.length_le
    have hbyte := slice_eq_iff.mp hslice _ hlt'
    rw [blit_of_mem _ 0 (by simp), List.getElem_concat_length rfl, ← htext.getElem hlt] at hbyte
    exact hnul (hbyte ▸ List.getElem_mem hlt)
  · intro hhead
    refine ⟨_, hsplit, fun out outSize hsize => ⟨_, keyUnsplit_eq hsegs hseg out ?_, ?_⟩⟩
    · rw [hpieces, rejoin_splitOn hne hhead]
      omega
    · rw [hpieces, rejoin_splitOn hne hhead]
      exact slice_blit_prefix htext' out

/-- Splitting and rejoining gives the string back, with its terminator, just when it is not empty, the
delimiter is not the terminator and the string does not begin with the delimiter; without the
terminator the empty string is given back as well. -/
theorem keyUnsplit_keySplit (hnul : 0 ∉ str) (hend : str.getLast? ≠ some delimiter)
    (hseg : ∀ seg ∈ segments delimiter str, seg.length ≤ maxSegmentLen)
    (hcount : (segments delimiter str).length ≤ maxSubscripts)
    (hfit : (encodeSegments (segments delimiter str)).length ≤ maxKeySize) :
    (Unsplits str delimiter (str ++ [0]) ↔
      str ≠ [] ∧ delimiter ≠ 0 ∧ str.head? ≠ some delimiter) ∧
    (Unsplits str delimiter str ↔
      (str = [] ∨ delimiter ≠ 0) ∧ str.head? ≠ some delimiter) := by
  by_cases hne : str = []
  · subst hne
    refine ⟨iff_of_false ?_ fun h => h.1 rfl, iff_of_true ?_ ⟨.inl rfl, fun h => by cases h⟩⟩
    · rintro ⟨key, hkey, hout⟩
      obtain rfl := Option.some.inj hkey
      obtain ⟨out', hunsplit, hslice⟩ := hout (fun _ => 1) 1 le_rfl
      obtain rfl := (Prod.mk.inj hunsplit).2
      have hbyte := slice_eq_iff.mp hslice 0 Nat.zero_lt_one
      cases hbyte
    · exact ⟨[], rfl, fun out outSize _ => ⟨out, rfl, rfl⟩⟩
  by_cases h0 : delimiter = 0
  · subst h0
    rw [segments_single hnul hne] at hseg
    have hnone := keySplit_nul hne hnul (hseg str List.mem_cons_self)
    have hnot (text : Bytes) : ¬ Unsplits str 0 text := by
      rintro ⟨key, hkey, -⟩
      rw [hnone] at hkey
      cases hkey
    exact ⟨iff_of_false (hnot _) fun h => h.2.1 rfl,
      iff_of_false (hnot _) fun h => h.1.elim hne fun h => h rfl⟩
  · rw [unsplits_iff hne h0 hnul hend hseg hcount hfit (List.prefix_append ..) List.prefix_rfl,
      unsplits_iff hne h0 hnul hend hseg hcount hfit List.prefix_rfl (List.prefix_append ..)]
    exact ⟨⟨fun h => ⟨hne, h0, h⟩, fun h => h.2.2⟩, ⟨fun h => ⟨.inr h0, h⟩, fun h => h.2⟩⟩

/-- A path with an empty segment in the middle. -/
theorem keyUnsplit_keySplit_middle : Unsplits [97, 46, 46, 98] 46 ([97, 46, 46, 98] ++ [0]) :=
  (keyUnsplit_keySplit (by decide) (by decide) (by decide) (by decide) (by decide)).1.mpr
    ⟨by decide, by decide, by decide⟩

/-- A path with an empty segment at the start comes back without its delimiter. -/
theorem keyUnsplit_keySplit_leading : ∃ key, keySplit [46, 97] 46 = some key ∧
    ∃ out', keyUnsplit key 46 (fun _ => 1) 10 = (2, out') ∧ slice out' 0 3 = [97, 0, 1] := by
  refine ⟨[0, 1, 97], by decide, _, rfl, by decide⟩

end Garry
