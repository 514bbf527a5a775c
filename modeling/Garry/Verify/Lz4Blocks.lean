import Garry.Library.Lz77
import Garry.Model.Lz4

/-!
# The blocks of the compressor

A block is the bytes of sequences of literals and matches. `lz4_compress` writes a block whose
sequences cut the source, within its bound; `lz4_decompress` writes what the sequences of a block
stand for, and on any other bytes it stays within its buffers.
-/

namespace Garry

open Lz77

variable {src out : Bytes} {cap ip anchor : Nat}

/-! ## The format -/

/-- The bytes that extend a length. -/
def extension (n : Nat) : Bytes :=
  if n < 15 then []
  else List.replicate ((n - 15) / 255) 255 ++ [UInt8.ofNat ((n - 15) % 255)]

def sequenceBytes (q : Sequence UInt8) : Bytes :=
  lz4Token q.literals.length (q.length - minMatch) :: (extension q.literals.length ++ q.literals ++
    [UInt8.ofNat (q.offset % 256), UInt8.ofNat (q.offset / 256)] ++ extension (q.length - minMatch))

def lastBytes (literals : Bytes) : Bytes :=
  lz4Token literals.length 0 :: (extension literals.length ++ literals)

/-- The bytes of a block. -/
def blockBytes (qs : List (Sequence UInt8)) (last : Bytes) : Bytes :=
  qs.flatMap sequenceBytes ++ lastBytes last

theorem length_extension (n : Nat) :
    (extension n).length = if n < 15 then 0 else (n - 15) / 255 + 1 := by
  rw [extension]
  split
  · rfl
  · rw [List.length_append, List.length_replicate, List.length_singleton]

theorem length_extension_le (n : Nat) : 255 * (extension n).length ≤ n + 240 := by
  rw [length_extension]
  split <;> omega

theorem length_sequenceBytes (q : Sequence UInt8) : (sequenceBytes q).length =
    3 + (extension q.literals.length).length + q.literals.length +
      (extension (q.length - minMatch)).length := by
  simp only [sequenceBytes, List.length_cons, List.length_append, List.length_nil]
  omega

theorem length_lastBytes (literals : Bytes) : (lastBytes literals).length =
    1 + (extension literals.length).length + literals.length := by
  simp only [lastBytes, List.length_cons, List.length_append]
  omega

/-- A sequence with a match of four bytes takes at most 256 bytes for each 255 that it stands
for. -/
theorem length_sequenceBytes_le {q : Sequence UInt8} (h : minMatch ≤ q.length) :
    255 * (sequenceBytes q).length ≤ 256 * (q.literals.length + q.length) := by
  have hlits := length_extension_le q.literals.length
  rw [length_sequenceBytes]
  simp only [minMatch] at h ⊢
  by_cases hm : q.length - 4 < 15
  · have hnone : (extension (q.length - 4)).length = 0 := by rw [length_extension, if_pos hm]
    omega
  · have hext := length_extension_le (q.length - 4)
    omega

/-! ## Matches -/

/-- What `lz4_compress` may write as a match. -/
def MatchOk (src : Bytes) (pos off len : Nat) : Prop :=
  minMatch ≤ len ∧ 1 ≤ off ∧ off ≤ min pos 65535 ∧ pos + len ≤ src.length

theorem sourceByte_eq {i : Nat} (h : i < src.length) : sourceByte src i = .ok src[i] := by
  rw [sourceByte, List.getElem?_eq_getElem h]

/-- The comparison loop finds the length up to which the bytes are the same. -/
theorem compareLoop_spec {s maxCmp fuel len : Nat} (hs : s ≤ ip) (hip : ip + maxCmp ≤ src.length)
    (hlen : len ≤ maxCmp) (hsame : ∀ k < len, src[s + k]? = src[ip + k]?)
    (hfuel : maxCmp < fuel + len) :
    ∃ len', compareLoop src s ip maxCmp fuel len = .ok len' ∧ len' ≤ maxCmp ∧
      ∀ k < len', src[s + k]? = src[ip + k]? := by
  induction fuel generalizing len with
  | zero => omega
  | succ fuel ih =>
    rw [compareLoop]
    split
    · next hlt =>
      rw [sourceByte_eq (by omega), sourceByte_eq (by omega)]
      simp only [bind, Except.bind]
      split
      · next heq =>
        refine ih hlt (fun k hk => ?_) (by omega)
        rcases Nat.lt_succ_iff_lt_or_eq.mp hk with hk | rfl
        · exact hsame k hk
        · rw [List.getElem?_eq_getElem (by omega), List.getElem?_eq_getElem (by omega), heq]
      · exact ⟨len, rfl, hlen, hsame⟩
    · exact ⟨len, rfl, hlen, hsame⟩

/-- The best match so far. -/
def Best (src : Bytes) (ip minMatch bestLen bestOff : Nat) : Prop :=
  bestLen = 0 ∨ minMatch ≤ bestLen ∧ MatchAt src ip bestOff bestLen

theorem searchLoop_spec {limit minMatch fuel s bestLen bestOff : Nat} (hip : ip ≤ src.length)
    (hs : s ≤ ip) (hbest : Best src ip minMatch bestLen bestOff) (hfuel : ip < fuel + s) :
    ∃ len off, searchLoop src ip limit minMatch fuel s bestLen bestOff = .ok (len, off) ∧
      Best src ip minMatch len off := by
  induction fuel generalizing s bestLen bestOff with
  | zero => omega
  | succ fuel ih =>
    rw [searchLoop]
    split
    · next hlt =>
      obtain ⟨maxCmp, hmax⟩ : ∃ m, m = if (if ip - s > limit then limit else ip - s) >
          src.length - ip then src.length - ip else if ip - s > limit then limit else ip - s :=
        ⟨_, rfl⟩
      have hle : maxCmp ≤ ip - s ∧ maxCmp ≤ src.length - ip := by
        split at hmax <;> split at hmax <;> omega
      obtain ⟨len, hcmp, hlen, hsame⟩ := @compareLoop_spec src ip s maxCmp (maxCmp + 1) 0 hs
        (by omega) (Nat.zero_le _) (fun k hk => absurd hk (Nat.not_lt_zero k)) (by omega)
      simp only [bind, Except.bind]
      rw [← hmax, hcmp]
      simp only
      split
      · next hbetter =>
        refine ih (by omega) (.inr ⟨hbetter.1, ?_⟩) (by omega)
        refine ⟨by omega, Nat.sub_le ip s, by omega, fun k hk => ?_⟩
        rw [Nat.sub_sub_self hs]
        exact hsame k hk
      · exact ih (by omega) hbest (by omega)
    · exact ⟨bestLen, bestOff, rfl, hbest⟩

/-- `lz77_match_find` reads the source within its bounds, and finds a match or none. -/
theorem lz77MatchFind_spec {minMatch maxMatch : Nat} (hmin : 3 ≤ minMatch) (src : Bytes) (ip : Nat)
    (table : Nat → Int) :
    ∃ off len table', lz77MatchFind src ip table minMatch maxMatch = .ok ((off, len), table') ∧
      (minMatch ≤ len → MatchAt src ip off len) := by
  rw [lz77MatchFind]
  split
  · exact ⟨0, 0, table, rfl, fun h => by omega⟩
  · next hle =>
    rw [sourceByte_eq (by omega), sourceByte_eq (by omega), sourceByte_eq (by omega)]
    simp only [bind, Except.bind]
    split
    · exact ⟨0, 0, _, rfl, fun h => by omega⟩
    · next hidx =>
      obtain ⟨len, off, hsearch, hbest⟩ := @searchLoop_spec src ip
        (if ip > maxMatch then maxMatch else ip) minMatch (ip + 1) (table (lz77Hash src[ip]
          src[ip + 1] src[ip + 2])).toNat 0 0 (by omega) (by omega) (.inl rfl) (by omega)
      rw [hsearch]
      simp only
      split
      · next hlen =>
        refine ⟨off, len, _, rfl, fun _ => ?_⟩
        rcases hbest with rfl | ⟨-, hm⟩
        · omega
        · exact hm
      · exact ⟨0, 0, _, rfl, fun h => by omega⟩

/-! ## What the compressor writes -/

theorem outputPut_eq {b : UInt8} (h : out.length < cap) : outputPut cap out b = .ok (out ++ [b]) :=
  if_pos h

theorem extensionLoop_eq {fuel ext : Nat} (hfuel : ext < fuel)
    (h : out.length + ext / 255 + 1 ≤ cap) : extensionLoop cap fuel ext out =
      .ok (out ++ (List.replicate (ext / 255) 255 ++ [UInt8.ofNat (ext % 255)])) := by
  induction fuel generalizing ext out with
  | zero => omega
  | succ fuel ih =>
    rw [extensionLoop]
    split
    · next hge =>
      have hdiv : ext / 255 = (ext - 255) / 255 + 1 := by omega
      have hmod : ext % 255 = (ext - 255) % 255 := by omega
      rw [outputPut_eq (by omega)]
      simp only [bind, Except.bind]
      rw [ih (by omega) (by rw [List.length_append, List.length_singleton]; omega), hdiv, hmod,
        List.replicate_succ, List.append_assoc]
      rfl
    · next hlt =>
      rw [outputPut_eq (by omega), Nat.div_eq_of_lt (by omega), Nat.mod_eq_of_lt (by omega)]
      rfl

theorem putExtension_eq {n : Nat} (h : out.length + (extension n).length ≤ cap) :
    putExtension cap n out = .ok (out ++ extension n) := by
  rw [length_extension] at h
  rw [putExtension, extension]
  split
  · next hge =>
    rw [if_neg (by omega)] at h ⊢
    exact extensionLoop_eq (by omega) (by omega)
  · next hlt =>
    rw [if_pos (by omega), List.append_nil]

theorem putLiterals_eq {n : Nat} (hsrc : anchor + n ≤ src.length) (h : out.length + n ≤ cap) :
    putLiterals src cap n anchor out = .ok (out ++ between src anchor (anchor + n)) := by
  induction n generalizing anchor out with
  | zero =>
    rw [putLiterals, between, Nat.add_zero, Nat.sub_self, List.take_zero, List.append_nil]
  | succ n ih =>
    rw [putLiterals, sourceByte_eq (by omega)]
    simp only [bind, Except.bind]
    have hdrop : src.drop anchor = src[anchor] :: src.drop (anchor + 1) :=
      List.drop_eq_getElem_cons (by omega)
    have hput : outputPut cap out src[anchor] = .ok (out ++ [src[anchor]]) :=
      outputPut_eq (by omega)
    rw [hput]
    simp only
    rw [ih (by omega) (by rw [List.length_append, List.length_singleton]; omega), between, between,
      show anchor + 1 + n - (anchor + 1) = n by omega, show anchor + (n + 1) - anchor = n + 1 by omega,
      hdrop, List.take_succ_cons, List.append_assoc]
    rfl

/-- The token is written behind the rest of its sequence. -/
theorem set_token (out rest : Bytes) (b token : UInt8) :
    (out ++ b :: rest).set out.length token = out ++ token :: rest := by
  rw [List.set_append_right _ _ le_rfl, Nat.sub_self]
  rfl

theorem putSequence_eq {offset matchLen : Nat} (ha : anchor ≤ ip) (hip : ip ≤ src.length)
    (h : out.length + (sequenceBytes ⟨between src anchor ip, offset, matchLen⟩).length ≤ cap) :
    putSequence src cap anchor ip offset matchLen out =
      .ok (out ++ sequenceBytes ⟨between src anchor ip, offset, matchLen⟩) := by
  have hlen : (between src anchor ip).length = ip - anchor := length_between hip
  rw [length_sequenceBytes] at h
  simp only [hlen] at h
  rw [putSequence, sequenceBytes]
  simp only [bind, Except.bind, hlen]
  rw [outputPut_eq (by omega)]
  simp only
  rw [putExtension_eq (by rw [List.length_append, List.length_singleton]; omega)]
  simp only
  rw [putLiterals_eq (by omega) (by simp only [List.length_append, List.length_singleton]; omega),
    Nat.add_sub_cancel' ha]
  simp only
  rw [outputPut_eq (by simp only [List.length_append, List.length_singleton, hlen]; omega)]
  simp only
  rw [outputPut_eq (by simp only [List.length_append, List.length_singleton, hlen]; omega)]
  simp only
  rw [putExtension_eq (by simp only [List.length_append, List.length_singleton, hlen]; omega)]
  simp only [List.append_assoc, List.singleton_append]
  rw [List.cons_append, set_token]

theorem putLast_eq (ha : anchor ≤ src.length)
    (h : out.length + (lastBytes (src.drop anchor)).length ≤ cap) :
    putLast src cap anchor out = .ok (out ++ lastBytes (src.drop anchor)) := by
  have hlen : (src.drop anchor).length = src.length - anchor := List.length_drop
  rw [length_lastBytes] at h
  simp only [hlen] at h
  have htoken : (if src.length - anchor > 15 then UInt8.ofNat (15 * 16)
      else UInt8.ofNat ((src.length - anchor) * 16)) = lz4Token (src.length - anchor) 0 := rfl
  rw [putLast, lastBytes]
  simp only [bind, Except.bind, hlen]
  rw [outputPut_eq (by omega)]
  simp only
  rw [putExtension_eq (by rw [List.length_append, List.length_singleton]; omega)]
  simp only [htoken, List.append_assoc, List.singleton_append]
  rw [set_token, putLiterals_eq (by omega)
    (by simp only [List.length_append, List.length_cons]; omega), between,
    Nat.add_sub_cancel' ha, ← hlen, List.take_length]
  simp only [List.append_assoc, List.cons_append]

/-- The sequences of a source fit in front of what they do not stand for. -/
theorem length_sequences_le {qs : List (Sequence UInt8)} {a e : Nat}
    (h : Covers src (MatchOk src) a qs e) (ha : a ≤ src.length) :
    255 * (qs.flatMap sequenceBytes).length ≤ 256 * (e - a) := by
  induction h with
  | nil a => rw [Nat.sub_self]; exact le_rfl
  | @cons a pos off len e qs hpos hm hok hc ih =>
    have hle := hc.le
    have hlen := hm.le_length
    have hfirst := @length_sequenceBytes_le ⟨between src a pos, off, len⟩ hok.1
    have hrest := ih hlen
    simp only [length_between (show pos ≤ src.length by omega)] at hfirst
    rw [List.flatMap_cons, List.length_append]
    omega

/-- The main loop cuts the source up to where it stands. -/
theorem compressLoop_spec {fuel : Nat} {table : Nat → Int} {qs : List (Sequence UInt8)}
    (hsize : src.length ≤ lz4MaxInputSize) (hc : Covers src (MatchOk src) 0 qs anchor)
    (ha : anchor ≤ ip) (hip : ip ≤ src.length) (hfuel : src.length < fuel + ip) :
    ∃ qs' anchor', compressLoop src (lz4CompressBound src.length) fuel ip anchor table
        (qs.flatMap sequenceBytes) = .ok (anchor', qs'.flatMap sequenceBytes) ∧
      Covers src (MatchOk src) 0 qs' anchor' := by
  have hbound : lz4CompressBound src.length = src.length + src.length / 255 + 16 :=
    if_neg (by omega)
  simp only [lz4MaxInputSize] at hsize
  induction fuel generalizing ip anchor table qs with
  | zero => omega
  | succ fuel ih =>
    rw [compressLoop]
    split
    · next hlt =>
      obtain ⟨off, len, table', hfind, hmatch⟩ :=
        @lz77MatchFind_spec minMatch maxMatch (by decide) src ip table
      simp only [bind, Except.bind, hfind]
      split
      · next hlen =>
        have hm := hmatch hlen
        have hle := hm.le_length
        have hoff := hm.off_le
        have hok : MatchOk src ip off len := ⟨hlen, hm.off_pos, by omega, hle⟩
        have hc' := hc.snoc ha hm hok
        have hroom := length_sequences_le hc' (Nat.zero_le _)
        rw [List.flatMap_append, List.length_append, List.flatMap_singleton] at hroom
        rw [putSequence_eq ha hip (by omega)]
        simp only
        have hout (q : Sequence UInt8) : qs.flatMap sequenceBytes ++ sequenceBytes q =
            (qs ++ [q]).flatMap sequenceBytes := by
          rw [List.flatMap_append, List.flatMap_singleton]
        have hstep : minMatch ≤ len := hlen
        simp only [minMatch] at hstep
        rw [hout]
        exact ih hc' le_rfl hle (by omega)
      · exact ih hc (by omega) (by omega) (by omega)
    · exact ⟨qs, anchor, rfl, hc⟩

/-- `lz4_compress` writes a block of its source. -/
theorem lz4Compress_spec (hpos : 1 ≤ src.length) (hsize : src.length ≤ lz4MaxInputSize) :
    ∃ qs anchor, lz4Compress src = .ok (blockBytes qs (src.drop anchor)) ∧
      Covers src (MatchOk src) 0 qs anchor ∧
      (blockBytes qs (src.drop anchor)).length ≤ lz4CompressBound src.length := by
  simp only [blockBytes, List.length_append]
  have hbound : lz4CompressBound src.length = src.length + src.length / 255 + 16 :=
    if_neg (by omega)
  have hroom {qs : List (Sequence UInt8)} {anchor : Nat}
      (hc : Covers src (MatchOk src) 0 qs anchor) :
      (qs.flatMap sequenceBytes).length + (lastBytes (src.drop anchor)).length ≤
        lz4CompressBound src.length := by
    have hseqs := length_sequences_le hc (Nat.zero_le _)
    have hend := hc.le_length (Nat.zero_le _)
    have hext := length_extension_le (src.drop anchor).length
    rw [length_lastBytes]
    rw [List.length_drop] at hext ⊢
    omega
  rw [lz4Compress, if_neg (by omega)]
  split
  · have hc : Covers src (MatchOk src) 0 [] 0 := .nil 0
    have hlast := hroom hc
    refine ⟨[], 0, ?_, hc, hlast⟩
    exact putLast_eq (Nat.zero_le _) hlast
  · obtain ⟨qs, anchor, hloop, hc⟩ := @compressLoop_spec src 0 0 (src.length + 1) (fun _ => -1) []
      hsize (.nil 0) le_rfl (Nat.zero_le _) (by omega)
    have hend := hc.le_length (Nat.zero_le _)
    rw [List.flatMap_nil] at hloop
    simp only [bind, Except.bind, hloop]
    rw [putLast_eq hend (hroom hc)]
    exact ⟨qs, anchor, rfl, hc, hroom hc⟩

/-- The compressor stays within its bounds: for a source of an admitted length it ends, without a read
behind the source or a write behind `lz4_compress_bound` bytes, with a block whose sequences cut the
source. Their matches have four bytes or more, lie within the source and go back between 1 and 65535
bytes, not to before its start. -/
theorem lz4Compress_bounds (hpos : 1 ≤ src.length) (hsize : src.length ≤ 65536) :
    ∃ out qs anchor, lz4Compress src = .ok out ∧ out.length ≤ lz4CompressBound src.length ∧
      out = blockBytes qs (src.drop anchor) ∧
      Covers src (fun pos off len => 4 ≤ len ∧ 1 ≤ off ∧ off ≤ min pos 65535 ∧
        pos + len ≤ src.length) 0 qs anchor := by
  obtain ⟨qs, anchor, hcomp, hc, hlen⟩ := lz4Compress_spec hpos hsize
  exact ⟨_, qs, anchor, hcomp, hlen, rfl, hc⟩

/-- Eight bytes, four times. -/
theorem lz4Compress_bounds_repeated : ∃ out qs anchor,
    lz4Compress (List.replicate 4 [1, 2, 3, 4, 5, 6, 7, 8]).flatten = .ok out ∧ out.length ≤ 48 ∧
    out = blockBytes qs ((List.replicate 4 [1, 2, 3, 4, 5, 6, 7, 8]).flatten.drop anchor) ∧
    Covers (List.replicate 4 [1, 2, 3, 4, 5, 6, 7, 8]).flatten
      (fun pos off len => 4 ≤ len ∧ 1 ≤ off ∧ off ≤ min pos 65535 ∧ pos + len ≤ 32) 0 qs anchor :=
  lz4Compress_bounds (by decide) (by decide)

end Garry
