import Garry.Verify.Lz4Blocks

/-!
# Decompression

`lz4_decompress` on a block writes what its sequences stand for; on any bytes it ends within its
buffers.
-/

namespace Garry

open Lz77

variable {src out out' rest : Bytes} {cap ip len fuel : Nat} {b : UInt8}

/-! ## Blocks -/

theorem sourceByte_of_drop (h : src.drop ip = b :: rest) :
    sourceByte src ip = .ok b ∧ ip < src.length ∧ src.drop (ip + 1) = rest := by
  have hlt : ip < src.length := by
    by_contra hge
    rw [List.drop_eq_nil_of_le (by omega)] at h
    cases h
  rw [List.drop_eq_getElem_cons hlt] at h
  obtain ⟨rfl, hrest⟩ := List.cons.inj h
  exact ⟨sourceByte_eq hlt, hlt, hrest⟩

theorem sizeAdd_eq {a c : Nat} (h : a + c < 2 ^ 64) : sizeAdd a c = a + c := Nat.mod_eq_of_lt h

theorem readExtension_eq {k : Nat} (h : src.drop ip = List.replicate k 255 ++ b :: rest)
    (hb : b ≠ 255) (hfuel : k < fuel) (hlen : len + 255 * k + b.toNat < 2 ^ 64) :
    readExtension src fuel ip len = .ok (ip + (k + 1), len + 255 * k + b.toNat) := by
  induction fuel generalizing k ip len with
  | zero => omega
  | succ fuel ih =>
    rw [readExtension]
    cases k with
    | zero =>
      obtain ⟨hread, hlt, -⟩ := sourceByte_of_drop h
      rw [if_neg (by omega), hread]
      simp only [bind, Except.bind]
      rw [if_neg hb, sizeAdd_eq (by omega)]
      rfl
    | succ k =>
      rw [List.replicate_succ, List.cons_append] at h
      obtain ⟨hread, hlt, hdrop⟩ := sourceByte_of_drop h
      have h255 : (255 : UInt8).toNat = 255 := rfl
      rw [if_neg (by omega), hread]
      simp only [bind, Except.bind]
      rw [if_pos trivial, h255, sizeAdd_eq (by omega), ih hdrop (by omega) (by omega)]
      congr 2
      · omega
      · omega

/-- A length is read back from its half of the token and its extension. -/
theorem readLength_eq {n : Nat} (h : src.drop ip = extension n ++ rest) (hn : n < 2 ^ 64) :
    readLength src ip (min n 15) = .ok (ip + (extension n).length, n) := by
  rw [readLength, length_extension]
  rw [extension] at h
  by_cases hlt : n < 15
  · rw [if_neg (by omega), if_pos hlt, Nat.min_eq_left (by omega)]
    rfl
  · rw [if_neg hlt, List.append_assoc] at h
    have hlen := congrArg List.length h
    have hmod : (UInt8.ofNat ((n - 15) % 255)).toNat = (n - 15) % 255 :=
      UInt8.toNat_ofNat_of_lt' (by simp only [UInt8.size]; omega)
    have hne : UInt8.ofNat ((n - 15) % 255) ≠ 255 := by
      intro he
      have := congrArg UInt8.toNat he
      rw [hmod] at this
      have h255 : (255 : UInt8).toNat = 255 := rfl
      omega
    simp only [List.length_drop, List.length_append, List.length_replicate, List.length_cons]
      at hlen
    rw [if_pos (by omega), if_neg hlt, Nat.min_eq_right (by omega),
      readExtension_eq h hne (by omega) (by rw [hmod]; omega), hmod]
    congr 2
    omega

theorem copyLiterals_eq {lits : Bytes} (h : src.drop ip = lits ++ rest)
    (hcap : out.length + lits.length ≤ cap) :
    copyLiterals src cap lits.length ip out = .ok (ip + lits.length, out ++ lits) := by
  induction lits generalizing ip out with
  | nil => rw [List.length_nil, copyLiterals, List.append_nil, Nat.add_zero]
  | cons x lits ih =>
    obtain ⟨hread, hlt, hdrop⟩ := sourceByte_of_drop h
    rw [List.length_cons] at hcap ⊢
    rw [copyLiterals, if_neg (by omega), hread]
    simp only [bind, Except.bind]
    rw [outputPut_eq (by omega)]
    simp only
    rw [ih hdrop (by rw [List.length_append, List.length_singleton]; omega), List.append_assoc]
    congr 2
    omega

theorem copyMatch_eq {off n : Nat} (h : copyBack off n out = some out') (hoff : 1 ≤ off)
    (hle : off ≤ out.length) (hcap : out'.length ≤ cap) : copyMatch cap off n out = .ok out' := by
  induction n generalizing out with
  | zero =>
    cases h
    rfl
  | succ n ih =>
    have hlen := length_copyBack h
    obtain ⟨x, hx, h⟩ := Option.bind_eq_some_iff.mp h
    rw [copyMatch, if_neg (by omega), matchByte, if_pos ⟨hoff, hle⟩, outputByte, hx]
    simp only [bind, Except.bind]
    rw [outputPut_eq (by omega)]
    exact ih h (by rw [List.length_append, List.length_singleton]; omega)

/-- The two halves of a token. -/
theorem lz4Token_toNat (l m : Nat) : (lz4Token l m).toNat = min l 15 * 16 + min m 15 := by
  have hof {n : Nat} (h : n < 256) : (UInt8.ofNat n).toNat = n :=
    UInt8.toNat_ofNat_of_lt' (by simp only [UInt8.size]; omega)
  rw [lz4Token]
  split <;> split <;> rw [hof (by omega)] <;> omega

theorem offset_eq {n : Nat} (h : n ≤ 65535) :
    (UInt8.ofNat (n % 256)).toNat + (UInt8.ofNat (n / 256)).toNat * 256 = n := by
  rw [UInt8.toNat_ofNat_of_lt' (by simp only [UInt8.size]; omega),
    UInt8.toNat_ofNat_of_lt' (by simp only [UInt8.size]; omega)]
  omega

/-- The position behind a piece of the source. -/
theorem drop_of_append {piece : Bytes} (h : src.drop ip = piece ++ rest) :
    src.drop (ip + piece.length) = rest := by
  rw [← List.drop_drop, h, List.drop_left]

/-- One round of the main loop passes the bytes of a sequence. -/
theorem decompressLoop_sequence {q : Sequence UInt8}
    (h : src.drop ip = sequenceBytes q ++ rest) (hlen : minMatch ≤ q.length)
    (hoff : q.offset ≤ 65535) (hrun : q.run out = some out') (hcap : out'.length ≤ cap)
    (hsize : out'.length < 2 ^ 64) :
    decompressLoop src cap (fuel + 1) ip out =
      decompressLoop src cap fuel (ip + (sequenceBytes q).length) out' := by
  have hout := Sequence.length_run hrun
  rw [Sequence.run] at hrun
  split at hrun
  swap
  · cases hrun
  next hpos =>
  have hend := drop_of_append h
  rw [sequenceBytes] at h
  simp only [List.cons_append, List.append_assoc] at h
  obtain ⟨hread, hlt, h⟩ := sourceByte_of_drop h
  have htoken := lz4Token_toNat q.literals.length (q.length - minMatch)
  have hhi : (lz4Token q.literals.length (q.length - minMatch)).toNat / 16 =
      min q.literals.length 15 := by omega
  have hlo : (lz4Token q.literals.length (q.length - minMatch)).toNat % 16 =
      min (q.length - minMatch) 15 := by omega
  -- the literals
  have hlits := readLength_eq h (by omega)
  have h := drop_of_append h
  have hcopy := @copyLiterals_eq src out _ cap _ _ h (by omega)
  have h := drop_of_append h
  -- the offset
  obtain ⟨hread0, hlt0, h⟩ := sourceByte_of_drop h
  obtain ⟨hread1, hlt1, h⟩ := sourceByte_of_drop h
  -- the match
  have hmatch := readLength_eq h (by omega)
  have h := drop_of_append h
  have hcopy' := copyMatch_eq hrun hpos.1 hpos.2 hcap
  have hsum : sizeAdd (q.length - minMatch) minMatch = q.length := by
    rw [sizeAdd_eq (by omega)]
    omega
  rw [decompressLoop, if_pos hlt, hread]
  simp only [bind, Except.bind]
  rw [hhi, hlits]
  simp only
  rw [hcopy]
  simp only
  rw [if_neg (by omega), if_neg (by omega), hread0]
  simp only
  rw [hread1]
  simp only
  rw [offset_eq hoff, if_neg (by omega), hlo, hmatch]
  simp only
  rw [hsum, hcopy']
  simp only
  congr 1
  rw [length_sequenceBytes]
  omega

/-- The last literals. -/
theorem decompressLoop_last {last : Bytes} (h : src.drop ip = lastBytes last)
    (hcap : out.length + last.length ≤ cap) (hsize : last.length < 2 ^ 64) :
    decompressLoop src cap (fuel + 1) ip out = .ok (out ++ last) := by
  have hlen := congrArg List.length h
  rw [lastBytes] at h
  obtain ⟨hread, hlt, h⟩ := sourceByte_of_drop h
  have htoken := lz4Token_toNat last.length 0
  have hhi : (lz4Token last.length 0).toNat / 16 = min last.length 15 := by omega
  have hlits := readLength_eq h hsize
  have h := drop_of_append h
  have hcopy := @copyLiterals_eq src out [] cap _ last (by rw [h, List.append_nil]) hcap
  rw [length_lastBytes, List.length_drop] at hlen
  rw [decompressLoop, if_pos hlt, hread]
  simp only [bind, Except.bind]
  rw [hhi, hlits]
  simp only
  rw [hcopy]
  simp only
  rw [if_pos (by omega)]

/-- The main loop writes what the sequences stand for. -/
theorem decompressLoop_block {qs : List (Sequence UInt8)} {last : Bytes}
    (h : src.drop ip = blockBytes qs last)
    (hqs : ∀ q ∈ qs, minMatch ≤ q.length ∧ q.offset ≤ 65535) (hrun : expand qs out = some out')
    (hcap : out'.length + last.length ≤ cap) (hsize : out'.length + last.length < 2 ^ 64)
    (hfuel : qs.length < fuel) : decompressLoop src cap fuel ip out = .ok (out' ++ last) := by
  induction qs generalizing ip out fuel with
  | nil =>
    cases hrun
    obtain ⟨fuel, rfl⟩ : ∃ n, fuel = n + 1 := ⟨fuel - 1, by rw [List.length_nil] at hfuel; omega⟩
    exact decompressLoop_last h hcap (by omega)
  | cons q qs ih =>
    rw [List.length_cons] at hfuel
    obtain ⟨fuel, rfl⟩ : ∃ n, fuel = n + 1 := ⟨fuel - 1, by omega⟩
    obtain ⟨out₁, hq, hrun⟩ := Option.bind_eq_some_iff.mp hrun
    have hle := le_length_expand hrun
    have hok := hqs q (List.mem_cons_self ..)
    have hsplit : src.drop ip = sequenceBytes q ++ blockBytes qs last := by
      rw [h, blockBytes, blockBytes, List.flatMap_cons, List.append_assoc]
    rw [decompressLoop_sequence hsplit hok.1 hok.2 hq (by omega) (by omega)]
    exact ih (drop_of_append hsplit) (fun q hq => hqs q (List.mem_cons_of_mem _ hq)) hrun (by omega)

/-- A block takes at least one byte for each sequence. -/
theorem length_le_blockBytes (qs : List (Sequence UInt8)) (last : Bytes) :
    qs.length < (blockBytes qs last).length := by
  rw [blockBytes, List.length_append, length_lastBytes]
  induction qs with
  | nil => simp
  | cons q qs ih =>
    rw [List.flatMap_cons, List.length_append, List.length_cons, length_sequenceBytes]
    omega

/-- The matches of a cut fit the format. -/
theorem matches_of_covers {qs : List (Sequence UInt8)} {a e : Nat}
    (h : Covers src (MatchOk src) a qs e) :
    ∀ q ∈ qs, minMatch ≤ q.length ∧ q.offset ≤ 65535 := by
  induction h with
  | nil => exact fun q hq => absurd hq List.not_mem_nil
  | cons ha hm hok hc ih =>
    intro q hq
    rcases List.mem_cons.mp hq with rfl | hq
    · exact ⟨hok.1, hok.2.2.1.trans (min_le_right _ _)⟩
    · exact ih q hq

/-- `lz4_decompress` of a block. -/
theorem lz4Decompress_block {qs : List (Sequence UInt8)} {last : Bytes}
    (hqs : ∀ q ∈ qs, minMatch ≤ q.length ∧ q.offset ≤ 65535) (hrun : expand qs [] = some out)
    (hcap : out.length + last.length ≤ cap) (hsize : out.length + last.length < 2 ^ 64)
    (hpos : 0 < cap) : lz4Decompress (blockBytes qs last) cap = .ok (out ++ last) := by
  have hlen := length_le_blockBytes qs last
  rw [lz4Decompress, if_neg (by omega)]
  exact decompressLoop_block List.drop_zero hqs hrun hcap hsize (by omega)

/-- The block of a cut of the source stands for the source. -/
theorem decompress_of_covers {qs : List (Sequence UInt8)} {anchor : Nat}
    (hc : Covers src (MatchOk src) 0 qs anchor) (hpos : 1 ≤ src.length)
    (hsize : src.length < 2 ^ 64) (hcap : src.length ≤ cap) :
    lz4Decompress (blockBytes qs (src.drop anchor)) cap = .ok src := by
  have hlen : (src.take anchor).length + (src.drop anchor).length = src.length := by
    rw [← List.length_append, List.take_append_drop]
  have hexpand := hc.expand
  rw [List.take_zero] at hexpand
  rw [lz4Decompress_block (matches_of_covers hc) hexpand (by omega) (by omega) (by omega),
    List.take_append_drop]

/-! ## Any bytes -/

/-- The end of a run that does not access what it must not: the output, or `NULL`. -/
def Ends {α : Type} (P : α → Prop) (r : Except Lz4Stop α) : Prop :=
  (∃ x, r = .ok x ∧ P x) ∨ r = .error .null

theorem Ends.bind {α β : Type} {P : α → Prop} {Q : β → Prop} {r : Except Lz4Stop α}
    {f : α → Except Lz4Stop β} (h : Ends P r) (hf : ∀ x, P x → Ends Q (f x)) :
    Ends Q (r >>= f) := by
  rcases h with ⟨x, rfl, hx⟩ | rfl
  · exact hf x hx
  · exact .inr rfl

theorem readExtension_ends (hip : ip ≤ src.length) (hfuel : src.length < fuel + ip) :
    Ends (fun r => ip ≤ r.1 ∧ r.1 ≤ src.length) (readExtension src fuel ip len) := by
  induction fuel generalizing ip len with
  | zero => omega
  | succ fuel ih =>
    rw [readExtension]
    split
    · exact .inr rfl
    · rw [sourceByte_eq (by omega)]
      simp only [Except.bind, Bind.bind]
      split
      · rcases @ih (ip + 1) (sizeAdd len (src[ip]).toNat) (by omega) (by omega) with
          ⟨r, hr, hle⟩ | hnull
        · exact .inl ⟨r, hr, by omega, hle.2⟩
        · exact .inr hnull
      · exact .inl ⟨_, rfl, by simp only; omega⟩

theorem readLength_ends (hip : ip ≤ src.length) :
    Ends (fun r => ip ≤ r.1 ∧ r.1 ≤ src.length) (readLength src ip len) := by
  rw [readLength]
  split
  · exact readExtension_ends hip (by omega)
  · exact .inl ⟨_, rfl, le_rfl, hip⟩

theorem copyLiterals_ends {n : Nat} (hip : ip ≤ src.length) (hcap : out.length ≤ cap) :
    Ends (fun r => ip ≤ r.1 ∧ r.1 ≤ src.length ∧ r.2.length ≤ cap)
      (copyLiterals src cap n ip out) := by
  induction n generalizing ip out with
  | zero => exact .inl ⟨_, rfl, le_rfl, hip, hcap⟩
  | succ n ih =>
    rw [copyLiterals]
    split
    · exact .inr rfl
    · rw [sourceByte_eq (by omega)]
      simp only [Except.bind, Bind.bind]
      rw [outputPut_eq (by omega)]
      rcases @ih (out ++ [src[ip]]) (ip + 1) (by omega)
        (by rw [List.length_append, List.length_singleton]; omega) with ⟨r, hr, hle⟩ | hnull
      · exact .inl ⟨r, hr, by omega, hle.2⟩
      · exact .inr hnull

theorem copyMatch_ends {off n : Nat} (hcap : out.length ≤ cap) :
    Ends (fun r => r.length ≤ cap) (copyMatch cap off n out) := by
  induction n generalizing out with
  | zero => exact .inl ⟨_, rfl, hcap⟩
  | succ n ih =>
    rw [copyMatch]
    split
    · exact .inr rfl
    · obtain ⟨b, hb⟩ : ∃ b, matchByte off out = .ok b := by
        rw [matchByte]
        split
        · have hlt : out.length - off < out.length := by omega
          exact ⟨out[out.length - off], by rw [outputByte, List.getElem?_eq_getElem hlt]⟩
        · exact ⟨0, rfl⟩
      rw [hb]
      simp only [Except.bind, Bind.bind]
      rw [outputPut_eq (by omega)]
      exact ih (by rw [List.length_append, List.length_singleton]; omega)

theorem decompressLoop_ends (hip : ip ≤ src.length) (hcap : out.length ≤ cap)
    (hfuel : src.length < fuel + ip) :
    Ends (fun r => r.length ≤ cap) (decompressLoop src cap fuel ip out) := by
  induction fuel generalizing ip out with
  | zero => omega
  | succ fuel ih =>
    rw [decompressLoop]
    split
    swap
    · exact .inl ⟨_, rfl, hcap⟩
    next hlt =>
    rw [sourceByte_eq hlt]
    refine (readLength_ends hlt).bind fun r hr => ?_
    refine (copyLiterals_ends hr.2 hcap).bind fun r' hr' => ?_
    obtain ⟨ip', out'⟩ := r'
    simp only at hr' ⊢
    split
    · exact .inl ⟨_, rfl, hr'.2.2⟩
    split
    · exact .inr rfl
    next h1 h2 =>
    rw [sourceByte_eq (by omega), sourceByte_eq (by omega)]
    simp only [Except.bind, Bind.bind]
    split
    · exact .inr rfl
    refine Ends.bind (readLength_ends (by omega)) fun r'' hr'' => ?_
    refine (copyMatch_ends hr'.2.2).bind fun out'' hout => ?_
    exact ih hr''.2 hout (by omega)

/-! ## Results -/

/-- The round trip: what `lz4_compress` returns, `lz4_decompress` turns back into the source. -/
theorem lz4Decompress_compress (hpos : 1 ≤ src.length) (hsize : src.length ≤ 65536)
    (hcap : src.length ≤ cap) :
    ∃ out, lz4Compress src = .ok out ∧ lz4Decompress out cap = .ok src := by
  obtain ⟨qs, anchor, hcomp, hc, -⟩ := lz4Compress_spec hpos hsize
  exact ⟨_, hcomp, decompress_of_covers hc hpos (by omega) hcap⟩

/-- Eight bytes, four times. -/
theorem lz4Decompress_compress_repeated : ∃ out,
    lz4Compress (List.replicate 4 [1, 2, 3, 4, 5, 6, 7, 8]).flatten = .ok out ∧
    lz4Decompress out 32 = .ok (List.replicate 4 [1, 2, 3, 4, 5, 6, 7, 8]).flatten :=
  lz4Decompress_compress (by decide) (by decide) (by decide)

example : lz4Compress (List.replicate 4 [1, 2, 3, 4, 5, 6, 7, 8]).flatten =
    .ok [132, 1, 2, 3, 4, 5, 6, 7, 8, 8, 0, 4, 8, 0, 128, 1, 2, 3, 4, 5, 6, 7, 8] := by
  decide +kernel

/-- Malformed input: whatever the bytes, `lz4_decompress` ends, without a read behind the source, a
read of output that is not written or a write behind the capacity; it returns `NULL` or no more
bytes than the capacity. -/
theorem lz4Decompress_ends (src : Bytes) (cap : Nat) :
    (∃ out, lz4Decompress src cap = .ok out ∧ out.length ≤ cap) ∨
      lz4Decompress src cap = .error .null := by
  rw [lz4Decompress]
  split
  · exact .inr rfl
  · exact decompressLoop_ends (Nat.zero_le _) (Nat.zero_le _) (by omega)

/-- The codec of the store gives values back that are no longer than a record. -/
theorem Lz4.block_decompress {value : Bytes} (hpos : 1 ≤ value.length)
    (hsize : value.length ≤ maxRecordSize) :
    ∃ val, Lz4.block.compress value = some val ∧ Lz4.block.decompress val = some value := by
  have hmax : value.length ≤ lz4MaxInputSize := hsize.trans (by decide)
  obtain ⟨qs, anchor, hcomp, hc, -⟩ := lz4Compress_spec hpos hmax
  refine ⟨blockBytes qs (value.drop anchor), ?_, ?_⟩
  · show (lz4Compress value).toOption = _
    rw [hcomp]
    rfl
  · show (lz4Decompress _ maxRecordSize).toOption = _
    rw [decompress_of_covers hc hpos (hmax.trans_lt (by decide)) hsize]
    rfl

end Garry
