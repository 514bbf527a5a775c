import Mathlib.Data.List.Basic
import Mathlib.Order.Basic
import Mathlib.Order.Lattice

/-!
# Literals and matches

A list cut into sequences: literals, then a match, that is items which stand some places before, too.
What the sequences stand for is found by copying, item by item, so that a match may reach into
itself.
-/

namespace Lz77

variable {α : Type*} {s out out' : List α} {pos off len a e : Nat}

/-- Literals and the match after them. -/
structure Sequence (α : Type*) where
  literals : List α
  offset : Nat
  length : Nat

/-! ## What sequences stand for -/

/-- The copy of `n` items, each `off` places before the end. -/
def copyBack (off : Nat) : Nat → List α → Option (List α)
  | 0, out => some out
  | n + 1, out => (out[out.length - off]?).bind fun x => copyBack off n (out ++ [x])

def Sequence.run (q : Sequence α) (out : List α) : Option (List α) :=
  let out := out ++ q.literals
  if 1 ≤ q.offset ∧ q.offset ≤ out.length then copyBack q.offset q.length out else none

/-- The list that the sequences stand for behind `out`. -/
def expand : List (Sequence α) → List α → Option (List α)
  | [], out => some out
  | q :: qs, out => (q.run out).bind (expand qs)

theorem length_copyBack {n : Nat} (h : copyBack off n out = some out') :
    out'.length = out.length + n := by
  induction n generalizing out with
  | zero =>
    cases h
    rfl
  | succ n ih =>
    obtain ⟨x, -, h⟩ := Option.bind_eq_some_iff.mp h
    rw [ih h, List.length_append, List.length_singleton]
    omega

theorem Sequence.length_run {q : Sequence α} (h : q.run out = some out') :
    out'.length = out.length + q.literals.length + q.length := by
  rw [Sequence.run] at h
  split at h
  · rw [length_copyBack h, List.length_append]
  · cases h

theorem le_length_expand {qs : List (Sequence α)} (h : expand qs out = some out') :
    out.length ≤ out'.length := by
  induction qs generalizing out with
  | nil =>
    cases h
    exact le_rfl
  | cons q qs ih =>
    obtain ⟨out₁, hq, h⟩ := Option.bind_eq_some_iff.mp h
    have hlen := Sequence.length_run hq
    exact le_trans (by omega) (ih h)

/-! ## Matches in a list -/

/-- At `pos` the list has `len` items that it has `off` places before, too. -/
structure MatchAt (s : List α) (pos off len : Nat) : Prop where
  off_pos : 1 ≤ off
  off_le : off ≤ pos
  le_length : pos + len ≤ s.length
  same : ∀ k < len, s[pos - off + k]? = s[pos + k]?

theorem MatchAt.tail (h : MatchAt s pos off (len + 1)) : MatchAt s (pos + 1) off len where
  off_pos := h.off_pos
  off_le := h.off_le.trans (Nat.le_succ pos)
  le_length := by
    have := h.le_length
    omega
  same k hk := by
    have hs := h.same (k + 1) (by omega)
    have hle := h.off_le
    rw [show pos + 1 - off + k = pos - off + (k + 1) by omega, hs]
    congr 1
    omega

/-- Copying a match goes on in the list. -/
theorem MatchAt.copyBack (h : MatchAt s pos off len) :
    copyBack off len (s.take pos) = some (s.take (pos + len)) := by
  induction len generalizing pos with
  | zero => rfl
  | succ len ih =>
    have hlen := h.le_length
    have hpos := h.off_pos
    have hle := h.off_le
    have htake : (s.take pos).length = pos := List.length_take_of_le (by omega)
    have hx : (s.take pos)[(s.take pos).length - off]? = some s[pos] := by
      have hs := h.same 0 (Nat.succ_pos len)
      simp only [Nat.add_zero] at hs
      rw [htake, List.getElem?_take_of_lt (by omega), hs]
      exact List.getElem?_eq_getElem _
    rw [Lz77.copyBack, hx, Option.bind_some, List.take_append_getElem, ih h.tail]
    congr 2
    omega

/-- The items from one position to another. -/
def between (s : List α) (a b : Nat) : List α := (s.drop a).take (b - a)

theorem length_between (hb : pos ≤ s.length) : (between s a pos).length = pos - a := by
  rw [between, List.length_take, List.length_drop]
  omega

theorem take_append_between (h : a ≤ pos) : s.take a ++ between s a pos = s.take pos := by
  have htake : (s.take pos).take a = s.take a := by rw [List.take_take, Nat.min_eq_left h]
  rw [between, ← List.drop_take, ← htake, List.take_append_drop]

/-- The sequences cut the list from one position up to another, each match with `P`. -/
inductive Covers (s : List α) (P : Nat → Nat → Nat → Prop) :
    Nat → List (Sequence α) → Nat → Prop
  | nil (a : Nat) : Covers s P a [] a
  | cons {a pos off len e : Nat} {qs : List (Sequence α)} : a ≤ pos → MatchAt s pos off len →
    P pos off len → Covers s P (pos + len) qs e →
    Covers s P a (⟨between s a pos, off, len⟩ :: qs) e

namespace Covers

variable {P : Nat → Nat → Nat → Prop} {qs : List (Sequence α)}

theorem snoc (h : Covers s P a qs e) (hpos : e ≤ pos) (hm : MatchAt s pos off len)
    (hp : P pos off len) : Covers s P a (qs ++ [⟨between s e pos, off, len⟩]) (pos + len) := by
  induction h with
  | nil a => exact .cons hpos hm hp (.nil _)
  | cons ha hm' hp' _ ih => exact .cons ha hm' hp' (ih hpos)

theorem le (h : Covers s P a qs e) : a ≤ e := by
  induction h with
  | nil => exact le_rfl
  | cons ha _ _ _ ih => exact (ha.trans (Nat.le_add_right ..)).trans ih

theorem le_length (h : Covers s P a qs e) (ha : a ≤ s.length) : e ≤ s.length := by
  induction h with
  | nil => exact ha
  | cons _ hm _ _ ih => exact ih hm.le_length

/-- The sequences stand for the list. -/
theorem expand (h : Covers s P a qs e) : expand qs (s.take a) = some (s.take e) := by
  induction h with
  | nil => rfl
  | @cons a pos off len e qs ha hm hp hc ih =>
    have hlen : (s.take pos).length = pos := by
      have := hm.le_length
      exact List.length_take_of_le (by omega)
    rw [Lz77.expand, Sequence.run]
    simp only
    rw [take_append_between ha, hlen, if_pos ⟨hm.off_pos, hm.off_le⟩, hm.copyBack, Option.bind_some]
    exact ih

end Covers

end Lz77
