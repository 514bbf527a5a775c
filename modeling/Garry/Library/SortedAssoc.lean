import Mathlib

/-!
# Sorted association lists

Entries with strictly increasing keys: insertion, removal, and what they do to the value of a key.
-/

namespace SortedAssoc

variable {K V : Type _} [LinearOrder K]

/-- The keys are strictly increasing. -/
def Sorted (l : List (K × V)) : Prop := l.Pairwise fun a b => a.1 < b.1

/-- The value of a key. -/
def lookup (k : K) : List (K × V) → Option V
  | [] => none
  | e :: l => if k = e.1 then some e.2 else lookup k l

/-- Insert an entry, replacing the one with the same key. -/
def insert (k : K) (v : V) : List (K × V) → List (K × V)
  | [] => [(k, v)]
  | e :: l =>
    if k < e.1 then (k, v) :: e :: l else if k = e.1 then (k, v) :: l else e :: insert k v l

/-- Remove the entry of a key. -/
def erase (k : K) (l : List (K × V)) : List (K × V) := l.filter fun e => decide (e.1 ≠ k)

@[simp] theorem sorted_nil : Sorted ([] : List (K × V)) := List.Pairwise.nil

theorem sorted_cons {e : K × V} : Sorted (e :: l) ↔ (∀ x ∈ l, e.1 < x.1) ∧ Sorted l :=
  List.pairwise_cons

theorem sorted_append {a b : List (K × V)} :
    Sorted (a ++ b) ↔ Sorted a ∧ Sorted b ∧ ∀ x ∈ a, ∀ y ∈ b, x.1 < y.1 := List.pairwise_append

theorem Sorted.nodup {l : List (K × V)} (h : Sorted l) : l.Nodup :=
  h.imp fun hlt he => absurd (he ▸ hlt) (lt_irrefl _)

/-- A sorted list is known by its entries. -/
theorem Sorted.ext {l l' : List (K × V)} (h : Sorted l) (h' : Sorted l')
    (hm : ∀ e, e ∈ l ↔ e ∈ l') : l = l' := by
  have hperm : l.Perm l' := (List.perm_ext_iff_of_nodup h.nodup h'.nodup).mpr hm
  exact hperm.eq_of_pairwise (fun a b _ _ hab hba => absurd hba hab.not_gt) h h'

theorem mem_insert {l : List (K × V)} (h : e ∈ insert k v l) : e = (k, v) ∨ e ∈ l := by
  induction l with
  | nil => simpa [insert] using h
  | cons x l ih =>
    simp only [insert] at h
    split at h
    · simpa using h
    split at h
    · simp only [List.mem_cons] at h ⊢; tauto
    · simp only [List.mem_cons] at h ⊢; tauto

theorem mem_insert_self {l : List (K × V)} : (k, v) ∈ insert k v l := by
  induction l with
  | nil => simp [insert]
  | cons x l ih =>
    simp only [insert]
    split
    · simp
    split
    · simp
    · simp [ih]

theorem Sorted.insert {l : List (K × V)} (h : Sorted l) : Sorted (insert k v l) := by
  induction l with
  | nil => simp [SortedAssoc.insert, Sorted]
  | cons x l ih =>
    obtain ⟨hx, hl⟩ := sorted_cons.mp h
    simp only [SortedAssoc.insert]
    split
    · next hlt =>
      refine sorted_cons.mpr ⟨fun y hy => ?_, h⟩
      rcases List.mem_cons.mp hy with rfl | hy
      · exact hlt
      · exact lt_trans hlt (hx y hy)
    split
    · next heq => exact sorted_cons.mpr ⟨by simpa [heq] using hx, hl⟩
    · next hnlt hne =>
      refine sorted_cons.mpr ⟨fun y hy => ?_, ih hl⟩
      rcases mem_insert hy with rfl | hy
      · exact lt_of_le_of_ne (not_lt.mp hnlt) (Ne.symm hne)
      · exact hx y hy

theorem insert_append_right {a b : List (K × V)} (h : ∀ e ∈ a, e.1 < k) :
    insert k v (a ++ b) = a ++ insert k v b := by
  induction a with
  | nil => rfl
  | cons x a ih =>
    have hx := h x (by simp)
    rw [List.cons_append, insert, if_neg (not_lt_of_gt hx), if_neg (ne_of_gt hx),
      ih fun e he => h e (by simp [he]), List.cons_append]

theorem insert_append_left {a b : List (K × V)} (h : ∀ e ∈ b, k < e.1) :
    insert k v (a ++ b) = insert k v a ++ b := by
  induction a with
  | nil =>
    cases b with
    | nil => rfl
    | cons y b => simp [insert, h y (by simp)]
  | cons x a ih =>
    simp only [List.cons_append, insert, ih]
    split
    · rfl
    split <;> rfl

theorem length_insert_le (k : K) (v : V) (l : List (K × V)) :
    (insert k v l).length ≤ l.length + 1 := by
  induction l with
  | nil => simp [insert]
  | cons x l ih =>
    simp only [insert]
    split
    · simp
    split
    · simp
    · simpa using ih

theorem length_le_length_insert (k : K) (v : V) (l : List (K × V)) :
    l.length ≤ (insert k v l).length := by
  induction l with
  | nil => simp
  | cons x l ih =>
    simp only [insert]
    split
    · simp
    split
    · simp
    · simpa using ih

theorem length_insert_of_notMem {l : List (K × V)} (h : ∀ e ∈ l, e.1 ≠ k) :
    (insert k v l).length = l.length + 1 := by
  induction l with
  | nil => simp [insert]
  | cons x l ih =>
    rw [insert]
    split
    · simp
    · rw [if_neg (h x (by simp)).symm, List.length_cons, ih fun e he => h e (by simp [he]),
        List.length_cons]

theorem insert_ne_nil {l : List (K × V)} : insert k v l ≠ [] :=
  List.ne_nil_of_mem (mem_insert_self (k := k) (v := v))

theorem lookup_append {a b : List (K × V)} :
    lookup k (a ++ b) = (lookup k a).or (lookup k b) := by
  induction a with
  | nil => simp [lookup]
  | cons x a ih =>
    rw [List.cons_append, lookup, lookup, ih]
    split <;> simp

/-- The value of a key after an insertion. -/
theorem lookup_insert (k' : K) (l : List (K × V)) :
    lookup k' (insert k v l) = if k' = k then some v else lookup k' l := by
  induction l with
  | nil => simp [insert, lookup]
  | cons x l ih =>
    simp only [insert]
    split
    · rw [lookup]
    split
    · next heq =>
      rw [lookup, lookup, ← heq]
      split <;> rfl
    · next hne =>
      rw [lookup, lookup, ih]
      by_cases hx : k' = x.1
      · rw [if_pos hx, if_pos hx, if_neg fun e => hne (e.symm.trans hx)]
      · rw [if_neg hx, if_neg hx]

/-- The value of a key after a removal. -/
theorem lookup_erase (k' : K) (l : List (K × V)) :
    lookup k' (erase k l) = if k' = k then none else lookup k' l := by
  induction l with
  | nil => simp [erase, lookup]
  | cons x l ih =>
    rw [erase] at ih ⊢
    rw [List.filter_cons]
    split
    · next hx =>
      have hx : x.1 ≠ k := by simpa using hx
      rw [lookup, lookup, ih]
      by_cases hx' : k' = x.1
      · rw [if_pos hx', if_neg fun e => hx (hx'.symm.trans e), if_pos hx']
      · rw [if_neg hx', if_neg hx']
    · next hx =>
      have hx : x.1 = k := by simpa using hx
      rw [ih, lookup, hx]
      split <;> rfl

theorem mem_erase {l : List (K × V)} : e ∈ erase k l ↔ e ∈ l ∧ e.1 ≠ k := by
  simp [erase]

theorem Sorted.erase {l : List (K × V)} (h : Sorted l) : Sorted (erase k l) :=
  List.Pairwise.filter _ h

theorem erase_append {a b : List (K × V)} : erase k (a ++ b) = erase k a ++ erase k b :=
  List.filter_append ..

theorem erase_of_notMem {l : List (K × V)} (h : ∀ e ∈ l, e.1 ≠ k) : erase k l = l := by
  simpa [erase, List.filter_eq_self] using h

theorem lookup_eq_none_of_notMem {l : List (K × V)} (h : ∀ e ∈ l, e.1 ≠ k) :
    lookup k l = none := by
  induction l with
  | nil => rfl
  | cons x l ih =>
    rw [lookup, if_neg (h x (by simp)).symm, ih fun e he => h e (by simp [he])]

theorem Sorted.lookup_of_mem {l : List (K × V)} (h : Sorted l) (he : (k, v) ∈ l) :
    lookup k l = some v := by
  induction l with
  | nil => simp at he
  | cons x l ih =>
    obtain ⟨hx, hl⟩ := sorted_cons.mp h
    rw [lookup]
    rcases List.mem_cons.mp he with rfl | he
    · rw [if_pos rfl]
    · rw [if_neg (ne_of_gt (hx _ he)), ih hl he]

theorem mem_of_lookup {l : List (K × V)} (h : lookup k l = some v) : (k, v) ∈ l := by
  induction l with
  | nil => cases h
  | cons x l ih =>
    rw [lookup] at h
    split at h
    · next hk => cases h; simp [hk]
    · exact List.mem_cons_of_mem _ (ih h)

/-! ## The same operations on positions -/

theorem Sorted.insert_eq_set {l : List (K × V)} (h : Sorted l) (hi : l[i]? = some e)
    (he : e.1 = k) : SortedAssoc.insert k v l = l.set i (k, v) := by
  induction l generalizing i with
  | nil => simp at hi
  | cons x l ih =>
    obtain ⟨hx, hl⟩ := sorted_cons.mp h
    cases i with
    | zero =>
      obtain rfl : x = e := by simpa using hi
      simp [SortedAssoc.insert, he]
    | succ i =>
      have hi : l[i]? = some e := by simpa using hi
      have hlt : x.1 < k := he ▸ hx e (List.mem_of_getElem? hi)
      rw [SortedAssoc.insert, if_neg (not_lt_of_gt hlt), if_neg (ne_of_gt hlt), ih hl hi,
        List.set_cons_succ]

theorem insert_eq_insertIdx {l : List (K × V)} (h : ∀ e ∈ l, e.1 ≠ k) :
    insert k v l = l.insertIdx (l.findIdx fun e => decide (k < e.1)) (k, v) := by
  induction l with
  | nil => rfl
  | cons x l ih =>
    rw [insert, List.findIdx_cons]
    by_cases hlt : k < x.1
    · simp [hlt]
    · rw [if_neg hlt, if_neg (h x (by simp)).symm, ih fun e he => h e (by simp [he])]
      simp [hlt]

theorem Sorted.erase_eq_eraseIdx {l : List (K × V)} (h : Sorted l) (hi : l[i]? = some e)
    (he : e.1 = k) : SortedAssoc.erase k l = l.eraseIdx i := by
  induction l generalizing i with
  | nil => simp at hi
  | cons x l ih =>
    obtain ⟨hx, hl⟩ := sorted_cons.mp h
    cases i with
    | zero =>
      obtain rfl : x = e := by simpa using hi
      have hrest : SortedAssoc.erase k l = l := erase_of_notMem fun y hy => ne_of_gt (he ▸ hx y hy)
      rw [List.eraseIdx_cons_zero, ← hrest]
      simp [SortedAssoc.erase, he]
    | succ i =>
      have hi : l[i]? = some e := by simpa using hi
      have hlt : x.1 < k := he ▸ hx e (List.mem_of_getElem? hi)
      rw [List.eraseIdx_cons_succ, ← ih hl hi]
      simp [SortedAssoc.erase, ne_of_lt hlt]

/-! ## Least and greatest keys -/

section ends

omit [LinearOrder K]

variable [PartialOrder K] {p : K → Bool} {l : List K}

/-- The first key with a property is the least one. -/
theorem find?_isLeast (h : l.Pairwise (· < ·)) (hk : l.find? p = some k) :
    IsLeast {a | a ∈ l ∧ p a = true} k := by
  refine ⟨⟨List.mem_of_find?_eq_some hk, List.find?_some hk⟩, ?_⟩
  induction l with
  | nil => cases hk
  | cons a l ih =>
    obtain ⟨ha, hl⟩ := List.pairwise_cons.mp h
    rw [List.find?_cons] at hk
    rintro b ⟨hb, hpb⟩
    cases hpa : p a with
    | true =>
      rw [hpa] at hk
      cases hk
      rcases List.mem_cons.mp hb with rfl | hb
      · exact le_rfl
      · exact (ha b hb).le
    | false =>
      rw [hpa] at hk
      rcases List.mem_cons.mp hb with rfl | hb
      · rw [hpa] at hpb
        cases hpb
      · exact ih hl hk ⟨hb, hpb⟩

theorem find?_eq_some_iff_isLeast (h : l.Pairwise (· < ·)) :
    l.find? p = some k ↔ IsLeast {a | a ∈ l ∧ p a = true} k := by
  refine ⟨find?_isLeast h, fun hk => ?_⟩
  obtain ⟨k', hk'⟩ := Option.isSome_iff_exists.mp (List.find?_isSome.mpr ⟨k, hk.1⟩)
  rw [hk', (find?_isLeast h hk').unique hk]

/-- The last key with a property is the greatest one. -/
theorem reverse_find?_eq_some_iff_isGreatest (h : l.Pairwise (· < ·)) :
    l.reverse.find? p = some k ↔ IsGreatest {a | a ∈ l ∧ p a = true} k := by
  have hr : l.reverse.Pairwise fun a b => b < a := List.pairwise_reverse.mpr h
  have hg : l.reverse.find? p = some k ↔ IsGreatest {a | a ∈ l.reverse ∧ p a = true} k :=
    find?_eq_some_iff_isLeast (K := Kᵒᵈ) (p := p) hr
  rw [hg]
  simp only [List.mem_reverse]

omit [PartialOrder K] in
theorem foldl_last (found : Option K) : (l.filter p).foldl (fun _ k => some k) found =
    (l.reverse.find? p).or found := by
  induction l generalizing found with
  | nil => rfl
  | cons a l ih =>
    rw [List.reverse_cons, List.find?_append, List.filter_cons]
    cases hp : p a with
    | true =>
      rw [if_pos rfl, List.foldl_cons, ih]
      cases l.reverse.find? p <;> simp [hp]
    | false =>
      rw [if_neg (by decide), ih]
      cases l.reverse.find? p <;> simp [hp]

end ends

end SortedAssoc
