import Garry.Library.SortedAssoc

/-!
# B+ trees as values

A tree of depth `d` is a leaf of entries or a branch of separators and subtrees of depth `d - 1`.
`Ordered` says that the keys of a subtree lie between the separators around it and `Sized` bounds
the number of keys of the nodes. Insertion and removal work on the node a key is routed to and
repair on the way up.
-/

namespace BPlusTree

open SortedAssoc

universe u v w

/-- A key, or one of the two ends. -/
abbrev Bound (K : Type u) := WithBot (WithTop K)

/-- A key as a bound. -/
def Bound.key {K : Type u} (k : K) : Bound K := ((k : WithTop K) : WithBot (WithTop K))

structure Branch (K : Type u) (C : Type v) where
  seps : List K
  children : List C

/-- A tree of the given depth. -/
abbrev Tree (K : Type u) (V : Type v) : Nat → Type (max u v)
  | 0 => List (K × V)
  | d + 1 => Branch K (Tree K V d)

variable {K : Type u} {V : Type v} {C : Type w}

/-- The number of keys of the root node. -/
def count : (d : Nat) → Tree K V d → Nat
  | 0, es => List.length (α := K × V) es
  | _ + 1, b => b.seps.length

/-- The entries from left to right. -/
def toList : (d : Nat) → Tree K V d → List (K × V)
  | 0, es => es
  | d + 1, b => (b.children.map (toList d)).flatten

/-- The children of a branch with the upper bound of each. -/
def pairs (ks : List K) (cs : List C) (hi : Bound K) : List (C × Bound K) :=
  cs.zip (ks.map Bound.key ++ [hi])

/-- Consecutive children cover the interval from `lo` to `hi`. -/
def Tiles (S : Bound K → Bound K → C → Prop) : Bound K → List (C × Bound K) → Bound K → Prop
  | lo, [], hi => lo = hi
  | lo, (c, b) :: l, hi => S lo b c ∧ Tiles S b l hi

/-! ## Positions of a branch -/

theorem pairs_fst {ks : List K} {cs : List C} (h : cs.length = ks.length + 1) :
    (pairs ks cs hi).map Prod.fst = cs := by
  rw [pairs, List.map_fst_zip (by simp [h])]

theorem length_pairs {ks : List K} {cs : List C} (h : cs.length = ks.length + 1) (hi : Bound K) :
    (pairs ks cs hi).length = cs.length := by
  rw [← List.length_map (f := Prod.fst), pairs_fst h]

theorem pairs_cons (k : K) (ks : List K) (c : C) (cs : List C) :
    pairs (k :: ks) (c :: cs) hi = (c, Bound.key k) :: pairs ks cs hi := rfl

section pairs

variable {ks : List K} {cs : List C} {pre post : List (C × Bound K)}

theorem getElem?_of_pairs (h : cs.length = ks.length + 1)
    (hp : pairs ks cs hi = pre ++ (c, b) :: post) : cs[pre.length]? = some c := by
  have := congrArg (fun l => (l.map Prod.fst)[pre.length]?) hp
  rw [pairs_fst h] at this
  simpa using this

theorem pairs_set (h : cs.length = ks.length + 1)
    (hp : pairs ks cs hi = pre ++ (c, b) :: post) (c' : C) :
    pairs ks (cs.set pre.length c') hi = pre ++ (c', b) :: post := by
  induction pre generalizing ks cs with
  | nil =>
    match ks, cs, h with
    | [], [x], h =>
      simp [pairs] at hp ⊢
      simp [hp]
    | s :: ks, x :: cs, h =>
      simp [pairs_cons] at hp ⊢
      simp [hp]
  | cons z pre ih =>
    match ks, cs, h with
    | [], [x], h => simp [pairs] at hp
    | s :: ks, x :: cs, h =>
      rw [pairs_cons, List.cons_append, List.cons.injEq] at hp
      simp only [List.length_cons, List.set_cons_succ, pairs_cons, List.cons_append]
      rw [ih (by simpa using h) hp.2, hp.1]

/-- A split-off piece enters a branch behind the child it came from. -/
theorem pairs_insertIdx (h : cs.length = ks.length + 1)
    (hp : pairs ks cs hi = pre ++ (c, b) :: post) (sep : K) (c' : C) :
    pairs (ks.insertIdx pre.length sep) (cs.insertIdx (pre.length + 1) c') hi =
      pre ++ (c, Bound.key sep) :: (c', b) :: post := by
  induction pre generalizing ks cs with
  | nil =>
    match cs, h with
    | x :: cs, h =>
      match ks, h with
      | [], h =>
        obtain rfl : cs = [] := List.eq_nil_of_length_eq_zero (by simpa using h)
        simp [pairs] at hp ⊢
        simp [hp]
      | k :: ks, h =>
        simp [pairs_cons] at hp
        simp [pairs_cons, hp]
  | cons y pre ih =>
    match cs, h with
    | x :: cs, h =>
      match ks, h with
      | [], h =>
        obtain rfl : cs = [] := List.eq_nil_of_length_eq_zero (by simpa using h)
        simp [pairs] at hp
      | k :: ks, h =>
        rw [pairs_cons, List.cons_append, List.cons.injEq] at hp
        simp only [List.length_cons, List.insertIdx_succ_cons, pairs_cons, List.cons_append]
        rw [ih (by simpa using h) hp.2, hp.1]

/-- Cutting a branch at a separator. -/
theorem pairs_append {ks : List K} {cs : List C} (s : K) (ks' : List K) (cs' : List C)
    (hi : Bound K) (h : cs.length = ks.length + 1) :
    pairs (ks ++ s :: ks') (cs ++ cs') hi = pairs ks cs (Bound.key s) ++ pairs ks' cs' hi := by
  have e : (ks ++ s :: ks').map Bound.key ++ [hi] =
      (ks.map Bound.key ++ [Bound.key s]) ++ (ks'.map Bound.key ++ [hi]) := by simp
  rw [pairs, e, List.zip_append (by simp [h])]; rfl

/-- Two neighbouring children and the separator between them. -/
theorem pairs_neighbours (hi : Bound K) (h : cs.length = ks.length + 1) (hj : j < ks.length) :
    ∃ pre l sep r b post, pairs ks cs hi = pre ++ (l, Bound.key sep) :: (r, b) :: post ∧
      pre.length = j ∧ cs[j]? = some l ∧ ks[j]? = some sep ∧ cs[j + 1]? = some r := by
  induction j generalizing ks cs with
  | zero =>
    match ks, cs, h with
    | s :: ks, c :: c' :: cs, h =>
      match ks with
      | [] => exact ⟨[], c, s, c', hi, [], by simp at h; simp [pairs, h], rfl, rfl, rfl, rfl⟩
      | s' :: ks => exact ⟨[], c, s, c', Bound.key s', pairs ks cs hi, rfl, rfl, rfl, rfl, rfl⟩
  | succ j ih =>
    match ks, cs, h with
    | s :: ks, c :: cs, h =>
      obtain ⟨pre, l, sep, r, b, post, hp, hlen, h1, h2, h3⟩ :=
        ih (show cs.length = ks.length + 1 by simpa using h) (by simpa using hj)
      exact ⟨(c, Bound.key s) :: pre, l, sep, r, b, post, by rw [pairs_cons, hp]; rfl, by simp [hlen],
        by simpa using h1, by simpa using h2, by simpa using h3⟩

/-- Two neighbours give way to one child. -/
theorem pairs_eraseIdx (h : cs.length = ks.length + 1)
    (hp : pairs ks cs hi = pre ++ (l, Bound.key sep) :: (r, b) :: post) (c : C) :
    pairs (ks.eraseIdx pre.length) ((cs.set pre.length c).eraseIdx (pre.length + 1)) hi =
      pre ++ (c, b) :: post := by
  induction pre generalizing ks cs with
  | nil =>
    match ks, cs, h with
    | [], [x], h => simp [pairs] at hp
    | s :: ks, x :: y :: cs, h =>
      match ks with
      | [] =>
        simp [pairs] at hp ⊢
        simp [hp]
      | s' :: ks =>
        simp [pairs_cons] at hp
        simp [pairs_cons, hp]
  | cons z pre ih =>
    match ks, cs, h with
    | [], [x], h => simp [pairs] at hp
    | s :: ks, x :: cs, h =>
      rw [pairs_cons, List.cons_append, List.cons.injEq] at hp
      simp only [List.length_cons, List.eraseIdx_cons_succ, List.set_cons_succ, pairs_cons,
        List.cons_append]
      rw [ih (by simpa using h) hp.2, hp.1]

end pairs

theorem pairs_map (f : C → D) (ks : List K) (cs : List C) (hi : Bound K) :
    pairs ks (cs.map f) hi = (pairs ks cs hi).map fun x => (f x.1, x.2) := by
  rw [pairs, pairs, List.zip_map_left]; rfl

theorem Tiles.map {S : Bound K → Bound K → D → Prop} {f : C → D} {l : List (C × Bound K)} :
    Tiles S lo (l.map fun x => (f x.1, x.2)) hi ↔ Tiles (fun a b c => S a b (f c)) lo l hi := by
  induction l generalizing lo with
  | nil => rfl
  | cons x l ih => simp only [List.map_cons, Tiles, ih]

theorem Tiles.append {S : Bound K → Bound K → C → Prop} {l l' : List (C × Bound K)} :
    Tiles S lo (l ++ l') hi ↔ ∃ m, Tiles S lo l m ∧ Tiles S m l' hi := by
  induction l generalizing lo with
  | nil => simp [Tiles]
  | cons x l ih =>
    obtain ⟨c, b⟩ := x
    simp only [List.cons_append, Tiles, ih]
    constructor
    · rintro ⟨h, m, h1, h2⟩
      exact ⟨m, ⟨h, h1⟩, h2⟩
    · rintro ⟨m, ⟨h, h1⟩, h2⟩
      exact ⟨h, m, h1, h2⟩

theorem toList_branch {b : Branch K (Tree K V d)} (h : b.children.length = b.seps.length + 1)
    (hi : Bound K) :
    toList (d + 1) b = ((pairs b.seps b.children hi).map fun x => toList d x.1).flatten := by
  rw [← Function.comp_def (toList d) Prod.fst, ← List.map_map, pairs_fst h]; rfl

variable [LinearOrder K]

@[simp] theorem Bound.key_lt_key {a b : K} : Bound.key a < Bound.key b ↔ a < b := by simp [Bound.key]

@[simp] theorem Bound.key_le_key {a b : K} : Bound.key a ≤ Bound.key b ↔ a ≤ b := by simp [Bound.key]

@[simp] theorem Bound.bot_lt_key {a : K} : (⊥ : Bound K) < Bound.key a := by simp [Bound.key]

@[simp] theorem Bound.key_lt_top {a : K} : Bound.key a < (⊤ : Bound K) :=
  WithBot.coe_lt_coe.mpr (WithTop.coe_lt_top a)

/-- Every key of a subtree lies between the separators around it. -/
def Ordered : (d : Nat) → Bound K → Bound K → Tree K V d → Prop
  | 0, lo, hi, es => lo < hi ∧ Sorted (K := K) (V := V) es ∧
      ∀ e : K × V, List.Mem e es → lo ≤ Bound.key e.1 ∧ Bound.key e.1 < hi
  | d + 1, lo, hi, b => b.children.length = b.seps.length + 1 ∧
      Tiles (Ordered d) lo (pairs b.seps b.children hi) hi

/-- The root has at least `min` keys, every other node at least one, and none more than `cap`. -/
def Sized (cap : Nat) : (d min : Nat) → Tree K V d → Prop
  | 0, min, es => min ≤ List.length (α := K × V) es ∧ List.length (α := K × V) es ≤ cap
  | d + 1, min, b => min ≤ b.seps.length ∧ b.seps.length ≤ cap ∧
      b.children.length = b.seps.length + 1 ∧ ∀ t ∈ b.children, Sized cap d 1 t

/-! ## Operations -/

/-- The child a key is routed to: before the first separator above it. -/
def childIndex (ks : List K) (k : K) : Nat := ks.findIdx fun s => decide (k < s)

/-- Search gives up on a branch without separators. -/
def search : (d : Nat) → Tree K V d → K → Option V
  | 0, es, k => lookup (V := V) k es
  | d + 1, b, k =>
    if b.seps = [] then none else b.children[childIndex b.seps k]?.bind fun t => search d t k

/-- Put a split-off piece next to child `i`, splitting the branch itself when it is full. -/
def absorb (cap : Nat) (b : Branch K C) (i : Nat) (c : C) :
    Option (K × C) → Branch K C × Option (K × Branch K C)
  | none => (⟨b.seps, b.children.set i c⟩, none)
  | some (sep, c') =>
    let ks := b.seps.insertIdx i sep
    let cs := (b.children.set i c).insertIdx (i + 1) c'
    if b.seps.length < cap then (⟨ks, cs⟩, none)
    else
      let mid := ks.length / 2
      (⟨ks.take mid, cs.take (mid + 1)⟩,
        ks[mid]?.map fun s => (s, ⟨ks.drop (mid + 1), cs.drop (mid + 1)⟩))

/-- Insert an entry; the second component is the piece split off to the right. -/
def insert (leafMax cap : Nat) :
    (d : Nat) → Tree K V d → K → V → Tree K V d × Option (K × Tree K V d)
  | 0, es, k, v =>
    let es : List (K × V) := es
    let all := SortedAssoc.insert k v es
    if all.length = es.length ∨ es.length < leafMax then (all, none)
    else
      let mid := all.length / 2
      (all.take mid, (all.drop mid).head?.map fun e => (e.1, all.drop mid))
  | d + 1, b, k, v =>
    let i := childIndex b.seps k
    match b.children[i]? with
    | none => (b, none)
    | some t =>
      let (t, piece) := insert leafMax cap d t k v
      absorb cap b i t piece

/-- Join two neighbours around their separator. -/
def merge : (d : Nat) → Tree K V d → K → Tree K V d → Tree K V d
  | 0, a, _, b => List.append (α := K × V) a b
  | _ + 1, a, sep, b => ⟨a.seps ++ sep :: b.seps, a.children ++ b.children⟩

/-- The number of keys of the joined node. -/
def mergedCount : (d : Nat) → Tree K V d → Tree K V d → Nat
  | 0, a, b => count 0 a + count 0 b
  | d + 1, a, b => count (d + 1) a + count (d + 1) b + 1

/-- Join children `j` and `j + 1` unless the result has more than `cap` keys. -/
def rebalance (cap d : Nat) (b : Branch K (Tree K V d)) (j : Nat) : Branch K (Tree K V d) :=
  match b.children[j]?, b.seps[j]?, b.children[j + 1]? with
  | some l, some sep, some r =>
    if mergedCount d l r ≤ cap then
      ⟨b.seps.eraseIdx j, (b.children.set j (merge d l sep r)).eraseIdx (j + 1)⟩
    else b
  | _, _, _ => b

/-- Remove a key; a child left without keys is joined with its left neighbour, the first child
with its right one. -/
def delete (cap : Nat) : (d : Nat) → Tree K V d → K → Tree K V d
  | 0, es, k => SortedAssoc.erase (V := V) k es
  | d + 1, b, k =>
    let i := childIndex b.seps k
    match b.children[i]? with
    | none => b
    | some t =>
      let t' := delete cap d t k
      let b : Branch K (Tree K V d) := ⟨b.seps, b.children.set i t'⟩
      if count d t' = 0 then rebalance cap d b (i - 1) else b

/-! ## Paths -/

section Tiles

variable {S : Bound K → Bound K → C → Prop}

/-- The entries along a path are sorted and lie inside its interval. -/
theorem Tiles.entries {f : C → List (K × V)}
    (hS : ∀ {lo hi c}, S lo hi c →
      lo < hi ∧ Sorted (f c) ∧ ∀ e ∈ f c, lo ≤ Bound.key e.1 ∧ Bound.key e.1 < hi)
    {l : List (C × Bound K)} (h : Tiles S lo l hi) :
    lo ≤ hi ∧ Sorted (l.map fun x => f x.1).flatten ∧
      ∀ e ∈ (l.map fun x => f x.1).flatten, lo ≤ Bound.key e.1 ∧ Bound.key e.1 < hi := by
  induction l generalizing lo with
  | nil => exact ⟨le_of_eq h, by simp, by simp⟩
  | cons x l ih =>
    obtain ⟨c, b⟩ := x
    obtain ⟨hc, h⟩ := h
    obtain ⟨hlt, hsc, hbc⟩ := hS hc
    obtain ⟨hle, hsl, hbl⟩ := ih h
    refine ⟨hlt.le.trans hle, ?_, fun e he => ?_⟩
    · rw [List.map_cons, List.flatten_cons, sorted_append]
      refine ⟨hsc, hsl, fun x hx y hy => ?_⟩
      exact Bound.key_lt_key.mp ((hbc x hx).2.trans_le (hbl y hy).1)
    · rw [List.map_cons, List.flatten_cons, List.mem_append] at he
      rcases he with he | he
      · exact ⟨(hbc e he).1, (hbc e he).2.trans_le hle⟩
      · exact ⟨hlt.le.trans (hbl e he).1, (hbl e he).2⟩

/-- The step of a path a key is routed to. -/
theorem Tiles.focus {l : List (C × Bound K)} (h : Tiles S lo l hi) (hlo : lo ≤ Bound.key k)
    (hhi : Bound.key k < hi) :
    ∃ pre c b post m, l = pre ++ (c, b) :: post ∧
      pre.length = l.findIdx (fun x => decide (Bound.key k < x.2)) ∧
      Tiles S lo pre m ∧ S m b c ∧ Tiles S b post hi ∧ m ≤ Bound.key k ∧ Bound.key k < b := by
  induction l generalizing lo with
  | nil => exact absurd hhi (not_lt_of_ge (h ▸ hlo))
  | cons x l ih =>
    obtain ⟨c, b⟩ := x
    obtain ⟨hc, h⟩ := h
    by_cases hb : Bound.key k < b
    · refine ⟨[], c, b, l, lo, rfl, ?_, rfl, hc, h, hlo, hb⟩
      rw [List.findIdx_cons]; simp [hb]
    · obtain ⟨pre, c', b', post, m, rfl, hlen, h1, h2, h3, h4, h5⟩ := ih h (not_lt.mp hb)
      refine ⟨(c, b) :: pre, c', b', post, m, rfl, ?_, ⟨hc, h1⟩, h2, h3, h4, h5⟩
      rw [List.findIdx_cons]; simp [hb, hlen]

theorem Tiles.lt_of_ne_nil (hS : ∀ {lo hi c}, S lo hi c → lo < hi) {l : List (C × Bound K)}
    (h : Tiles S lo l hi) (hl : l ≠ []) : lo < hi := by
  induction l generalizing lo with
  | nil => exact absurd rfl hl
  | cons x l ih =>
    obtain ⟨hc, h⟩ := h
    rcases eq_or_ne l [] with rfl | hne
    · exact (hS hc).trans_eq h
    · exact (hS hc).trans (ih h hne)

omit [LinearOrder K] in
theorem Tiles.imp {S' : Bound K → Bound K → C → Prop} {l : List (C × Bound K)}
    (h : Tiles S lo l hi) (hS : ∀ x ∈ l, ∀ lo hi, S lo hi x.1 → S' lo hi x.1) :
    Tiles S' lo l hi := by
  induction l generalizing lo with
  | nil => exact h
  | cons x l ih =>
    obtain ⟨c, b⟩ := x
    exact ⟨hS (c, b) (by simp) _ _ h.1, ih h.2 fun y hy => hS y (by simp [hy])⟩

/-- The separators of a branch increase and lie inside its interval. -/
theorem Tiles.seps (hS : ∀ {lo hi c}, S lo hi c → lo < hi) {ks : List K} {cs : List C}
    (hlen : cs.length = ks.length + 1) (h : Tiles S lo (pairs ks cs hi) hi) :
    ks.Pairwise (· < ·) ∧ ∀ k ∈ ks, lo < Bound.key k ∧ Bound.key k < hi := by
  induction ks generalizing cs lo with
  | nil => simp
  | cons s ks ih =>
    match cs, hlen with
    | c :: cs, hlen =>
      have hlen : cs.length = ks.length + 1 := by simpa using hlen
      rw [pairs_cons] at h
      obtain ⟨hc, h⟩ := h
      obtain ⟨h1, h2⟩ := ih hlen h
      have hlt : Bound.key s < hi := h.lt_of_ne_nil hS fun e => by
        have := length_pairs hlen hi
        rw [e] at this
        simp at this; omega
      refine ⟨List.pairwise_cons.mpr ⟨fun k hk => Bound.key_lt_key.mp (h2 k hk).1, h1⟩,
        fun k hk => ?_⟩
      rcases List.mem_cons.mp hk with rfl | hk
      · exact ⟨hS hc, hlt⟩
      · exact ⟨(hS hc).trans (h2 k hk).1, (h2 k hk).2⟩

end Tiles

/-- Routing by the separators is routing by the upper bounds. -/
theorem findIdx_pairs {ks : List K} {cs : List C} (h : cs.length = ks.length + 1)
    (hk : Bound.key k < hi) :
    (pairs ks cs hi).findIdx (fun x => decide (Bound.key k < x.2)) = childIndex ks k := by
  induction ks generalizing cs with
  | nil =>
    match cs, h with
    | [c], _ => simp [pairs, childIndex, List.findIdx_cons, hk]
  | cons s ks ih =>
    match cs, h with
    | c :: cs, h =>
      have h : cs.length = ks.length + 1 := by simpa using h
      rw [pairs_cons, childIndex, List.findIdx_cons, List.findIdx_cons, ih h, ← childIndex]
      simp

theorem childIndex_le {ks : List K} : childIndex ks k ≤ ks.length := List.findIdx_le_length


theorem childIndex_lt {ks : List K} {cs : List C} (h : cs.length = ks.length + 1) :
    childIndex ks k < cs.length := by
  have : childIndex ks k ≤ ks.length := childIndex_le
  omega

/-! ## The entries of an ordered tree -/

/-- The entries of an ordered tree are sorted and lie inside its interval. -/
theorem Ordered.entries {t : Tree K V d} (h : Ordered d lo hi t) :
    lo < hi ∧ Sorted (toList d t) ∧ ∀ e ∈ toList d t, lo ≤ Bound.key e.1 ∧ Bound.key e.1 < hi := by
  induction d generalizing lo hi with
  | zero => exact h
  | succ d ih =>
    obtain ⟨hlen, hp⟩ := h
    have hne : pairs t.seps t.children hi ≠ [] := by
      intro e
      have := length_pairs hlen hi
      rw [e] at this
      simp at this; omega
    rw [toList_branch hlen hi]
    exact ⟨hp.lt_of_ne_nil (fun hc => (ih hc).1) hne, (hp.entries fun hc => ih hc).2⟩

/-- The child of an ordered branch a key is routed to, with what lies on both sides of it. -/
theorem Ordered.focus {b : Branch K (Tree K V d)} (h : Ordered (d + 1) lo hi b)
    (hlo : lo ≤ Bound.key k) (hhi : Bound.key k < hi) :
    ∃ pre c bd post m, pairs b.seps b.children hi = pre ++ (c, bd) :: post ∧
      pre.length = childIndex b.seps k ∧ b.children[childIndex b.seps k]? = some c ∧
      Tiles (Ordered d) lo pre m ∧ Ordered d m bd c ∧ Tiles (Ordered d) bd post hi ∧
      m ≤ Bound.key k ∧ Bound.key k < bd := by
  obtain ⟨hlen, hp⟩ := h
  obtain ⟨pre, c, bd, post, m, he, hi', h1, h2, h3, h4, h5⟩ := hp.focus hlo hhi
  rw [findIdx_pairs hlen hhi] at hi'
  exact ⟨pre, c, bd, post, m, he, hi', hi' ▸ getElem?_of_pairs hlen he, h1, h2, h3, h4, h5⟩

/-- The entries of the steps before and after the one a key is routed to. -/
theorem Tiles.sides {pre post : List (Tree K V d × Bound K)} (h1 : Tiles (Ordered d) lo pre m)
    (h3 : Tiles (Ordered d) bd post hi) (h4 : m ≤ Bound.key k) (h5 : Bound.key k < bd) :
    (∀ e ∈ (pre.map fun x => toList d x.1).flatten, e.1 < k) ∧
      ∀ e ∈ (post.map fun x => toList d x.1).flatten, k < e.1 := by
  refine ⟨fun e he => ?_, fun e he => ?_⟩
  · exact Bound.key_lt_key.mp (((h1.entries fun hc => hc.entries).2.2 e he).2.trans_le h4)
  · exact Bound.key_lt_key.mp (h5.trans_le ((h3.entries fun hc => hc.entries).2.2 e he).1)

/-- The entries of the children before the one a key is routed to. -/
theorem Tiles.before {ks : List K} {cs : List (Tree K V d)} (hlen : cs.length = ks.length + 1)
    (h : Tiles (Ordered d) lo (pairs ks cs hi) hi) (hi' : i ≤ childIndex ks k) :
    ∀ e ∈ ((cs.take i).map (toList d)).flatten, e.1 < k := by
  induction ks generalizing cs lo i with
  | nil =>
    obtain rfl : i = 0 := Nat.le_zero.mp hi'
    simp
  | cons s ks ih =>
    match cs, hlen with
    | c :: cs, hlen =>
      rw [pairs_cons] at h
      obtain ⟨hc, h⟩ := h
      rw [childIndex, List.findIdx_cons] at hi'
      cases i with
      | zero => simp
      | succ i =>
        by_cases hs : k < s
        · simp [hs] at hi'
        · simp only [hs, decide_false, cond_false, Nat.add_le_add_iff_right] at hi'
          intro e he
          rw [List.take_succ_cons, List.map_cons, List.flatten_cons, List.mem_append] at he
          rcases he with he | he
          · exact (Bound.key_lt_key.mp (hc.entries.2.2 e he).2).trans_le (not_lt.mp hs)
          · exact ih (by simpa using hlen) h hi' e he

omit [LinearOrder K] in
/-- Every step of a path is ordered. -/
theorem Tiles.mem {l : List (C × Bound K)} (h : Tiles S lo l hi) (hx : x ∈ l) :
    ∃ lo hi, S lo hi x.1 := by
  induction l generalizing lo with
  | nil => cases hx
  | cons y l ih =>
    rcases List.mem_cons.mp hx with rfl | hx
    · exact ⟨_, _, h.1⟩
    · exact ih h.2 hx

/-- The children of an ordered branch are ordered. -/
theorem Ordered.child {b : Branch K (Tree K V d)} (h : Ordered (d + 1) lo hi b)
    (hc : c ∈ b.children) : ∃ lo hi, Ordered d lo hi c := by
  obtain ⟨hlen, hp⟩ := h
  have hfst : (pairs b.seps b.children hi).map Prod.fst = b.children := pairs_fst hlen
  rw [← hfst] at hc
  obtain ⟨x, hx, rfl⟩ := List.mem_map.mp hc
  exact hp.mem hx

/-- Search finds what the entries say, when every branch has a separator. -/
theorem search_eq {t : Tree K V d} (h : Ordered d lo hi t) (hs : Sized cap d low t)
    (hmin : 0 < d → 1 ≤ low) (hlo : lo ≤ Bound.key k) (hhi : Bound.key k < hi) :
    search d t k = lookup k (toList d t) := by
  induction d generalizing lo hi low with
  | zero => rfl
  | succ d ih =>
    obtain ⟨pre, c, bd, post, m, he, -, hc, h1, h2, h3, h4, h5⟩ := h.focus hlo hhi
    obtain ⟨hmin', -, hlen, hch⟩ := hs
    have hne : t.seps ≠ [] := by
      rintro e
      have := hmin (by omega)
      rw [e] at hmin'; simp at hmin'; omega
    obtain ⟨hpre, hpost⟩ := Tiles.sides h1 h3 h4 h5
    rw [search, if_neg hne, hc, Option.bind_some,
      ih h2 (hch c (List.mem_of_getElem? hc)) (fun _ => le_refl 1) h4 h5, toList_branch hlen hi, he,
      List.map_append, List.flatten_append, List.map_cons, List.flatten_cons, lookup_append,
      lookup_append, lookup_eq_none_of_notMem fun e he => ne_of_lt (hpre e he),
      lookup_eq_none_of_notMem fun e he => ne_of_gt (hpost e he)]
    simp

/-! ## Insertion -/

/-- A subtree and the piece split off to its right, as steps of a path ending at `hi`. -/
def pieces (c : C) (hi : Bound K) : Option (K × C) → List (C × Bound K)
  | none => [(c, hi)]
  | some (sep, c') => [(c, Bound.key sep), (c', hi)]

/-- Both halves are branches and together they have the children `l`. -/
def Covers (hi : Bound K) (l : List (C × Bound K)) (b : Branch K C) :
    Option (K × Branch K C) → Prop
  | none => b.children.length = b.seps.length + 1 ∧ pairs b.seps b.children hi = l
  | some (s, b') =>
    b.children.length = b.seps.length + 1 ∧ b'.children.length = b'.seps.length + 1 ∧
      pairs b.seps b.children (Bound.key s) ++ pairs b'.seps b'.children hi = l

omit [LinearOrder K] in
theorem absorb_covers {b : Branch K C} (hlen : b.children.length = b.seps.length + 1)
    (hp : pairs b.seps b.children hi = pre ++ (c₀, bd) :: post) (cap : Nat) (c : C)
    (piece : Option (K × C)) :
    Covers hi (pre ++ (pieces c bd piece ++ post)) (absorb cap b pre.length c piece).1
      (absorb cap b pre.length c piece).2 := by
  have hset := pairs_set hlen hp c
  match piece with
  | none => exact ⟨by simpa [absorb] using hlen, by simpa [absorb, pieces] using hset⟩
  | some (sep, c') =>
    have hle : pre.length ≤ b.seps.length := by
      have := congrArg List.length hp
      rw [length_pairs hlen hi] at this
      simp at this; omega
    have hins := pairs_insertIdx (by simpa using hlen) hset sep c'
    have hks : (b.seps.insertIdx pre.length sep).length = b.seps.length + 1 :=
      List.length_insertIdx_of_le_length hle _
    have hcs : ((b.children.set pre.length c).insertIdx (pre.length + 1) c').length =
        b.seps.length + 2 := by
      rw [List.length_insertIdx_of_le_length (by simp; omega)]; simp [hlen]
    simp only [absorb, pieces]
    generalize b.seps.insertIdx pre.length sep = ks at hins hks
    generalize (b.children.set pre.length c).insertIdx (pre.length + 1) c' = cs at hins hcs
    split
    · exact ⟨by simp [hks, hcs], by simpa using hins⟩
    · have hmid : ks.length / 2 < ks.length := by omega
      rw [List.getElem?_eq_getElem hmid, Option.map_some]
      have hl : (cs.take (ks.length / 2 + 1)).length = (ks.take (ks.length / 2)).length + 1 := by
        simp; omega
      refine ⟨hl, by simp; omega, ?_⟩
      have e := pairs_append ks[ks.length / 2] (ks.drop (ks.length / 2 + 1))
        (cs.drop (ks.length / 2 + 1)) hi hl
      rw [← e, List.getElem_cons_drop, List.take_append_drop, List.take_append_drop, hins]
      simp

omit [LinearOrder K] in
theorem Tiles.eq_of_pairs {S : Bound K → Bound K → C → Prop} {ks : List K} {cs : List C}
    (hlen : cs.length = ks.length + 1) (h : Tiles S lo (pairs ks cs hi) m) : hi = m := by
  induction ks generalizing cs lo with
  | nil =>
    match cs, hlen with
    | [c], _ => exact h.2
  | cons s ks ih =>
    match cs, hlen with
    | c :: cs, hlen => exact ih (by simpa using hlen) h.2

theorem Covers.path {b : Branch K (Tree K V d)} (h : Covers hi l b piece)
    (hp : Tiles (Ordered d) lo l hi) : Tiles (Ordered (d + 1)) lo (pieces b hi piece) hi := by
  match piece with
  | none => exact ⟨⟨h.1, h.2 ▸ hp⟩, rfl⟩
  | some (s, b') =>
    obtain ⟨h1, h2, rfl⟩ := h
    obtain ⟨m, p1, p2⟩ := Tiles.append.mp hp
    obtain rfl := Tiles.eq_of_pairs h1 p1
    exact ⟨⟨h1, p1⟩, ⟨h2, p2⟩, rfl⟩

/-- The entries of a subtree and of the piece next to it. -/
def piecesList (d : Nat) (t : Tree K V d) (piece : Option (K × Tree K V d)) : List (K × V) :=
  toList d t ++ (piece.map fun p => toList d p.2).getD []

omit [LinearOrder K] in
theorem piecesList_eq (t : Tree K V d) (piece : Option (K × Tree K V d)) (hi : Bound K) :
    piecesList d t piece = ((pieces t hi piece).map fun x => toList d x.1).flatten := by
  match piece with
  | none => simp [piecesList, pieces]
  | some (s, t') => simp [piecesList, pieces]

omit [LinearOrder K] in
theorem Covers.piecesList {b : Branch K (Tree K V d)} (h : Covers hi l b piece) :
    piecesList (d + 1) b piece = (l.map fun x => toList d x.1).flatten := by
  match piece with
  | none =>
    rw [← h.2, ← toList_branch h.1]
    exact List.append_nil _
  | some (s, b') =>
    obtain ⟨h1, h2, rfl⟩ := h
    rw [List.map_append, List.flatten_append, ← toList_branch h1, ← toList_branch h2]
    rfl

/-- A leaf cut in two at a position inside it. -/
theorem Ordered.split {es : List (K × V)} (h : Ordered 0 lo hi es) (h1 : 0 < mid)
    (h2 : mid < es.length) :
    ∃ e, (es.drop mid).head? = some e ∧ Ordered (V := V) 0 lo (Bound.key e.1) (es.take mid) ∧
      Ordered (V := V) 0 (Bound.key e.1) hi (es.drop mid) := by
  obtain ⟨-, hs, hb⟩ := h
  obtain ⟨e, es', he⟩ : ∃ e es', es.drop mid = e :: es' := by
    cases hd : es.drop mid with
    | nil => simp at hd; omega
    | cons e es' => exact ⟨e, es', rfl⟩
  rw [← List.take_append_drop mid es] at hs
  obtain ⟨hs1, hs2, hs12⟩ := sorted_append.mp hs
  have hlt : ∀ x ∈ es.take mid, x.1 < e.1 := fun x hx => hs12 x hx e (by simp [he])
  have hmem := hb e (List.mem_of_mem_drop (i := mid) (by simp [he]))
  refine ⟨e, by simp [he], ⟨?_, hs1, fun x hx => ?_⟩, ⟨hmem.2, hs2, fun x hx => ?_⟩⟩
  · have hx : es[0] ∈ es.take mid := List.mem_take_iff_getElem.mpr ⟨0, by omega, rfl⟩
    exact (hb _ (List.mem_of_mem_take hx)).1.trans_lt (Bound.key_lt_key.mpr (hlt _ hx))
  · exact ⟨(hb x (List.mem_of_mem_take hx)).1, Bound.key_lt_key.mpr (hlt x hx)⟩
  · refine ⟨?_, (hb x (List.mem_of_mem_drop hx)).2⟩
    have hx : x ∈ e :: es' := he ▸ hx
    rw [he, sorted_cons] at hs2
    rcases List.mem_cons.mp hx with rfl | hx
    · exact le_refl _
    · exact (Bound.key_lt_key.mpr (hs2.1 x hx)).le

/-- Insertion keeps the order and inserts into the entries. -/
theorem insert_ordered {t : Tree K V d} (cap : Nat) (hmax : 0 < leafMax) (h : Ordered d lo hi t)
    (hlo : lo ≤ Bound.key k) (hhi : Bound.key k < hi) (v : V) :
    Tiles (Ordered d) lo
      (pieces (insert leafMax cap d t k v).1 hi (insert leafMax cap d t k v).2) hi ∧
    piecesList d (insert leafMax cap d t k v).1 (insert leafMax cap d t k v).2 =
      SortedAssoc.insert k v (toList d t) := by
  induction d generalizing lo hi with
  | zero =>
    have hall : Ordered 0 lo hi (SortedAssoc.insert k v (toList 0 t)) := by
      refine ⟨h.1, Sorted.insert h.2.1, fun e he => ?_⟩
      rcases mem_insert he with rfl | he
      · exact ⟨hlo, hhi⟩
      · exact h.2.2 e he
    simp only [insert]
    split
    · exact ⟨⟨hall, rfl⟩, List.append_nil _⟩
    · next hsplit =>
      have hle := length_insert_le k v (toList 0 t)
      have hge := length_le_length_insert k v (toList 0 t)
      have e0 : (toList 0 t).length = List.length t := rfl
      have e1 : SortedAssoc.insert k v (toList 0 t) = SortedAssoc.insert k v t := rfl
      rw [e1, e0] at hle hge
      obtain ⟨e, he, h1, h2⟩ := hall.split
        (show 0 < (SortedAssoc.insert k v t).length / 2 by omega) (by show _ < List.length (SortedAssoc.insert k v t); omega)
      have he : (List.drop ((SortedAssoc.insert k v t).length / 2)
        (SortedAssoc.insert k v t)).head? = some e := he
      rw [he]
      exact ⟨⟨h1, h2, rfl⟩, List.take_append_drop _ _⟩
  | succ d ih =>
    obtain ⟨pre, c, bd, post, m, he, hi', hc, h1, h2, h3, h4, h5⟩ := h.focus hlo hhi
    obtain ⟨hpre, hpost⟩ := Tiles.sides h1 h3 h4 h5
    obtain ⟨hp, hl⟩ := ih h2 h4 h5
    simp only [insert, hc]
    have hcov := absorb_covers h.1 he cap (insert leafMax cap d c k v).1
      (insert leafMax cap d c k v).2
    rw [hi'] at hcov
    refine ⟨hcov.path ?_, ?_⟩
    · exact Tiles.append.mpr ⟨m, h1, Tiles.append.mpr ⟨bd, hp, h3⟩⟩
    · rw [hcov.piecesList, toList_branch h.1 hi, he]
      simp only [List.map_append, List.flatten_append, List.map_cons, List.flatten_cons]
      rw [← piecesList_eq, hl, insert_append_right hpre, insert_append_left hpost]

omit [LinearOrder K] in
theorem absorb_sized {b : Branch K (Tree K V d)} (hcap : 2 ≤ cap) (hle : b.seps.length ≤ cap)
    (hlow : 1 ≤ b.seps.length) (hlen : b.children.length = b.seps.length + 1)
    (hch : ∀ t ∈ b.children, Sized cap d 1 t) (hi : i ≤ b.seps.length) (hc : Sized cap d 1 c)
    (hpiece : ∀ s c', piece = some (s, c') → Sized cap d 1 c') :
    Sized cap (d + 1) 1 (absorb cap b i c piece).1 ∧
      ∀ s b', (absorb cap b i c piece).2 = some (s, b') → Sized cap (d + 1) 1 b' := by
  have hset : ∀ t ∈ b.children.set i c, Sized cap d 1 t := by
    intro t ht
    rcases List.mem_or_eq_of_mem_set ht with ht | rfl
    · exact hch t ht
    · exact hc
  match piece with
  | none => exact ⟨⟨hlow, hle, by simpa [absorb] using hlen, hset⟩, by simp [absorb]⟩
  | some (sep, c') =>
    have hks : (b.seps.insertIdx i sep).length = b.seps.length + 1 :=
      List.length_insertIdx_of_le_length hi _
    have hcs : ((b.children.set i c).insertIdx (i + 1) c').length = b.seps.length + 2 := by
      rw [List.length_insertIdx_of_le_length (by simp; omega)]; simp [hlen]
    have hmem : ∀ t ∈ (b.children.set i c).insertIdx (i + 1) c', Sized cap d 1 t := by
      intro t ht
      rcases List.eq_or_mem_of_mem_insertIdx ht with rfl | ht
      · exact hpiece sep _ rfl
      · exact hset t ht
    simp only [absorb]
    generalize b.seps.insertIdx i sep = ks at hks
    generalize (b.children.set i c).insertIdx (i + 1) c' = cs at hcs hmem
    split
    · exact ⟨⟨by simp; omega, by simp; omega, by simp; omega, hmem⟩, by simp⟩
    · have hmid : ks.length / 2 < ks.length := by omega
      rw [List.getElem?_eq_getElem hmid, Option.map_some]
      refine ⟨⟨by simp; omega, by simp; omega, by simp; omega,
        fun t ht => hmem t (List.mem_of_mem_take ht)⟩, ?_⟩
      rintro s b' ⟨⟩
      exact ⟨by simp; omega, by simp; omega, by simp; omega,
        fun t ht => hmem t (List.mem_of_mem_drop ht)⟩

/-- Insertion keeps the node sizes. -/
theorem insert_sized {t : Tree K V d} (hmax : 0 < leafMax) (hle : leafMax ≤ cap) (hcap : 2 ≤ cap)
    (h : Sized cap d low t) (hlow : 0 < d → 1 ≤ low) (k : K) (v : V) :
    Sized cap d 1 (insert leafMax cap d t k v).1 ∧
      ∀ s t', (insert leafMax cap d t k v).2 = some (s, t') → Sized cap d 1 t' := by
  induction d generalizing low with
  | zero =>
    have hle' := length_insert_le k v (toList 0 t)
    have hge := length_le_length_insert k v (toList 0 t)
    have hne : 0 < (SortedAssoc.insert k v (toList 0 t)).length :=
      List.length_pos_iff.mpr insert_ne_nil
    have ht : (toList 0 t).length ≤ cap := h.2
    have e0 : (toList 0 t).length = List.length t := rfl
    have e1 : SortedAssoc.insert k v (toList 0 t) = SortedAssoc.insert k v t := rfl
    rw [e1, e0] at hle' hge
    rw [e1] at hne
    rw [e0] at ht
    simp only [insert]
    split
    · exact ⟨⟨hne, by show List.length (SortedAssoc.insert k v t) ≤ cap; omega⟩, by simp⟩
    · refine ⟨⟨?_, ?_⟩, fun s t' he => ?_⟩
      · rw [List.length_take]; omega
      · rw [List.length_take]; omega
      · obtain ⟨e, -, he⟩ := Option.map_eq_some_iff.mp he
        cases he
        refine ⟨?_, ?_⟩
        · rw [List.length_drop]; omega
        · rw [List.length_drop]; omega
  | succ d ih =>
    obtain ⟨h1, h2, h3, h4⟩ := h
    have hi := childIndex_lt (k := k) h3
    have h1' := hlow (by omega)
    simp only [insert, List.getElem?_eq_getElem hi]
    obtain ⟨hc, hp⟩ := ih (h4 _ (List.getElem_mem hi)) fun _ => le_refl 1
    exact absorb_sized hcap h2 (by omega) h3 h4 childIndex_le hc hp

omit [LinearOrder K] in
theorem absorb_split_count {b : Branch K C} (hcap : 0 < cap)
    (hi : i ≤ b.seps.length) (h : (absorb cap b i c piece).2 ≠ none) :
    (absorb cap b i c piece).1.seps.length ≤ b.seps.length := by
  match piece with
  | none => exact absurd rfl h
  | some (sep, c') =>
    have hks : (b.seps.insertIdx i sep).length = b.seps.length + 1 :=
      List.length_insertIdx_of_le_length hi _
    simp only [absorb] at h ⊢
    split
    · next hlt => rw [if_pos hlt] at h; exact absurd rfl h
    · simp only [List.length_take, hks]; omega

/-- A node that splits keeps at most as many keys as it had. -/
theorem insert_split_count (t : Tree K V d) (k : K) (v : V) (hmax : 0 < leafMax)
    (hcap : 0 < cap) (h : (insert leafMax cap d t k v).2 ≠ none) :
    count d (insert leafMax cap d t k v).1 ≤ count d t := by
  cases d with
  | zero =>
    have hle := length_insert_le k v (toList 0 t)
    have e0 : (toList 0 t).length = List.length t := rfl
    have e1 : SortedAssoc.insert k v (toList 0 t) = SortedAssoc.insert k v t := rfl
    rw [e1, e0] at hle
    simp only [insert] at h ⊢
    split
    · next hin => rw [if_pos hin] at h; exact absurd rfl h
    · simp only [count, List.length_take]; omega
  | succ d =>
    simp only [insert] at h ⊢
    split
    · exact le_refl _
    · next x hx =>
      rw [hx] at h
      exact absorb_split_count hcap childIndex_le h

/-! ## Removal -/

theorem merge_ordered {a b : Tree K V d} (ha : Ordered d lo (Bound.key sep) a)
    (hb : Ordered d (Bound.key sep) hi b) :
    Ordered d lo hi (merge d a sep b) ∧ toList d (merge d a sep b) = toList d a ++ toList d b := by
  cases d with
  | zero =>
    refine ⟨⟨ha.1.trans hb.1, sorted_append.mpr ⟨ha.2.1, hb.2.1, fun x hx y hy => ?_⟩,
      fun e he => ?_⟩, rfl⟩
    · exact Bound.key_lt_key.mp ((ha.2.2 x hx).2.trans_le (hb.2.2 y hy).1)
    · rcases List.mem_append.mp he with he | he
      · exact ⟨(ha.2.2 e he).1, (ha.2.2 e he).2.trans hb.1⟩
      · exact ⟨ha.1.le.trans (hb.2.2 e he).1, (hb.2.2 e he).2⟩
  | succ d =>
    have hlen : (a.children ++ b.children).length = (a.seps ++ sep :: b.seps).length + 1 := by
      have := ha.1
      have := hb.1
      simp; omega
    refine ⟨⟨hlen, ?_⟩, by simp [merge, toList]⟩
    rw [merge, pairs_append _ _ _ _ ha.1]
    exact Tiles.append.mpr ⟨_, ha.2, hb.2⟩

/-- Joining two children keeps order and entries. -/
theorem rebalance_ordered {b : Branch K (Tree K V d)} (h : Ordered (d + 1) lo hi b) (cap j : Nat) :
    Ordered (d + 1) lo hi (rebalance cap d b j) ∧
      toList (d + 1) (rebalance cap d b j) = toList (d + 1) b := by
  obtain ⟨hlen, hp⟩ := h
  by_cases hj : j < b.seps.length
  · obtain ⟨pre, l, sep, r, bd, post, he, hpre, h1, h2, h3⟩ := pairs_neighbours hi hlen hj
    simp only [rebalance, h1, h2, h3]
    split
    · have hne : ((b.children.set j (merge d l sep r)).eraseIdx (j + 1)).length =
          (b.seps.eraseIdx j).length + 1 := by
        rw [List.length_eraseIdx_of_lt (by simp; omega), List.length_eraseIdx_of_lt hj]
        simp; omega
      have he' := pairs_eraseIdx hlen he (merge d l sep r)
      rw [hpre] at he'
      obtain ⟨m, p1, hl, hr, p2⟩ := Tiles.append.mp (he ▸ hp)
      obtain ⟨ho, ht⟩ := merge_ordered hl hr
      refine ⟨⟨hne, ?_⟩, ?_⟩
      · rw [he']
        exact Tiles.append.mpr ⟨m, p1, ho, p2⟩
      · rw [toList_branch hne hi, he', toList_branch hlen hi, he]
        simp [ht]
    · exact ⟨⟨hlen, hp⟩, rfl⟩
  · have hnone : b.seps[j]? = none := List.getElem?_eq_none (by omega)
    have e : rebalance cap d b j = b := by
      simp only [rebalance, hnone]
      split <;> simp_all
    rw [e]
    exact ⟨⟨hlen, hp⟩, rfl⟩

/-- Removal keeps the order and removes the key from the entries, whether or not nodes are
joined. -/
theorem delete_ordered {t : Tree K V d} (h : Ordered d lo hi t) (hlo : lo ≤ Bound.key k)
    (hhi : Bound.key k < hi) (cap : Nat) :
    Ordered d lo hi (delete cap d t k) ∧
      toList d (delete cap d t k) = SortedAssoc.erase k (toList d t) := by
  induction d generalizing lo hi with
  | zero =>
    exact ⟨⟨h.1, Sorted.erase h.2.1, fun e he => h.2.2 e (mem_erase.mp he).1⟩, rfl⟩
  | succ d ih =>
    obtain ⟨pre, c, bd, post, m, he, hi', hc, h1, h2, h3, h4, h5⟩ := h.focus hlo hhi
    obtain ⟨hpre, hpost⟩ := Tiles.sides h1 h3 h4 h5
    obtain ⟨ho, hl⟩ := ih h2 h4 h5
    simp only [delete, hc]
    have hset := pairs_set h.1 he (delete cap d c k)
    rw [hi'] at hset
    have hb : Ordered (d + 1) lo hi
        (⟨t.seps, t.children.set (childIndex t.seps k) (delete cap d c k)⟩ :
          Branch K (Tree K V d)) := by
      refine ⟨by simpa using h.1, ?_⟩
      rw [hset]
      exact Tiles.append.mpr ⟨m, h1, ho, h3⟩
    have hbl : toList (d + 1)
        (⟨t.seps, t.children.set (childIndex t.seps k) (delete cap d c k)⟩ :
          Branch K (Tree K V d)) = SortedAssoc.erase k (toList (d + 1) t) := by
      rw [toList_branch hb.1 hi, hset, toList_branch h.1 hi, he]
      simp only [List.map_append, List.flatten_append, List.map_cons, List.flatten_cons,
        erase_append, hl]
      rw [erase_of_notMem fun e he => ne_of_lt (hpre e he),
        erase_of_notMem fun e he => ne_of_gt (hpost e he)]
    by_cases hz : count d (delete cap d c k) = 0
    · obtain ⟨r1, r2⟩ := rebalance_ordered hb cap (childIndex t.seps k - 1)
      rw [if_pos hz]
      exact ⟨r1, r2.trans hbl⟩
    · rw [if_neg hz]
      exact ⟨hb, hbl⟩

/-- The neighbour child `i` would be joined with has too many keys for that. -/
def blocked (cap d : Nat) (b : Branch K (Tree K V d)) (i : Nat) : Bool :=
  match b.children[if i = 0 then 1 else i - 1]? with
  | none => false
  | some t => decide (cap < count d t + if d = 0 then 0 else 1)

/-- Removing `k` leaves the root node without keys. -/
def drains (cap : Nat) : (d : Nat) → Tree K V d → K → Bool
  | 0, es, k => decide ((toList 0 es).map Prod.fst = [k])
  | d + 1, b, k =>
    decide (b.seps.length = 1) && (b.children[childIndex b.seps k]?.any fun t => drains cap d t k) &&
      !blocked cap d b (childIndex b.seps k)

/-- Removing `k` leaves a child without keys next to a neighbour that is too full to join it. -/
def refuses (cap : Nat) : (d : Nat) → Tree K V d → K → Bool
  | 0, _, _ => false
  | d + 1, b, k =>
    (b.children[childIndex b.seps k]?.any fun t => refuses cap d t k) ||
      ((b.children[childIndex b.seps k]?.any fun t => drains cap d t k) &&
        blocked cap d b (childIndex b.seps k))

omit [LinearOrder K] in
theorem Sized.mono {t : Tree K V d} (h : Sized cap d low t) (hle : low' ≤ low) :
    Sized cap d low' t := by
  cases d with
  | zero => exact ⟨hle.trans h.1, h.2⟩
  | succ d => exact ⟨hle.trans h.1, h.2⟩

omit [LinearOrder K] in
theorem Sized.count_le {t : Tree K V d} (h : Sized cap d low t) :
    low ≤ count d t ∧ count d t ≤ cap := by
  cases d with
  | zero => exact h
  | succ d => exact ⟨h.1, h.2.1⟩

omit [LinearOrder K] in
theorem Sized.of_count {t : Tree K V d} (h : Sized cap d 0 t) (hc : count d t ≠ 0) :
    Sized cap d 1 t := by
  cases d with
  | zero => exact ⟨Nat.one_le_iff_ne_zero.mpr hc, h.2⟩
  | succ d => exact ⟨Nat.one_le_iff_ne_zero.mpr hc, h.2⟩

omit [LinearOrder K] in
theorem merge_sized {a b : Tree K V d} (ha : Sized cap d 0 a) (hb : Sized cap d 0 b)
    (hpos : 0 < count d a + count d b) (hle : mergedCount d a b ≤ cap) :
    Sized cap d 1 (merge d a sep b) := by
  cases d with
  | zero =>
    have e : List.length (merge 0 a sep b) = count 0 a + count 0 b := List.length_append
    have h : mergedCount 0 a b = count 0 a + count 0 b := rfl
    exact ⟨by omega, by omega⟩
  | succ d =>
    obtain ⟨-, -, ha1, ha2⟩ := ha
    obtain ⟨-, -, hb1, hb2⟩ := hb
    have h : mergedCount (d + 1) a b = a.seps.length + b.seps.length + 1 := rfl
    refine ⟨?_, ?_, ?_, fun t ht => ?_⟩
    · simp [merge]; omega
    · simp [merge]; omega
    · simp [merge]; omega
    · rcases List.mem_append.mp ht with ht | ht
      · exact ha2 t ht
      · exact hb2 t ht

omit [LinearOrder K] in
theorem mergedCount_eq (a b : Tree K V d) :
    mergedCount d a b = count d a + count d b + if d = 0 then 0 else 1 := by
  cases d <;> rfl

omit [LinearOrder K] in
/-- Joining the child without keys leaves one separator less and only proper children. -/
theorem rebalance_sized {b : Branch K (Tree K V d)} (hlow : 1 ≤ b.seps.length)
    (hlen : b.children.length = b.seps.length + 1) (hi : i < b.children.length)
    (hc : Sized cap d 0 b.children[i]) (hz : count d b.children[i] = 0)
    (hch : ∀ x t, x ≠ i → b.children[x]? = some t → Sized cap d 1 t)
    (hfree : blocked cap d b i = false) :
    (rebalance cap d b (i - 1)).seps.length + 1 = b.seps.length ∧
      (rebalance cap d b (i - 1)).children.length = b.seps.length ∧
      ∀ t ∈ (rebalance cap d b (i - 1)).children, Sized cap d 1 t := by
  have hj : i - 1 < b.seps.length := by omega
  have hsib : (if i = 0 then 1 else i - 1) < b.children.length := by split <;> omega
  obtain ⟨x, hx⟩ : ∃ x, b.children[if i = 0 then 1 else i - 1]? = some x :=
    ⟨_, List.getElem?_eq_getElem hsib⟩
  obtain ⟨l, hl⟩ : ∃ l, b.children[i - 1]? = some l := ⟨_, List.getElem?_eq_getElem (by omega)⟩
  obtain ⟨r, hr⟩ : ∃ r, b.children[i - 1 + 1]? = some r :=
    ⟨_, List.getElem?_eq_getElem (by omega)⟩
  have hfit : count d x + (if d = 0 then 0 else 1) ≤ cap := by simpa [blocked, hx] using hfree
  have hs1 := hch _ x (by split <;> omega) hx
  have hmerge : mergedCount d l r ≤ cap ∧ ∀ sep, Sized cap d 1 (merge d l sep r) := by
    have hpos := hs1.count_le.1
    rcases Nat.eq_zero_or_pos i with rfl | hi0
    · obtain rfl : b.children[0] = l := by simpa [List.getElem?_eq_getElem hi] using hl
      rw [if_pos rfl] at hx
      obtain rfl : x = r := Option.some.inj (hx.symm.trans hr)
      have hle : mergedCount d b.children[0] x ≤ cap := by rw [mergedCount_eq, hz]; omega
      exact ⟨hle, fun _ => merge_sized hc (hs1.mono (Nat.zero_le _)) (by omega) hle⟩
    · rw [if_neg (by omega)] at hx
      rw [Nat.sub_add_cancel hi0, List.getElem?_eq_getElem hi, Option.some.injEq] at hr
      obtain rfl : x = l := Option.some.inj (hx.symm.trans hl)
      subst hr
      have hle : mergedCount d x b.children[i] ≤ cap := by rw [mergedCount_eq, hz]; omega
      exact ⟨hle, fun _ => merge_sized (hs1.mono (Nat.zero_le _)) hc (by omega) hle⟩
  obtain ⟨hle, hm⟩ := hmerge
  rw [rebalance, hl, List.getElem?_eq_getElem hj, hr]
  simp only [if_pos hle]
  refine ⟨?_, ?_, fun t ht => ?_⟩
  · rw [List.length_eraseIdx_of_lt hj]; omega
  · rw [List.length_eraseIdx_of_lt (by simp; omega)]; simp; omega
  · obtain ⟨x, hx, hxt⟩ := List.mem_eraseIdx_iff_getElem?.mp ht
    rw [List.getElem?_set] at hxt
    split at hxt
    · split at hxt
      · cases hxt; exact hm _
      · cases hxt
    · exact hch x t (by omega) hxt

theorem erase_eq_nil_iff {es : List (K × V)} (hs : Sorted es) (hne : es ≠ []) :
    SortedAssoc.erase k es = [] ↔ es.map Prod.fst = [k] := by
  constructor
  · intro h
    have hall : ∀ e ∈ es, e.1 = k := fun e he => by
      by_contra hne
      have := mem_erase.mpr ⟨he, hne⟩
      rw [h] at this; simp at this
    match es, hne with
    | [e], _ => simp [hall e (by simp)]
    | e :: e' :: es, _ =>
      have hlt := (sorted_cons.mp hs).1 e' (by simp)
      rw [hall e (by simp), hall e' (by simp)] at hlt
      exact absurd hlt (lt_irrefl _)
  · intro h
    match es, hne with
    | [e], _ => simpa [erase] using h
    | e :: e' :: es, _ => simp at h

/-- Where no joining is refused, removal keeps the node sizes, up to the keys of the root node. -/
theorem delete_sized {t : Tree K V d} (ho : Ordered d lo hi t) (hlo : lo ≤ Bound.key k)
    (hhi : Bound.key k < hi) (h : Sized cap d low t) (hlow : 0 < d → 1 ≤ low)
    (hr : refuses cap d t k = false) :
    Sized cap d 0 (delete cap d t k) ∧
      (1 ≤ low → (count d (delete cap d t k) = 0 ↔ drains cap d t k = true)) := by
  induction d generalizing lo hi low with
  | zero =>
    have hle : List.length (SortedAssoc.erase k (toList 0 t)) ≤ (toList 0 t).length :=
      List.length_filter_le _ _
    refine ⟨⟨Nat.zero_le _, hle.trans h.2⟩, fun h1 => ?_⟩
    have hne : toList 0 t ≠ [] := List.length_pos_iff.mp (h1.trans h.1)
    have he := erase_eq_nil_iff (k := k) ho.2.1 hne
    rw [drains, decide_eq_true_iff]
    exact List.length_eq_zero_iff.trans he
  | succ d ih =>
    obtain ⟨h1, h2, h3, h4⟩ := h
    have hi' := childIndex_lt (k := k) h3
    have hlow' := hlow (by omega)
    obtain ⟨-, c, bd, -, m, -, -, hc, -, hoc, -, hm, hbd⟩ := ho.focus hlo hhi
    obtain rfl : t.children[childIndex t.seps k] = c := by
      rw [List.getElem?_eq_getElem hi'] at hc; simpa using hc
    simp only [refuses, hc, Option.any_some, Bool.or_eq_false_iff, Bool.and_eq_false_iff] at hr
    obtain ⟨hr1, hr2⟩ := hr
    obtain ⟨hs, hcount⟩ := ih hoc hm hbd (h4 _ (List.getElem_mem hi')) (fun _ => le_refl 1) hr1
    have hcount := hcount (le_refl 1)
    simp only [delete, hc, drains, Option.any_some]
    by_cases hz : count d (delete cap d t.children[childIndex t.seps k] k) = 0
    · have hfree : blocked cap d t (childIndex t.seps k) = false :=
        hr2.resolve_left (by rw [hcount.mp hz]; simp)
      rw [if_pos hz, hcount.mp hz, hfree]
      have hset : blocked cap d (⟨t.seps, t.children.set (childIndex t.seps k)
          (delete cap d t.children[childIndex t.seps k] k)⟩ : Branch K (Tree K V d))
          (childIndex t.seps k) = false := by
        rw [← hfree, blocked, blocked, List.getElem?_set_ne (by split <;> omega)]
      obtain ⟨e1, e2, e3⟩ := rebalance_sized (b := ⟨t.seps, t.children.set (childIndex t.seps k)
          (delete cap d t.children[childIndex t.seps k] k)⟩) (by simpa using hlow'.trans h1)
        (by simpa using h3) (by simpa using hi') (by simpa using hs) (by simpa using hz)
        (fun x c hx hxc => by
          rw [List.getElem?_set_ne (Ne.symm hx)] at hxc
          exact h4 c (List.mem_of_getElem? hxc)) hset
      simp only at e1 e2
      refine ⟨⟨Nat.zero_le _, by omega, by omega, e3⟩, fun _ => ?_⟩
      simp only [count, Bool.and_true, Bool.not_false, decide_eq_true_eq]
      omega
    · have hnd : drains cap d t.children[childIndex t.seps k] k = false := by
        rw [← Bool.not_eq_true, ← hcount]; exact hz
      rw [if_neg hz, hnd]
      refine ⟨⟨Nat.zero_le _, h2, by simpa using h3, fun c hcm => ?_⟩, fun h => ?_⟩
      · rcases List.mem_or_eq_of_mem_set hcm with hcm | rfl
        · exact h4 c hcm
        · exact hs.of_count hz
      · simp only [count, Bool.and_false, Bool.false_and]
        constructor
        · intro h0; omega
        · simp

/-! ## The whole tree -/

/-- The fewest keys of the root node: an empty tree is an empty leaf. -/
def rootLow (d : Nat) : Nat := if d = 0 then 0 else 1

theorem rootLow_le_one : rootLow d ≤ 1 := by rw [rootLow]; split <;> decide

theorem one_le_rootLow (hd : 0 < d) : 1 ≤ rootLow d := by rw [rootLow, if_neg (by omega)]

/-- A tree with its depth. -/
structure Root (K : Type u) (V : Type v) where
  depth : Nat
  tree : Tree K V depth

/-- The invariant between operations. -/
structure Root.Wf (cap : Nat) (r : Root K V) : Prop where
  ordered : Ordered r.depth ⊥ ⊤ r.tree
  sized : Sized cap r.depth (rootLow r.depth) r.tree

def Root.toList (r : Root K V) : List (K × V) := BPlusTree.toList r.depth r.tree

/-- Insertion grows a new root above a split one. -/
def Root.insert (leafMax cap : Nat) (r : Root K V) (k : K) (v : V) : Root K V :=
  match BPlusTree.insert leafMax cap r.depth r.tree k v with
  | (t, none) => ⟨r.depth, t⟩
  | (t, some (sep, t')) => ⟨r.depth + 1, ⟨[sep], [t, t']⟩⟩

/-- A root branch left without separators gives way to its only child. -/
def Root.shrink : Root K V → Root K V
  | ⟨0, t⟩ => ⟨0, t⟩
  | ⟨d + 1, b⟩ =>
    match b.seps, b.children with
    | [], t :: _ => ⟨d, t⟩
    | _, _ => ⟨d + 1, b⟩

omit [LinearOrder K] in
theorem Root.shrink_of_count {t : Tree K V d} (h : count d t ≠ 0) :
    Root.shrink ⟨d, t⟩ = ⟨d, t⟩ := by
  cases d with
  | zero => rfl
  | succ d =>
    obtain ⟨ks, cs⟩ := t
    match ks, h with
    | s :: ks, _ => rfl

def Root.delete (cap : Nat) (r : Root K V) (k : K) : Root K V :=
  Root.shrink ⟨r.depth, BPlusTree.delete cap r.depth r.tree k⟩

def Root.search (r : Root K V) (k : K) : Option V := BPlusTree.search r.depth r.tree k

def Root.refuses (cap : Nat) (r : Root K V) (k : K) : Bool :=
  BPlusTree.refuses cap r.depth r.tree k

theorem Root.Wf.search {r : Root K V} (h : r.Wf cap) (k : K) :
    r.search k = lookup k r.toList :=
  search_eq h.ordered h.sized one_le_rootLow bot_le Bound.key_lt_top

theorem Root.Wf.sorted {r : Root K V} (h : r.Wf cap) : Sorted r.toList := h.ordered.entries.2.1

theorem Root.Wf.insert {r : Root K V} (hmax : 0 < leafMax) (hle : leafMax ≤ cap) (hcap : 2 ≤ cap)
    (h : r.Wf cap) (k : K) (v : V) :
    (r.insert leafMax cap k v).Wf cap ∧
      (r.insert leafMax cap k v).toList = SortedAssoc.insert k v r.toList := by
  obtain ⟨hp, hl⟩ := insert_ordered cap hmax h.ordered (bot_le (a := Bound.key k))
    Bound.key_lt_top v
  obtain ⟨s1, s2⟩ := insert_sized hmax hle hcap h.sized one_le_rootLow k v
  simp only [Root.insert, Root.toList]
  rw [← hl]
  split
  · next t he =>
    rw [he] at hp s1
    exact ⟨⟨hp.1, s1.mono rootLow_le_one⟩, by rw [he]; exact (List.append_nil _).symm⟩
  · next t sep t' he =>
    rw [he] at hp s1
    refine ⟨⟨⟨rfl, hp⟩, ⟨le_refl 1, by show 1 ≤ cap; omega, rfl, ?_⟩⟩, ?_⟩
    · simp only [List.mem_cons, List.not_mem_nil, or_false]
      rintro x (rfl | rfl)
      · exact s1
      · exact s2 sep x (by rw [he])
    · rw [he]; simp [BPlusTree.toList, piecesList]

/-- Removal is removal from the entries, as long as no joining is refused. -/
theorem Root.Wf.delete {r : Root K V} (h : r.Wf cap) (hr : r.refuses cap k = false) :
    (r.delete cap k).Wf cap ∧ (r.delete cap k).toList = SortedAssoc.erase k r.toList := by
  obtain ⟨ho, hl⟩ := delete_ordered h.ordered (bot_le (a := Bound.key k)) Bound.key_lt_top cap
  have hs := (delete_sized h.ordered (bot_le (a := Bound.key k)) Bound.key_lt_top h.sized
    one_le_rootLow hr).1
  obtain ⟨d, t⟩ := r
  simp only [Root.delete, Root.toList] at hl ho hs ⊢
  rw [← hl]
  generalize BPlusTree.delete cap d t k = t' at ho hs
  cases d with
  | zero => exact ⟨⟨ho, hs⟩, rfl⟩
  | succ d =>
    obtain ⟨ks, cs⟩ := t'
    obtain ⟨-, h2, h3, h4⟩ := hs
    match ks, cs, h3 with
    | [], [c], _ =>
      refine ⟨⟨?_, (h4 c (by simp)).mono ?_⟩, by simp [Root.shrink, BPlusTree.toList]⟩
      · exact ho.2.1
      · exact rootLow_le_one
    | s :: ks, cs, h3 => exact ⟨⟨ho, ⟨by simp [rootLow, Root.shrink], h2, h3, h4⟩⟩, rfl⟩

end BPlusTree
