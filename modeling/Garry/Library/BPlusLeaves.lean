import Garry.Library.BPlusTree

/-!
# The leaves of a B+ tree

Insertion puts the entry into one leaf, the one that a key is routed to, and cuts it if it is full.
The other leaves stay, on both sides.
-/

namespace BPlusTree

universe u v

variable {K : Type u} {V : Type v}

/-- The leaves from left to right. -/
def leaves : (d : Nat) → Tree K V d → List (List (K × V))
  | 0, es => [es]
  | d + 1, b => b.children.flatMap (leaves d)

/-- The leaves of a subtree and of the piece next to it. -/
def piecesLeaves (d : Nat) (t : Tree K V d) (piece : Option (K × Tree K V d)) :
    List (List (K × V)) :=
  leaves d t ++ (piece.map fun p => leaves d p.2).getD []

theorem piecesLeaves_eq (t : Tree K V d) (piece : Option (K × Tree K V d)) (hi : Bound K) :
    piecesLeaves d t piece = (pieces t hi piece).flatMap fun x => leaves d x.1 := by
  match piece with
  | none => simp [piecesLeaves, pieces]
  | some (s, t') => simp [piecesLeaves, pieces]

theorem leaves_branch {b : Branch K (Tree K V d)} (h : b.children.length = b.seps.length + 1)
    (hi : Bound K) :
    leaves (d + 1) b = (pairs b.seps b.children hi).flatMap fun x => leaves d x.1 := by
  have hp : (pairs b.seps b.children hi).map Prod.fst = b.children := pairs_fst h
  rw [leaves]
  nth_rewrite 1 [← hp]
  rw [List.flatMap_map]

theorem Covers.piecesLeaves {b : Branch K (Tree K V d)} (h : Covers hi l b piece) :
    piecesLeaves (d + 1) b piece = l.flatMap fun x => leaves d x.1 := by
  match piece with
  | none =>
    rw [← h.2, ← leaves_branch h.1]
    exact List.append_nil _
  | some (s, b') =>
    obtain ⟨h1, h2, rfl⟩ := h
    rw [List.flatMap_append, ← leaves_branch h1, ← leaves_branch h2]
    rfl

theorem flatten_leaves (t : Tree K V d) : (leaves d t).flatten = toList d t := by
  induction d with
  | zero => exact List.append_nil _
  | succ d ih =>
    rw [leaves, toList, List.flatMap, List.flatten_flatten, List.map_map]
    congr 1
    exact List.map_congr_left fun c _ => ih c

variable [LinearOrder K]

/-- The number of leaves left of the one that a key is routed to. -/
def leavesBefore : (d : Nat) → Tree K V d → K → Nat
  | 0, _, _ => 0
  | d + 1, b, k =>
    ((b.children.take (childIndex b.seps k)).flatMap (leaves d)).length +
      (b.children[childIndex b.seps k]?.map fun t => leavesBefore d t k).getD 0

/-- The leaves that take the place of a leaf that gets an entry. -/
def cutLeaf (leafMax : Nat) (k : K) (v : V) (es : List (K × V)) : List (List (K × V)) :=
  let all := SortedAssoc.insert k v es
  if all.length = es.length ∨ es.length < leafMax then [all]
  else [all.take (all.length / 2), all.drop (all.length / 2)]

/-- Insertion replaces the leaf that the key is routed to. -/
theorem insert_leaves {t : Tree K V d} (leafMax cap : Nat) (hmax : 0 < leafMax)
    (h : Ordered d lo hi t) (hlo : lo ≤ Bound.key k) (hhi : Bound.key k < hi) (v : V) :
    ∃ pre es post, leaves d t = pre ++ es :: post ∧ pre.length = leavesBefore d t k ∧
      piecesLeaves d (insert leafMax cap d t k v).1 (insert leafMax cap d t k v).2 =
        pre ++ (cutLeaf leafMax k v es ++ post) := by
  induction d generalizing lo hi with
  | zero =>
    refine ⟨[], t, [], rfl, rfl, ?_⟩
    simp only [insert, cutLeaf]
    split
    · rfl
    · next hsplit =>
      have hle := SortedAssoc.length_insert_le k v t
      have hge := SortedAssoc.length_le_length_insert k v t
      have hdrop : (SortedAssoc.insert k v t).drop ((SortedAssoc.insert k v t).length / 2) ≠ [] := by
        intro hnil
        have hlen := congrArg List.length hnil
        rw [List.length_drop, List.length_nil] at hlen
        omega
      obtain ⟨e, es, he⟩ := List.exists_cons_of_ne_nil hdrop
      rw [he]
      rfl
  | succ d ih =>
    obtain ⟨pre, c, bd, post, m, he, hi', hc, h1, h2, h3, h4, h5⟩ := h.focus hlo hhi
    obtain ⟨a, es, z, hl, hlen, hins⟩ := ih h2 h4 h5
    have hcov := absorb_covers h.1 he cap (insert leafMax cap d c k v).1
      (insert leafMax cap d c k v).2
    refine ⟨(pre.flatMap fun x => leaves d x.1) ++ a, es,
      z ++ post.flatMap fun x => leaves d x.1, ?_, ?_, ?_⟩
    · rw [leaves_branch h.1 hi, he, List.flatMap_append, List.flatMap_cons, hl]
      simp only [List.append_assoc, List.cons_append]
    · have hchildren : t.children = pre.map Prod.fst ++ c :: post.map Prod.fst := by
        have hp : (pairs t.seps t.children hi).map Prod.fst = t.children := pairs_fst h.1
        rw [← hp, he, List.map_append, List.map_cons]
      rw [leavesBefore, hc, ← hi', hchildren, List.take_left' (List.length_map ..), List.flatMap_map,
        List.length_append, hlen]
      rfl
    · simp only [insert, hc]
      rw [hi'] at hcov
      rw [hcov.piecesLeaves, List.flatMap_append, List.flatMap_append, ← piecesLeaves_eq, hins]
      simp only [List.append_assoc]

/-- Insertion into the whole tree replaces one leaf. -/
theorem Root.Wf.insert_leaves {r : Root K V} (h : r.Wf cap) (hmax : 0 < leafMax) (k : K) (v : V) :
    ∃ pre es post, leaves r.depth r.tree = pre ++ es :: post ∧
      pre.length = leavesBefore r.depth r.tree k ∧
      leaves (r.insert leafMax cap k v).depth (r.insert leafMax cap k v).tree =
        pre ++ (cutLeaf leafMax k v es ++ post) := by
  obtain ⟨pre, es, post, hl, hlen, hins⟩ := BPlusTree.insert_leaves leafMax cap hmax h.ordered
    (bot_le (a := Bound.key k)) Bound.key_lt_top v
  refine ⟨pre, es, post, hl, hlen, ?_⟩
  rw [← hins, Root.insert]
  split
  · next t he =>
    rw [he]
    exact (List.append_nil _).symm
  · next t sep t' he =>
    rw [he]
    simp [leaves, piecesLeaves]

/-- A leaf that gets a new key does not stay at its place. -/
theorem cutLeaf_head {es : List (K × V)} (hmax : 2 ≤ leafMax) (hk : ∀ e ∈ es, e.1 ≠ k) (v : V) :
    ∃ es' l, cutLeaf leafMax k v es = es' :: l ∧ es' ≠ es := by
  have hlen := SortedAssoc.length_insert_of_notMem (v := v) hk
  rw [cutLeaf]
  split
  · refine ⟨_, _, rfl, fun heq => ?_⟩
    rw [heq] at hlen
    omega
  · next hsplit =>
    refine ⟨_, _, rfl, fun heq => ?_⟩
    have htake := congrArg List.length heq
    rw [List.length_take] at htake
    omega

/-- If one element of a list is replaced, and what takes its place begins otherwise, then the place
is fixed. -/
theorem length_eq_of_replaced {α : Type u} {pre post pre' post' xs xs' : List α} {x x' : α}
    (h : pre ++ x :: post = pre' ++ x' :: post') (h' : pre ++ (xs ++ post) = pre' ++ (xs' ++ post'))
    (hx : ∃ y ys, xs = y :: ys ∧ y ≠ x) (hx' : ∃ y ys, xs' = y :: ys ∧ y ≠ x') :
    pre.length = pre'.length := by
  obtain ⟨y, ys, rfl, hy⟩ := hx
  obtain ⟨y', ys', rfl, hy'⟩ := hx'
  rcases Nat.lt_trichotomy pre.length pre'.length with hlt | heq | hlt
  · have e := congrArg (fun l => l[pre.length]?) h
    have e' := congrArg (fun l => l[pre.length]?) h'
    simp [List.getElem?_append_left hlt] at e e'
    rw [← e, Option.some.injEq] at e'
    exact absurd e' hy
  · exact heq
  · have e := congrArg (fun l => l[pre'.length]?) h
    have e' := congrArg (fun l => l[pre'.length]?) h'
    simp [List.getElem?_append_left hlt] at e e'
    rw [e, Option.some.injEq] at e'
    exact absurd e'.symm hy'

end BPlusTree
