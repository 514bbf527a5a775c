import Garry.Verify.BtreeInsert

/-!
# The leaves of a tree from left to right

A scan needs less of a tree than a change does: the nodes on its pages, the links between its
leaves and the order of its keys.
-/

namespace Garry

open ByteStore BPlusTree LeafChain

variable {valueMax ps : Nat} {pages : Int → PageBuffer} {pool : Pool}

/-- A leaf with its page. -/
abbrev Leaf := Int × BtreeNode

/-- The leaves with their pages. -/
def leavesAt (ps : Nat) (pages : Int → PageBuffer) (links : List (Int × Int)) : List Leaf :=
  links.map fun r => (r.1, nodeAt ps pages r.1)

/-- The entries of leaves. -/
def leafEntries (l : List Leaf) : List (Bytes × Bytes) := l.flatMap fun x => x.2.entries

@[simp] theorem leafEntries_nil : leafEntries [] = [] := rfl

@[simp] theorem leafEntries_cons (x : Leaf) (l : List Leaf) :
    leafEntries (x :: l) = x.2.entries ++ leafEntries l := rfl

@[simp] theorem leafEntries_append (l l' : List Leaf) :
    leafEntries (l ++ l') = leafEntries l ++ leafEntries l' := List.flatMap_append

/-- The links of leaves. -/
def leafLinks (l : List Leaf) : List (Int × Int) := l.map fun x => (x.1, x.2.nextPage)

/-- The leaves of a tree hold its entries, and its links are theirs. -/
theorem Repr.leaves {t : Tree Bytes Bytes d} (h : Repr valueMax ps pages d t p f) :
    leafLinks (leavesAt ps pages f.links) = f.links ∧
      leafEntries (leavesAt ps pages f.links) = toList d t := by
  induction d generalizing p f with
  | zero =>
    obtain ⟨-, -, rfl, rfl⟩ := h
    simp [leavesAt, leafLinks, leafEntries, toList]
  | succ d ih =>
    obtain ⟨-, -, -, l, hlt, -, hsub, rfl⟩ := h
    simp only [Foot.root, Foot.join, toList]
    rw [← hlt]
    clear hlt
    induction l with
    | nil => exact ⟨rfl, rfl⟩
    | cons x l ihl =>
      obtain ⟨h1, h2⟩ := ih (hsub x (by simp))
      obtain ⟨h3, h4⟩ := ihl fun y hy => hsub y (by simp [hy])
      simp only [leafLinks, leavesAt, leafEntries] at h1 h2 h3 h4 ⊢
      simp only [List.flatMap_cons, List.map_append, List.flatMap_append, List.map_cons, h1, h2, h3,
        h4, true_and]
      rfl

/-- The leaves of a tree are leaf nodes that fit their pages. -/
theorem Repr.leaf_fits {t : Tree Bytes Bytes d} (h : Repr valueMax ps pages d t p f)
    (hr : r ∈ f.links) :
    NodeFits valueMax (nodeAt ps pages r.1) ∧ (nodeAt ps pages r.1).kind = .leaf := by
  induction d generalizing p f with
  | zero =>
    obtain ⟨hf, hk, -, rfl⟩ := h
    obtain rfl := List.mem_singleton.mp hr
    exact ⟨hf, hk⟩
  | succ d ih =>
    obtain ⟨-, -, -, l, -, -, hsub, rfl⟩ := h
    obtain ⟨x, hx, hxr⟩ := List.mem_flatMap.mp hr
    exact ih (hsub x hx) hxr

/-- The leaves of a tree are some of its pages, in their order. -/
theorem Repr.links_sublist {t : Tree Bytes Bytes d} (h : Repr valueMax ps pages d t p f) :
    (f.links.map Prod.fst).Sublist f.pages := by
  induction d generalizing p f with
  | zero =>
    obtain ⟨-, -, -, rfl⟩ := h
    exact .refl _
  | succ d ih =>
    obtain ⟨-, -, -, l, -, -, hsub, rfl⟩ := h
    refine .cons _ ?_
    simp only [Foot.root, Foot.join]
    induction l with
    | nil => exact .refl _
    | cons x l ihl =>
      rw [List.flatMap_cons, List.map_append, List.flatMap_cons]
      exact (ih (hsub x (by simp))).append (ihl fun y hy => hsub y (by simp [hy]))

/-- The pages that the tree at page `root` reaches. -/
inductive TreePage (pool : Pool) (root : Int) : Int → Prop
  | root : TreePage pool root root
  | child : TreePage pool root p → (loadNode pool p).kind ≠ .leaf → q ∈ (loadNode pool p).children →
    TreePage pool root q

theorem Repr.treePage {t : Tree Bytes Bytes d} {f : Foot} (hs : pool.Serves)
    (h : Repr valueMax pool.pageSize pool.pages d t p f) (hpos : ∀ q ∈ f.pages, 0 ≤ q)
    (hp : TreePage pool root p) : ∀ q ∈ f.pages, TreePage pool root q := by
  induction d generalizing p f with
  | zero =>
    obtain ⟨-, -, -, rfl⟩ := h
    intro q hq
    obtain rfl := List.mem_singleton.mp hq
    exact hp
  | succ d ih =>
    have hload := loadNode_eq hs (hpos p h.mem)
    obtain ⟨-, hk, -, l, -, hlp, hsub, rfl⟩ := h
    intro q hq
    rcases List.mem_cons.mp hq with rfl | hq
    · exact hp
    · obtain ⟨x, hx, hq⟩ := Foot.mem_join.mp hq
      refine ih (hsub x hx) (fun y hy => hpos y ?_) ?_ q hq
      · exact List.mem_cons_of_mem _ (Foot.mem_join.mpr ⟨x, hx, hy⟩)
      · refine hp.child (by rw [hload, hk]; decide) ?_
        rw [hload, ← hlp]
        exact List.mem_map_of_mem hx

/-- What reading needs of the tree `r` at page `root`. -/
structure Readable (valueMax : Nat) (pool : Pool) (root : Int) (r : Root Bytes Bytes) (f : Foot) :
    Prop where
  serves : pool.Serves
  repr : Repr valueMax pool.pageSize pool.pages r.depth r.tree root f
  range : ∀ p ∈ f.pages, 0 ≤ p ∧ p < pool.nextPage
  nodup : f.pages.Nodup
  linked : Linked f.links (-1)
  wf : r.Wf maxKeysPerNode

theorem TreeAt.readable {r : Root Bytes Bytes} (h : TreeAt valueMax ps pool used root r f) :
    Readable valueMax pool root r f where
  serves := h.live.serves
  repr := by
    rw [h.live.size]
    exact h.repr
  range p hp := h.live.owns.range p (h.sub p hp)
  nodup := h.nodup
  linked := h.linked
  wf := h.wf

namespace Readable

variable {root : Int} {r : Root Bytes Bytes} {f : Foot}

theorem congr {pool' : Pool} (h : Readable valueMax pool root r f) (hs : pool'.Serves)
    (hps : pool'.pageSize = pool.pageSize) (hn : pool.nextPage ≤ pool'.nextPage)
    (hp : ∀ p ∈ f.pages, pool'.pages p = pool.pages p) : Readable valueMax pool' root r f where
  serves := hs
  repr := by
    rw [hps]
    exact h.repr.congr hp
  range p hp := ⟨(h.range p hp).1, (h.range p hp).2.trans_le hn⟩
  nodup := h.nodup
  linked := h.linked
  wf := h.wf

theorem loadNode (h : Readable valueMax pool root r f) (hp : p ∈ f.pages) :
    loadNode pool p = nodeAt pool.pageSize pool.pages p :=
  loadNode_eq h.serves (h.range p hp).1

theorem pages_length (h : Readable valueMax pool root r f) :
    f.pages.length ≤ pool.nextPage.toNat := by
  have := length_le_of_nodup h.nodup h.range
  omega

theorem depth_lt (h : Readable valueMax pool root r f) : r.depth < pool.fuel := by
  have h1 := h.repr.depth_lt
  have h2 := h.pages_length
  rw [Pool.fuel]
  omega

theorem search (h : Readable valueMax pool root r f) (key : Bytes) :
    leafFindSearch pool root key = some (SortedAssoc.lookup key r.toList) := by
  rw [← h.wf.search]
  exact leafFindSearchLoop_repr h.serves h.repr (fun p hp => (h.range p hp).1) h.depth_lt key

end Readable

/-- Consecutive leaves up to the last one of a tree. -/
structure Leaves (pool : Pool) (l : List Leaf) : Prop where
  load : ∀ x ∈ l, 0 ≤ x.1 ∧ loadNode pool x.1 = x.2
  count : ∀ x ∈ l, x.2.entries.length ≤ maxKeysPerNode
  linked : Linked (leafLinks l) (-1)
  short : l.length ≤ pool.nextPage.toNat

theorem Leaves.tail {x : Leaf} {l : List Leaf} (h : Leaves pool (x :: l)) : Leaves pool l where
  load y hy := h.load y (by simp [hy])
  count y hy := h.count y (by simp [hy])
  linked := h.linked.2
  short := by
    have := h.short
    simp only [List.length_cons] at this
    omega

theorem Leaves.suffix {l l' : List Leaf} (h : Leaves pool (l ++ l')) : Leaves pool l' := by
  induction l with
  | nil => exact h
  | cons x l ih => exact ih h.tail

/-- The page after a leaf is the next leaf. -/
theorem Leaves.next {x : Leaf} {l : List Leaf} (h : Leaves pool (x :: l)) :
    x.2.nextPage = (l.head?.map Prod.fst).getD (-1) := by
  have := h.linked.1
  cases l with
  | nil => exact this
  | cons y l => exact this

theorem Leaves.entries_length {l : List Leaf} (h : Leaves pool l) :
    (leafEntries l).length ≤ maxKeysPerNode * l.length := by
  induction l with
  | nil => exact le_rfl
  | cons x l ih =>
    have hx := h.count x (by simp)
    have hl := ih h.tail
    rw [leafEntries_cons, List.length_append, List.length_cons]
    simp only [maxKeysPerNode] at hx hl ⊢
    omega

theorem Readable.leaves {root : Int} {r : Root Bytes Bytes} {f : Foot}
    (h : Readable valueMax pool root r f) :
    Leaves pool (leavesAt pool.pageSize pool.pages f.links) ∧
      leafEntries (leavesAt pool.pageSize pool.pages f.links) = r.toList := by
  obtain ⟨hlinks, hentries⟩ := h.repr.leaves
  refine ⟨⟨fun x hx => ?_, fun x hx => ?_, by rw [hlinks]; exact h.linked, ?_⟩, hentries⟩
  · obtain ⟨q, hq, rfl⟩ := List.mem_map.mp hx
    have hp := h.repr.links_sub hq
    exact ⟨(h.range _ hp).1, h.loadNode hp⟩
  · obtain ⟨q, hq, rfl⟩ := List.mem_map.mp hx
    exact (h.repr.leaf_fits hq).1.count
  · have hlen := h.repr.links_sublist.length_le
    have hpages := h.pages_length
    rw [List.length_map] at hlen
    rw [leavesAt, List.length_map]
    omega

end Garry
