import Garry.Verify.BtreeDelete

/-!
# The B-tree is a sorted map

The representation invariant in terms of the pages alone, and runs of insertions.
-/

namespace Garry

open ByteStore BPlusTree LeafChain

variable {valueMax ps : Nat} {used : Set Int} {pool : Pool}

/-! ## The invariant on pages -/

/-- The leaves below a page from left to right. -/
def leavesOf (pool : Pool) : Nat → Int → List Int
  | 0, page => [page]
  | d + 1, page => (loadNode pool page).children.flatMap (leavesOf pool d)

/-- The subtree at `page` has its leaves `d` levels down; in every node the keys increase, they lie
in the interval `[lo, hi)` that the separators above leave to it, and there are at most three; the
top node has at least `low` keys and the others have at least one. -/
def NodeInv (pool : Pool) : (d low : Nat) → Bound Bytes → Bound Bytes → Int → Prop
  | 0, low, lo, hi, page =>
    let node := loadNode pool page
    node.kind = .leaf ∧ low ≤ node.entryCount ∧ node.entryCount ≤ maxKeysPerNode ∧
      node.keys.Pairwise (· < ·) ∧ ∀ k ∈ node.keys, lo ≤ Bound.key k ∧ Bound.key k < hi
  | d + 1, low, lo, hi, page =>
    let node := loadNode pool page
    node.kind = .internal ∧ low ≤ node.entryCount ∧ node.entryCount ≤ maxKeysPerNode ∧
      node.keys.Pairwise (· < ·) ∧ (∀ k ∈ node.keys, lo < Bound.key k ∧ Bound.key k < hi) ∧
      node.children.length = node.keys.length + 1 ∧
      Tiles (NodeInv pool d 1) lo (pairs node.keys node.children hi) hi

/-- The representation invariant of the tree at `root`: the node invariant down from the root, and
leaves whose `next_page` is the next leaf in order, `-1` for the last one. -/
def TreeInv (pool : Pool) (root : Int) : Prop :=
  ∃ d, NodeInv pool d (rootLow d) ⊥ ⊤ root ∧
    ∀ i (h : i < (leavesOf pool d root).length),
      (loadNode pool (leavesOf pool d root)[i]).nextPage =
        (leavesOf pool d root).getD (i + 1) (-1)

theorem nodeInv_of_repr (hl : Live valueMax ps pool used) {t : Tree Bytes Bytes d}
    (h : Repr valueMax ps pool.pages d t p f) (hs : ∀ q ∈ f.pages, q ∈ used)
    (ho : Ordered d lo hi t) (hsz : Sized maxKeysPerNode d low t) : NodeInv pool d low lo hi p := by
  induction d generalizing p f lo hi low with
  | zero =>
    have hload := hl.loadNode (hs p h.mem)
    obtain ⟨-, hk, rfl, -⟩ := h
    obtain ⟨-, hsorted, hb⟩ := ho
    rw [NodeInv, hload]
    refine ⟨hk, hsz.1, hsz.2, List.pairwise_map.mpr hsorted, fun k hk => ?_⟩
    obtain ⟨e, he, rfl⟩ := List.mem_map.mp hk
    exact hb e he
  | succ d ih =>
    have hload := hl.loadNode (hs p h.mem)
    have hcount := h.count
    obtain ⟨-, hk, hks, l, hlt, hlp, hsub, rfl⟩ := h
    obtain ⟨hlen, hp⟩ := ho
    obtain ⟨h1, h2, -, h4⟩ := hsz
    obtain ⟨hk1, hk2⟩ := hp.seps (fun hc => hc.entries.1) hlen
    rw [NodeInv, hload, hcount, hks, ← hlp]
    refine ⟨hk, h1, h2, hk1, hk2, by rw [List.length_map, ← hlen, ← hlt, List.length_map], ?_⟩
    rw [← hlt, pairs_map, Tiles.map] at hp
    rw [pairs_map, Tiles.map]
    refine hp.imp fun x hx lo hi hox => ?_
    have hxl : x.1 ∈ l := (List.of_mem_zip hx).1
    exact ih (hsub x.1 hxl) (fun q hq => hs q (List.mem_cons_of_mem _
      (Foot.mem_join.mpr ⟨x.1, hxl, hq⟩))) hox (h4 _ (by rw [← hlt]; exact List.mem_map_of_mem hxl))

/-- The leaf links of a foot are the leaves with their `next_page`. -/
theorem Repr.links_eq (hl : Live valueMax ps pool used) {t : Tree Bytes Bytes d}
    (h : Repr valueMax ps pool.pages d t p f) (hs : ∀ q ∈ f.pages, q ∈ used) :
    f.links = (leavesOf pool d p).map fun q => (q, (loadNode pool q).nextPage) := by
  induction d generalizing p f with
  | zero =>
    have hload := hl.loadNode (hs p h.mem)
    obtain ⟨-, -, -, rfl⟩ := h
    simp [leavesOf, hload]
  | succ d ih =>
    have hload := hl.loadNode (hs p h.mem)
    obtain ⟨-, -, -, l, -, hlp, hsub, rfl⟩ := h
    rw [leavesOf, hload, ← hlp, List.flatMap_map, List.map_flatMap]
    simp only [Foot.root, Foot.join]
    refine List.flatMap_congr fun x hx => ?_
    exact ih (hsub x hx) fun q hq => hs q (List.mem_cons_of_mem _ (Foot.mem_join.mpr ⟨x, hx, hq⟩))

theorem linked_getD {l : List (Int × Int)} (h : Linked l e) (i : Nat) (hi : i < l.length) :
    l[i].2 = (l.map Prod.fst).getD (i + 1) e := by
  induction l generalizing i with
  | nil => simp at hi
  | cons x l ih =>
    obtain ⟨h1, h2⟩ := h
    cases i with
    | zero =>
      rw [List.getElem_cons_zero, h1]
      cases l <;> simp [firstOr]
    | succ i =>
      rw [List.getElem_cons_succ, ih h2 i (by simpa using hi)]
      simp

theorem TreeAt.inv {r : Root Bytes Bytes} (h : TreeAt valueMax ps pool used root r f) :
    TreeInv pool root := by
  refine ⟨r.depth, nodeInv_of_repr h.live h.repr h.sub h.wf.ordered h.wf.sized, fun i hi => ?_⟩
  have hlinks := h.repr.links_eq h.live h.sub
  have hi' : i < f.links.length := by rw [hlinks]; simpa using hi
  have hg := linked_getD h.linked i hi'
  have hmap : f.links.map Prod.fst = leavesOf pool r.depth root := by
    rw [hlinks, List.map_map]; exact List.map_id _
  rw [hmap] at hg
  rw [← hg]
  simp only [hlinks, List.getElem_map]

/-! ## Runs of insertions -/

/-- An initially empty root leaf. -/
structure EmptyRoot (pool : Pool) (root : Int) : Prop where
  owns : ∃ used, root ∈ used ∧ pool.Owns used
  node : loadNode pool root = emptyNode

/-- A run of `garry_btree_insert` calls whose allocations and pins succeed; between two calls the
frames may come to hold other pages. -/
inductive InsertRun (pool : Pool) (root : Int) : List (Bytes × Bytes) → Pool → Int → Prop
  | nil : InsertRun pool root [] pool root
  | snoc : InsertRun pool root ops pool₁ root₁ → env.Serves → pool₁.HasIds →
      btreeInsert (pool₁.withEnv env) root₁ key value = some (inserted, pool₂, root₂) →
      InsertRun pool root (ops ++ [(key, value)]) pool₂ root₂

theorem TreeAt.withEnv {r : Root Bytes Bytes} (h : TreeAt valueMax ps pool used root r f)
    (he : env.Serves) : TreeAt valueMax ps (pool.withEnv env) used root r f :=
  { h with live := ⟨h.live.size, h.live.fits, h.live.owns.withEnv he⟩ }

/-- An empty leaf is the empty tree. -/
theorem Live.emptyTree (hl : Live valueMax ps pool used) (hroot : root ∈ used)
    (hn : Garry.loadNode pool root = emptyNode) :
    TreeAt valueMax ps pool used root ⟨0, []⟩ ⟨[(root, -1)], [root]⟩ := by
  rw [hl.loadNode hroot] at hn
  have hfits : NodeFits valueMax emptyNode := {
    shape := .inl ⟨rfl, rfl⟩
    level := by decide
    count := by decide
    entry := by simp [emptyNode]
    next := by decide
    prev := by decide
    child := by simp [emptyNode] }
  refine ⟨⟨hl, ?_, by simpa using hroot, by simp, rfl, trivial⟩, ⟨⟨by simp, by simp, by simp⟩, ?_⟩⟩
  · rw [Repr, hn]
    exact ⟨hfits, rfl, rfl, rfl⟩
  · exact ⟨le_refl 0, by simp⟩

/-- An empty root leaf is the empty tree. -/
theorem EmptyRoot.treeAt (h : EmptyRoot pool root) (hps : PageFits pool.pageSize valueMax) :
    ∃ used, TreeAt valueMax pool.pageSize pool used root ⟨0, []⟩ ⟨[(root, -1)], [root]⟩ := by
  obtain ⟨used, hroot, ho⟩ := h.owns
  have hl : Live valueMax pool.pageSize pool used := ⟨rfl, hps, ho⟩
  exact ⟨used, hl.emptyTree hroot h.node⟩

theorem owns_create {env : PoolEnv} (h : Pool.create file pageSize env = some pool)
    (he : env.Serves) : pool.Owns ∅ ∧ pool.pageSize = pageSize := by
  rw [Pool.create] at h
  split at h
  · cases h
  · cases h
    exact ⟨⟨he, le_refl 0, by simp, [], rfl, List.nodup_nil, by simp⟩, rfl⟩

/-- A leaf fresh from `garry_allocate_leaf` is an empty root. -/
theorem EmptyRoot.allocateLeaf (hl : Live valueMax ps pool used) :
    EmptyRoot (allocateLeaf pool).2 (allocateLeaf pool).1 ∧ (allocateLeaf pool).2.pageSize = ps ∧
      (allocateLeaf pool).2.nextPage ≤ pool.nextPage + 1 := by
  obtain ⟨q, pool', ha, -, -, -, hl', -, hn, -, buf, hbuf⟩ := hl.allocateNode .leaf
  have hq : q ∈ insert q used := Set.mem_insert ..
  rw [Garry.allocateLeaf, ha]
  refine ⟨⟨⟨_, hq, hl'.owns⟩, ?_⟩, hl'.size, hn⟩
  rw [hl'.loadNode hq, nodeAt, hbuf, loadPage_pageInit]

theorem lookup_snoc_reverse (ops : List (Bytes × Bytes)) (key value k : Bytes) :
    SortedAssoc.lookup k (ops ++ [(key, value)]).reverse =
      if k = key then some value else SortedAssoc.lookup k ops.reverse := by
  rw [List.reverse_append]; rfl

/-- A run of insertions leaves a tree with the value of the last insertion of each key. -/
theorem InsertRun.treeAt (hrun : InsertRun pool root ops pool' root') (h : EmptyRoot pool root)
    (hps : PageFits pool.pageSize valueMax)
    (hlen : ∀ e ∈ ops, e.1.length ≤ 255 ∧ e.2.length ≤ valueMax) :
    ∃ used r f, TreeAt valueMax pool.pageSize pool' used root' r f ∧
      ∀ k, SortedAssoc.lookup k r.toList = SortedAssoc.lookup k ops.reverse := by
  induction hrun with
  | nil =>
    obtain ⟨used, ht⟩ := h.treeAt hps
    exact ⟨used, _, _, ht, fun _ => rfl⟩
  | snoc hrun he hids hins ih =>
    obtain ⟨used, r, f, ht, hlook⟩ := ih fun e he => hlen e (List.mem_append_left _ he)
    obtain ⟨hk, hv⟩ := hlen _ (List.mem_append_right _ (List.mem_singleton_self _))
    obtain ⟨pool₂, root₂, used₂, f₂, h1, h2, -, -⟩ :=
      btreeInsert_tree (ht.withEnv he) hk hv hids
    rw [h1] at hins
    cases hins
    refine ⟨used₂, _, f₂, h2, fun k => ?_⟩
    rw [(ht.wf.insert (show 0 < 2 by decide) (by decide) (by decide) _ _).2,
      SortedAssoc.lookup_insert, lookup_snoc_reverse, hlook]

/-- The tree built by `garry_btree_insert` is a sorted map: after every run of insertions the
search gives each key the value of its last insertion, the representation invariant holds, and one
more insertion succeeds, answers its own key with the new value and leaves every other answer as
it was. -/
theorem btreeInsert_sortedMap (h : EmptyRoot pool root) (hps : 2048 ≤ pool.pageSize)
    (hmax : pool.pageSize ≤ maxPageSize) (hrun : InsertRun pool root ops pool' root')
    (hlen : ∀ e ∈ ops, 1 ≤ e.1.length ∧ e.1.length ≤ 255 ∧ 1 ≤ e.2.length ∧ e.2.length ≤ 255) :
    (∀ k, leafFindSearch pool' root' k = some (SortedAssoc.lookup k ops.reverse)) ∧
      TreeInv pool' root' ∧
      ∀ env key value, env.Serves → pool'.HasIds → 1 ≤ key.length → key.length ≤ 255 →
        1 ≤ value.length → value.length ≤ 255 →
        ∃ pool'' root'', btreeInsert (pool'.withEnv env) root' key value =
            some (true, pool'', root'') ∧
          leafFindSearch pool'' root'' key = some (some value) ∧
          ∀ k, k ≠ key → leafFindSearch pool'' root'' k = leafFindSearch pool' root' k := by
  have hfits : PageFits pool.pageSize 255 := ⟨by omega, hmax, le_refl 255⟩
  obtain ⟨used, r, f, ht, hlook⟩ := hrun.treeAt h hfits fun e he =>
    ⟨(hlen e he).2.1, (hlen e he).2.2.2⟩
  refine ⟨fun k => ?_, ht.inv, fun env key value he hids _ hk _ hv => ?_⟩
  · rw [ht.search, hlook]
  · obtain ⟨pool'', root'', used'', f'', h1, h2, -, -⟩ :=
      btreeInsert_tree (ht.withEnv he) hk hv hids
    obtain ⟨-, hl⟩ := ht.wf.insert (show 0 < 2 by decide) (by decide) (by decide) key value
    refine ⟨pool'', root'', h1, ?_, fun k hne => ?_⟩
    · rw [h2.search, hl, SortedAssoc.lookup_insert, if_pos rfl]
    · rw [h2.search, hl, SortedAssoc.lookup_insert, if_neg hne, ht.search]

/-- An empty root leaf in a new data file of pages of 2048 bytes. -/
theorem exists_emptyRoot :
    ∃ pool root, EmptyRoot pool root ∧ pool.pageSize = 2048 ∧ pool.nextPage ≤ 1 ∧ pool.Serves := by
  let env : PoolEnv := ⟨fun _ => false, fun _ => false, fun _ => true⟩
  have he : env.Serves := ⟨fun _ => rfl, fun _ => rfl⟩
  obtain ⟨pool, hp⟩ : ∃ pool, Pool.create ⟨0, fun _ => 0⟩ 2048 env = some pool := ⟨_, rfl⟩
  obtain ⟨ho, hsize⟩ := owns_create hp he
  have hn0 : pool.nextPage = 0 := by cases hp; rfl
  have hl : Live 255 2048 pool ∅ := ⟨hsize, ⟨by decide, by decide, by decide⟩, ho⟩
  obtain ⟨h, hs, hn⟩ := EmptyRoot.allocateLeaf hl
  exact ⟨_, _, h, hs, by omega, h.owns.choose_spec.2.serves⟩

theorem btreeInsert_sortedMap_single : ∃ pool root pool' root', EmptyRoot pool root ∧
    pool.pageSize = 2048 ∧ InsertRun pool root [([7], [1, 2])] pool' root' ∧
    leafFindSearch pool' root' [7] = some (some [1, 2]) ∧
    leafFindSearch pool' root' [8] = some none ∧ TreeInv pool' root' := by
  obtain ⟨pool, root, h, hs, hn, he⟩ := exists_emptyRoot
  have hids : pool.HasIds := by
    simp only [Pool.HasIds, pageIdLimit, pageIdBias]; omega
  obtain ⟨pool', root', hins, -⟩ := (btreeInsert_sortedMap h (by omega) (by rw [hs]; decide) .nil
    (by simp)).2.2 pool.env [7] [1, 2] he hids (by decide) (by decide) (by decide) (by decide)
  have hrun : InsertRun pool root [([7], [1, 2])] pool' root' := .snoc .nil he hids hins
  obtain ⟨h1, h2, -⟩ := btreeInsert_sortedMap h (by omega) (by rw [hs]; decide) hrun (by simp)
  exact ⟨pool, root, pool', root', h, hs, hrun, h1 [7], h1 [8], h2⟩

/-! ## Refused joinings -/

/-- The neighbour that child `idx` would be joined with: the left one, for the first child the
right one. -/
def neighbour (node : BtreeNode) (idx : Nat) : Int := node.child (if idx = 0 then 1 else idx - 1)

/-- The neighbour of child `idx` has no room for an internal node without keys and the separator
between them. -/
def neighbourFull (pool : Pool) (node : BtreeNode) (idx : Nat) : Bool :=
  let sibling := loadNode pool (neighbour node idx)
  decide (sibling.kind = .internal ∧ sibling.entryCount ≥ maxKeysPerNode)

/-- Deleting `key` leaves the node at `page` without keys. -/
def emptiesNode (pool : Pool) (key : Bytes) : Nat → Int → Bool
  | 0, _ => false
  | fuel + 1, page =>
    let node := loadNode pool page
    if node.kind = .leaf then decide (node.keys = [key])
    else
      let idx := internalFind node key
      decide (node.entryCount = 1) && emptiesNode pool key fuel (node.child idx) &&
        !neighbourFull pool node idx

/-- Deleting `key` leaves a node below `page` without keys beside a neighbour that is full. -/
def refusesMerge (pool : Pool) (key : Bytes) : Nat → Int → Bool
  | 0, _ => false
  | fuel + 1, page =>
    let node := loadNode pool page
    if node.kind = .leaf then false
    else
      let idx := internalFind node key
      refusesMerge pool key fuel (node.child idx) ||
        (emptiesNode pool key fuel (node.child idx) && neighbourFull pool node idx)

theorem Repr.child {t : Tree Bytes Bytes (d + 1)} (hl : Live valueMax ps pool used)
    (h : Repr valueMax ps pool.pages (d + 1) t p f) (hs : ∀ q ∈ f.pages, q ∈ used)
    (hi : t.children[i]? = some c) :
    ∃ g, Repr valueMax ps pool.pages d c ((loadNode pool p).child i) g ∧
      ∀ q ∈ g.pages, q ∈ used := by
  rw [hl.loadNode (hs p h.mem)]
  obtain ⟨-, -, -, l, hlt, hlp, hsub, rfl⟩ := h
  rw [← hlt, List.getElem?_map] at hi
  obtain ⟨x, hx, rfl⟩ := Option.map_eq_some_iff.mp hi
  have hxl := List.mem_of_getElem? hx
  refine ⟨x.foot, ?_, fun q hq => hs q (List.mem_cons_of_mem _ (Foot.mem_join.mpr ⟨x, hxl, hq⟩))⟩
  rw [BtreeNode.child, ← hlp, List.getD_eq_getElem?_getD, List.getElem?_map, hx]
  exact hsub x hxl

theorem neighbourFull_repr {t : Tree Bytes Bytes (d + 1)} (hl : Live valueMax ps pool used)
    (h : Repr valueMax ps pool.pages (d + 1) t p f) (hs : ∀ q ∈ f.pages, q ∈ used)
    (hsz : Sized maxKeysPerNode (d + 1) low t) (hlow : 1 ≤ low) (hi : i < t.children.length) :
    neighbourFull pool (loadNode pool p) i = blocked maxKeysPerNode d t i := by
  have hlen := h.children_length
  have hs1 : 1 ≤ t.seps.length := hlow.trans hsz.1
  have hsib : (if i = 0 then 1 else i - 1) < t.children.length := by split <;> omega
  obtain ⟨g, hg, hgs⟩ := h.child hl hs (List.getElem?_eq_getElem hsib)
  have hcnt := (hsz.2.2.2 _ (List.getElem_mem hsib)).count_le
  simp only [neighbourFull, blocked, List.getElem?_eq_getElem hsib]
  rw [decide_eq_decide, neighbour, hl.loadNode (hgs _ hg.mem), hg.kind, hg.count]
  cases d with
  | zero => simpa using hcnt.2
  | succ d => simp

theorem emptiesNode_repr (key : Bytes) (hl : Live valueMax ps pool used) {t : Tree Bytes Bytes d}
    (h : Repr valueMax ps pool.pages d t p f) (hs : ∀ q ∈ f.pages, q ∈ used)
    (hsz : Sized maxKeysPerNode d low t) (hlow : 0 < d → 1 ≤ low) (hfuel : d < fuel) :
    emptiesNode pool key fuel p = drains maxKeysPerNode d t key := by
  induction d generalizing p f low fuel with
  | zero =>
    obtain ⟨fuel, rfl⟩ := Nat.exists_eq_add_of_lt hfuel
    have hload := hl.loadNode (hs p h.mem)
    obtain ⟨-, hk, rfl, -⟩ := h
    rw [Nat.zero_add, emptiesNode, hload]
    simp only [hk, if_true]
    rfl
  | succ d ih =>
    obtain ⟨fuel, rfl⟩ : ∃ n, fuel = n + 1 := ⟨fuel - 1, by omega⟩
    have hload := hl.loadNode (hs p h.mem)
    have hi := childIndex_lt (k := key) h.children_length
    have hfull := neighbourFull_repr hl h hs hsz (hlow (by omega)) hi
    have hcount := h.count
    obtain ⟨g, hg, hgs⟩ := h.child hl hs (List.getElem?_eq_getElem hi)
    have hrec := ih hg hgs (hsz.2.2.2 _ (List.getElem_mem hi)) (fun _ => le_refl 1)
      (show d < fuel by omega)
    obtain ⟨-, hk, hks, -⟩ := h
    rw [hload] at hfull hrec
    rw [emptiesNode, hload, drains]
    simp only [internalFind_eq, hks, hk, hcount, List.getElem?_eq_getElem hi, hfull, hrec,
      reduceCtorEq, if_false]
    rfl

theorem refusesMerge_repr (hl : Live valueMax ps pool used) {t : Tree Bytes Bytes d}
    (h : Repr valueMax ps pool.pages d t p f) (hs : ∀ q ∈ f.pages, q ∈ used)
    (hsz : Sized maxKeysPerNode d low t) (hlow : 0 < d → 1 ≤ low) (hfuel : d < fuel) :
    refusesMerge pool key fuel p = refuses maxKeysPerNode d t key := by
  induction d generalizing p f low fuel with
  | zero =>
    obtain ⟨fuel, rfl⟩ := Nat.exists_eq_add_of_lt hfuel
    have hload := hl.loadNode (hs p h.mem)
    obtain ⟨-, hk, -⟩ := h
    rw [Nat.zero_add, refusesMerge, hload]
    simp only [hk, if_true]
    rfl
  | succ d ih =>
    obtain ⟨fuel, rfl⟩ : ∃ n, fuel = n + 1 := ⟨fuel - 1, by omega⟩
    have hload := hl.loadNode (hs p h.mem)
    have hi := childIndex_lt (k := key) h.children_length
    have hfull := neighbourFull_repr hl h hs hsz (hlow (by omega)) hi
    obtain ⟨g, hg, hgs⟩ := h.child hl hs (List.getElem?_eq_getElem hi)
    have hsub := hsz.2.2.2 _ (List.getElem_mem hi)
    have hempty := emptiesNode_repr key hl hg hgs hsub (fun _ => le_refl 1)
      (show d < fuel by omega)
    have hrec := ih hg hgs hsub (fun _ => le_refl 1) (show d < fuel by omega)
    obtain ⟨-, hk, hks, -⟩ := h
    rw [hload] at hfull hrec hempty
    rw [refusesMerge, hload, refuses]
    simp only [internalFind_eq, hks, hk, List.getElem?_eq_getElem hi, hfull, hrec, hempty,
      reduceCtorEq, if_false, Option.any_some]

theorem TreeAt.refusesMerge {r : Root Bytes Bytes} (h : TreeAt valueMax ps pool used root r f)
    (key : Bytes) : refusesMerge pool key pool.fuel root = r.refuses maxKeysPerNode key :=
  refusesMerge_repr h.live h.repr h.sub h.wf.sized one_le_rootLow h.depth_lt

/-! ## Runs of insertions and deletions -/

inductive TreeOp where
  | insert (key value : Bytes)
  | delete (key : Bytes)

namespace TreeOp

/-- The keys and values of an operation have 1 to 255 bytes. -/
def Fits : TreeOp → Prop
  | insert key value => (1 ≤ key.length ∧ key.length ≤ 255) ∧ 1 ≤ value.length ∧ value.length ≤ 255
  | delete key => 1 ≤ key.length ∧ key.length ≤ 255

/-- The pool and the root after the call. -/
def run (pool : Pool) (root : Int) : TreeOp → Option (Pool × Int)
  | insert key value => (btreeInsert pool root key value).map fun (_, pool, root) => (pool, root)
  | delete key => btreeDelete pool root key

/-- The map after the operation. -/
def onMap (m : Bytes → Option Bytes) : TreeOp → Bytes → Option Bytes
  | insert key value => Function.update m key (some value)
  | delete key => Function.update m key none

/-- No deletion meets a full neighbour. -/
def Merges (pool : Pool) (root : Int) : TreeOp → Prop
  | insert _ _ => True
  | delete key => refusesMerge pool key pool.fuel root = false

/-- The tree after the operation. -/
def onTree (r : Root Bytes Bytes) : TreeOp → Root Bytes Bytes
  | insert key value => r.insert 2 maxKeysPerNode key value
  | delete key => r.delete maxKeysPerNode key

end TreeOp

/-- A run of `garry_btree_insert` and `garry_btree_delete` calls that meet `ok`, whose allocations
and pins succeed; between two calls the frames may come to hold other pages. -/
inductive TreeRun (ok : Pool → Int → TreeOp → Prop) (pool : Pool) (root : Int) :
    List TreeOp → Pool → Int → Prop
  | nil : TreeRun ok pool root [] pool root
  | snoc : TreeRun ok pool root ops pool₁ root₁ → env.Serves → pool₁.HasIds →
      ok (pool₁.withEnv env) root₁ op → op.run (pool₁.withEnv env) root₁ = some (pool₂, root₂) →
      TreeRun ok pool root (ops ++ [op]) pool₂ root₂

/-- The map after a run. -/
def mapAfter (ops : List TreeOp) : Bytes → Option Bytes := ops.foldl TreeOp.onMap fun _ => none

/-- One call on a tree. -/
theorem TreeOp.run_tree {r : Root Bytes Bytes} (op : TreeOp)
    (h : TreeAt valueMax ps pool used root r f) (hv : 255 ≤ valueMax) (hop : op.Fits)
    (hids : pool.HasIds) :
    ∃ pool' root' used' f', op.run pool root = some (pool', root') ∧
      StoredAt valueMax ps pool' used' root' (op.onTree r) f' ∧
      pool'.nextPage ≤ pool.nextPage + 64 ∧
      (op.Merges pool root → (op.onTree r).Wf maxKeysPerNode ∧
        ∀ k, SortedAssoc.lookup k (op.onTree r).toList =
          op.onMap (fun k => SortedAssoc.lookup k r.toList) k) := by
  cases op with
  | insert key value =>
    obtain ⟨pool', root', used', f', h1, h2, h3, -⟩ :=
      btreeInsert_tree h hop.1.2 (hop.2.2.trans hv) hids
    refine ⟨pool', root', used', f', ?_, h2.toStoredAt, h3.le_next, fun _ => ⟨h2.wf, fun k => ?_⟩⟩
    · rw [TreeOp.run, h1]; rfl
    · simp only [TreeOp.onTree, TreeOp.onMap, Function.update_apply]
      rw [(h.wf.insert (show 0 < 2 by decide) (by decide) (by decide) _ _).2,
        SortedAssoc.lookup_insert]
  | delete key =>
    obtain ⟨pool', root', used', f', h1, h2, h3, -⟩ := btreeDelete_tree h key hids
    refine ⟨pool', root', used', f', h1, h2, by omega, fun hm => ?_⟩
    rw [TreeOp.Merges, h.refusesMerge] at hm
    obtain ⟨hwf, hl⟩ := h.wf.delete hm
    refine ⟨hwf, fun k => ?_⟩
    simp only [TreeOp.onTree, TreeOp.onMap, Function.update_apply]
    rw [hl, SortedAssoc.lookup_erase]

/-- A run without refused joinings leaves a tree with the entries of the map. -/
theorem TreeRun.treeAt (hrun : TreeRun (fun pool root op => op.Merges pool root) pool root ops
      pool' root') (h : EmptyRoot pool root) (hps : PageFits pool.pageSize valueMax)
    (hv : 255 ≤ valueMax) (hops : ∀ op ∈ ops, op.Fits) :
    ∃ used f, TreeAt valueMax pool.pageSize pool' used root' (ops.foldl TreeOp.onTree ⟨0, []⟩) f ∧
      ∀ k, SortedAssoc.lookup k (ops.foldl TreeOp.onTree ⟨0, []⟩ : Root Bytes Bytes).toList =
        mapAfter ops k := by
  induction hrun with
  | nil =>
    obtain ⟨used, ht⟩ := h.treeAt hps
    exact ⟨used, _, ht, fun _ => rfl⟩
  | snoc hrun he hids hok hop ih =>
    obtain ⟨used, f, ht, hmap⟩ := ih fun op hop => hops op (List.mem_append_left _ hop)
    obtain ⟨pool₂, root₂, used₂, f₂, h1, h2, -, h3⟩ := TreeOp.run_tree _ (ht.withEnv he) hv
      (hops _ (List.mem_append_right _ (List.mem_singleton_self _))) hids
    rw [h1] at hop
    cases hop
    obtain ⟨hwf, hl⟩ := h3 hok
    rw [mapAfter, List.foldl_append, List.foldl_append]
    refine ⟨used₂, f₂, ⟨h2, hwf⟩, fun k => ?_⟩
    rw [List.foldl_cons, List.foldl_nil, List.foldl_cons, List.foldl_nil, hl]
    congr 1
    exact funext hmap

/-- As long as no deletion meets a full neighbour, `garry_btree_delete` is map removal: in every
state reached the invariant holds and the search answers as the map does, and one more deletion
makes the search for its key fail, leaves every other answer as it was and keeps the invariant. -/
theorem btreeDelete_mapRemoval (h : EmptyRoot pool root) (hps : 2048 ≤ pool.pageSize)
    (hmax : pool.pageSize ≤ maxPageSize)
    (hrun : TreeRun (fun pool root op => op.Merges pool root) pool root ops pool' root')
    (hops : ∀ op ∈ ops, op.Fits) :
    (∀ k, leafFindSearch pool' root' k = some (mapAfter ops k)) ∧ TreeInv pool' root' ∧
      ∀ env key, env.Serves → pool'.HasIds → 1 ≤ key.length → key.length ≤ 255 →
        refusesMerge (pool'.withEnv env) key pool'.fuel root' = false →
        ∃ pool'' root'', btreeDelete (pool'.withEnv env) root' key = some (pool'', root'') ∧
          leafFindSearch pool'' root'' key = some none ∧
          (∀ k, k ≠ key → leafFindSearch pool'' root'' k = leafFindSearch pool' root' k) ∧
          TreeInv pool'' root'' := by
  have hfits : PageFits pool.pageSize 255 := ⟨by omega, hmax, le_refl 255⟩
  obtain ⟨used, f, ht, hmap⟩ := hrun.treeAt h hfits (le_refl 255) hops
  refine ⟨fun k => ?_, ht.inv, fun env key he hids h1 h2 hm => ?_⟩
  · rw [ht.search, hmap]
  · obtain ⟨pool'', root'', used'', f'', e1, e2, -, e3⟩ := TreeOp.run_tree (.delete key)
      (ht.withEnv he) (le_refl 255) ⟨h1, h2⟩ hids
    obtain ⟨hwf, hl⟩ := e3 hm
    have ht'' : TreeAt 255 pool.pageSize pool'' used'' root'' _ f'' := ⟨e2, hwf⟩
    refine ⟨pool'', root'', e1, ?_, fun k hne => ?_, ht''.inv⟩
    · rw [ht''.search, hl, TreeOp.onMap, Function.update_self]
    · rw [ht''.search, hl, TreeOp.onMap, Function.update_of_ne hne, ht.search]

theorem btreeDelete_mapRemoval_single : ∃ pool root pool' root' pool'' root'',
    EmptyRoot pool root ∧ TreeRun (fun pool root op => op.Merges pool root) pool root
      [.insert [7] [1]] pool' root' ∧
    refusesMerge pool' [7] pool'.fuel root' = false ∧
    btreeDelete pool' root' [7] = some (pool'', root'') ∧
    leafFindSearch pool'' root'' [7] = some none := by
  obtain ⟨pool, root, h, hs, hn, he⟩ := exists_emptyRoot
  have hids : pool.HasIds := by
    simp only [Pool.HasIds, pageIdLimit, pageIdBias]; omega
  have hfits : PageFits pool.pageSize 255 := by rw [hs]; exact ⟨by decide, by decide, by decide⟩
  obtain ⟨used, ht⟩ := h.treeAt hfits
  obtain ⟨pool', root', used', f', h1, h2, h3, h4⟩ := TreeOp.run_tree
    (.insert [7] [1]) (ht.withEnv he) (le_refl 255) (by simp [TreeOp.Fits]) hids
  have ht' : TreeAt 255 pool.pageSize pool' used' root' ⟨0, [([7], [1])]⟩ f' :=
    ⟨h2, (h4 trivial).1⟩
  have hn' : pool'.nextPage ≤ pool.nextPage + 64 := h3
  have hids' : pool'.HasIds := by
    simp only [Pool.HasIds, pageIdLimit, pageIdBias]; omega
  have hrun : TreeRun (fun pool root op => op.Merges pool root) pool root
      ([] ++ [.insert [7] [1]]) pool' root' := .snoc .nil he hids trivial h1
  have hm : refusesMerge pool' [7] pool'.fuel root' = false := by rw [ht'.refusesMerge]; rfl
  obtain ⟨-, -, hdel⟩ := btreeDelete_mapRemoval h (by omega) (by rw [hs]; decide) hrun
    (by simp [TreeOp.Fits])
  obtain ⟨pool'', root'', h5, h6, -⟩ := hdel pool'.env [7] ht'.live.serves hids' (by decide)
    (by decide) hm
  exact ⟨pool, root, pool', root', pool'', root'', h, hrun, hm, h5, h6⟩

/-! ## A refused joining -/

/-- No deletion of the operations is refused a joining. -/
def mergesAll (r : Root Bytes Bytes) : List TreeOp → Bool
  | [] => true
  | .insert key value :: ops => mergesAll (TreeOp.onTree r (.insert key value)) ops
  | .delete key :: ops =>
    !r.refuses maxKeysPerNode key && mergesAll (TreeOp.onTree r (.delete key)) ops

theorem mergesAll_snoc {r : Root Bytes Bytes} (h : mergesAll r (ops ++ [op]) = true) :
    mergesAll r ops = true ∧
      ∀ key, op = .delete key → (ops.foldl TreeOp.onTree r).refuses maxKeysPerNode key = false := by
  induction ops generalizing r with
  | nil =>
    refine ⟨rfl, ?_⟩
    rintro key rfl
    simpa [mergesAll] using h
  | cons x ops ih =>
    cases x with
    | insert key value => exact ih h
    | delete key =>
      simp only [List.cons_append, mergesAll, Bool.and_eq_true] at h ⊢
      obtain ⟨h1, h2⟩ := ih h.2
      exact ⟨⟨h.1, h1⟩, h2⟩

/-- Operations without refused joinings can be run from an empty root. -/
theorem exists_treeRun (h : EmptyRoot pool root)
    (hps : PageFits pool.pageSize valueMax) (hv : 255 ≤ valueMax) {ops : List TreeOp}
    (hops : ∀ op ∈ ops, op.Fits) (hm : mergesAll ⟨0, []⟩ ops = true)
    (hids : pool.nextPage + 64 * (ops.length + 1) ≤ pageIdLimit) :
    ∃ pool' root', TreeRun (fun _ _ _ => True) pool root ops pool' root' ∧ pool'.HasIds ∧
      ∃ used f, TreeAt valueMax pool.pageSize pool' used root'
        (ops.foldl TreeOp.onTree ⟨0, []⟩) f := by
  suffices ∃ pool' root' used f, TreeRun (fun _ _ _ => True) pool root ops pool' root' ∧
      pool'.nextPage ≤ pool.nextPage + 64 * ops.length ∧
      TreeAt valueMax pool.pageSize pool' used root' (ops.foldl TreeOp.onTree ⟨0, []⟩) f by
    obtain ⟨pool', root', used, f, h1, h2, h3⟩ := this
    exact ⟨pool', root', h1, by simp only [Pool.HasIds]; omega, used, f, h3⟩
  induction ops using List.reverseRecOn with
  | nil =>
    obtain ⟨used, ht⟩ := h.treeAt hps
    exact ⟨pool, root, used, _, .nil, by simp, ht⟩
  | append_singleton ops op ih =>
    obtain ⟨hm1, hm2⟩ := mergesAll_snoc hm
    rw [List.length_append, List.length_singleton] at hids ⊢
    push_cast at hids ⊢
    obtain ⟨pool₁, root₁, used, f, h1, h2, ht⟩ :=
      ih (fun op hop => hops op (List.mem_append_left _ hop)) hm1 (by omega)
    have hids₁ : pool₁.HasIds := by simp only [Pool.HasIds]; omega
    obtain ⟨pool₂, root₂, used₂, f₂, e1, e2, e3, e4⟩ := TreeOp.run_tree op ht hv
      (hops op (List.mem_append_right _ (List.mem_singleton_self _))) hids₁
    have hmerge : op.Merges pool₁ root₁ := by
      cases op with
      | insert key value => trivial
      | delete key => rw [TreeOp.Merges, ht.refusesMerge]; exact hm2 key rfl
    refine ⟨pool₂, root₂, used₂, f₂, .snoc h1 ht.live.serves hids₁ trivial e1, by omega, ?_⟩
    rw [List.foldl_append, List.foldl_cons, List.foldl_nil]
    exact ⟨e2, (e4 hmerge).1⟩

/-- Eight insertions make two internal nodes below the root, with two and three keys; two deletions
empty the first one, which the second is too full to join. -/
def refusedOps : List TreeOp :=
  [.insert [1] [1], .insert [2] [2], .insert [3] [3], .insert [4] [4], .insert [5] [5],
    .insert [6] [6], .insert [7] [7], .insert [8] [8], .delete [1]]

/-- After those operations the deletion of key 2 makes the search for key 3 fail. -/
theorem btreeDelete_loses_key : ∃ pool root pool' root' pool'' root'', EmptyRoot pool root ∧
    pool.pageSize = 2048 ∧ (∀ op ∈ refusedOps, op.Fits) ∧
    TreeRun (fun _ _ _ => True) pool root refusedOps pool' root' ∧ pool'.Serves ∧ pool'.HasIds ∧
    btreeDelete pool' root' [2] = some (pool'', root'') ∧
    leafFindSearch pool' root' [3] = some (some [3]) ∧
    leafFindSearch pool'' root'' [3] = some none := by
  obtain ⟨pool, root, h, hs, hn, -⟩ := exists_emptyRoot
  have hfits : PageFits pool.pageSize 255 := by rw [hs]; exact ⟨by decide, by decide, by decide⟩
  have hops : ∀ op ∈ refusedOps, op.Fits := by simp [refusedOps, TreeOp.Fits]
  obtain ⟨pool', root', hrun, hids, used, f, ht⟩ := exists_treeRun h hfits (le_refl 255) hops
    (by decide) (by simp only [refusedOps, pageIdLimit, pageIdBias, List.length_cons,
      List.length_nil]; omega)
  obtain ⟨pool'', root'', used'', f'', h1, h2, -⟩ := btreeDelete_tree ht [2] hids
  refine ⟨pool, root, pool', root', pool'', root'', h, hs, hops, hrun, ht.live.serves, hids, h1, ?_,
    ?_⟩
  · rw [StoredAt.search ht.toStoredAt]
    have hsearch : (refusedOps.foldl TreeOp.onTree ⟨0, []⟩).search [3] = some [3] := by decide
    rw [hsearch]
  · rw [h2.search]
    have hsearch : ((refusedOps.foldl TreeOp.onTree ⟨0, []⟩).delete maxKeysPerNode [2]).search [3] =
        none := by decide
    rw [hsearch]

end Garry
