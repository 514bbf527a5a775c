import Garry.Model.BtreeModify
import Garry.Library.BPlusTree
import Garry.Library.LeafChain

/-!
# Pages that hold a B+ tree

`Repr` relates a tree as a value to the pages its nodes are stored in. The pages a subtree
occupies and its leaf links are its `Foot`; a change elsewhere leaves the subtree as it is.
-/

namespace Garry

open ByteStore BPlusTree LeafChain

/-- The node a page loads as. -/
def nodeAt (pageSize : Nat) (pages : Int → PageBuffer) (p : Int) : BtreeNode :=
  loadPage (pages p) pageSize

theorem loadNode_eq {pool : Pool} (hs : pool.Serves) (hp : 0 ≤ p) :
    loadNode pool p = nodeAt pool.pageSize pool.pages p := loadNode_of_pages hs hp

/-- The leaves of a subtree with their links, and all its pages. -/
structure Foot where
  links : List (Int × Int)
  pages : List Int

/-- The foot of two neighbouring subtrees. -/
def Foot.append (f g : Foot) : Foot := ⟨f.links ++ g.links, f.pages ++ g.pages⟩

/-- The foot of a branch at page `p` above the foot of its children. -/
def Foot.root (p : Int) (f : Foot) : Foot := ⟨f.links, p :: f.pages⟩

/-- A subtree in its pages. -/
structure Sub (d : Nat) where
  tree : Tree Bytes Bytes d
  page : Int
  foot : Foot

/-- The foot of consecutive subtrees. -/
def Foot.join (l : List (Sub d)) : Foot :=
  ⟨l.flatMap fun x => x.foot.links, l.flatMap fun x => x.foot.pages⟩

theorem Foot.join_append {l l' : List (Sub d)} :
    Foot.join (l ++ l') = (Foot.join l).append (Foot.join l') := by simp [join, append]

theorem Foot.mem_join {l : List (Sub d)} :
    q ∈ (Foot.join l).pages ↔ ∃ x ∈ l, q ∈ x.foot.pages := List.mem_flatMap

/-- The pages hold the tree `t` rooted at page `p`. -/
def Repr (valueMax pageSize : Nat) (pages : Int → PageBuffer) :
    (d : Nat) → Tree Bytes Bytes d → Int → Foot → Prop
  | 0, es, p, f =>
    NodeFits valueMax (nodeAt pageSize pages p) ∧ (nodeAt pageSize pages p).kind = .leaf ∧
      (nodeAt pageSize pages p).entries = es ∧
      f = ⟨[(p, (nodeAt pageSize pages p).nextPage)], [p]⟩
  | d + 1, b, p, f =>
    NodeFits valueMax (nodeAt pageSize pages p) ∧ (nodeAt pageSize pages p).kind = .internal ∧
      (nodeAt pageSize pages p).keys = b.seps ∧
      ∃ l : List (Sub d), l.map Sub.tree = b.children ∧
        l.map Sub.page = (nodeAt pageSize pages p).children ∧
        (∀ x ∈ l, Repr valueMax pageSize pages d x.tree x.page x.foot) ∧
        f = (Foot.join l).root p

variable {valueMax ps : Nat} {pages pages' : Int → PageBuffer}

theorem Repr.mem {t : Tree Bytes Bytes d} (h : Repr valueMax ps pages d t p f) : p ∈ f.pages := by
  cases d with
  | zero => obtain ⟨-, -, -, rfl⟩ := h; simp
  | succ d => obtain ⟨-, -, -, l, -, -, -, rfl⟩ := h; simp [Foot.root]

theorem Repr.fits {t : Tree Bytes Bytes d} (h : Repr valueMax ps pages d t p f) :
    NodeFits valueMax (nodeAt ps pages p) := by
  cases d with
  | zero => exact h.1
  | succ d => exact h.1

theorem Repr.kind {t : Tree Bytes Bytes d} (h : Repr valueMax ps pages d t p f) :
    (nodeAt ps pages p).kind = if d = 0 then .leaf else .internal := by
  cases d with
  | zero => exact h.2.1
  | succ d => exact h.2.1

theorem Repr.count {t : Tree Bytes Bytes d} (h : Repr valueMax ps pages d t p f) :
    (nodeAt ps pages p).entryCount = BPlusTree.count d t := by
  cases d with
  | zero => obtain ⟨-, -, rfl, -⟩ := h; rfl
  | succ d =>
    obtain ⟨-, -, hks, -⟩ := h
    rw [BtreeNode.entryCount, BPlusTree.count, ← hks, BtreeNode.keys, List.length_map]

/-- A subtree depends on its own pages only. -/
theorem Repr.congr {t : Tree Bytes Bytes d} (h : Repr valueMax ps pages d t p f)
    (hp : ∀ q ∈ f.pages, pages' q = pages q) : Repr valueMax ps pages' d t p f := by
  induction d generalizing p f with
  | zero =>
    have e : nodeAt ps pages' p = nodeAt ps pages p := by rw [nodeAt, hp p h.mem, nodeAt]
    rw [Repr, e]; exact h
  | succ d ih =>
    have e : nodeAt ps pages' p = nodeAt ps pages p := by rw [nodeAt, hp p h.mem, nodeAt]
    obtain ⟨h1, h2, h3, l, h4, h5, h6, rfl⟩ := h
    rw [Repr, e]
    refine ⟨h1, h2, h3, l, h4, h5, fun x hx => ih (h6 x hx) fun q hq => ?_, rfl⟩
    exact hp q (List.mem_cons_of_mem _ (Foot.mem_join.mpr ⟨x, hx, hq⟩))

/-- A subtree takes at least a page for each level, and two to the depth leaves. -/
theorem Repr.pow_le {t : Tree Bytes Bytes d} (h : Repr valueMax ps pages d t p f)
    (hs : Sized cap d low t) (hlow : 0 < d → 1 ≤ low) : 2 ^ d ≤ f.pages.length := by
  induction d generalizing p f low with
  | zero => obtain ⟨-, -, -, rfl⟩ := h; simp
  | succ d ih =>
    obtain ⟨-, -, -, l, hl, -, hsub, rfl⟩ := h
    obtain ⟨h1, -, h3, h4⟩ := hs
    have hlow := hlow (by omega)
    match l, hl with
    | [], hl => rw [← hl] at h3; simp at h3
    | [x], hl =>
      have h3 : 1 = t.seps.length + 1 := by rw [← h3, ← hl]; rfl
      omega
    | x :: y :: l, hl =>
      have hx := ih (hsub x (by simp)) (h4 x.tree (by rw [← hl]; simp)) fun _ => le_refl 1
      have hy := ih (hsub y (by simp)) (h4 y.tree (by rw [← hl]; simp)) fun _ => le_refl 1
      simp only [Foot.root, Foot.join, List.flatMap_cons, List.length_cons, List.length_append,
        Nat.pow_succ]
      omega

/-- A branch has one child more than separators. -/
theorem Repr.children_length {t : Tree Bytes Bytes (d + 1)}
    (h : Repr valueMax ps pages (d + 1) t p f) : t.children.length = t.seps.length + 1 := by
  obtain ⟨hf, hk, hks, l, hl, hlp, -, -⟩ := h
  rcases hf.shape with ⟨hk', -⟩ | ⟨-, hc, -⟩
  · rw [hk] at hk'; cases hk'
  · rw [← hl, ← hks, List.length_map, ← List.length_map (f := Sub.page), hlp, hc, BtreeNode.keys,
      List.length_map]

theorem Repr.depth_lt {t : Tree Bytes Bytes d} (h : Repr valueMax ps pages d t p f) :
    d < f.pages.length := by
  induction d generalizing p f with
  | zero => obtain ⟨-, -, -, rfl⟩ := h; simp
  | succ d ih =>
    have hlen := h.children_length
    obtain ⟨-, -, -, l, hl, -, hsub, rfl⟩ := h
    match l, hl with
    | [], hl => rw [← hl] at hlen; simp at hlen
    | x :: l, hl =>
      have := ih (hsub x (by simp))
      simp only [Foot.root, Foot.join, List.flatMap_cons, List.length_cons, List.length_append]
      omega

/-! ## Searching -/

theorem internalFind_eq (node : BtreeNode) (key : Bytes) :
    internalFind node key = childIndex node.keys key := by
  rw [internalFind, childIndex]
  congr 1
  funext k
  exact decide_eq_decide.mpr byteCompare_lt_zero

theorem leafFind_some {node : BtreeNode} (h : leafFind node key = some i) :
    ∃ e, node.entries[i]? = some e ∧ e.1 = key := by
  obtain ⟨hi, hk, -⟩ := List.findIdx?_eq_some_iff_getElem.mp h
  have hi' : i < node.entries.length := by simpa [BtreeNode.keys] using hi
  refine ⟨node.entries[i], List.getElem?_eq_getElem hi', ?_⟩
  simpa [BtreeNode.keys, byteEqual] using hk

theorem leafFind_none {node : BtreeNode} (h : leafFind node key = none) :
    ∀ e ∈ node.entries, e.1 ≠ key := by
  intro e he hk
  have := List.findIdx?_eq_none_iff.mp h e.1 (List.mem_map.mpr ⟨e, he, rfl⟩)
  simp [byteEqual, hk] at this

theorem findIdx?_lookup (es : List (Bytes × Bytes)) (key : Bytes) :
    ((es.findIdx? fun e => byteEqual e.1 key).bind fun i => es[i]?.map Prod.snd) =
      SortedAssoc.lookup key es := by
  induction es with
  | nil => rfl
  | cons e es ih =>
    rw [SortedAssoc.lookup, List.findIdx?_cons]
    by_cases h : key = e.1
    · simp [byteEqual, h]
    · have h' : ¬ e.1 = key := fun e => h e.symm
      rw [if_neg h, ← ih]
      simp [byteEqual, h', Option.bind_map]

theorem leafFind_lookup (node : BtreeNode) (key : Bytes) :
    ((leafFind node key).bind fun i => node.entries[i]?.map Prod.snd) =
      SortedAssoc.lookup key node.entries := by
  rw [leafFind, BtreeNode.keys, List.findIdx?_map, ← findIdx?_lookup]; rfl

/-- The search of the source on the pages of a tree is the search of the tree. -/
theorem leafFindSearchLoop_repr {pool : Pool} (hs : pool.Serves) {t : Tree Bytes Bytes d}
    (h : Repr valueMax pool.pageSize pool.pages d t p f) (hpos : ∀ q ∈ f.pages, 0 ≤ q)
    (hfuel : d < fuel) (key : Bytes) :
    leafFindSearchLoop pool key fuel p = some (search d t key) := by
  induction d generalizing p f fuel with
  | zero =>
    obtain ⟨fuel, rfl⟩ := Nat.exists_eq_add_of_lt hfuel
    have hp := hpos p h.mem
    obtain ⟨-, hk, hes, -⟩ := h
    rw [Nat.zero_add, leafFindSearchLoop, loadNode_eq hs hp]
    simp only [hk, if_true]
    rw [leafFind_lookup, hes]; rfl
  | succ d ih =>
    obtain ⟨fuel, rfl⟩ : ∃ n, fuel = n + 1 := ⟨fuel - 1, by omega⟩
    have hp := hpos p h.mem
    have h3 := h.children_length
    obtain ⟨hfit, hk, hks, l, hl, hlp, hsub, rfl⟩ := h
    have hempty : (nodeAt pool.pageSize pool.pages p).entryCount = 0 ↔ t.seps = [] := by
      rw [← hks, BtreeNode.keys, List.map_eq_nil_iff, BtreeNode.entryCount,
        List.length_eq_zero_iff]
    rw [leafFindSearchLoop, loadNode_eq hs hp, search]
    simp only [hk, reduceCtorEq, if_false, ne_eq, not_true_eq_false, hempty]
    by_cases hne : t.seps = []
    · rw [if_pos hne, if_pos hne]
    · have hi : childIndex t.seps key < l.length := by
        have := childIndex_lt (k := key) h3
        rw [← hl] at this; simpa using this
      have hx := List.getElem_mem hi
      rw [if_neg hne, if_neg hne, internalFind_eq, hks, BtreeNode.child, ← hlp, ← hl]
      simp only [List.getD_eq_getElem?_getD, List.getElem?_map, List.getElem?_eq_getElem hi,
        Option.map_some, Option.getD_some, Option.bind_some]
      exact ih (hsub _ hx) (fun q hq => hpos q (List.mem_cons_of_mem _
        (Foot.mem_join.mpr ⟨_, hx, hq⟩))) (by omega)

/-! ## Page writes -/

/-- `pool'` is `pool` after a store of `node` to page `p`. -/
structure Writes (pool pool' : Pool) (p : Int) (node : BtreeNode) : Prop where
  pageSize : pool'.pageSize = pool.pageSize
  env : pool'.env = pool.env
  nextPage : pool'.nextPage = pool.nextPage
  head : pool'.freeListHead = pool.freeListHead
  stored : nodeAt pool.pageSize pool'.pages p = node
  frame : ∀ q, q ≠ p → pool'.pages q = pool.pages q

/-- A pool that serves requests, whose pages have room for nodes. -/
structure Live (valueMax ps : Nat) (pool : Pool) (used : Set Int) : Prop where
  size : pool.pageSize = ps
  fits : PageFits ps valueMax
  owns : pool.Owns used

variable {used : Set Int}

theorem Live.serves {pool : Pool} (h : Live valueMax ps pool used) : pool.Serves := h.owns.serves

theorem Live.loadNode {pool : Pool} (h : Live valueMax ps pool used) (hp : p ∈ used) :
    loadNode pool p = nodeAt ps pool.pages p :=
  h.size ▸ loadNode_eq h.serves (h.owns.range p hp).1

theorem Writes.live {pool pool' : Pool} (h : Writes pool pool' p node)
    (hl : Live valueMax ps pool used) (hp : p ∈ used) : Live valueMax ps pool' used :=
  ⟨h.pageSize.trans hl.size, hl.fits, hl.owns.congr h.env h.nextPage h.head fun q hq =>
    h.frame q fun e => hq (e ▸ hp)⟩

theorem Writes.at {pool pool' : Pool} (h : Writes pool pool' p node)
    (hl : Live valueMax ps pool used) : nodeAt ps pool'.pages p = node := by
  have := h.stored
  rwa [hl.size] at this

theorem Writes.markDirty {pool pool' : Pool} (h : Writes pool pool' p node) (q : Int) :
    Writes pool (pool'.markDirty q) p node := { h with }

theorem Live.markDirty {pool : Pool} (h : Live valueMax ps pool used) (q : Int) :
    Live valueMax ps (pool.markDirty q) used := ⟨h.size, h.fits, h.owns.markDirty⟩

theorem Live.storeNode {pool : Pool} (h : Live valueMax ps pool used) (hp : p ∈ used)
    (hn : NodeFits valueMax node) : Writes pool (storeNode pool p node) p node := by
  obtain ⟨buf, e, hb⟩ := storeNode_eq h.serves (h.owns.range p hp).1 hn (h.size ▸ h.fits)
  rw [e]
  exact {
    pageSize := rfl
    env := rfl
    nextPage := rfl
    head := rfl
    stored := by simpa [nodeAt] using hb
    frame := fun q hq => Pool.setPage_pages_of_ne hq }

theorem Live.storeDirty {pool : Pool} (h : Live valueMax ps pool used) (hp : p ∈ used)
    (hn : NodeFits valueMax node) : Writes pool (storeDirty pool p node) p node :=
  (h.storeNode hp hn).markDirty p

/-- A new node page. -/
theorem Live.allocateNode {pool : Pool} (h : Live valueMax ps pool used) (kind : NodeKind) :
    ∃ q pool', allocateNode kind pool = (q, pool') ∧ 0 ≤ q ∧ q ∉ used ∧ q < pool'.nextPage ∧
      Live valueMax ps pool' (insert q used) ∧ pool.nextPage ≤ pool'.nextPage ∧
      pool'.nextPage ≤ pool.nextPage + 1 ∧ (∀ x, x ≠ q → pool'.pages x = pool.pages x) ∧
      ∃ buf, pool'.pages q = pageInit buf kind 0 ps := by
  obtain ⟨q, pool₁, ha, h0, hq, hlt, ho, hsz, -, hn1, hn2, hpg⟩ := h.owns.allocate
  have hpin := Pool.pinPage_eq ho.serves h0
  refine ⟨q, (pool₁.setPage q (pageInit (pool₁.pages q) kind 0 pool₁.pageSize)).markDirty q, ?_,
    h0, hq, hlt, ⟨hsz.trans h.size, h.fits, (ho.setPage (Set.mem_insert ..)).markDirty⟩, hn1, hn2,
    fun x hx => ?_, pool₁.pages q, ?_⟩
  · simp only [Garry.allocateNode, ha, hpin]
    rw [if_neg (by omega)]
  · rw [Pool.markDirty_pages, Pool.setPage_pages_of_ne hx, hpg, Function.update_of_ne hx]
  · rw [Pool.markDirty_pages, Pool.setPage_pages_self, hsz, h.size]

/-- A page fresh from `garry_page_init` loads as a node at its level without entries. -/
theorem loadPage_pageInit : loadPage (pageInit buf .leaf 0 ps) ps = emptyNode := by
  obtain ⟨ht, hl, hc, -, -⟩ := pageInit_word buf .leaf 0 ps
  simp only [pageHdrOffType, pageHdrOffLevel] at ht hl
  have hl := hl (by decide)
  simp only [loadPage, pageRecordCount, hc, ht, hl]
  rfl

/-! ## Change of a foot -/

/-- How the foot of a subtree changes while the pages in use grow from `used` to `used'`. -/
structure Evolves (used used' : Set Int) (f f' : Foot) : Prop where
  nodup : f'.pages.Nodup
  old : ∀ q ∈ f'.pages, q ∈ f.pages ∨ q ∉ used
  sub : ∀ q ∈ f'.pages, q ∈ used'
  links : Kept f.links f'.links

variable {used' : Set Int} {f f' : Foot}

/-- The change of a foot between two others. -/
theorem Evolves.context (h : Evolves used used' f f') {a b : Foot}
    (hn : (a.append (f.append b)).pages.Nodup) (hs : ∀ q ∈ (a.append (f.append b)).pages, q ∈ used)
    (hu : used ⊆ used') : Evolves used used' (a.append (f.append b)) (a.append (f'.append b)) := by
  simp only [Foot.append, List.mem_append, List.nodup_append] at hn hs
  obtain ⟨ha, ⟨-, hb, hfb⟩, haf⟩ := hn
  refine ⟨?_, fun q hq => ?_, fun q hq => ?_, h.links.context ..⟩
  · simp only [Foot.append, List.nodup_append, List.mem_append]
    refine ⟨ha, ⟨h.nodup, hb, fun q hq x hx => ?_⟩, fun q hq x hx => ?_⟩
    · rintro rfl
      rcases h.old q hq with ho | ho
      · exact hfb q ho q hx rfl
      · exact ho (hs q (.inr (.inr hx)))
    · rintro rfl
      rcases hx with hx | hx
      · rcases h.old q hx with ho | ho
        · exact haf q hq q (.inl ho) rfl
        · exact ho (hs q (.inl hq))
      · exact haf q hq q (.inr hx) rfl
  · simp only [Foot.append, List.mem_append] at hq ⊢
    rcases hq with hq | hq | hq
    · exact .inl (.inl hq)
    · exact (h.old q hq).imp_left fun ho => .inr (.inl ho)
    · exact .inl (.inr (.inr hq))
  · simp only [Foot.append, List.mem_append] at hq
    rcases hq with hq | hq | hq
    · exact hu (hs q (.inl hq))
    · exact h.sub q hq
    · exact hu (hs q (.inr (.inr hq)))

/-- The page of a branch above a changed foot. -/
theorem Evolves.root (h : Evolves used used' f f') (hp : p ∈ used) (hf : p ∉ f.pages)
    (hu : used ⊆ used') : Evolves used used' (f.root p) (f'.root p) := by
  have hf' : p ∉ f'.pages := fun hm => (h.old p hm).elim hf fun ho => ho hp
  refine ⟨List.nodup_cons.mpr ⟨hf', h.nodup⟩, fun q hq => ?_, fun q hq => ?_, h.links⟩
  · rcases List.mem_cons.mp hq with rfl | hq
    · exact .inl (List.mem_cons_self ..)
    · exact (h.old q hq).imp_left (List.mem_cons_of_mem _)
  · rcases List.mem_cons.mp hq with rfl | hq
    · exact hu hp
    · exact h.sub q hq

/-- A branch cut in two, the right half in the new page `q`. -/
theorem Evolves.split {a b : Foot} (h : Evolves used used' f (a.append b)) (hp : p ∈ used)
    (hf : p ∉ f.pages) (hu : used ⊆ used') (hq : q ∉ used') :
    Evolves used (insert q used') (f.root p) ((a.root p).append (b.root q)) := by
  have hroot := h.root hp hf hu
  have hperm : ((a.root p).append (b.root q)).pages.Perm (q :: ((a.append b).root p).pages) := by
    simp only [Foot.root, Foot.append, List.cons_append]
    exact (List.Perm.cons _ List.perm_middle).trans (List.Perm.swap ..)
  have hnew : q ∉ ((a.append b).root p).pages := fun hm => hq (hroot.sub q hm)
  refine ⟨hperm.nodup_iff.mpr (List.nodup_cons.mpr ⟨hnew, hroot.nodup⟩), fun x hx => ?_,
    fun x hx => ?_, h.links⟩
  · rcases List.mem_cons.mp (hperm.mem_iff.mp hx) with rfl | hx
    · exact .inr fun hm => hq (hu hm)
    · exact hroot.old x hx
  · rcases List.mem_cons.mp (hperm.mem_iff.mp hx) with rfl | hx
    · exact Set.mem_insert ..
    · exact Set.mem_insert_of_mem _ (hroot.sub x hx)

theorem Evolves.mono (h : Evolves used used' f f') (hu : used' ⊆ used'') :
    Evolves used used'' f f' := { h with sub := fun q hq => hu (h.sub q hq) }

/-- What an insertion does to the leaves of a subtree: one leaf takes the entry in place or splits,
and the others stay as they are. -/
inductive LeafStep (key value : Bytes) (before after : Int → BtreeNode) :
    List (Int × Int) → List (Int × Int) → Prop
  | inPlace (p x : Int) :
    ((SortedAssoc.insert key value (before p).entries).length = (before p).entries.length ∨
      (before p).entries.length < 2) →
    after p = { before p with entries := SortedAssoc.insert key value (before p).entries } →
    LeafStep key value before after [(p, x)] [(p, x)]
  | split (p q x : Int) (all : List (Bytes × Bytes)) :
    SortedAssoc.insert key value (before p).entries = all →
    all.length = (before p).entries.length + 1 → 2 ≤ (before p).entries.length →
    after p = { before p with entries := all.take (all.length / 2), nextPage := q } →
    (after q).kind = .leaf → (after q).entries = all.drop (all.length / 2) →
    (after q).nextPage = (before p).nextPage → (after q).prevPage = p →
    LeafStep key value before after [(p, x)] [(p, q), (q, x)]
  | context (a b : List (Int × Int)) : LeafStep key value before after l l' →
    (∀ r ∈ a ++ b, after r.1 = before r.1) →
    LeafStep key value before after (a ++ (l ++ b)) (a ++ (l' ++ b))

/-- Later changes of other pages. -/
theorem LeafStep.congr {key value : Bytes} {before after after' : Int → BtreeNode}
    {l l' : List (Int × Int)} (h : LeafStep key value before after l l')
    (hr : ∀ r ∈ l', after' r.1 = after r.1) : LeafStep key value before after' l l' := by
  induction h with
  | inPlace p x h1 h2 =>
    have e := hr (p, x) (by simp)
    exact .inPlace p x h1 (e.trans h2)
  | split p q x all h1 h2 h3 h4 h5 h6 h7 h8 =>
    have e := hr (p, q) (by simp)
    have e' := hr (q, x) (by simp)
    simp only at e e'
    refine .split p q x all h1 h2 h3 (e.trans h4) ?_ ?_ ?_ ?_ <;> rw [e'] <;> assumption
  | context a b _ hab ih =>
    refine .context a b (ih fun r hm => hr r (by simp [hm])) fun r hm => ?_
    rcases List.mem_append.mp hm with hm | hm
    · exact (hr r (by simp [hm])).trans (hab r (by simp [hm]))
    · exact (hr r (by simp [hm])).trans (hab r (by simp [hm]))

/-- Earlier changes of other pages. -/
theorem LeafStep.congr_before {key value : Bytes} {before before' after : Int → BtreeNode}
    {l l' : List (Int × Int)} (h : LeafStep key value before after l l')
    (hr : ∀ r ∈ l, before' r.1 = before r.1) : LeafStep key value before' after l l' := by
  induction h with
  | inPlace p x h1 h2 =>
    have e := hr (p, x) (by simp)
    simp only at e
    refine .inPlace p x ?_ ?_ <;> rw [e] <;> assumption
  | split p q x all h1 h2 h3 h4 h5 h6 h7 h8 =>
    have e := hr (p, x) (by simp)
    simp only at e
    refine .split p q x all ?_ ?_ ?_ ?_ h5 h6 ?_ h8 <;> rw [e] <;> assumption
  | context a b _ hab ih =>
    refine .context a b (ih fun r hm => hr r (by simp [hm])) fun r hm => ?_
    rcases List.mem_append.mp hm with hm | hm
    · exact (hab r (by simp [hm])).trans (hr r (by simp [hm])).symm
    · exact (hab r (by simp [hm])).trans (hr r (by simp [hm])).symm

/-- The leaves of a subtree are pages of it. -/
theorem Repr.links_sub {t : Tree Bytes Bytes d} (h : Repr valueMax ps pages d t p f)
    (hr : r ∈ f.links) : r.1 ∈ f.pages := by
  induction d generalizing p f with
  | zero =>
    obtain ⟨-, -, -, rfl⟩ := h
    obtain rfl := List.mem_singleton.mp hr
    simp
  | succ d ih =>
    obtain ⟨-, -, -, l, -, -, hsub, rfl⟩ := h
    obtain ⟨x, hx, hxr⟩ := List.mem_flatMap.mp hr
    exact List.mem_cons_of_mem _ (Foot.mem_join.mpr ⟨x, hx, ih (hsub x hx) hxr⟩)

end Garry
