import Garry.Verify.BtreeInsert

/-!
# Removal from a tree on pages

`btree_delete_rec` on the pages of a tree computes the removal from the tree, whether its
rebalancing joins the emptied child with a neighbour or refuses to.
-/

namespace Garry

open ByteStore BPlusTree LeafChain

variable {valueMax ps : Nat} {used : Set Int} {pool : Pool}

/-! ## Joining two children -/

/-- The node `rebalance_child` makes of two neighbours and their separator. -/
def mergedNode (left : BtreeNode) (sep : Bytes) (right : BtreeNode) : BtreeNode :=
  if left.kind = .internal then
    { left with
      entries := left.entries ++ (sep, []) :: right.entries
      children := left.children ++ right.children
      nextPage := right.nextPage }
  else { left with entries := left.entries ++ right.entries, nextPage := right.nextPage }

/-- The parent of a joined pair of children. -/
def joinedParent (parent : BtreeNode) (j : Nat) : BtreeNode :=
  { parent with
    entries := parent.entries.eraseIdx j
    children := (parent.children.eraseIdx (j + 1)).take parent.entryCount }

theorem joinChildren_eq (hleft : loadNode pool (parent.child j) = left)
    (hright : loadNode pool (parent.child (j + 1)) = right) (hl : NodeFits valueMax left)
    (hk : right.kind = left.kind) :
    joinChildren pool p parent j =
      if left.entryCount + right.entryCount + (if left.kind = .internal then 1 else 0) >
          maxKeysPerNode then (pool, parent, false)
      else (storeDirty (storeDirty pool (parent.child j)
        (mergedNode left (parent.keys.getD j []) right)) p (joinedParent parent j),
        joinedParent parent j, true) := by
  simp only [joinChildren, hleft, hright, hk, joinedParent]
  rcases hl.shape with ⟨hkl, -⟩ | ⟨hkl, hc, -⟩
  · have hne : ¬ left.kind = .internal := by rw [hkl]; decide
    simp only [mergedNode, if_neg hne]
  · have htake : left.children.take (left.entries ++ [(parent.keys.getD j [], [])]).length =
        left.children := List.take_of_length_le (by simp [hc])
    simp only [mergedNode, if_pos hkl, htake, List.append_assoc, List.singleton_append]

/-- Fewer pages, with the links around them kept. -/
theorem Evolves.shrink (hsub : f'.pages.Sublist f.pages) (hn : f.pages.Nodup)
    (hs : ∀ q ∈ f.pages, q ∈ used) (hk : Kept f.links f'.links) : Evolves used used f f' :=
  ⟨hn.sublist hsub, fun _ hq => .inl (hsub.subset hq), fun q hq => hs q (hsub.subset hq), hk⟩

/-- Two neighbouring subtrees, joined in the page of the left one. -/
theorem merge_repr {pages pages' : Int → PageBuffer} {x y : Sub d} (hsep : sep.length ≤ 255)
    (hx : Repr valueMax ps pages d x.tree x.page x.foot)
    (hy : Repr valueMax ps pages d y.tree y.page y.foot)
    (hn : (Foot.join [x, y]).pages.Nodup) (hs : ∀ q ∈ (Foot.join [x, y]).pages, q ∈ used)
    (hle : mergedCount d x.tree y.tree ≤ maxKeysPerNode) :
    NodeFits valueMax (mergedNode (nodeAt ps pages x.page) sep (nodeAt ps pages y.page)) ∧
      (nodeAt ps pages' x.page =
          mergedNode (nodeAt ps pages x.page) sep (nodeAt ps pages y.page) →
        (∀ q, q ≠ x.page → pages' q = pages q) →
        ∃ f, Repr valueMax ps pages' d (merge d x.tree sep y.tree) x.page f ∧
          Evolves used used (Foot.join [x, y]) f) := by
  obtain ⟨tx, px, fx⟩ := x
  obtain ⟨ty, py, fy⟩ := y
  simp only [Foot.join, List.flatMap_cons, List.flatMap_nil, List.append_nil] at hx hy hn hs hle ⊢
  cases d with
  | zero =>
    obtain ⟨hfx, hkx, rfl, rfl⟩ := hx
    obtain ⟨hfy, hky, rfl, rfl⟩ := hy
    have hne : ¬ (nodeAt ps pages px).kind = .internal := by rw [hkx]; decide
    have hlen : ((nodeAt ps pages px).entries ++ (nodeAt ps pages py).entries).length ≤
        maxKeysPerNode := by rw [List.length_append]; exact hle
    have hfits := hfx.withEntries hkx _ (fun e he => (List.mem_append.mp he).elim (hfx.entry e)
      (hfy.entry e)) hlen
    rw [mergedNode, if_neg hne]
    have hfits' : NodeFits valueMax { nodeAt ps pages px with
      entries := (nodeAt ps pages px).entries ++ (nodeAt ps pages py).entries
      nextPage := (nodeAt ps pages py).nextPage } := { hfits with next := hfy.next }
    refine ⟨hfits', fun hp _ => ⟨_, repr_of_leaf hp hfits' hkx, ?_⟩⟩
    exact .shrink (by simp) hn hs Kept.join
  | succ d =>
    obtain ⟨hfx, hkx, hksx, lx, hltx, hlpx, hsubx, rfl⟩ := hx
    obtain ⟨hfy, hky, hksy, ly, hlty, hlpy, hsuby, rfl⟩ := hy
    obtain ⟨hcx, hex⟩ := hfx.branch_entry hkx
    obtain ⟨hcy, hey⟩ := hfy.branch_entry hky
    have hle : tx.seps.length + ty.seps.length + 1 ≤ maxKeysPerNode := hle
    have hlx : (nodeAt ps pages px).entries.length = tx.seps.length := by
      rw [← hksx]; simp [BtreeNode.keys]
    have hly : (nodeAt ps pages py).entries.length = ty.seps.length := by
      rw [← hksy]; simp [BtreeNode.keys]
    rw [mergedNode, if_pos hkx]
    have hfits := hfx.withBranch hkx
      ((nodeAt ps pages px).entries ++ (sep, []) :: (nodeAt ps pages py).entries)
      ((nodeAt ps pages px).children ++ (nodeAt ps pages py).children)
      (fun e he => by
        rcases List.mem_append.mp he with he | he
        · exact hex e he
        rcases List.mem_cons.mp he with rfl | he
        · exact ⟨hsep, rfl⟩
        · exact hey e he)
      (by simp only [List.length_append, List.length_cons]; omega)
      (by simp only [List.length_append, List.length_cons]; omega)
      (fun c hc => (List.mem_append.mp hc).elim (hfx.child c) (hfy.child c))
    have hfits' : NodeFits valueMax { nodeAt ps pages px with
      entries := (nodeAt ps pages px).entries ++ (sep, []) :: (nodeAt ps pages py).entries
      children := (nodeAt ps pages px).children ++ (nodeAt ps pages py).children
      nextPage := (nodeAt ps pages py).nextPage } := { hfits with next := hfy.next }
    refine ⟨hfits', fun hp hframe => ?_⟩
    simp only [Foot.root, List.cons_append, List.nodup_cons, List.mem_append, not_or] at hn
    have hsub : ∀ z ∈ lx ++ ly, Repr valueMax ps pages' d z.tree z.page z.foot := by
      intro z hz
      have hz' : Repr valueMax ps pages d z.tree z.page z.foot :=
        (List.mem_append.mp hz).elim (hsubx z) (hsuby z)
      refine hz'.congr fun q hq => hframe q ?_
      rintro rfl
      rcases List.mem_append.mp hz with h | h
      · exact hn.1.1 (Foot.mem_join.mpr ⟨z, h, hq⟩)
      · exact hn.1.2 (List.mem_cons_of_mem _ (Foot.mem_join.mpr ⟨z, h, hq⟩))
    have hr := repr_of_branch (l := lx ++ ly) hp hfits' hkx
      (tx.seps ++ sep :: ty.seps) (by
        rw [← hksx, ← hksy]; simp [BtreeNode.keys]) (by simp [hlpx, hlpy]) hsub
    have htree : merge (d + 1) tx sep ty =
        (⟨tx.seps ++ sep :: ty.seps, (lx ++ ly).map Sub.tree⟩ :
          Branch Bytes (Tree Bytes Bytes d)) := by
      rw [merge, List.map_append, hltx, hlty]
    rw [htree]
    refine ⟨_, hr, .shrink ?_ ?_ hs ?_⟩
    · rw [Foot.join_append]
      exact List.Sublist.cons_cons _ (List.Sublist.append_left (List.sublist_cons_self ..) _)
    · simpa [Foot.root] using hn
    · rw [Foot.join_append]
      exact Kept.rfl

theorem rebalance_middle {ks : List Bytes} {pre post : List (Sub d)} {x y : Sub d}
    (hsep : ks[pre.length]? = some sep) (cap : Nat) :
    rebalance cap d (⟨ks, (pre ++ x :: y :: post).map Sub.tree⟩ :
        Branch Bytes (Tree Bytes Bytes d)) pre.length =
      if mergedCount d x.tree y.tree ≤ cap then
        ⟨ks.eraseIdx pre.length,
          pre.map Sub.tree ++ merge d x.tree sep y.tree :: post.map Sub.tree⟩
      else ⟨ks, (pre ++ x :: y :: post).map Sub.tree⟩ := by
  have h0 : ((pre ++ x :: y :: post).map Sub.tree)[pre.length]? = some x.tree := by simp
  have h1 : ((pre ++ x :: y :: post).map Sub.tree)[pre.length + 1]? = some y.tree := by
    rw [List.map_append, List.getElem?_append_right (by simp)]; simp
  simp only [rebalance, h0, h1, hsep]
  congr 2
  rw [List.map_append, List.map_cons, ← List.length_map (f := Sub.tree), set_middle]
  rw [List.eraseIdx_append_of_length_le (by simp)]
  simp

/-- `rebalance_child` on the pages of a branch. -/
theorem joinChildren_repr (hl : Live valueMax ps pool used) (hn : nodeAt ps pool.pages p = node)
    (hf : NodeFits valueMax node) (hk : node.kind = .internal) (hks : node.keys = ks)
    {l : List (Sub d)} (hlp : l.map Sub.page = node.children)
    (hsub : ∀ z ∈ l, Repr valueMax ps pool.pages d z.tree z.page z.foot)
    (hs : ∀ q ∈ ((Foot.join l).root p).pages, q ∈ used)
    (hnd : ((Foot.join l).root p).pages.Nodup) (hj : j < ks.length) :
    ∃ pool' node' merged f', joinChildren pool p node j = (pool', node', merged) ∧
      node'.entryCount = (rebalance 3 d (⟨ks, l.map Sub.tree⟩ :
        Branch Bytes (Tree Bytes Bytes d)) j).seps.length ∧
      Grows valueMax ps used used pool pool' 0 ((Foot.join l).root p).pages ∧
      Repr valueMax ps pool'.pages (d + 1) (rebalance 3 d ⟨ks, l.map Sub.tree⟩ j) p f' ∧
      Evolves used used ((Foot.join l).root p) f' := by
  have hp : p ∈ used := hs p (List.mem_cons_self ..)
  obtain ⟨hpj, hnj⟩ := List.nodup_cons.mp hnd
  have hsj : ∀ q ∈ (Foot.join l).pages, q ∈ used := fun q hq => hs q (List.mem_cons_of_mem _ hq)
  obtain ⟨hcl, hents⟩ := hf.branch_entry hk
  have hel : node.entries.length = ks.length := by rw [← hks]; simp [BtreeNode.keys]
  have hll : l.length = ks.length + 1 := by
    rw [← hel, ← hcl, ← hlp, List.length_map]
  obtain ⟨pre, x, y, post, rfl, rfl⟩ : ∃ pre x y post, l = pre ++ x :: y :: post ∧
      pre.length = j :=
    ⟨l.take j, l[j], l[j + 1], l.drop (j + 2), by
      rw [List.getElem_cons_drop, List.getElem_cons_drop, List.take_append_drop],
      by rw [List.length_take]; omega⟩
  obtain ⟨sep, hsep⟩ : ∃ sep, ks[pre.length]? = some sep := ⟨_, List.getElem?_eq_getElem hj⟩
  have hsl : sep.length ≤ 255 := by
    have hm := List.mem_of_getElem? hsep
    rw [← hks] at hm
    obtain ⟨e, he, rfl⟩ := List.mem_map.mp hm
    exact (hents e he).1
  have hx := hsub x (by simp)
  have hy := hsub y (by simp)
  have hxm : x.page ∈ used := hsj _ (Foot.mem_join.mpr ⟨x, by simp, hx.mem⟩)
  have hym : y.page ∈ used := hsj _ (Foot.mem_join.mpr ⟨y, by simp, hy.mem⟩)
  have hcx : node.child pre.length = x.page := by
    rw [BtreeNode.child, ← hlp]; simp
  have hcy : node.child (pre.length + 1) = y.page := by
    rw [BtreeNode.child, ← hlp, List.map_append, List.getD_eq_getElem?_getD,
      List.getElem?_append_right (by simp)]
    simp
  have hkey : node.keys.getD pre.length [] = sep := by
    rw [hks, List.getD_eq_getElem?_getD, hsep]; rfl
  have heq := joinChildren_eq (p := p) (by rw [hcx]; exact hl.loadNode hxm)
    (by rw [hcy]; exact hl.loadNode hym) hx.fits (hy.kind.trans hx.kind.symm)
  have hcount : (nodeAt ps pool.pages x.page).entryCount +
      (nodeAt ps pool.pages y.page).entryCount +
      (if (nodeAt ps pool.pages x.page).kind = .internal then 1 else 0) =
      mergedCount d x.tree y.tree := by
    rw [hx.count, hy.count, mergedCount_eq, hx.kind]
    cases d <;> rfl
  rw [hcount, hkey, hcx] at heq
  rw [heq, rebalance_middle hsep]
  by_cases hle : mergedCount d x.tree y.tree ≤ 3
  · rw [if_neg (by simp only [maxKeysPerNode]; omega), if_pos hle]
    have hjoin : Foot.join (pre ++ x :: y :: post) =
        Foot.join (pre ++ ([x, y] ++ post)) := rfl
    have hnxy : (Foot.join [x, y]).pages.Nodup := by
      rw [hjoin, Foot.join_append, Foot.join_append] at hnj
      simp only [Foot.append, List.nodup_append] at hnj
      exact hnj.2.1.1
    have hsxy : ∀ q ∈ (Foot.join [x, y]).pages, q ∈ (Foot.join (pre ++ x :: y :: post)).pages := by
      intro q hq
      obtain ⟨z, hz, hq⟩ := Foot.mem_join.mp hq
      refine Foot.mem_join.mpr ⟨z, ?_, hq⟩
      simp only [List.mem_cons, List.not_mem_nil, or_false] at hz
      rcases hz with rfl | rfl <;> simp
    obtain ⟨hmf, hmr⟩ := merge_repr hsl hx hy hnxy (fun q hq => hsj q (hsxy q hq)) hle
    have hw1 := hl.storeDirty hxm hmf
    have hl₁ := hw1.live hl hxm
    obtain ⟨fm, hr, hev⟩ := hmr (hw1.at hl) hw1.frame
    obtain ⟨hsub', hev'⟩ := children_repr [x, y]
      [⟨merge d x.tree sep y.tree, x.page, fm⟩] hsub hnj hsj subset_rfl
      (fun q _ hq => hw1.frame q fun e => hq (e ▸ Foot.mem_join.mpr ⟨x, by simp, hx.mem⟩))
      (by simpa using hr) (by rw [Foot.join_singleton]; exact hev)
    have hpf : NodeFits valueMax (joinedParent node pre.length) := by
      refine hf.withBranch hk _ _ (fun e he => hents e (List.mem_of_mem_eraseIdx he)) ?_ ?_
        (fun c hc => hf.child c (List.mem_of_mem_eraseIdx (List.mem_of_mem_take hc)))
      · have := hf.count
        rw [List.length_eraseIdx]; split <;> omega
      · rw [List.length_take, List.length_eraseIdx_of_lt (by omega),
          List.length_eraseIdx_of_lt (by omega), BtreeNode.entryCount]
        omega
    have hw2 := hl₁.storeDirty hp hpf
    have hl₂ := hw2.live hl₁ hp
    have hpx : x.page ≠ p := fun e => hpj (e ▸ Foot.mem_join.mpr ⟨x, by simp, hx.mem⟩)
    have hchildren : (joinedParent node pre.length).children =
        (pre ++ ⟨merge d x.tree sep y.tree, x.page, fm⟩ :: post).map Sub.page := by
      simp only [joinedParent]
      rw [List.take_of_length_le (by
        rw [List.length_eraseIdx_of_lt (by omega), BtreeNode.entryCount]; omega), ← hlp,
        List.map_append, List.eraseIdx_append_of_length_le (by simp)]
      simp
    have hkeys : (joinedParent node pre.length).keys = ks.eraseIdx pre.length := by
      rw [← hks, BtreeNode.keys, BtreeNode.keys, List.eraseIdx_map]; rfl
    have hpages : ∀ z ∈ pre ++ ([⟨merge d x.tree sep y.tree, x.page, fm⟩] ++ post),
        Repr valueMax ps (storeDirty (storeDirty pool x.page
          (mergedNode (nodeAt ps pool.pages x.page) sep (nodeAt ps pool.pages y.page))) p
          (joinedParent node pre.length)).pages d z.tree z.page z.foot := by
      refine fun z hz => (hsub' z hz).congr fun q hq => hw2.frame q ?_
      rintro rfl
      exact (hev'.old q (Foot.mem_join.mpr ⟨z, hz, hq⟩)).elim hpj fun ho => ho hp
    have hrr := repr_of_branch (hw2.at hl₁) hpf hk _ hkeys
      hchildren.symm hpages
    refine ⟨_, _, true, _, rfl, ?_, ⟨hl₂, subset_rfl, ?_, ?_, fun q hq hqn => ?_⟩, ?_,
      hev'.root hp hpj subset_rfl⟩
    · rw [BtreeNode.entryCount, ← List.length_map (f := Prod.fst), ← BtreeNode.keys, hkeys]
    · rw [hw2.nextPage, hw1.nextPage]
    · rw [hw2.nextPage, hw1.nextPage]; simp
    · simp only [Foot.root, List.mem_cons, not_or] at hqn
      exact (hw2.frame q hqn.1).trans (hw1.frame q fun e => hqn.2 (e ▸ Foot.mem_join.mpr
        ⟨x, by simp, hx.mem⟩))
    · simpa using hrr
  · rw [if_pos (by simp only [maxKeysPerNode]; omega), if_neg hle]
    refine ⟨pool, node, false, _, rfl, hel, ⟨hl, subset_rfl, le_refl _, by simp, fun _ _ _ => rfl⟩,
      repr_of_branch hn hf hk _ hks hlp hsub,
      ⟨hnd, fun _ hq => .inl hq, hs, Kept.rfl⟩⟩

theorem rebalanceChild_eq (pool : Pool) (p : Int) (node : BtreeNode) (i : Nat) :
    rebalanceChild pool p node i = joinChildren pool p node (i - 1) := by
  rw [rebalanceChild]
  split
  · rfl
  · rw [show i = 0 by omega]

/-! ## Removal below a page -/

theorem btreeDeleteRec_leaf (hl : Live valueMax ps pool used) {es : Tree Bytes Bytes 0}
    (h : Repr valueMax ps pool.pages 0 es p f) (hs : ∀ q ∈ f.pages, q ∈ used)
    (hsorted : SortedAssoc.Sorted (toList 0 es)) (fuel : Nat) :
    ∃ pool' f', btreeDeleteRec key (fuel + 1) pool p =
        some (pool', decide (count 0 (BPlusTree.delete 3 0 es key) < 1)) ∧
      Grows valueMax ps used used pool pool' 0 f.pages ∧
      Repr valueMax ps pool'.pages 0 (BPlusTree.delete 3 0 es key) p f' ∧
      Evolves used used f f' := by
  have hp : p ∈ used := hs p h.mem
  have hr := h
  obtain ⟨hf, hk, hes, rfl⟩ := h
  have hload := hl.loadNode hp
  have hkept : Evolves used used ⟨[(p, (nodeAt ps pool.pages p).nextPage)], [p]⟩
      ⟨[(p, (nodeAt ps pool.pages p).nextPage)], [p]⟩ :=
    ⟨by simp, fun q hq => .inl hq, hs, Kept.rfl⟩
  generalize hn : nodeAt ps pool.pages p = node at *
  subst hes
  have hsorted : SortedAssoc.Sorted node.entries := hsorted
  have hdel : BPlusTree.delete 3 0 node.entries key = SortedAssoc.erase key node.entries := rfl
  rw [btreeDeleteRec, hload, hdel]
  simp only
  rw [if_pos hk]
  cases hfind : leafFind node key with
  | some i =>
    obtain ⟨e, hi, he⟩ := leafFind_some hfind
    have hall := hsorted.erase_eq_eraseIdx hi he
    have hfits : NodeFits valueMax { node with entries := node.entries.eraseIdx i } := by
      refine hf.withEntries hk _ (fun e he => hf.entry e (List.mem_of_mem_eraseIdx he)) ?_
      have := hf.count
      rw [List.length_eraseIdx]; split <;> omega
    have hw := hl.storeDirty hp hfits
    rw [hall]
    exact ⟨_, _, rfl, grows_of_writes hl hp hw, repr_of_leaf (hw.at hl) hfits hk, hkept⟩
  | none =>
    have hall : SortedAssoc.erase key node.entries = node.entries :=
      SortedAssoc.erase_of_notMem (leafFind_none hfind)
    rw [hall]
    exact ⟨pool, _, rfl, ⟨hl, subset_rfl, le_refl _, by simp, fun _ _ _ => rfl⟩, hr, hkept⟩

/-- `btree_delete_rec` on the pages of a tree is the removal from the tree, refused joinings
included. -/
theorem btreeDeleteRec_repr (hl : Live valueMax ps pool used) {t : Tree Bytes Bytes d}
    (h : Repr valueMax ps pool.pages d t p f) (hs : ∀ q ∈ f.pages, q ∈ used)
    (hnd : f.pages.Nodup) (ho : Ordered d lo hi t) (hsz : Sized cap d low t)
    (hlow : 0 < d → 1 ≤ low) (hlo : lo ≤ Bound.key key) (hhi : Bound.key key < hi)
    (hfuel : d < fuel) :
    ∃ pool' f', btreeDeleteRec key fuel pool p =
        some (pool', decide (count d (BPlusTree.delete 3 d t key) < 1)) ∧
      Grows valueMax ps used used pool pool' 0 f.pages ∧
      Repr valueMax ps pool'.pages d (BPlusTree.delete 3 d t key) p f' ∧
      Evolves used used f f' := by
  induction d generalizing p f lo hi low fuel with
  | zero =>
    obtain ⟨fuel, rfl⟩ := Nat.exists_eq_add_of_lt hfuel
    rw [Nat.zero_add]
    exact btreeDeleteRec_leaf hl h hs ho.entries.2.1 fuel
  | succ d ih =>
    obtain ⟨fuel, rfl⟩ : ∃ n, fuel = n + 1 := ⟨fuel - 1, by omega⟩
    obtain ⟨-, c, bd, -, m, -, -, hc, -, hoc, -, hm, hbd⟩ := ho.focus hlo hhi
    have hcl := h.children_length
    obtain ⟨hf, hk, hks, l, hlt, hlp, hsub, rfl⟩ := h
    obtain ⟨h1, -, -, h4⟩ := hsz
    have hp : p ∈ used := hs p (List.mem_cons_self ..)
    obtain ⟨hpj, hnj⟩ := List.nodup_cons.mp hnd
    have hsj : ∀ q ∈ (Foot.join l).pages, q ∈ used := fun q hq =>
      hs q (List.mem_cons_of_mem _ hq)
    have hil : childIndex t.seps key < l.length := by
      have := (List.getElem?_eq_some_iff.mp hc).1
      rw [← hlt] at this; simpa using this
    obtain ⟨pre, x, post, rfl, hi'⟩ : ∃ pre x post, l = pre ++ x :: post ∧
        pre.length = childIndex t.seps key :=
      ⟨l.take (childIndex t.seps key), l[childIndex t.seps key], l.drop (childIndex t.seps key + 1),
        by simp, by rw [List.length_take]; omega⟩
    obtain rfl : x.tree = c := by
      rw [← hlt, ← hi'] at hc; simpa using hc
    have hxs : ∀ q ∈ x.foot.pages, q ∈ (Foot.join (pre ++ x :: post)).pages := fun q hq =>
      Foot.mem_join.mpr ⟨x, by simp, hq⟩
    have hxn : x.foot.pages.Nodup := by
      have := hnj
      simp only [Foot.join, List.flatMap_append, List.flatMap_cons, List.nodup_append] at this
      exact this.2.1.1
    obtain ⟨pool₁, f', h1', hg, hr, hev⟩ := ih (hsub x (by simp)) (fun q hq => hsj q (hxs q hq))
      hxn hoc (h4 _ (List.mem_of_getElem? hc)) (fun _ => le_refl 1) hm hbd (show d < fuel by omega)
    obtain ⟨hsub', hev'⟩ := children_repr [x]
      [⟨BPlusTree.delete 3 d x.tree key, x.page, f'⟩] hsub hnj hsj subset_rfl
      (by rw [Foot.join_singleton]; exact hg.frame) (by simpa using hr)
      (by rw [Foot.join_singleton, Foot.join_singleton]; exact hev)
    have hn' : nodeAt ps pool₁.pages p = nodeAt ps pool.pages p := by
      rw [nodeAt, hg.frame p hp fun h => hpj (hxs p h), ← nodeAt]
    have hload := hl.loadNode hp
    generalize nodeAt ps pool.pages p = node at *
    have hidx : internalFind node key = pre.length := by rw [internalFind_eq, hks, hi']
    have hchild : node.child pre.length = x.page := by
      rw [BtreeNode.child, ← hlp]; simp
    have hlp' : (pre ++ ⟨BPlusTree.delete 3 d x.tree key, x.page, f'⟩ :: post).map Sub.page =
        node.children := by rw [← hlp]; simp
    have hlt' : t.children.set (childIndex t.seps key) (BPlusTree.delete 3 d x.tree key) =
        (pre ++ ⟨BPlusTree.delete 3 d x.tree key, x.page, f'⟩ :: post).map Sub.tree := by
      rw [← hlt, ← hi', List.map_append, List.map_cons, ← List.length_map (f := Sub.tree),
        set_middle]
      simp
    have hel : node.entryCount = t.seps.length := by
      rw [← hks]; simp [BtreeNode.keys, BtreeNode.entryCount]
    have hroot := hev'.root hp hpj subset_rfl
    rw [btreeDeleteRec, hload]
    simp only
    rw [if_neg (by rw [hk]; decide), hidx, hchild, h1']
    simp only [BPlusTree.delete, hc, hlt', Nat.lt_one_iff]
    by_cases hz : count d (BPlusTree.delete 3 d x.tree key) = 0
    · have hle : childIndex t.seps key ≤ t.seps.length := childIndex_le
      have hlow' := hlow (by omega)
      obtain ⟨pool₂, node', merged, f'', e1, e2, hg2, hr2, hev2⟩ := joinChildren_repr
        (l := pre ++ ([⟨BPlusTree.delete 3 d x.tree key, x.page, f'⟩] ++ post)) hg.live hn' hf hk
        hks hlp' hsub' hroot.sub hroot.nodup (show pre.length - 1 < t.seps.length by omega)
      rw [if_pos hz, ← hi']
      simp only [hz, decide_true, if_true, rebalanceChild_eq, e1]
      refine ⟨pool₂, f'', by rw [e2]; rfl, ⟨hg2.live, subset_rfl, hg.next_le.trans hg2.next_le, ?_,
        fun q hq hqn => ?_⟩, hr2, ⟨hev2.nodup, fun q hq => ?_, hev2.sub,
        hroot.links.trans hev2.links⟩⟩
      · have h1 := hg.le_next
        have h2 := hg2.le_next
        push_cast at h1 h2 ⊢; omega
      · have hqx : q ∉ x.foot.pages := fun h => hqn (List.mem_cons_of_mem _ (hxs q h))
        refine (hg2.frame q hq fun h => ?_).trans (hg.frame q hq hqx)
        exact (hroot.old q h).elim hqn fun ho => ho hq
      · exact (hev2.old q hq).elim (hroot.old q) .inr
    · rw [if_neg hz]
      simp only [hz, decide_false, Bool.false_eq_true, if_false]
      refine ⟨pool₁, _, by rw [hel]; simp [count], ⟨hg.live, subset_rfl, hg.next_le, hg.le_next,
        fun q hq hqn => hg.frame q hq fun h => hqn (List.mem_cons_of_mem _ (hxs q h))⟩,
        repr_of_branch hn' hf hk _ hks hlp' hsub', hroot⟩

/-! ## The whole tree -/

/-- What `garry_btree_delete` does with a root that underflowed. -/
theorem StoredAt.shrink {r : Root Bytes Bytes} (h : StoredAt valueMax ps pool used root r f)
    (hfits : Fits32 pool.freeListHead) :
    ∃ pool' root' used' f',
      (if (loadNode pool root).kind = .internal ∧ (loadNode pool root).entryCount = 0 then
        some (pool.freePage root, (loadNode pool root).child 0)
      else some (pool, root)) = some (pool', root') ∧
      StoredAt valueMax ps pool' used' root' r.shrink f' ∧ pool'.nextPage = pool.nextPage ∧
      (∀ q ∈ f'.pages, q ∈ f.pages) ∧
      ∀ q ∈ used, q ∉ f.pages → q ∈ used' ∧ pool'.pages q = pool.pages q := by
  have hroot : root ∈ used := h.sub root h.repr.mem
  obtain ⟨d, t⟩ := r
  have hsame : StoredAt valueMax ps pool used root ⟨d, t⟩ f := h
  have hcount : (loadNode pool root).entryCount = count d t := by
    rw [h.live.loadNode hroot]; exact h.repr.count
  have hkind : (loadNode pool root).kind = if d = 0 then .leaf else .internal := by
    rw [h.live.loadNode hroot]; exact h.repr.kind
  rw [hcount, hkind, h.live.loadNode hroot]
  obtain ⟨hl, hr, hsub, hnd, hlink⟩ := h
  cases d with
  | zero =>
    rw [if_neg (by simp)]
    exact ⟨pool, root, used, f, rfl, hsame, rfl, fun _ h => h, fun q hq _ => ⟨hq, rfl⟩⟩
  | succ d =>
    have hlen := hr.children_length
    obtain ⟨ks, cs⟩ := t
    simp only at hlen
    match ks, cs, hlen with
    | s :: ks, cs, _ =>
      rw [if_neg fun h => Nat.succ_ne_zero ks.length h.2]
      exact ⟨pool, root, used, f, rfl, hsame, rfl, fun _ h => h, fun q hq _ => ⟨hq, rfl⟩⟩
    | [], [c], _ =>
      rw [if_pos ⟨rfl, rfl⟩]
      obtain ⟨-, -, -, l, hlt, hlp, hsubs, rfl⟩ := hr
      obtain ⟨x, rfl⟩ : ∃ x, l = [x] :=
        List.length_eq_one_iff.mp (by rw [← List.length_map (f := Sub.tree), hlt]; rfl)
      obtain rfl : x.tree = c := by simpa using hlt
      have hchild : (nodeAt ps pool.pages root).child 0 = x.page := by
        rw [BtreeNode.child, ← hlp]; rfl
      rw [hchild]
      obtain ⟨hnr, hnx⟩ := List.nodup_cons.mp hnd
      simp only [Foot.join_singleton] at hnr hnx
      have hxs : ∀ q ∈ x.foot.pages, q ≠ root ∧ q ∈ used := fun q hq =>
        ⟨fun e => hnr (e ▸ hq), hsub q (List.mem_cons_of_mem _ (by simpa using hq))⟩
      have hpages : ∀ q, q ≠ root → (pool.freePage root).pages q = pool.pages q :=
        fun q hq => Pool.freePage_pages_of_ne hq
      refine ⟨_, _, used \ {root}, x.foot, rfl, ⟨⟨?_, hl.fits, hl.owns.freePage hroot hfits⟩,
        (hsubs x (by simp)).congr fun q hq => hpages q (hxs q hq).1,
        fun q hq => ⟨(hxs q hq).2, (hxs q hq).1⟩, hnx, ?_⟩, ?_,
        fun q hq => List.mem_cons_of_mem _ (by simpa using hq), fun q hq hqf => ?_⟩
      · rw [Pool.freePage_pageSize, hl.size]
      · simpa [Foot.root, Foot.join] using hlink
      · exact Pool.freePage_nextPage
      · have hqr : q ≠ root := fun e => hqf (e ▸ List.mem_cons_self ..)
        exact ⟨⟨hq, hqr⟩, hpages q hqr⟩

/-- `garry_btree_delete` is the removal from the tree. -/
theorem btreeDelete_tree {r : Root Bytes Bytes} (h : TreeAt valueMax ps pool used root r f)
    (key : Bytes) (hids : pool.HasIds) :
    ∃ pool' root' used' f', btreeDelete pool root key = some (pool', root') ∧
      StoredAt valueMax ps pool' used' root' (r.delete maxKeysPerNode key) f' ∧
      pool'.nextPage = pool.nextPage ∧ (∀ q ∈ f'.pages, q ∈ f.pages) ∧
      ∀ q ∈ used, q ∉ f.pages → q ∈ used' ∧ pool'.pages q = pool.pages q := by
  have hids' : pool.nextPage + 64 ≤ 2147483648 - 100000 := hids
  obtain ⟨pool₁, f₁, h1, hg, hr, hev⟩ := btreeDeleteRec_repr h.live h.repr h.sub h.nodup
    h.wf.ordered h.wf.sized one_le_rootLow (bot_le (a := Bound.key key)) Bound.key_lt_top h.depth_lt
  have hnext : pool₁.nextPage = pool.nextPage := le_antisymm (by simpa using hg.le_next) hg.next_le
  have hold : ∀ q ∈ f₁.pages, q ∈ f.pages := fun q hq => by
    exact (hev.old q hq).elim id fun ho => absurd (hev.sub q hq) ho
  have hst : StoredAt valueMax ps pool₁ used root
      ⟨r.depth, BPlusTree.delete 3 r.depth r.tree key⟩ f₁ :=
    ⟨hg.live, hr, hev.sub, hev.nodup, hev.links.linked _ h.linked⟩
  have hhead := hg.live.owns.head
  have hfits : Fits32 pool₁.freeListHead := by simp only [Fits32]; omega
  rw [btreeDelete, h1]
  simp only
  by_cases hz : count r.depth (BPlusTree.delete 3 r.depth r.tree key) < 1
  · obtain ⟨pool', root', used', f', h2, h3, h4, h5, h6⟩ := hst.shrink hfits
    simp only [hz, decide_true, if_true, h2]
    refine ⟨pool', root', used', f', rfl, h3, h4.trans hnext, fun q hq => hold q (h5 q hq),
      fun q hq hqf => ?_⟩
    obtain ⟨e1, e2⟩ := h6 q hq fun hm => hqf (hold q hm)
    exact ⟨e1, e2.trans (hg.frame q hq hqf)⟩
  · simp only [hz, decide_false, Bool.false_eq_true, if_false]
    have hne : count r.depth (BPlusTree.delete maxKeysPerNode r.depth r.tree key) ≠ 0 := by
      simpa using hz
    rw [Root.delete, Root.shrink_of_count hne]
    exact ⟨pool₁, root, used, f₁, rfl, hst, hnext, hold, fun q hq hqf => ⟨hq, hg.frame q hq hqf⟩⟩

end Garry
