import Garry.Library.BPlusTree

/-!
# How large a B+ tree is

The leaves of a tree are all at its depth and no node but the root is empty, so the entries bound
the depth and the nodes, and the depth bounds the entries.
-/

namespace BPlusTree

universe u v

variable {K : Type u} {V : Type v} {d cap low : Nat}

/-- The number of nodes. -/
def nodes : (d : Nat) → Tree K V d → Nat
  | 0, _ => 1
  | d + 1, b => 1 + (b.children.map (nodes d)).sum

theorem length_toList_succ (b : Branch K (Tree K V d)) :
    (toList (d + 1) b).length = (b.children.map fun t => (toList d t).length).sum := by
  rw [toList, List.length_flatten, List.map_map]
  rfl

/-- A tree has two to its depth entries. -/
theorem Sized.pow_le_length {t : Tree K V d} (h : Sized cap d low t) (hlow : 1 ≤ low) :
    2 ^ d ≤ (toList d t).length := by
  induction d generalizing low with
  | zero => exact hlow.trans h.1
  | succ d ih =>
    obtain ⟨hmin, -, hlen, hsub⟩ := h
    have hchild : ∀ n ∈ t.children.map fun c => (toList d c).length, 2 ^ d ≤ n := by
      intro n hn
      obtain ⟨c, hc, rfl⟩ := List.mem_map.mp hn
      exact ih (hsub c hc) le_rfl
    calc 2 ^ (d + 1) = 2 * 2 ^ d := by rw [Nat.pow_succ, Nat.mul_comm]
      _ ≤ t.children.length * 2 ^ d := Nat.mul_le_mul_right _ (by omega)
      _ ≤ (t.children.map fun c => (toList d c).length).sum := by
        have hsum := List.card_nsmul_le_sum _ _ hchild
        rwa [List.length_map, smul_eq_mul] at hsum
      _ = (toList (d + 1) t).length := (length_toList_succ t).symm

/-- The entries of a tree whose nodes are all full. -/
theorem Sized.length_le {t : Tree K V d} (h : Sized cap d low t) :
    (toList d t).length ≤ cap * (cap + 1) ^ d := by
  induction d generalizing low with
  | zero =>
    rw [Nat.pow_zero, Nat.mul_one]
    exact h.2
  | succ d ih =>
    obtain ⟨-, hmax, hlen, hsub⟩ := h
    have hchild : ∀ n ∈ t.children.map fun c => (toList d c).length, n ≤ cap * (cap + 1) ^ d := by
      intro n hn
      obtain ⟨c, hc, rfl⟩ := List.mem_map.mp hn
      exact ih (hsub c hc)
    calc (toList (d + 1) t).length = (t.children.map fun c => (toList d c).length).sum :=
          length_toList_succ t
      _ ≤ t.children.length * (cap * (cap + 1) ^ d) := by
        have hsum := List.sum_le_card_nsmul _ _ hchild
        rwa [List.length_map, smul_eq_mul] at hsum
      _ ≤ (cap + 1) * (cap * (cap + 1) ^ d) := Nat.mul_le_mul_right _ (by omega)
      _ = cap * (cap + 1) ^ (d + 1) := by ring

/-- A tree has fewer than two nodes for each entry. -/
theorem Sized.nodes_lt {t : Tree K V d} (h : Sized cap d low t) (hlow : 1 ≤ low) :
    nodes d t < 2 * (toList d t).length := by
  induction d generalizing low with
  | zero =>
    have hlen := hlow.trans h.1
    rw [nodes, toList]
    omega
  | succ d ih =>
    obtain ⟨hmin, -, hlen, hsub⟩ := h
    have hchild : ∀ c ∈ t.children, nodes d c + 1 ≤ 2 * (toList d c).length := fun c hc =>
      ih (hsub c hc) le_rfl
    have hsum := List.sum_le_sum hchild
    rw [List.sum_map_add, List.sum_map_mul_left, List.map_const', List.sum_replicate, smul_eq_mul,
      ← length_toList_succ] at hsum
    rw [nodes]
    omega

theorem Root.Wf.depth_le [LinearOrder K] {r : Root K V} (h : r.Wf cap) :
    r.depth ≤ Nat.log 2 r.toList.length := by
  by_cases hd : r.depth = 0
  · rw [hd]
    exact Nat.zero_le _
  · apply Nat.le_log_of_pow_le Nat.one_lt_two
    exact h.sized.pow_le_length (one_le_rootLow (Nat.pos_of_ne_zero hd))

/-- An empty tree is one leaf. -/
theorem Root.Wf.nodes_le [LinearOrder K] {r : Root K V} (h : r.Wf cap) :
    nodes r.depth r.tree ≤ max 1 (2 * r.toList.length - 1) := by
  obtain ⟨d, t⟩ := r
  cases d with
  | zero => exact le_max_left ..
  | succ d =>
    have hlt := h.sized.nodes_lt (one_le_rootLow d.succ_pos)
    simp only [Root.toList]
    exact le_max_of_le_right (Nat.le_pred_of_lt hlt)

end BPlusTree
