import Garry.Library.BPlusTree

/-!
# The nodes an insertion splits

An insertion splits nodes from the leaf up, without a gap: `splits` is their number. A split whose
right half gets lost leaves an ordered tree with fewer entries.
-/

namespace BPlusTree

open SortedAssoc

universe u v

variable {K : Type u} {V : Type v} [LinearOrder K]

/-- The number of nodes the insertion of a key splits: a full leaf without the key and the full
branches above it. -/
def splits (leafMax cap : Nat) : (d : Nat) → Tree K V d → K → Nat
  | 0, es, k =>
    if (lookup (V := V) k es).isSome ∨ List.length (α := K × V) es < leafMax then 0 else 1
  | d + 1, b, k =>
    match b.children[childIndex b.seps k]? with
    | none => 0
    | some t =>
      let n := splits leafMax cap d t k
      if n = d + 1 ∧ cap ≤ b.seps.length then n + 1 else n

/-- The number of nodes an insertion makes: one for each split, and a root above a split one. -/
def Root.newNodes (leafMax cap : Nat) (r : Root K V) (k : K) : Nat :=
  let n := splits leafMax cap r.depth r.tree k
  if n = r.depth + 1 then n + 1 else n

theorem splits_le (leafMax cap : Nat) (t : Tree K V d) (k : K) :
    splits leafMax cap d t k ≤ d + 1 := by
  induction d with
  | zero =>
    rw [splits]
    split <;> simp
  | succ d ih =>
    rw [splits]
    split
    · simp
    · next c _ =>
      have := ih c
      simp only
      split <;> omega

/-- A key that search finds splits nothing. -/
theorem splits_eq_zero {t : Tree K V d} (h : (search d t k).isSome) (leafMax cap : Nat) :
    splits leafMax cap d t k = 0 := by
  induction d with
  | zero => exact if_pos (.inl h)
  | succ d ih =>
    rw [search] at h
    split at h
    · cases h
    rw [splits]
    split
    · rfl
    · next c hc =>
      rw [hc, Option.bind_some] at h
      rw [ih h]
      exact if_neg fun hn => absurd hn.1 (by simp)

theorem length_insert_eq_iff {l : List (K × V)} (h : Sorted l) :
    (SortedAssoc.insert k v l).length = l.length ↔ (lookup k l).isSome := by
  cases hk : lookup k l with
  | none =>
    have hlen : (SortedAssoc.insert k v l).length = l.length + 1 := by
      apply length_insert_of_notMem
      intro e he hek
      have hmem : (k, e.2) ∈ l := hek ▸ he
      rw [h.lookup_of_mem hmem] at hk
      cases hk
    simp [hlen]
  | some w =>
    obtain ⟨i, hi, he⟩ := List.mem_iff_getElem.mp (mem_of_lookup hk)
    rw [h.insert_eq_set ((List.getElem?_eq_getElem hi).trans (congrArg some he)) rfl]
    simp

/-- An insertion splits the root node exactly when all its splits reach it. -/
theorem insert_isSome_iff {t : Tree K V d} (h : Ordered d lo hi t) (hlo : lo ≤ Bound.key k)
    (hhi : Bound.key k < hi) (leafMax cap : Nat) (v : V) :
    (insert leafMax cap d t k v).2.isSome ↔ splits leafMax cap d t k = d + 1 := by
  induction d generalizing lo hi with
  | zero =>
    have hlen := length_insert_eq_iff (v := v) (k := k) h.2.1
    simp only [insert, splits]
    by_cases hc : (lookup k t).isSome ∨ List.length t < leafMax
    · rw [if_pos (hc.imp_left hlen.mpr), if_pos hc]
      simp
    · rw [if_neg fun h => hc (h.imp_left hlen.mp), if_neg hc]
      have hge := length_le_length_insert k v t
      have hpos : List.drop ((SortedAssoc.insert k v t).length / 2) (SortedAssoc.insert k v t) ≠
          [] := by
        intro e
        have := congrArg List.length e
        simp only [List.length_drop, List.length_nil] at this
        have hne : 0 < (SortedAssoc.insert k v t).length := List.length_pos_iff.mpr insert_ne_nil
        omega
      obtain ⟨e, es, he⟩ := List.exists_cons_of_ne_nil hpos
      rw [he]
      simp
  | succ d ih =>
    obtain ⟨-, c, bd, -, m, -, -, hc, -, hoc, -, hm, hbd⟩ := h.focus hlo hhi
    have hle := splits_le leafMax cap c k
    have ih := ih hoc hm hbd
    simp only [insert, splits, hc]
    rcases hp : insert leafMax cap d c k v with ⟨c', _ | ⟨sep, u⟩⟩
    · have hn : splits leafMax cap d c k ≠ d + 1 := fun e => by
        have := ih.mpr e
        rw [hp] at this
        cases this
      rw [if_neg fun hh => hn hh.1]
      refine iff_of_false (by simp [absorb]) ?_
      omega
    · have hn : splits leafMax cap d c k = d + 1 := ih.mp (by rw [hp]; rfl)
      rw [hn]
      by_cases hroom : t.seps.length < cap
      · rw [if_neg fun hh => absurd hh.2 (by omega)]
        simp only [absorb, if_pos hroom]
        refine iff_of_false (by simp) (by omega)
      · rw [if_pos ⟨rfl, not_lt.mp hroom⟩]
        have hks : (t.seps.insertIdx (childIndex t.seps k) sep).length = t.seps.length + 1 :=
          List.length_insertIdx_of_le_length childIndex_le _
        have hmid : (t.seps.insertIdx (childIndex t.seps k) sep).length / 2 <
            (t.seps.insertIdx (childIndex t.seps k) sep).length := by omega
        simp only [absorb, if_neg hroom, List.getElem?_eq_getElem hmid]
        simp

/-! ## A lost right half -/

/-- Some entry of `t` is not in `t'`. -/
def Loses (d : Nat) (t t' : Tree K V d) : Prop :=
  ∃ e ∈ toList d t, lookup e.1 (toList d t') = none

/-- A tree stays ordered below a higher bound. -/
theorem Ordered.mono {t : Tree K V d} (h : Ordered d lo hi t) (hle : hi ≤ hi') :
    Ordered d lo hi' t := by
  induction d generalizing lo hi with
  | zero =>
    refine ⟨h.1.trans_le hle, h.2.1, fun e he => ?_⟩
    exact ⟨(h.2.2 e he).1, (h.2.2 e he).2.trans_le hle⟩
  | succ d ih =>
    obtain ⟨hlen, hp⟩ := h
    refine ⟨hlen, ?_⟩
    have go : ∀ (ks : List K) (cs : List (Tree K V d)) (lo : Bound K),
        cs.length = ks.length + 1 → Tiles (Ordered d) lo (pairs ks cs hi) hi →
        Tiles (Ordered d) lo (pairs ks cs hi') hi' := by
      intro ks
      induction ks with
      | nil =>
        intro cs lo hlen hp
        obtain ⟨c, rfl⟩ := List.length_eq_one_iff.mp hlen
        exact ⟨ih hp.1 hle, rfl⟩
      | cons s ks ihk =>
        intro cs lo hlen hp
        match cs, hlen with
        | c :: cs, hlen =>
          rw [pairs_cons] at hp ⊢
          exact ⟨hp.1, ihk cs _ (by simpa using hlen) hp.2⟩
    exact go _ _ _ hlen hp

omit [LinearOrder K] in
theorem Sized.toList_ne_nil {t : Tree K V d} (h : Sized cap d 1 t) : toList d t ≠ [] := by
  induction d with
  | zero => exact List.length_pos_iff.mp h.1
  | succ d ih =>
    obtain ⟨-, -, h3, h4⟩ := h
    match hc : t.children, h3 with
    | c :: cs, _ =>
      have := ih (h4 c (by simp [hc]))
      simp [toList, hc, this]

omit [LinearOrder K] in
theorem Sized.two_le_branch {t : Tree K V (d + 1)} (h : Sized cap (d + 1) 1 t) :
    2 ≤ (toList (d + 1) t).length := by
  obtain ⟨h1, -, h3, h4⟩ := h
  match hc : t.children, h3 with
  | [_], h3 =>
    simp at h3
    simp [h3] at h1
  | c :: c' :: cs, _ =>
    have e1 := List.length_pos_iff.mpr (h4 c (by simp [hc])).toList_ne_nil
    have e2 := List.length_pos_iff.mpr (h4 c' (by simp [hc])).toList_ne_nil
    simp only [toList, hc, List.map_cons, List.flatten_cons, List.length_append]
    omega

/-- The right half of a split has two entries at least. -/
theorem two_le_piece {t : Tree K V d} (hmax : 2 ≤ leafMax) (hle : leafMax ≤ cap)
    (h : Sized cap d low t) (hlow : 0 < d → 1 ≤ low)
    (hp : (insert leafMax cap d t k v).2 = some (sep, u)) : 2 ≤ (toList d u).length := by
  cases d with
  | zero =>
    have hge := length_le_length_insert k v t
    simp only [insert] at hp
    split at hp
    · cases hp
    · next hc =>
      obtain ⟨e, -, he⟩ := Option.map_eq_some_iff.mp hp
      cases he
      show 2 ≤ (List.drop _ _).length
      rw [List.length_drop]
      omega
  | succ d =>
    have hs := (insert_sized (by omega) hle (by omega) h hlow k v).2 sep u hp
    exact hs.two_le_branch

/-- The left half of a split is ordered like the tree, and without the right half entries are
lost. -/
theorem insert_left {t : Tree K V d} (hmax : 2 ≤ leafMax) (hle : leafMax ≤ cap)
    (ho : Ordered d lo hi t) (hlo : lo ≤ Bound.key k) (hhi : Bound.key k < hi)
    (h : Sized cap d low t) (hlow : 0 < d → 1 ≤ low)
    (hp : (insert leafMax cap d t k v).2 = some (sep, u)) :
    Ordered d lo hi (insert leafMax cap d t k v).1 ∧
      Loses d t (insert leafMax cap d t k v).1 := by
  obtain ⟨htiles, hlist⟩ := insert_ordered cap (by omega : 0 < leafMax) ho hlo hhi v
  have htwo := two_le_piece hmax hle h hlow hp
  rw [hp] at htiles hlist
  obtain ⟨hl, hr, -⟩ := htiles
  refine ⟨hl.mono hr.entries.1.le, ?_⟩
  obtain ⟨e, he, hek⟩ : ∃ e ∈ toList d u, e.1 ≠ k := by
    match hu : toList d u, htwo with
    | a :: b :: _, _ =>
      have hs := hr.entries.2.1
      rw [hu] at hs
      have hab := (sorted_cons.mp hs).1 b (by simp)
      rcases eq_or_ne a.1 k with rfl | hne
      · exact ⟨b, by simp, hab.ne'⟩
      · exact ⟨a, by simp, hne⟩
  have hmem : e ∈ SortedAssoc.insert k v (toList d t) := by
    rw [← hlist]
    exact List.mem_append_right _ he
  refine ⟨e, (mem_insert hmem).resolve_left fun h => hek (h ▸ rfl), ?_⟩
  apply lookup_eq_none_of_notMem
  intro x hx
  have hx := (hl.entries.2.2 x hx).2.trans_le (hr.entries.2.2 e he).1
  exact (Bound.key_lt_key.mp hx).ne

/-- A child put in the place of the one a key is routed to. -/
theorem Ordered.setChild {b : Branch K (Tree K V d)} (h : Ordered (d + 1) lo hi b)
    (hlo : lo ≤ Bound.key k) (hhi : Bound.key k < hi) :
    ∃ c m bd, b.children[childIndex b.seps k]? = some c ∧ Ordered d m bd c ∧ m ≤ Bound.key k ∧
      Bound.key k < bd ∧ ∀ c', Ordered d m bd c' →
        Ordered (d + 1) lo hi (⟨b.seps, b.children.set (childIndex b.seps k) c'⟩ :
          Branch K (Tree K V d)) ∧
        (Loses d c c' → Loses (d + 1) b (⟨b.seps, b.children.set (childIndex b.seps k) c'⟩ :
          Branch K (Tree K V d))) := by
  obtain ⟨pre, c, bd, post, m, he, hi', hc, h1, h2, h3, h4, h5⟩ := h.focus hlo hhi
  refine ⟨c, m, bd, hc, h2, h4, h5, fun c' ho => ?_⟩
  have hset := pairs_set h.1 he c'
  rw [hi'] at hset
  have hb : Ordered (d + 1) lo hi (⟨b.seps, b.children.set (childIndex b.seps k) c'⟩ :
      Branch K (Tree K V d)) := by
    refine ⟨by simpa using h.1, ?_⟩
    rw [hset]
    exact Tiles.append.mpr ⟨m, h1, ho, h3⟩
  refine ⟨hb, ?_⟩
  rintro ⟨e, hec, hn⟩
  obtain ⟨hme, heb⟩ := h2.entries.2.2 e hec
  obtain ⟨hpre, hpost⟩ := Tiles.sides h1 h3 hme heb
  refine ⟨e, ?_, ?_⟩
  · rw [toList_branch h.1 hi, he]
    simp [hec]
  · rw [toList_branch hb.1 hi, hset]
    simp only [List.map_append, List.flatten_append, List.map_cons, List.flatten_cons,
      lookup_append, hn]
    rw [lookup_eq_none_of_notMem fun x hx => (hpre x hx).ne,
      lookup_eq_none_of_notMem fun x hx => (hpost x hx).ne']
    rfl

omit [LinearOrder K] in
/-- The sizes with another child of proper size. -/
theorem Sized.setChild {b : Branch K (Tree K V d)} (h : Sized cap (d + 1) low b) (i : Nat)
    (hc : Sized cap d 1 c') :
    Sized cap (d + 1) low (⟨b.seps, b.children.set i c'⟩ : Branch K (Tree K V d)) := by
  obtain ⟨h1, h2, h3, h4⟩ := h
  refine ⟨h1, h2, by simpa using h3, fun t ht => ?_⟩
  rcases List.mem_or_eq_of_mem_set ht with ht | rfl
  · exact h4 t ht
  · exact hc

end BPlusTree
