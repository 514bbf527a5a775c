import Garry.Verify.Serializer

/-!
# Encoded values

What `encode` writes for a value is in the grammar of the decoder, whatever the order in which it meets
the entries of the maps.
-/

namespace Garry

open LeBytes Parsing

/-- The lengths fit an `i32`, and the keys of a map are distinct. -/
inductive Value.Fits : Value → Prop
  | null : Fits .null
  | bool (b : Bool) : Fits (.bool b)
  | i32 (v : BitVec 32) : Fits (.i32 v)
  | i64 (v : BitVec 64) : Fits (.i64 v)
  | f32 (bits : BitVec 32) : Fits (.f32 bits)
  | f64 (bits : BitVec 64) : Fits (.f64 bits)
  | string {s : String} : (asBytes s).length < 2147483648 → Fits (.string s)
  | bytes {b : Bytes} : b.length < 2147483648 → Fits (.bytes b)
  | array {arr : List Value} : arr.length < 2147483648 → (∀ v ∈ arr, Fits v) → Fits (.array arr)
  | map {map : List (String × Value)} : map.length < 2147483648 → (map.map Prod.fst).Nodup →
    (∀ e ∈ map, (asBytes e.1).length < 2147483648) → (∀ e ∈ map, Fits e.2) → Fits (.map map)

/-- The same value, with the entries of its maps in other orders. -/
inductive Relisted : Value → Value → Prop
  | same (v : Value) : Relisted v v
  | array {arr arr' : List Value} : arr.length = arr'.length →
    (∀ (i : Nat) (v v' : Value), arr[i]? = some v → arr'[i]? = some v' → Relisted v v') →
    Relisted (.array arr) (.array arr')
  | map {map mid map' : List (String × Value)} : map.Perm mid →
    mid.map Prod.fst = map'.map Prod.fst →
    (∀ (i : Nat) (e e' : String × Value), mid[i]? = some e → map'[i]? = some e' →
      Relisted e.2 e'.2) →
    Relisted (.map map) (.map map')

variable {n : Nat} {v v' : Value}

/-- The entries at one place of two lists with the same keys. -/
theorem exists_partner {map map' : List (String × Value)} {e' : String × Value}
    (hkeys : map.map Prod.fst = map'.map Prod.fst) (he' : e' ∈ map') :
    ∃ (i : Nat) (e : String × Value), map[i]? = some e ∧ map'[i]? = some e' ∧ e.1 = e'.1 := by
  obtain ⟨i, hi⟩ := List.mem_iff_getElem?.mp he'
  have hkey : (map.map Prod.fst)[i]? = some e'.1 := by
    rw [hkeys, List.getElem?_map, hi]
    rfl
  rw [List.getElem?_map] at hkey
  obtain ⟨e, he, hfst⟩ := Option.map_eq_some_iff.mp hkey
  exact ⟨i, e, he, hi, hfst⟩

theorem Relisted.fits (h : Relisted v v') (hv : v.Fits) : v'.Fits := by
  induction h with
  | same v => exact hv
  | array hlen _ ih =>
    cases hv with
    | array hlt hitems =>
      refine .array (hlen ▸ hlt) fun w hw => ?_
      obtain ⟨i, hi⟩ := List.mem_iff_getElem?.mp hw
      obtain ⟨hlt', -⟩ := List.getElem?_eq_some_iff.mp hi
      have hat := List.getElem?_eq_getElem (hlen ▸ hlt')
      exact ih i _ w hat hi (hitems _ (List.mem_of_getElem? hat))
  | @map map mid map' hperm hkeys _ ih =>
    cases hv with
    | map hlt hnodup hsizes hvals =>
      have hlen : mid.length = map'.length := by
        have h := congrArg List.length hkeys
        rwa [List.length_map, List.length_map] at h
      refine .map ?_ ?_ ?_ ?_
      · rwa [← hlen, ← hperm.length_eq]
      · rw [← hkeys]
        exact (hperm.map Prod.fst).nodup_iff.mp hnodup
      · intro e' he'
        obtain ⟨i, e, he, -, heq⟩ := exists_partner hkeys he'
        rw [← heq]
        exact hsizes e (hperm.mem_iff.mpr (List.mem_of_getElem? he))
      · intro e' he'
        obtain ⟨i, e, he, hi, -⟩ := exists_partner hkeys he'
        exact ih i e e' he hi (hvals e (hperm.mem_iff.mpr (List.mem_of_getElem? he)))

/-! ## The encoding in the grammar -/

theorem count_encodeLen (h : n < 2147483648) : Count n (encodeLen n) := by
  refine ⟨h, ?_⟩
  rw [encodeLen, BitVec.toNat_ofNat, Nat.mod_eq_of_lt (by omega)]

theorem chunk_encodeLen {b : Bytes} (h : b.length < 2147483648) :
    Chunk b (encodeLen b.length ++ b) := ⟨_, count_encodeLen h, rfl⟩

theorem insertEntry_new {map : List (String × Value)} {key : String}
    (h : key ∉ map.map Prod.fst) (val : Value) :
    insertEntry map key val = map ++ [(key, val)] := if_neg h

theorem iter_encodeItems (arr items : List Value) (h : ∀ v ∈ arr, Item n v (encode v)) :
    Grammar.iter (ItemPart (Item n)) arr.length items (items ++ arr) (encodeItems arr) := by
  induction arr generalizing items with
  | nil => exact ⟨List.append_nil items, rfl⟩
  | cons v arr ih =>
    have hrest := ih (items ++ [v]) fun w hw => h w (List.mem_cons_of_mem v hw)
    rw [List.append_assoc, List.singleton_append] at hrest
    exact ⟨items ++ [v], encode v, encodeItems arr, by rw [encodeItems],
      ⟨v, h v List.mem_cons_self, rfl⟩, hrest⟩

theorem iter_encodeEntries (map done : List (String × Value))
    (hnodup : ((done ++ map).map Prod.fst).Nodup)
    (hsizes : ∀ e ∈ map, (asBytes e.1).length < 2147483648)
    (h : ∀ e ∈ map, Item n e.2 (encode e.2)) :
    Grammar.iter (EntryPart (Item n)) map.length done (done ++ map) (encodeEntries map) := by
  induction map generalizing done with
  | nil => exact ⟨List.append_nil done, rfl⟩
  | cons e map ih =>
    obtain ⟨key, val⟩ := e
    have hnew : key ∉ done.map Prod.fst := by
      rw [List.map_append, List.map_cons] at hnodup
      have hdisj := (List.nodup_append.mp hnodup).2.2
      intro hmem
      exact hdisj key hmem key List.mem_cons_self rfl
    have hrest := ih (done ++ [(key, val)])
      (by rwa [List.append_assoc, List.singleton_append])
      (fun e he => hsizes e (List.mem_cons_of_mem _ he))
      fun e he => h e (List.mem_cons_of_mem _ he)
    rw [List.append_assoc, List.singleton_append] at hrest
    refine ⟨done ++ [(key, val)], encodeLen (asBytes key).length ++ asBytes key ++ encode val,
      encodeEntries map, ?_, ?_, hrest⟩
    · rw [encodeEntries]
      simp only [List.append_assoc]
    · exact ⟨key, _, val, encode val, rfl, chunk_encodeLen (hsizes _ List.mem_cons_self),
        h _ List.mem_cons_self, (insertEntry_new hnew val).symm⟩

theorem length_encode_le_items {arr : List Value} (hv : v ∈ arr) :
    (encode v).length ≤ (encodeItems arr).length := by
  induction arr with
  | nil => cases hv
  | cons w arr ih =>
    rw [encodeItems, List.length_append]
    cases hv with
    | head => exact Nat.le_add_right ..
    | tail _ hv => exact (ih hv).trans (Nat.le_add_left ..)

theorem length_encode_le_entries {map : List (String × Value)} {e : String × Value}
    (he : e ∈ map) : (encode e.2).length ≤ (encodeEntries map).length := by
  induction map with
  | nil => cases he
  | cons e' map ih =>
    rw [encodeEntries, List.length_append, List.length_append, List.length_append]
    cases he with
    | head => omega
    | tail _ he =>
      have hrest := ih he
      omega

/-- A value behind its tag is as deep as what stands behind the tag is long. -/
theorem item_of_body {tag : UInt8} {tail : Bytes} (henc : encode v = tag :: tail)
    (hn : (encode v).length ≤ n)
    (h : ∀ m, tail.length ≤ m → Body (Item m) tag v tail) : Item n v (encode v) := by
  rw [henc, List.length_cons] at hn
  cases n with
  | zero => exact absurd hn (Nat.not_succ_le_zero _)
  | succ m =>
    rw [henc]
    exact ⟨tag, tail, rfl, h m (Nat.le_of_succ_le_succ hn)⟩

/-- What is written for a value is in the grammar, as deep as it is long. -/
theorem Value.Fits.item (h : v.Fits) (hn : (encode v).length ≤ n) : Item n v (encode v) := by
  induction h generalizing n with
  | null =>
    apply item_of_body (by rw [encode]) hn
    intro m _
    exact ⟨rfl, rfl⟩
  | bool b =>
    apply item_of_body (by rw [encode]) hn
    intro m _
    refine ⟨if b then 1 else 0, rfl, ?_⟩
    cases b <;> rfl
  | i32 x =>
    apply item_of_body (by rw [encode]) hn
    intro m _
    exact ⟨x, rfl, rfl⟩
  | i64 x =>
    apply item_of_body (by rw [encode]) hn
    intro m _
    exact ⟨x, rfl, rfl⟩
  | f32 x =>
    apply item_of_body (by rw [encode]) hn
    intro m _
    exact ⟨x, rfl, rfl⟩
  | f64 x =>
    apply item_of_body (by rw [encode]) hn
    intro m _
    exact ⟨x, rfl, rfl⟩
  | @string s hlt =>
    apply item_of_body (by rw [encode]) hn
    intro m _
    exact ⟨s, chunk_encodeLen hlt, rfl⟩
  | @bytes b hlt =>
    apply item_of_body (by rw [encode]) hn
    intro m _
    exact ⟨b, chunk_encodeLen hlt, rfl⟩
  | @array arr hlt _ ih =>
    apply item_of_body (by rw [encode]) hn
    intro m hm
    rw [List.length_append] at hm
    refine ⟨arr, ⟨arr.length, _, _, count_encodeLen hlt, rfl, ?_⟩, rfl⟩
    apply iter_encodeItems arr []
    intro w hw
    exact ih w hw ((length_encode_le_items hw).trans (le_of_add_le_right hm))
  | @map map hlt hnodup hsizes _ ih =>
    apply item_of_body (by rw [encode]) hn
    intro m hm
    rw [List.length_append] at hm
    refine ⟨map, ⟨map.length, _, _, count_encodeLen hlt, rfl, ?_⟩, rfl⟩
    apply iter_encodeEntries map [] hnodup hsizes
    intro e he
    exact ih e he ((length_encode_le_entries he).trans (le_of_add_le_right hm))

/-! ## The round trip -/

/-- Whatever the orders in which `encode` meets the entries of the maps of a value, what it writes
decodes to the value. -/
theorem decode_encode (hv : v.Fits) (horder : Relisted v v')
    (hmem : (encode v').length ≤ isizeMax) :
    ∃ w, decode (encode v') = .ok w ∧ Relisted v w :=
  ⟨v', (decode_eq_ok hmem).mpr ((horder.fits hv).item le_rfl), horder⟩

/-- A map in an array, of which the encoder meets the second entry first. -/
theorem decode_encode_swapped :
    ∃ w, decode (encode (.array [.map [("b", .bytes [7]), ("a", .i32 5)]])) = .ok w ∧
      Relisted (.array [.map [("a", .i32 5), ("b", .bytes [7])]]) w := by
  have hentries : Value.Fits (.map [("a", .i32 5), ("b", .bytes [7])]) := by
    apply Value.Fits.map
    · decide
    · decide
    · decide
    · intro e he
      rcases List.mem_pair.mp he with rfl | rfl
      · exact .i32 5
      · exact .bytes (by decide)
  apply decode_encode (v := .array [.map [("a", .i32 5), ("b", .bytes [7])]])
  · apply Value.Fits.array
    · decide
    · intro w hw
      rw [List.mem_singleton.mp hw]
      exact hentries
  · apply Relisted.array
    · rfl
    · intro i w w' hw hw'
      cases i with
      | zero =>
        cases hw
        cases hw'
        apply Relisted.map (List.Perm.swap ..)
        · rfl
        · intro i e e' he he'
          rw [Option.some_inj.mp (he.symm.trans he')]
          exact .same _
      | succ i => cases hw
  · decide +kernel

end Garry
