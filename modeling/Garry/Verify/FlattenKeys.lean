import Garry.Model.FlattenKeys
import Garry.Verify.ValueRoundTrip

/-!
# Flattened values

A value without arrays is the list of its leaves with their paths. The key of a path can be decoded,
and inserting the leaves one after the other builds the value.
-/

namespace Garry

open LeBytes Parsing

/-! ## Keys of paths -/

/-- The parts of a path fit the length bytes of its key. -/
def PartsFit (parts : List String) : Prop := ∀ part ∈ parts, (asBytes part).length ≤ 255

instance instDecidablePartsFit (parts : List String) : Decidable (PartsFit parts) :=
  inferInstanceAs (Decidable (∀ part ∈ parts, (asBytes part).length ≤ 255))

theorem encodeKey_cons (part : String) (parts : List String) :
    encodeKey (part :: parts) =
      UInt8.ofNat (asBytes part).length :: (asBytes part ++ encodeKey parts) := by
  rw [encodeKey, List.flatMap_cons]
  rfl

/-- The loop of `decode_key` behind the parts it has read. -/
theorem decodeKeyLoop_encodeKey {parts : List String} (hfit : PartsFit parts) (pre : Bytes)
    (done : List String) {fuel : Nat} (hfuel : (encodeKey parts).length ≤ fuel) :
    decodeKeyLoop (pre ++ encodeKey parts) fuel pre.length done = done ++ parts := by
  induction parts generalizing pre done fuel with
  | nil =>
    rw [List.append_nil]
    cases fuel with
    | zero => rfl
    | succ fuel =>
      have hend : (pre ++ encodeKey [])[pre.length]? = none :=
        List.getElem?_eq_none (by simp [encodeKey])
      rw [decodeKeyLoop, hend]
  | cons part parts ih =>
    have hlen : (UInt8.ofNat (asBytes part).length).toNat = (asBytes part).length := by
      rw [UInt8.toNat_ofNat']
      exact Nat.mod_eq_of_lt (Nat.lt_succ_of_le (hfit part List.mem_cons_self))
    rw [encodeKey_cons] at hfuel ⊢
    generalize UInt8.ofNat (asBytes part).length = b at hlen hfuel
    rw [List.length_cons] at hfuel
    cases fuel with
    | zero => exact absurd hfuel (Nat.not_succ_le_zero _)
    | succ fuel =>
      have hhead : (pre ++ b :: (asBytes part ++ encodeKey parts))[pre.length]? = some b := by
        rw [List.getElem?_append_right le_rfl, Nat.sub_self]
        rfl
      have hsplit : pre ++ b :: (asBytes part ++ encodeKey parts) =
          (pre ++ [b]) ++ (asBytes part ++ encodeKey parts) := by
        rw [List.append_assoc, List.singleton_append]
      have hoff : (pre ++ [b]).length = pre.length + 1 := by rw [List.length_append]; rfl
      have hslice : ((pre ++ b :: (asBytes part ++ encodeKey parts)).drop (pre.length + 1)).take
          b.toNat = asBytes part := by
        rw [hsplit, ← hoff, List.drop_left, hlen, List.take_left]
      have hroom : ¬ pre.length + 1 + b.toNat >
          (pre ++ b :: (asBytes part ++ encodeKey parts)).length := by
        rw [hsplit, List.length_append, hoff, List.length_append, hlen]
        omega
      have hnext : pre.length + 1 + b.toNat = (pre ++ [b] ++ asBytes part).length := by
        rw [List.length_append, hoff, hlen]
      rw [decodeKeyLoop, hhead]
      simp only
      rw [if_neg hroom, hslice, fromUtf8_eq_some.mpr rfl, hsplit, hnext, ← List.append_assoc]
      have hfuel' : (encodeKey parts).length ≤ fuel := by
        rw [List.length_append] at hfuel
        omega
      have hrest := ih (fun s hs => hfit s (List.mem_cons_of_mem _ hs)) (pre ++ [b] ++ asBytes part)
        (done ++ [part]) hfuel'
      rw [hrest, List.append_assoc, List.singleton_append]

/-- `decode_key` gives back the path. -/
theorem decodeKey_encodeKey {parts : List String} (hfit : PartsFit parts) :
    decodeKey (encodeKey parts) = parts :=
  decodeKeyLoop_encodeKey hfit [] [] le_rfl

theorem encodeKey_injective {parts parts' : List String} (hfit : PartsFit parts)
    (hfit' : PartsFit parts') (h : encodeKey parts = encodeKey parts') : parts = parts' := by
  rw [← decodeKey_encodeKey hfit, h, decodeKey_encodeKey hfit']

/-! ## Paths -/

mutual

/-- The leaves of a value, each with its path. -/
def Value.paths : Value → List (List String × Value)
  | .map map => entryPaths map
  | .array arr => itemPaths 0 arr
  | value => [([], value)]

/-- The leaves of the entries of a map. -/
def entryPaths : List (String × Value) → List (List String × Value)
  | [] => []
  | (k, v) :: map => (v.paths.map fun p => (k :: p.1, p.2)) ++ entryPaths map

/-- The leaves of the items of an array. -/
def itemPaths (i : Nat) : List Value → List (List String × Value)
  | [] => []
  | v :: arr => (v.paths.map fun p => (toString i :: p.1, p.2)) ++ itemPaths (i + 1) arr

end

/-- The record of a leaf. -/
def leafRecord (parts : List String) (p : List String × Value) : Bytes × Bytes :=
  (encodeKey (parts ++ p.1), encode p.2)

theorem map_leafRecord_cons (parts : List String) (k : String) (ps : List (List String × Value)) :
    (ps.map fun p => (k :: p.1, p.2)).map (leafRecord parts) =
      ps.map (leafRecord (parts ++ [k])) := by
  rw [List.map_map]
  apply List.map_congr_left
  intro p _
  rw [Function.comp, leafRecord, leafRecord, List.append_assoc, List.singleton_append]

mutual

/-- A value is flattened into the records of its leaves. -/
theorem flattenValue_eq (parts : List String) (v : Value) :
    flattenValue parts v = v.paths.map (leafRecord parts) := by
  cases v with
  | map map =>
    rw [flattenValue, Value.paths]
    exact flattenEntries_eq parts map
  | array arr =>
    rw [flattenValue, Value.paths]
    exact flattenItems_eq parts 0 arr
  | _ => simp only [flattenValue, Value.paths, leafRecord, List.map_cons, List.map_nil, List.append_nil]

theorem flattenEntries_eq (parts : List String) (map : List (String × Value)) :
    flattenEntries parts map = (entryPaths map).map (leafRecord parts) := by
  cases map with
  | nil => rw [flattenEntries, entryPaths, List.map_nil]
  | cons e map =>
    obtain ⟨k, v⟩ := e
    rw [flattenEntries, entryPaths, List.map_append, map_leafRecord_cons,
      flattenValue_eq (parts ++ [k]) v, flattenEntries_eq parts map]

theorem flattenItems_eq (parts : List String) (i : Nat) (arr : List Value) :
    flattenItems parts i arr = (itemPaths i arr).map (leafRecord parts) := by
  cases arr with
  | nil => rw [flattenItems, itemPaths, List.map_nil]
  | cons v arr =>
    rw [flattenItems, itemPaths, List.map_append, map_leafRecord_cons,
      flattenValue_eq (parts ++ [toString i]) v, flattenItems_eq parts (i + 1) arr]

end

/-! ## Trees -/

def Value.isLeaf : Value → Bool
  | .map _ => false
  | .array _ => false
  | _ => true

/-- A leaf, or a map of trees that is not empty, with distinct keys that fit their length bytes. -/
inductive Value.Tree : Value → Prop
  | leaf {v : Value} : v.isLeaf = true → Tree v
  | map {map : List (String × Value)} : map ≠ [] → (map.map Prod.fst).Nodup →
    PartsFit (map.map Prod.fst) → (∀ e ∈ map, Tree e.2) → Tree (.map map)

/-- The entries of a map of trees. -/
structure TreeEntries (map : List (String × Value)) : Prop where
  nodup : (map.map Prod.fst).Nodup
  fit : PartsFit (map.map Prod.fst)
  trees : ∀ e ∈ map, e.2.Tree

/-- A leaf of a value. -/
inductive Value.HasLeaf : Value → Value → Prop
  | here {v : Value} : v.isLeaf = true → HasLeaf v v
  | entry {map : List (String × Value)} {e : String × Value} {w : Value} : e ∈ map →
    HasLeaf e.2 w → HasLeaf (.map map) w

theorem Value.paths_of_isLeaf {v : Value} (h : v.isLeaf = true) : v.paths = [([], v)] := by
  cases v with
  | map => cases h
  | array => cases h
  | _ => simp only [Value.paths]

theorem mem_entryPaths {map : List (String × Value)} {p : List String × Value} :
    p ∈ entryPaths map ↔ ∃ e ∈ map, ∃ q ∈ e.2.paths, p = (e.1 :: q.1, q.2) := by
  induction map with
  | nil => simp [entryPaths]
  | cons e map ih =>
    obtain ⟨k, v⟩ := e
    rw [entryPaths, List.mem_append, ih, List.mem_map, List.exists_mem_cons_iff]
    simp only [eq_comm]

theorem entryPaths_eq_nil {map : List (String × Value)} (h : ∀ e ∈ map, e.2.paths ≠ []) :
    entryPaths map = [] ↔ map = [] := by
  cases map with
  | nil => simp [entryPaths]
  | cons e map =>
    obtain ⟨k, v⟩ := e
    have hv := h (k, v) List.mem_cons_self
    simp [entryPaths, hv]

theorem nodup_entryPaths {map : List (String × Value)} (hkeys : (map.map Prod.fst).Nodup)
    (h : ∀ e ∈ map, (e.2.paths.map Prod.fst).Nodup) : ((entryPaths map).map Prod.fst).Nodup := by
  induction map with
  | nil => simp [entryPaths]
  | cons e map ih =>
    obtain ⟨k, v⟩ := e
    rw [List.map_cons, List.nodup_cons] at hkeys
    rw [entryPaths, List.map_append, List.map_map, List.nodup_append]
    refine ⟨?_, ih hkeys.2 fun e he => h e (List.mem_cons_of_mem _ he), ?_⟩
    · have hcons : v.paths.map (Prod.fst ∘ fun p => (k :: p.1, p.2)) =
          (v.paths.map Prod.fst).map (List.cons k) := by
        rw [List.map_map]
        rfl
      rw [hcons]
      exact (h (k, v) List.mem_cons_self).map (List.cons_injective)
    · -- the paths of the other entries begin with other keys
      intro path hpath path' hpath' heq
      obtain ⟨q, -, rfl⟩ := List.mem_map.mp hpath
      obtain ⟨p, hp, rfl⟩ := List.mem_map.mp hpath'
      obtain ⟨e, he, q', -, rfl⟩ := mem_entryPaths.mp hp
      obtain ⟨hk, -⟩ := List.cons.inj heq
      exact hkeys.1 (List.mem_map.mpr ⟨e, he, hk.symm⟩)

/-- A path of an entry is made of keys and leads to a leaf, when those of its value are and do. -/
theorem of_mem_entryPaths {map : List (String × Value)} (hfit : PartsFit (map.map Prod.fst))
    (h : ∀ e ∈ map, ∀ q ∈ e.2.paths, PartsFit q.1 ∧ e.2.HasLeaf q.2)
    {p : List String × Value} (hp : p ∈ entryPaths map) :
    PartsFit p.1 ∧ (Value.map map).HasLeaf p.2 := by
  obtain ⟨e, he, q, hq, rfl⟩ := mem_entryPaths.mp hp
  obtain ⟨hqfit, hleaf⟩ := h e he q hq
  refine ⟨?_, .entry he hleaf⟩
  intro part hpart
  rcases List.mem_cons.mp hpart with rfl | hpart
  · exact hfit _ (List.mem_map_of_mem he)
  · exact hqfit part hpart

namespace Value

variable {v w : Value}

theorem Tree.paths_ne_nil (h : v.Tree) : v.paths ≠ [] := by
  induction h with
  | leaf hl =>
    rw [paths_of_isLeaf hl]
    exact List.cons_ne_nil _ _
  | map hne _ _ _ ih =>
    rw [Value.paths, ne_eq, entryPaths_eq_nil ih]
    exact hne

theorem Tree.nodup_paths (h : v.Tree) : (v.paths.map Prod.fst).Nodup := by
  induction h with
  | leaf hl =>
    rw [paths_of_isLeaf hl]
    exact List.nodup_singleton _
  | map _ hkeys _ _ ih =>
    rw [Value.paths]
    exact nodup_entryPaths hkeys ih

/-- A path is made of keys, and leads to a leaf. -/
theorem Tree.of_mem_paths (h : v.Tree) {p : List String × Value} (hp : p ∈ v.paths) :
    PartsFit p.1 ∧ v.HasLeaf p.2 := by
  induction h generalizing p with
  | leaf hl =>
    rw [paths_of_isLeaf hl] at hp
    obtain rfl := List.mem_singleton.mp hp
    exact ⟨fun part hpart => (List.not_mem_nil hpart).elim, .here hl⟩
  | map _ _ hfit _ ih => exact of_mem_entryPaths hfit (fun e he _ hq => ih e he hq) hp

theorem HasLeaf.exists_path (h : v.HasLeaf w) : ∃ parts, (parts, w) ∈ v.paths := by
  induction h with
  | here hl =>
    rw [paths_of_isLeaf hl]
    exact ⟨[], List.mem_cons_self⟩
  | @entry map e w he _ ih =>
    obtain ⟨parts, hmem⟩ := ih
    refine ⟨e.1 :: parts, ?_⟩
    rw [Value.paths]
    exact mem_entryPaths.mpr ⟨e, he, _, hmem, rfl⟩

theorem HasLeaf.isLeaf (h : v.HasLeaf w) : w.isLeaf = true := by
  induction h with
  | here hl => exact hl
  | entry _ _ ih => exact ih

end Value

theorem TreeEntries.of_mem_paths {map : List (String × Value)} (h : TreeEntries map)
    {p : List String × Value} (hp : p ∈ entryPaths map) :
    PartsFit p.1 ∧ (Value.map map).HasLeaf p.2 :=
  of_mem_entryPaths h.fit (fun e he _ hq => (h.trees e he).of_mem_paths hq) hp

theorem TreeEntries.of_tree {map : List (String × Value)} (h : (Value.map map).Tree) :
    TreeEntries map := by
  cases h with
  | leaf hl => cases hl
  | map _ hkeys hfit htrees => exact ⟨hkeys, hfit, htrees⟩

/-! ## Insertion -/

/-- The leaves are inserted one after the other. -/
def insertPaths (map : List (String × Value)) (ps : List (List String × Value)) :
    List (String × Value) :=
  ps.foldl (fun map p => insertNested map p.1 p.2) map

variable {done map : List (String × Value)} {key : String}

/-- An insertion under a key that stands last. -/
theorem insertNested_last (hkey : key ∉ done.map Prod.fst) {parts : List String} (hne : parts ≠ [])
    (m : List (String × Value)) (value : Value) :
    insertNested (done ++ [(key, .map m)]) (key :: parts) value =
      done ++ [(key, .map (insertNested m parts value))] := by
  cases parts with
  | nil => exact absurd rfl hne
  | cons part parts =>
    have hin : key ∈ (done ++ [(key, Value.map m)]).map Prod.fst := by simp
    have hkeep : (done.map fun e => if e.1 = key then
        (e.1, modifyMap (fun m => insertNested m (part :: parts) value) e.2) else e) = done := by
      conv_rhs => rw [← List.map_id done]
      apply List.map_congr_left
      intro e he
      have hk : e.1 ≠ key := fun heq => hkey (heq ▸ List.mem_map_of_mem he)
      exact if_neg hk
    rw [insertNested, if_pos hin, List.map_append, hkeep, List.map_singleton, if_pos rfl, modifyMap]

/-- An insertion under a new key. -/
theorem insertNested_new (hkey : key ∉ done.map Prod.fst) {parts : List String} (hne : parts ≠ [])
    (value : Value) : insertNested done (key :: parts) value =
      done ++ [(key, .map (insertNested [] parts value))] := by
  rw [← insertNested_last hkey hne]
  cases parts with
  | nil => exact absurd rfl hne
  | cons part parts =>
    have hin : key ∈ (done ++ [(key, Value.map [])]).map Prod.fst := by simp
    rw [insertNested, insertNested, if_neg hkey, if_pos hin]

/-- Insertions under a key that stands last. -/
theorem insertPaths_last (hkey : key ∉ done.map Prod.fst) (m : List (String × Value))
    (ps : List (List String × Value)) (hne : ∀ p ∈ ps, p.1 ≠ []) :
    insertPaths (done ++ [(key, .map m)]) (ps.map fun p => (key :: p.1, p.2)) =
      done ++ [(key, .map (insertPaths m ps))] := by
  induction ps generalizing m with
  | nil => rfl
  | cons p ps ih =>
    rw [List.map_cons, insertPaths, List.foldl_cons,
      insertNested_last hkey (hne p List.mem_cons_self)]
    exact ih _ fun q hq => hne q (List.mem_cons_of_mem _ hq)

/-- The leaves of an entry build the entry. -/
theorem insertPaths_entry (hkey : key ∉ done.map Prod.fst) {v : Value} (hv : v.Tree)
    (ih : ∀ m, v = .map m → insertPaths [] (entryPaths m) = m) :
    insertPaths done (v.paths.map fun p => (key :: p.1, p.2)) = done ++ [(key, v)] := by
  cases hv with
  | leaf hl =>
    rw [Value.paths_of_isLeaf hl]
    exact insertEntry_new hkey v
  | @map m hne hkeys hfit htrees =>
    rw [Value.paths]
    have hpaths : ∀ p ∈ entryPaths m, p.1 ≠ [] := by
      intro p hp
      obtain ⟨e, -, q, -, rfl⟩ := mem_entryPaths.mp hp
      exact List.cons_ne_nil _ _
    cases hps : entryPaths m with
    | nil =>
      rw [entryPaths_eq_nil fun e he => (htrees e he).paths_ne_nil] at hps
      exact absurd hps hne
    | cons p ps =>
      rw [hps] at hpaths
      have hm := ih m rfl
      rw [hps, insertPaths, List.foldl_cons] at hm
      rw [List.map_cons, insertPaths, List.foldl_cons,
        insertNested_new hkey (hpaths p List.mem_cons_self)]
      have hlast := insertPaths_last hkey (insertNested [] p.1 p.2) ps
        fun q hq => hpaths q (List.mem_cons_of_mem _ hq)
      rw [insertPaths] at hlast
      rw [hlast, insertPaths, hm]

/-- The leaves of the entries build the entries. -/
theorem insertPaths_entries (hkeys : ((done ++ map).map Prod.fst).Nodup) (htrees : ∀ e ∈ map, e.2.Tree)
    (ih : ∀ e ∈ map, ∀ m, e.2 = .map m → insertPaths [] (entryPaths m) = m) :
    insertPaths done (entryPaths map) = done ++ map := by
  induction map generalizing done with
  | nil => rw [entryPaths, List.append_nil]; rfl
  | cons e map ihm =>
    obtain ⟨k, v⟩ := e
    have hnew : k ∉ done.map Prod.fst := by
      rw [List.map_append, List.map_cons] at hkeys
      intro hin
      exact (List.nodup_append.mp hkeys).2.2 k hin k List.mem_cons_self rfl
    have hentry := insertPaths_entry hnew (htrees (k, v) List.mem_cons_self)
      (ih (k, v) List.mem_cons_self)
    have hkeys' : (((done ++ [(k, v)]) ++ map).map Prod.fst).Nodup := by
      rwa [List.append_assoc, List.singleton_append]
    have hrest := ihm hkeys' (fun e he => htrees e (List.mem_cons_of_mem _ he))
      fun e he => ih e (List.mem_cons_of_mem _ he)
    rw [insertPaths] at hentry hrest ⊢
    rw [entryPaths, List.foldl_append, hentry, hrest, List.append_assoc, List.singleton_append]

theorem insertPaths_tree {v : Value} (hv : v.Tree) :
    ∀ m, v = .map m → insertPaths [] (entryPaths m) = m := by
  induction hv with
  | leaf hl =>
    rintro m rfl
    cases hl
  | map _ hkeys _ htrees ih =>
    intro m heq
    cases heq
    exact insertPaths_entries hkeys htrees ih

/-- Inserting the leaves of a map builds the map. -/
theorem TreeEntries.insertPaths (h : TreeEntries map) :
    Garry.insertPaths [] (entryPaths map) = map :=
  insertPaths_entries h.nodup h.trees fun e he => insertPaths_tree (h.trees e he)

/-! ## Records -/

/-- The records of paths whose values decode. -/
theorem unflattenLoop_eq (root : List (String × Value)) {ps : List (List String × Value)}
    (h : ∀ p ∈ ps, PartsFit p.1 ∧ decode (encode p.2) = .ok p.2) :
    unflattenLoop root (ps.map (leafRecord [])) = .ok (insertPaths root ps) := by
  induction ps generalizing root with
  | nil => rfl
  | cons p ps ih =>
    obtain ⟨hfit, hdecode⟩ := h p List.mem_cons_self
    rw [List.map_cons, leafRecord, unflattenLoop, List.nil_append, hdecode, decodeKey_encodeKey hfit]
    exact ih _ fun q hq => h q (List.mem_cons_of_mem _ hq)

/-- When the loop ends, each value has decoded. -/
theorem decode_of_unflattenLoop {root root' : List (String × Value)}
    {ps : List (List String × Value)}
    (h : unflattenLoop root (ps.map (leafRecord [])) = .ok root') :
    ∀ p ∈ ps, ∃ x, decode (encode p.2) = .ok x := by
  induction ps generalizing root with
  | nil => simp
  | cons p ps ih =>
    rw [List.map_cons, leafRecord, unflattenLoop] at h
    obtain ⟨x, hx, hrest⟩ := Outcome.bind_eq_ok.mp h
    intro q hq
    rcases List.mem_cons.mp hq with rfl | hq
    · exact ⟨x, hx⟩
    · exact ih hrest q hq

theorem lt_of_chunk_encodeLen {b b' : Bytes} (h : Chunk b (encodeLen b'.length ++ b')) :
    b'.length < 2147483648 := by
  obtain ⟨len, ⟨hlt, hlen⟩, heq⟩ := h
  have hlen' : (encodeLen b'.length).length = len.length := by
    rw [hlen, encodeLen, length_leBytes, length_leBytes]
  obtain ⟨-, rfl⟩ := List.append_inj heq hlen'
  exact hlt

/-- Only a leaf whose length fits an `i32` decodes. -/
theorem fits_of_decode {v x : Value} (hl : v.isLeaf = true) (hmem : (encode v).length ≤ isizeMax)
    (h : decode (encode v) = .ok x) : v.Fits := by
  rw [decode_eq_ok hmem] at h
  cases v with
  | null => exact .null
  | bool b => exact .bool b
  | i32 n => exact .i32 n
  | i64 n => exact .i64 n
  | f32 bits => exact .f32 bits
  | f64 bits => exact .f64 bits
  | string s =>
    rw [encode, List.length_cons] at h
    obtain ⟨tag, tail, heq, hbody⟩ := h
    obtain ⟨rfl, rfl⟩ := List.cons.inj heq
    obtain ⟨s', htext, -⟩ : ∃ s', Text s' _ ∧ x = .string s' := hbody
    exact .string (lt_of_chunk_encodeLen htext)
  | bytes b =>
    rw [encode, List.length_cons] at h
    obtain ⟨tag, tail, heq, hbody⟩ := h
    obtain ⟨rfl, rfl⟩ := List.cons.inj heq
    obtain ⟨b', hchunk, -⟩ : ∃ b', Chunk b' _ ∧ x = .bytes b' := hbody
    exact .bytes (lt_of_chunk_encodeLen hchunk)
  | array arr => cases hl
  | map map => cases hl

theorem decode_leaf {v : Value} (hv : v.Fits) (hmem : (encode v).length ≤ isizeMax) :
    decode (encode v) = .ok v := (decode_eq_ok hmem).mpr (hv.item le_rfl)

/-- `flatten_to_keys` without a prefix gives the records of the leaves. -/
theorem flattenToKeys_map (map : List (String × Value)) :
    flattenToKeys "" (.map map) = (entryPaths map).map (leafRecord []) := by
  rw [flattenToKeys]
  exact flattenEntries_eq [] map

/-- The keys are distinct. -/
theorem TreeEntries.nodup_keys (h : TreeEntries map) :
    ((flattenToKeys "" (.map map)).map Prod.fst).Nodup := by
  have hkeys : (flattenToKeys "" (.map map)).map Prod.fst =
      ((entryPaths map).map Prod.fst).map encodeKey := by
    rw [flattenToKeys_map, List.map_map, List.map_map]
    rfl
  have hfit : ∀ parts ∈ (entryPaths map).map Prod.fst, PartsFit parts := by
    intro parts hparts
    obtain ⟨p, hp, rfl⟩ := List.mem_map.mp hparts
    exact (h.of_mem_paths hp).1
  rw [hkeys]
  apply List.Nodup.map_on _ (nodup_entryPaths h.nodup fun e he => (h.trees e he).nodup_paths)
  intro parts hparts parts' hparts'
  exact encodeKey_injective (hfit parts hparts) (hfit parts' hparts')

/-- The records of a map give it back when the lengths of its leaves fit an `i32`. -/
theorem TreeEntries.unflatten_eq (h : TreeEntries map)
    (hmem : ∀ w, (Value.map map).HasLeaf w → (encode w).length ≤ isizeMax)
    (hfits : ∀ w, (Value.map map).HasLeaf w → w.Fits) :
    unflattenFromKeys (flattenToKeys "" (.map map)) = .ok (.map map) := by
  have hdecode : ∀ p ∈ entryPaths map, PartsFit p.1 ∧ decode (encode p.2) = .ok p.2 := by
    intro p hp
    obtain ⟨hfit, hleaf⟩ := h.of_mem_paths hp
    exact ⟨hfit, decode_leaf (hfits p.2 hleaf) (hmem p.2 hleaf)⟩
  rw [flattenToKeys_map, unflattenFromKeys, unflattenLoop_eq [] hdecode, h.insertPaths]
  rfl

/-- Records that give a value are of leaves whose lengths fit an `i32`. -/
theorem fits_of_unflatten {v w : Value}
    (hmem : ∀ w, (Value.map map).HasLeaf w → (encode w).length ≤ isizeMax)
    (h : unflattenFromKeys (flattenToKeys "" (.map map)) = .ok v)
    (hw : (Value.map map).HasLeaf w) : w.Fits := by
  rw [flattenToKeys_map, unflattenFromKeys] at h
  obtain ⟨root, hroot, -⟩ := Outcome.bind_eq_ok.mp h
  obtain ⟨parts, hp⟩ := hw.exists_path
  rw [Value.paths] at hp
  obtain ⟨x, hx⟩ := decode_of_unflattenLoop hroot _ hp
  exact fits_of_decode hw.isLeaf (hmem w hw) hx

/-! ## Orders of the entries -/

theorem TreeEntries.relist {mid map' : List (String × Value)} (h : TreeEntries map)
    (hperm : map.Perm mid) (hkeys : mid.map Prod.fst = map'.map Prod.fst)
    (htrees : ∀ (i : Nat) (e e' : String × Value), mid[i]? = some e → map'[i]? = some e' →
      e.2.Tree → e'.2.Tree) : TreeEntries map' where
  nodup := hkeys ▸ (hperm.map Prod.fst).nodup_iff.mp h.nodup
  fit part hpart := h.fit part ((hperm.map Prod.fst).mem_iff.mpr (hkeys ▸ hpart))
  trees e' he' := by
    obtain ⟨i, e, he, hi, -⟩ := exists_partner hkeys he'
    exact htrees i e e' he hi (h.trees e (hperm.mem_iff.mpr (List.mem_of_getElem? he)))

theorem Relisted.tree {v v' : Value} (h : Relisted v v') (hv : v.Tree) : v'.Tree := by
  induction h with
  | same v => exact hv
  | array => cases hv with | leaf hl => cases hl
  | @map map mid map' hperm hkeys _ ih =>
    have hentries := (TreeEntries.of_tree hv).relist hperm hkeys ih
    have hne : map' ≠ [] := by
      rintro rfl
      have hmid : mid = [] := List.map_eq_nil_iff.mp hkeys
      rw [hmid, List.perm_nil] at hperm
      subst hperm
      cases hv with
      | leaf hl => cases hl
      | map hne => exact hne rfl
    exact .map hne hentries.nodup hentries.fit hentries.trees

theorem Relisted.hasLeaf_iff {v v' w : Value} (h : Relisted v v') : v.HasLeaf w ↔ v'.HasLeaf w := by
  induction h with
  | same v => exact Iff.rfl
  | array =>
    constructor
    · intro hw
      cases hw with | here hl => cases hl
    · intro hw
      cases hw with | here hl => cases hl
  | @map map mid map' hperm hkeys _ ih =>
    constructor
    · intro hw
      cases hw with
      | here hl => cases hl
      | @entry _ e _ he hw =>
        obtain ⟨i, e', he', hi, -⟩ := exists_partner hkeys.symm (hperm.mem_iff.mp he)
        exact .entry (List.mem_of_getElem? he') ((ih i e e' hi he').mp hw)
    · intro hw
      cases hw with
      | here hl => cases hl
      | @entry _ e' _ he' hw =>
        obtain ⟨i, e, he, hi, -⟩ := exists_partner hkeys he'
        exact .entry (hperm.mem_iff.mpr (List.mem_of_getElem? he)) ((ih i e e' he hi).mpr hw)

/-- The order of the entries of a map is another one. -/
theorem TreeEntries.of_relisted {v' : Value} (h : TreeEntries map) (horder : Relisted (.map map) v') :
    ∃ map', v' = .map map' ∧ TreeEntries map' := by
  cases horder with
  | same => exact ⟨map, rfl, h⟩
  | map hperm hkeys hrel =>
    exact ⟨_, rfl, h.relist hperm hkeys fun i e e' he he' hv => (hrel i e e' he he').tree hv⟩

/-! ## The round trip -/

/-- Whatever the orders in which the entries of the maps are met, the records of a map have distinct
keys and give it back, exactly when each string and byte string is shorter than 2^31 bytes. -/
theorem unflatten_flatten_iff {v' : Value} (h : TreeEntries map) (horder : Relisted (.map map) v')
    (hmem : ∀ w, (Value.map map).HasLeaf w → (encode w).length ≤ isizeMax) :
    ((∃ w, unflattenFromKeys (flattenToKeys "" v') = .ok w ∧ Relisted (.map map) w) ∧
        ((flattenToKeys "" v').map Prod.fst).Nodup) ↔
      ∀ w, (Value.map map).HasLeaf w → w.Fits := by
  obtain ⟨map', rfl, h'⟩ := h.of_relisted horder
  have hmem' : ∀ w, (Value.map map').HasLeaf w → (encode w).length ≤ isizeMax :=
    fun w hw => hmem w (horder.hasLeaf_iff.mpr hw)
  constructor
  · rintro ⟨⟨v, hv, -⟩, -⟩ w hw
    exact fits_of_unflatten hmem' hv (horder.hasLeaf_iff.mp hw)
  · intro hfits
    have heq := h'.unflatten_eq hmem' fun w hw => hfits w (horder.hasLeaf_iff.mpr hw)
    exact ⟨⟨_, heq, horder⟩, h'.nodup_keys⟩

/-- A map in a map, and the entries of the outer one in both orders. -/
theorem unflatten_flatten_iff_swapped :
    (∃ w, unflattenFromKeys (flattenToKeys ""
        (.map [("b", .string "hi"), ("a", .map [("x", .i32 5)])])) = .ok w ∧
        Relisted (.map [("a", .map [("x", .i32 5)]), ("b", .string "hi")]) w) ∧
      ((flattenToKeys "" (.map [("b", .string "hi"), ("a", .map [("x", .i32 5)])])).map
        Prod.fst).Nodup := by
  have hinner : (Value.map [("x", .i32 5)]).Tree := by
    apply Value.Tree.map (List.cons_ne_nil _ _)
    · decide
    · decide
    · intro e he
      rw [List.mem_singleton.mp he]
      exact .leaf rfl
  have htree : TreeEntries [("a", .map [("x", .i32 5)]), ("b", .string "hi")] := by
    refine ⟨by decide, by decide, fun e he => ?_⟩
    rcases List.mem_pair.mp he with rfl | rfl
    · exact hinner
    · exact .leaf rfl
  have hleaves : ∀ w, (Value.map [("a", .map [("x", .i32 5)]), ("b", .string "hi")]).HasLeaf w →
      w = .i32 5 ∨ w = .string "hi" := by
    intro w hw
    obtain ⟨parts, hp⟩ := hw.exists_path
    simp only [Value.paths, entryPaths, List.map_cons, List.map_nil, List.append_nil,
      List.singleton_append, List.mem_cons, Prod.mk.injEq, List.not_mem_nil, or_false] at hp
    exact hp.imp And.right And.right
  have horder : Relisted (.map [("a", .map [("x", .i32 5)]), ("b", .string "hi")])
      (.map [("b", .string "hi"), ("a", .map [("x", .i32 5)])]) := by
    apply Relisted.map (List.Perm.swap ..)
    · rfl
    · intro i e e' he he'
      rw [Option.some_inj.mp (he.symm.trans he')]
      exact .same _
  apply (unflatten_flatten_iff htree horder _).mpr
  · intro w hw
    rcases hleaves w hw with rfl | rfl
    · exact .i32 5
    · exact .string (by decide)
  · intro w hw
    rcases hleaves w hw with rfl | rfl
    · decide
    · decide

/-- The record of a byte string of 2^31 bytes does not give it back: its length is written as -2^31. -/
theorem unflatten_flatten_long :
    TreeEntries [("a", .bytes (List.replicate 2147483648 0))] ∧
      ¬ ∃ w, unflattenFromKeys
        (flattenToKeys "" (.map [("a", .bytes (List.replicate 2147483648 0))])) = .ok w := by
  have hlen : (List.replicate 2147483648 (0 : UInt8)).length = 2147483648 := List.length_replicate
  generalize List.replicate 2147483648 (0 : UInt8) = b at hlen
  have hleaf : (Value.map [("a", .bytes b)]).HasLeaf (.bytes b) :=
    .entry List.mem_cons_self (.here rfl)
  have hfit : PartsFit ["a"] := by decide
  refine ⟨⟨List.nodup_singleton _, hfit, ?_⟩, ?_⟩
  · intro e he
    rw [List.mem_singleton.mp he]
    exact .leaf rfl
  · rintro ⟨v, hv⟩
    have hmem : ∀ w, (Value.map [("a", .bytes b)]).HasLeaf w → (encode w).length ≤ isizeMax := by
      intro w hw
      obtain ⟨parts, hp⟩ := hw.exists_path
      simp only [Value.paths, entryPaths, List.map_cons, List.map_nil, List.append_nil,
        List.mem_cons, Prod.mk.injEq, List.not_mem_nil, or_false] at hp
      rw [hp.2, encode, List.length_cons, List.length_append, encodeLen, length_leBytes, hlen]
      decide
    have hfits := fits_of_unflatten hmem hv hleaf
    cases hfits with
    | bytes hlt => exact absurd (hlen ▸ hlt) (lt_irrefl _)

end Garry
