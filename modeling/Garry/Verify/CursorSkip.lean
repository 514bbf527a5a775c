import Garry.Verify.CursorScan

/-!
# Skipping a prefix

`garry_storage_cursor_skip_prefix` puts the first key without the prefix back into the cursor. The
cursor then stands behind the entry of this key, which the next call looks up again; to its caller
it is a list of the visible keys to come.
-/

namespace Garry

variable {pool : Pool} {lz4 : Lz4} {pfx : Bytes}

/-! ## Calls on a cursor -/

/-- The calls on an open cursor; `withValue` tells whether the caller passes a buffer for it. -/
inductive CursorCall
  | next (withValue : Bool)
  | skipPrefix (skip : Bytes)

/-- What a call returns. -/
inductive CursorReply
  | entry (found : Option (Bytes × Option Bytes))
  | skipped (found : Bool)
deriving DecidableEq

namespace Engine

/-- A call on a cursor. -/
def cursorCall (lz4 : Lz4) (eng : Engine) (cur : StorageCursor) :
    CursorCall → Option (CursorReply × StorageCursor)
  | .next withValue => (eng.cursorNext lz4 withValue cur).map fun r => (.entry r.1, r.2)
  | .skipPrefix skip => (eng.cursorSkipPrefix lz4 skip cur).map fun r => (.skipped r.1, r.2)

/-- Calls on a cursor, one after the other. -/
def cursorReplies (lz4 : Lz4) (eng : Engine) : StorageCursor → List CursorCall →
    Option (List CursorReply)
  | _, [] => some []
  | cur, call :: calls =>
    (eng.cursorCall lz4 cur call).bind fun r =>
      (cursorReplies lz4 eng r.2 calls).map fun replies => r.1 :: replies

end Engine

/-- The calls on the list of the entries to come. -/
def listCall (rest : List (Bytes × Bytes)) : CursorCall → CursorReply × List (Bytes × Bytes)
  | .next withValue =>
    (.entry (rest.head?.map fun e => (e.1, if withValue then some e.2 else none)), rest.tail)
  | .skipPrefix skip =>
    (.skipped (rest.any fun e => !prefixMatch e.1 skip), rest.dropWhile fun e => prefixMatch e.1 skip)

def listReplies : List (Bytes × Bytes) → List CursorCall → List CursorReply
  | _, [] => []
  | rest, call :: calls => (listCall rest call).1 :: listReplies (listCall rest call).2 calls

/-! ## Keys that are put back -/

theorem btreeCursorNextLoop_found {cur cur' : BtreeCursor}
    (h : btreeCursorNextLoop pool fuel cur = some (some key, cur')) :
    cur'.exhausted = cur.exhausted ∧ cur'.savedKey = cur.savedKey := by
  induction fuel generalizing cur with
  | zero => cases h
  | succ fuel ih =>
    rw [btreeCursorNextLoop] at h
    simp only at h
    split at h
    · obtain ⟨-, rfl⟩ := Prod.mk.inj (Option.some.inj h)
      exact ⟨rfl, rfl⟩
    · split at h
      · exact (ih h :)
      · obtain ⟨hn, -⟩ := Prod.mk.inj (Option.some.inj h)
        cases hn

theorem btreeCursorNext_found {cur cur' : BtreeCursor}
    (h : btreeCursorNext pool cur = some (some key, cur')) :
    cur'.exhausted = false ∧ cur'.savedKey = none := by
  rw [btreeCursorNext] at h
  split at h
  · cases h
  · next he =>
    cases hs : cur.savedKey with
    | some saved =>
      rw [hs] at h
      obtain ⟨-, rfl⟩ := Prod.mk.inj (Option.some.inj h)
      exact ⟨by simpa using he, rfl⟩
    | none =>
      rw [hs] at h
      obtain ⟨h1, h2⟩ := btreeCursorNextLoop_found h
      exact ⟨h1.trans (by simpa using he), h2.trans hs⟩

namespace Engine

variable {eng : Engine} {cur cur' : StorageCursor} {rest : List (Bytes × Bytes)}

theorem cursorNextLoop_found {withValue : Bool} {e : Bytes × Option Bytes}
    (h : cursorNextLoop lz4 eng withValue fuel cur = some (some e, cur')) :
    cur'.btreeCur.exhausted = false ∧ cur'.btreeCur.savedKey = none := by
  induction fuel generalizing cur with
  | zero => cases h
  | succ fuel ih =>
    rw [cursorNextLoop] at h
    split at h
    · cases h
    · cases h
    · next key btreeCur hn =>
      simp only at h
      split at h
      · exact ih h
      · split at h
        · split at h
          · exact ih h
          · obtain ⟨-, rfl⟩ := Prod.mk.inj (Option.some.inj h)
            exact btreeCursorNext_found hn
        · obtain ⟨-, rfl⟩ := Prod.mk.inj (Option.some.inj h)
          exact btreeCursorNext_found hn

theorem cursorNext_found {withValue : Bool} {e : Bytes × Option Bytes}
    (h : eng.cursorNext lz4 withValue cur = some (some e, cur')) :
    cur'.btreeCur.exhausted = false ∧ cur'.btreeCur.savedKey = none := by
  rw [cursorNext] at h
  split at h
  · cases h
  · exact cursorNextLoop_found h

/-- The visible entries with the prefix that a cursor has yet to return: those before which it
stands, and the one it stands behind when its key was put back. -/
inductive Remains (eng : Engine) (pfx : Bytes) (cur : StorageCursor) : List (Bytes × Bytes) → Prop
  | stands (es : List (Bytes × Bytes)) : Stands eng.pool pfx cur.btreeCur es →
    Remains eng pfx cur (eng.hits cur.txn (withPrefix pfx es))
  | saved (e : Bytes × Bytes) (val : Bytes) (es : List (Bytes × Bytes)) :
    cur.btreeCur.exhausted = false → cur.btreeCur.savedKey = some e.1 →
    Passed cur.btreeCur e → eng.entryVersion cur.txn e.2 = some val →
    Stands eng.pool pfx { cur.btreeCur with savedKey := none } es →
    Remains eng pfx cur ((e.1, val) :: eng.hits cur.txn (withPrefix pfx es))

/-- A cursor that has returned a key, with this key put back. -/
theorem remains_save {withValue : Bool} {es : List (Bytes × Bytes)} {e : Bytes × Option Bytes}
    (hf : Finds eng withValue txn pfx es (some e) cur) (hopen : cur.btreeCur.exhausted = false)
    (hs : cur.btreeCur.savedKey = none) :
    Remains eng pfx { cur with btreeCur := { cur.btreeCur with savedKey := some e.1 } }
      (eng.hits txn (withPrefix pfx es)) := by
  cases hf with
  | @some cur entry val es' h1 h2 h3 h4 h5 h6 =>
    subst h4
    rw [h1]
    refine .saved entry val es' hopen rfl ⟨h5.loaded, h5.slot, h5.entry⟩ h6 ?_
    have hcur : { cur.btreeCur with savedKey := none } = cur.btreeCur := by rw [← hs]
    exact hcur.symm ▸ h3

/-- What `garry_storage_cursor_next` does to a cursor with entries to return. -/
inductive Pops (eng : Engine) (pfx : Bytes) (withValue : Bool) (rest : List (Bytes × Bytes)) :
    Option (Bytes × Option Bytes) → StorageCursor → Prop
  | none {cur : StorageCursor} : rest = [] → cur.btreeCur.exhausted = true →
    Remains eng pfx cur [] → Pops eng pfx withValue rest none cur
  | some {cur : StorageCursor} (key val : Bytes) (rest' : List (Bytes × Bytes)) :
    rest = (key, val) :: rest' → Remains eng pfx cur rest' →
    Remains eng pfx { cur with btreeCur := { cur.btreeCur with savedKey := some key } } rest →
    Pops eng pfx withValue rest (some (key, if withValue then some val else none)) cur

/-- `garry_storage_cursor_next` returns the first of the entries that remain. -/
theorem Remains.next (h : Remains eng pfx cur rest) (hraw : eng.compression ≠ compressLz4)
    (lz4 : Lz4) (withValue : Bool) :
    ∃ found cur', eng.cursorNext lz4 withValue cur = some (found, cur') ∧
      Pops eng pfx withValue rest found cur' := by
  cases h with
  | stands es hst =>
    obtain ⟨found, cur', heq, hf⟩ := cursorNext_finds lz4 hraw hst withValue
    refine ⟨found, cur', heq, ?_⟩
    cases found with
    | none =>
      cases hf with
      | none h1 h2 => exact .none h1 h2 (.stands [] (.exhausted h2))
    | some e =>
      obtain ⟨hopen, hs⟩ := cursorNext_found heq
      have hsave := remains_save hf hopen hs
      cases hf with
      | some h1 h2 h3 h4 =>
        refine .some _ _ _ h1 ?_ hsave
        rw [← h4]
        exact .stands _ h3
  | saved e val es hopen hs hp hv hst =>
    have hpassed : Passed { cur.btreeCur with savedKey := none } e := ⟨hp.loaded, hp.slot, hp.entry⟩
    have hversion := @cursorVersion_of_passed eng
      { cur with btreeCur := { cur.btreeCur with savedKey := none } } e hpassed
    refine ⟨some (e.1, if withValue then some val else none),
      { cur with btreeCur := { cur.btreeCur with savedKey := none } }, ?_, ?_⟩
    · rw [cursorNext, if_neg (by rw [hopen]; decide), cursorFuel, cursorNextLoop, btreeCursorNext,
        if_neg (by rw [hopen]; decide), hs]
      simp only [hversion, hv, cursorValue, if_neg hraw]
      cases withValue with
      | true => rfl
      | false => rfl
    · refine .some e.1 val _ rfl (.stands es hst) ?_
      exact .saved e val es hopen rfl ⟨hp.loaded, hp.slot, hp.entry⟩ hv hst

/-- Fewer entries remain than the loop of `garry_storage_cursor_skip_prefix` has rounds. -/
theorem Remains.length_lt (h : Remains eng pfx cur rest) : rest.length < eng.cursorFuel + 1 := by
  have hle (es : List (Bytes × Bytes)) :
      (eng.hits cur.txn (withPrefix pfx es)).length ≤ es.length :=
    (List.length_filterMap_le ..).trans (List.length_filter_le ..)
  cases h with
  | stands es hst => exact ((hle es).trans_lt hst.length_lt).trans (Nat.lt_succ_self _)
  | saved e val es _ _ _ _ hst =>
    rw [List.length_cons]
    exact Nat.succ_lt_succ ((hle es).trans_lt hst.length_lt)

theorem Remains.skipLoop (h : Remains eng pfx cur rest) (hraw : eng.compression ≠ compressLz4)
    (lz4 : Lz4) (skip : Bytes) (hfuel : rest.length < fuel) :
    ∃ cur', cursorSkipPrefixLoop lz4 eng skip fuel cur =
        some (rest.any fun e => !prefixMatch e.1 skip, cur') ∧
      Remains eng pfx cur' (rest.dropWhile fun e => prefixMatch e.1 skip) := by
  induction fuel generalizing cur rest with
  | zero => omega
  | succ fuel ih =>
    obtain ⟨found, cur', heq, hp⟩ := h.next hraw lz4 false
    rw [cursorSkipPrefixLoop, heq]
    cases hp with
    | none h1 h2 h3 =>
      subst h1
      exact ⟨cur', rfl, h3⟩
    | some key val rest' h1 h2 h3 =>
      subst h1
      simp only [List.any_cons, List.dropWhile_cons]
      cases prefixMatch key skip with
      | true => exact ih h2 (Nat.lt_of_succ_lt_succ hfuel)
      | false => exact ⟨_, rfl, h3⟩

/-- `garry_storage_cursor_skip_prefix` drops the first of the entries that remain, as long as their
keys have the prefix. -/
theorem Remains.skip (h : Remains eng pfx cur rest) (hraw : eng.compression ≠ compressLz4)
    (lz4 : Lz4) (skip : Bytes) :
    ∃ cur', eng.cursorSkipPrefix lz4 skip cur =
        some (rest.any fun e => !prefixMatch e.1 skip, cur') ∧
      Remains eng pfx cur' (rest.dropWhile fun e => prefixMatch e.1 skip) := by
  rw [cursorSkipPrefix]
  split
  · next he =>
    have hnil : rest = [] := by
      cases h with
      | stands es hst =>
        cases hst with
        | exhausted => rfl
        | leaf x l hopen =>
          rw [hopen] at he
          cases he
      | saved e val es hopen =>
        rw [hopen] at he
        cases he
    subst hnil
    exact ⟨cur, rfl, h⟩
  · exact h.skipLoop hraw lz4 skip h.length_lt

/-- To its caller, a cursor is the list of the entries that remain. -/
theorem Remains.replies (h : Remains eng pfx cur rest) (hraw : eng.compression ≠ compressLz4)
    (lz4 : Lz4) (calls : List CursorCall) :
    eng.cursorReplies lz4 cur calls = some (listReplies rest calls) := by
  induction calls generalizing cur rest with
  | nil => rfl
  | cons call calls ih =>
    rw [cursorReplies, listReplies]
    cases call with
    | next withValue =>
      obtain ⟨found, cur', heq, hp⟩ := h.next hraw lz4 withValue
      rw [cursorCall, heq, Option.map_some, Option.bind_some]
      cases hp with
      | none h1 _ h3 =>
        subst h1
        rw [ih h3]
        rfl
      | some key val rest' h1 h2 _ =>
        subst h1
        rw [ih h2]
        rfl
    | skipPrefix skip =>
      obtain ⟨cur', heq, hr⟩ := h.skip hraw lz4 skip
      rw [cursorCall, heq, Option.map_some, Option.bind_some, ih hr]
      rfl

end Engine

open Engine in
/-- A cursor opened on any prefix replies to calls of next and of skip prefix, in any order, as the
list of the visible keys with its prefix and their values: next returns the first one, skip prefix
drops the first ones that start with its argument and tells whether one is left. -/
theorem cursorSkip_dropWhile {ps : Nat} {eng₀ eng eng' : Engine} (h0 : Created ps eng₀)
    (hraw : eng₀.compression ≠ compressLz4) (hrun : eng₀.Run lz4 (Proper lz4) eng)
    (hsame : SameIndex eng eng') (hact : eng'.txnIsActive txn = true) (pfx : Bytes) :
    ∃ cur rest, eng'.cursorOpen txn pfx = some cur ∧ (rest.map Prod.fst).Pairwise (· < ·) ∧
      (∀ key value, (key, value) ∈ rest ↔
        pfx <+: key ∧ eng'.storageGet lz4 txn key = some (some value)) ∧
      ∀ calls, eng'.cursorReplies lz4 cur calls = some (listReplies rest calls) := by
  obtain ⟨L, hinv⟩ := hrun.inv (fun _ _ _ h => h) h0.inv.1
  have hindex := (hinv.index (hrun.compression ▸ hraw)).congr hsame
  obtain ⟨cur, es, hopen, rfl, hst, hes⟩ := hindex.cursorOpen txn pfx
  have hremains : Remains eng' pfx cur (eng'.hits cur.txn (withPrefix pfx L.root.toList)) := by
    rw [← hes]
    exact .stands es hst
  refine ⟨cur, _, hopen, hindex.pairwise_hits cur.txn pfx, ?_, hremains.replies hindex.raw lz4⟩
  intro key value
  exact hindex.mem_hits lz4 hact

open Engine in
/-- Two skips in a row on a database with three keys. -/
theorem cursorSkip_dropWhile_three : ∃ eng₀ eng : Engine, Created 1024 eng₀ ∧
    eng₀.Run .stored (Proper .stored) eng ∧ eng.txnIsActive 1 = true ∧
    ∃ cur rest, eng.cursorOpen 1 [] = some cur ∧ ([9], [6]) ∈ rest ∧
      eng.cursorReplies .stored cur [.skipPrefix [7], .skipPrefix [8], .next true] =
        some (listReplies rest [.skipPrefix [7], .skipPrefix [8], .next true]) := by
  have hcalls : (newCalls [.begin, .set 1 [7, 1] [4], .set 1 [8] [5], .set 1 [9] [6]]).map (fun eng =>
      (eng.txnIsActive 1, eng.storageGet .stored 1 [9])) = some (true, some (some [6])) := by
    decide +kernel
  obtain ⟨eng, heng, hc⟩ := Option.map_eq_some_iff.mp hcalls
  obtain ⟨hact, hget⟩ := Prod.mk.inj hc
  obtain ⟨eng₀, h0, hraw, hrun⟩ := run_of_newCalls heng
  obtain ⟨L, hinv⟩ := hrun.inv (fun _ _ _ h => h) h0.inv.1
  obtain ⟨cur, rest, hopen, -, hmem, hreplies⟩ :=
    cursorSkip_dropWhile h0 hraw hrun (.refl hinv) hact []
  refine ⟨eng₀, eng, h0, hrun, hact, cur, rest, hopen, ?_, hreplies _⟩
  exact (hmem [9] [6]).mpr ⟨List.nil_prefix, hget⟩

end Garry
