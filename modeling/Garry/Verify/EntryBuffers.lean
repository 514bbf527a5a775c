import Garry.Model.EntryBuffers
import Garry.Verify.Reopen

/-!
# Version records and their local buffers

The buffers have a fixed size, the inline capacity grows with the page size. The calls on a chain
page stay in their buffers as long as each inline value fits with the header of its record.
-/

namespace Garry

open ByteStore LocalArray

open Engine (Admitted)

variable {ps : Nat} {buf : PageBuffer} {recs : List Bytes} {pool : Pool} {active : List Int}

/-! ## Appends -/

/-- An append that stays in its buffer is the append of the model. -/
theorem chainPageAppendLocal_eq (txn : Int) {value : Bytes}
    (hcap : value.length ≤ chainInlineCapacity ps) :
    chainPageAppendLocal buf ps txn value =
      if value.length + chainEntryHeaderSize ≤ maxRecordSize then
        some (chainPageAppend buf ps txn value)
      else none := by
  have hsome : (storeList maxRecordSize entryBuf 0
      (versionHeader txn 0 value.length 0 0 ++ value)).isSome ↔ _ := isSome_storeList
  have happ : storeList maxRecordSize entryBuf 0 (versionHeader txn 0 value.length 0 0 ++ value) =
      _ := storeList_append
  rw [List.length_append, length_versionHeader] at hsome
  rw [length_versionHeader, Nat.zero_add] at happ
  have hin : ¬ value.length > chainInlineCapacity ps := Nat.not_lt_of_le hcap
  rw [chainPageAppendLocal, if_neg hin, chainPageAppend, if_neg hin,
    ← Function.comp_def (Option.map _), ← Option.map_bind, ← happ]
  split
  · next hle =>
    rw [Nat.add_comm] at hle
    obtain ⟨entry, he⟩ := Option.isSome_iff_exists.mp (hsome.mpr (.inr ((Nat.zero_add _).trans_le hle)))
    have hs := slice_storeList he
    rw [List.length_append, length_versionHeader] at hs
    rw [he, Option.map_some, hs]
  · next hgt =>
    rw [Option.map_eq_none_iff, ← Option.not_isSome_iff_eq_none, hsome]
    rintro (hnil | hle)
    · simp [versionHeader] at hnil
    · omega

/-! ## Reads -/

/-- A record that fits is read as in the model. -/
theorem fetchRecord_eq (hfit : ∀ r, pageGet buf i ps = some r → r.length ≤ chainEntryBufSize) :
    fetchRecord buf i ps = some (pageGet buf i ps) := by
  simp only [fetchRecord, pageGetInto, pageGet] at hfit ⊢
  split
  · rfl
  · next hc =>
    rw [if_neg hc] at hfit
    split
    · rfl
    · next hl =>
      rw [if_neg hl] at hfit
      have hle := hfit _ rfl
      rw [length_slice] at hle
      have hs : (storeList chainEntryBufSize entryBuf 0
          (slice buf (readSlot buf i).offset (readSlot buf i).length)).isSome ↔ _ :=
        isSome_storeList
      rw [length_slice, Nat.zero_add] at hs
      obtain ⟨recData, hr⟩ := Option.isSome_iff_exists.mp (hs.mpr (.inr hle))
      have hread := slice_storeList hr
      rw [length_slice] at hread
      rw [hr]
      exact congrArg (fun r => some (some r)) hread

/-- Each record of the page fits the buffers. -/
def RecordsFitLocal (ps : Nat) (buf : PageBuffer) : Prop :=
  ∀ i r, pageGet buf i ps = some r → r.length ≤ chainEntryBufSize

theorem RecordsFitLocal.fetch (h : RecordsFitLocal ps buf) (i : Nat) :
    fetchRecord buf i ps = some (pageGet buf i ps) := fetchRecord_eq (h i)

theorem RecordsFitLocal.findVisible (h : RecordsFitLocal ps buf) (snap : Int) (n : Nat) :
    findVisibleLocal pool buf ps snap active n =
      some (findVisibleLoop pool buf ps snap active n) := by
  induction n with
  | zero => rfl
  | succ i ih =>
    rw [findVisibleLocal, findVisibleLoop, h.fetch, Option.bind_some]
    cases pageGet buf i ps with
    | none => exact ih
    | some recData =>
      simp only
      split
      · exact ih
      split
      · split
        · rfl
        · cases versionValue pool (readVersion recData) with
          | none => exact ih
          | some value => rfl
      · exact ih

theorem RecordsFitLocal.hasVisible (h : RecordsFitLocal ps buf) (snap : Int) (n : Nat) :
    hasVisibleLocal buf ps snap active n = some (hasVisibleLoop buf ps snap active n) := by
  induction n with
  | zero => rfl
  | succ i ih =>
    rw [hasVisibleLocal, hasVisibleLoop, h.fetch, Option.bind_some]
    cases pageGet buf i ps with
    | none => exact ih
    | some recData =>
      simp only
      split
      · exact ih
      split
      · rfl
      · exact ih

theorem RecordsFitLocal.hasVersion (h : RecordsFitLocal ps buf) (txn : Int) (n i : Nat) :
    (hasVersionLocal buf ps txn n i).isSome := by
  induction n generalizing i with
  | zero => rfl
  | succ n ih =>
    rw [hasVersionLocal, h.fetch, Option.bind_some]
    cases pageGet buf i ps with
    | none => exact ih (i + 1)
    | some recData =>
      simp only
      split
      · rfl
      · exact ih (i + 1)

theorem mapM_some {α β : Type} {f : α → Option β} {g : α → β} (hf : ∀ a, f a = some (g a))
    (l : List α) : l.mapM f = some (l.map g) := by
  induction l with
  | nil => rfl
  | cons a l ih =>
    rw [List.mapM_cons, hf, ih]
    rfl

theorem RecordsFitLocal.prune (h : RecordsFitLocal ps buf) :
    chainPagePruneLocal pool buf ps active = some (chainPagePrune pool buf ps active) := by
  simp only [chainPagePruneLocal]
  split
  · next hle =>
    simp only [chainPagePrune]
    rw [if_pos hle]
  · rw [mapM_some h.fetch, Option.map_some]

theorem RecordsFitLocal.iterNext {it : VersionIter} (h : RecordsFitLocal it.pageSize it.pageBuf) :
    it.nextLocal pool = some (it.next pool) := by
  rw [VersionIter.nextLocal]
  split
  · next hneg => rw [VersionIter.next, if_pos hneg]
  · rw [h.fetch, Option.map_some]

/-- No function that reads the records of the page stores past the end of its buffer. -/
structure ReadsInBounds (ps : Nat) (buf : PageBuffer) : Prop where
  findVisible : ∀ pool snap active,
    (findVisibleLocal pool buf ps snap active (pageRecordCount buf).toNat).isSome
  hasVisible : ∀ snap active, (hasVisibleLocal buf ps snap active (pageRecordCount buf).toNat).isSome
  prune : ∀ pool active, (chainPagePruneLocal pool buf ps active).isSome
  hasVersion : ∀ txn, (hasVersionLocal buf ps txn (pageRecordCount buf).toNat 0).isSome
  iterNext : ∀ (pool : Pool) (it : VersionIter), it.pageBuf = buf → it.pageSize = ps →
    (it.nextLocal pool).isSome

theorem RecordsFitLocal.reads (h : RecordsFitLocal ps buf) : ReadsInBounds ps buf where
  findVisible pool snap active := by
    rw [h.findVisible]
    rfl
  hasVisible snap active := by
    rw [h.hasVisible]
    rfl
  prune pool active := by
    rw [h.prune]
    rfl
  hasVersion txn := h.hasVersion txn _ 0
  iterNext pool it hb hp := by
    rw [RecordsFitLocal.iterNext (hb ▸ hp ▸ h)]
    rfl

/-! ## Calls on a chain page -/

/-- The calls that change a chain page. -/
inductive ChainCall
  | append (txn : Int) (value : Bytes)
  | appendTombstone (txn : Int)
  | appendOverflow (txn totalLen head : Int)
  | prune (pool : Pool) (active : List Int)

/-- The page after a call; when it fails, the page is as before. -/
def chainCall (ps : Nat) (buf : PageBuffer) : ChainCall → PageBuffer
  | .append txn value => (chainPageAppend buf ps txn value).getD buf
  | .appendTombstone txn => (chainPageAppendTombstone buf txn).getD buf
  | .appendOverflow txn totalLen head => (chainPageAppendOverflow buf txn totalLen head).getD buf
  | .prune pool active => ((chainPagePrune pool buf ps active).map Prod.snd).getD buf

/-- The page after calls on a new chain page. -/
def chainCalls (ps : Nat) (calls : List ChainCall) : PageBuffer :=
  calls.foldl (chainCall ps) (chainPageInit (fun _ => 0) ps)

/-- The stores of an append into its `entry_buf` are in bounds. -/
def ChainCall.InBounds (ps : Nat) (buf : PageBuffer) : ChainCall → Prop
  | .append txn value => (chainPageAppendLocal buf ps txn value).isSome
  | _ => True

/-- An inline value and the header of its record fit the buffers. -/
def ChainCall.Fits (ps : Nat) : ChainCall → Prop
  | .append _ value => value.length ≤ chainInlineCapacity ps →
      value.length + chainEntryHeaderSize ≤ maxRecordSize
  | _ => True

theorem ChainCall.inBounds_iff (call : ChainCall) : call.InBounds ps buf ↔ call.Fits ps := by
  cases call with
  | append txn value =>
    rw [InBounds, Fits]
    by_cases hcap : value.length ≤ chainInlineCapacity ps
    · rw [chainPageAppendLocal_eq txn hcap]
      simp only [hcap, true_imp_iff]
      split
      · next hle => exact iff_of_true rfl hle
      · next hgt => exact iff_of_false Bool.false_ne_true hgt
    · rw [chainPageAppendLocal, if_pos (by omega)]
      exact iff_of_true rfl fun hc => absurd hc hcap
  | _ => exact Iff.rfl

/-- The page stores records that fit the buffers. -/
def HoldsFitting (ps : Nat) (buf : PageBuffer) : Prop :=
  ∃ recs, Holds ps buf recs ∧ ∀ r ∈ recs, r.length ≤ chainEntryBufSize

theorem HoldsFitting.fit (h : HoldsFitting ps buf) : RecordsFitLocal ps buf := by
  obtain ⟨recs, H, hfit⟩ := h
  intro i r hr
  cases hi : recs[i]? with
  | none =>
    rw [pageGet_none H (List.getElem?_eq_none_iff.mp hi)] at hr
    cases hr
  | some r' =>
    rw [pageGet_holds H hi] at hr
    exact Option.some.inj hr ▸ hfit r' (List.mem_of_getElem? hi)

theorem HoldsFitting.insert (h : HoldsFitting ps buf) {data : Bytes} (hne : data ≠ [])
    (hd : data.length ≤ chainEntryBufSize) :
    HoldsFitting ps (((pageInsert buf data).map Prod.snd).getD buf) := by
  obtain ⟨recs, H, hfit⟩ := h
  by_cases hroom : HasRoom ps recs data.length
  · obtain ⟨buf', hi, H', -⟩ := pageInsert_some H hne hroom
    rw [hi]
    refine ⟨_, H', fun r hr => ?_⟩
    rcases List.mem_append.mp hr with hr | hr
    · exact hfit r hr
    · rw [List.mem_singleton.mp hr]
      exact hd
  · rw [pageInsert_none H hroom]
    exact ⟨recs, H, hfit⟩

/-- A prune keeps some of the records. -/
theorem HoldsFitting.prune (h : HoldsFitting ps buf) :
    HoldsFitting ps (((chainPagePrune pool buf ps active).map Prod.snd).getD buf) := by
  obtain ⟨recs, H, hfit⟩ := h
  have hcount : (pageRecordCount buf).toNat = recs.length := by
    rw [pageRecordCount, H.count, Int.toNat_natCast]
  simp only [chainPagePrune, hcount]
  split
  · exact ⟨recs, H, hfit⟩
  · obtain ⟨marked, hm⟩ : ∃ marked, marked = (List.range recs.length).map fun i =>
        ((pageGet buf i ps).getD [],
          pruneKeeps active recs.length i ((pageGet buf i ps).getD [])) := ⟨_, rfl⟩
    have hfst : marked.map Prod.fst = recs := by
      rw [hm, List.map_map]
      apply List.ext_getElem
      · simp
      · intro i h1 h2
        simp [pageGet_holds H (List.getElem?_eq_getElem h2)]
    rw [← hm]
    have hsub : ((marked.filter fun r => r.2).map Prod.fst).Sublist recs := by
      rw [← hfst]
      exact List.filter_sublist.map _
    cases pruneFree pool ((marked.filter fun r => !r.2).map Prod.fst) with
    | none => exact ⟨recs, H, hfit⟩
    | some pool' =>
      have hinit : Holds ps (chainPageInit (fun _ => 0) ps) [] := by
        refine pageInit_holds _ .chain 0 ?_ H.size
        have := H.fits
        simp only [RecordsFit] at this
        omega
      obtain ⟨tmp, hins, Htmp, -⟩ := pruneInsert_holds hinit
        (fun r hr => H.nonempty r (hsub.subset hr)) (H.fits.sublist hsub)
        (hsub.length_le.trans H.slots)
      rw [Option.map_some, hins]
      exact ⟨_, Htmp.congr fun j hj => (if_pos hj).symm, fun r hr => hfit r (hsub.subset hr)⟩

theorem HoldsFitting.call (h : HoldsFitting ps buf) {call : ChainCall} (hf : call.Fits ps) :
    HoldsFitting ps (chainCall ps buf call) := by
  cases call with
  | append txn value =>
    rw [chainCall, chainPageAppend]
    split
    · exact h
    · next hcap =>
      refine h.insert ?_ ?_
      · simp [versionHeader]
      · rw [List.length_append, length_versionHeader, Nat.add_comm]
        exact hf (Nat.le_of_not_lt hcap)
  | appendTombstone txn =>
    refine h.insert ?_ ?_
    · simp [versionHeader]
    · rw [length_versionHeader]
      decide
  | appendOverflow txn totalLen head =>
    refine h.insert ?_ ?_
    · simp [versionHeader]
    · rw [List.length_append, length_versionHeader, length_word32]
      decide
  | prune pool active => exact h.prune

theorem HoldsFitting.calls (hps : Admitted ps) {calls : List ChainCall}
    (hf : ∀ call ∈ calls, call.Fits ps) : HoldsFitting ps (chainCalls ps calls) := by
  have hinit : HoldsFitting ps (chainPageInit (fun _ => 0) ps) :=
    ⟨[], pageInit_holds _ .chain 0 (le_trans (by decide) hps.1) hps.2.1, by simp⟩
  rw [chainCalls]
  generalize chainPageInit (fun _ => 0) ps = buf at hinit ⊢
  induction calls generalizing buf with
  | nil => exact hinit
  | cons call calls ih =>
    apply ih
    · intro c hc
      exact hf c (List.mem_cons_of_mem _ hc)
    · exact hinit.call (hf call List.mem_cons_self)

/-- On pages of every size that is admitted, in every run of calls on a new chain page, the stores of
the appends and of the functions that read the records are in bounds exactly when each inline value
and its header fit the buffers. -/
theorem chainEntries_inBounds (hps : Admitted ps) (calls : List ChainCall) :
    (∀ pre, pre <+: calls → ReadsInBounds ps (chainCalls ps pre) ∧
      ∀ call, pre ++ [call] <+: calls → call.InBounds ps (chainCalls ps pre)) ↔
    ∀ call ∈ calls, call.Fits ps := by
  constructor
  · intro h call hm
    obtain ⟨pre, post, rfl⟩ := List.append_of_mem hm
    have hpre : pre ++ [call] <+: pre ++ call :: post := ⟨post, by simp⟩
    exact call.inBounds_iff.mp ((h pre (List.prefix_append ..)).2 call hpre)
  · intro h pre hpre
    refine ⟨(HoldsFitting.calls hps fun c hc => h c (hpre.subset hc)).fit.reads, fun call hc => ?_⟩
    apply call.inBounds_iff.mpr
    exact h call (hc.subset (List.mem_append_right _ List.mem_cons_self))

theorem chainEntries_inBounds_small : ReadsInBounds 512 (chainCalls 512 [.append 1 [65]]) :=
  (((@chainEntries_inBounds 512 ⟨by decide, by decide, by decide⟩ [.append 1 [65]]).mpr (by
    intro call hc
    obtain rfl := List.mem_singleton.mp hc
    exact fun _ => by decide)) _ (List.prefix_refl _)).1

/-- An inline value of 16371 bytes on a page of 65536 bytes. -/
theorem chainEntries_pastEnd : Admitted 65536 ∧
    (List.replicate 16371 65 : Bytes).length ≤ chainInlineCapacity 65536 ∧
    chainPageAppendLocal (chainCalls 65536 []) 65536 1 (List.replicate 16371 65) = none := by
  have hcap : (List.replicate 16371 65 : Bytes).length ≤ chainInlineCapacity 65536 := by
    rw [List.length_replicate]
    decide
  refine ⟨⟨by decide, by decide, by decide⟩, hcap, ?_⟩
  rw [chainPageAppendLocal_eq 1 hcap, List.length_replicate, if_neg (by decide)]

end Garry
