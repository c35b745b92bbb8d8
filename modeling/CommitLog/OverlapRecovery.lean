import CommitLog.CrashDisks
import CommitLog.TruncateBeforeRun
import Mathlib.Data.List.TakeWhile

/-!
# Opening a log with overlapping segments

A trim lies under a base of its own before its source is deleted, and a joined
segment lies under its first input's name before the other inputs are.  After
a crash the segment in front is kept and the ones it contains are dropped.
-/

namespace CommitLog

open List LogView OpenSegment StoredSegment
open Segment hiding nextOffset

/-! ## The directories -/

/-- `TruncateBefore` has found the boundary and rewritten it. -/
structure TrimCut (log : LogView) (minOffset : ℤ) (obsolete : List Segment)
    (boundary : Segment) (later : List Segment) (trim : Segment) : Prop where
  sealed_eq : log.sealedSegs = obsolete ++ boundary :: later
  obsolete_below : ∀ seg ∈ obsolete, seg.reaches minOffset = false
  reaches : boundary.reaches minOffset = true
  base_lt : boundary.baseOffset < minOffset
  trim_eq : boundary.trimmed minOffset = some trim

def Segment.finalized (opts : OpenOptions) (ownIndex : Bool) (trim : Segment) : StoredSegment :=
  ⟨trim, if ownIndex then
      storedIndex trim.baseOffset (trim.logFile opts.enc) else [],
    none, false⟩

/-- The directories a crash of `TruncateBefore` can leave. -/
inductive TrimDisk (opts : OpenOptions) (notes : DiskNotes) (log : LogView)
    (minOffset : ℤ) : List StoredSegment → Prop
  | untouched : TrimDisk opts notes log minOffset (log.segments.map (store opts notes))
  | finalized (gone left : List Segment) (boundary : Segment)
      (later : List Segment) (trim : Segment) (ownIndex : Bool)
      (hcut : TrimCut log minOffset (gone ++ left) boundary later trim)
      (hindex : ownIndex = false → gone = []) :
      TrimDisk opts notes log minOffset (gone.flatMap (deleted opts notes) ++
          left.map (store opts notes) ++
          boundary.store opts notes :: trim.finalized opts ownIndex ::
            (later.map (store opts notes) ++ [log.active.store opts notes]))
  | deleted (obsolete : List Segment) (boundary : Segment) (later : List Segment) (trim : Segment)
      (hcut : TrimCut log minOffset obsolete boundary later trim) :
      TrimDisk opts notes log minOffset ((obsolete ++ [boundary]).flatMap (deleted opts notes) ++
          trim.finalized opts true :: (later.map (store opts notes) ++
              [log.active.store opts notes]))

structure JoinCut (log : LogView) (before : List Segment) (first : Segment)
    (others after : List Segment) : Prop where
  sealed_eq : log.sealedSegs = before ++ first :: (others ++ after)
  others_ne : others ≠ []
  isLocal : ∀ seg ∈ first :: others, seg.isOffloaded = false

/-- The directories a crash of a join can leave.  The deletion of an input may
fail and the next is tried, so any of them can be left. -/
inductive JoinDisk (opts : OpenOptions) (notes : DiskNotes) (log : LogView)
    (before : List Segment) (first : Segment) (others after : List Segment) :
    List StoredSegment → Prop
  | untouched : JoinDisk opts notes log before first others after
        (log.segments.map (store opts notes))
  | renamed (hcut : JoinCut log before first others after) :
      JoinDisk opts notes log before first others after (before.map (store opts notes) ++
          (joinedSegment first others).renamedOver opts notes first ::
            (others.map (store opts notes) ++ (after.map (store opts notes) ++
                [log.active.store opts notes])))
  | installed (left : List Segment) (oldTable : Bool) (hcut : JoinCut log before first others after)
      (hleft : left.Sublist others) :
      JoinDisk opts notes log before first others after (before.map (store opts notes) ++
          (joinedSegment first others).installedOver opts notes first oldTable ::
            (left.map (store opts notes) ++ (after.map (store opts notes) ++
                [log.active.store opts notes])))

/-! ## The property -/

/-- The log opens, and the records that must survive are served once each and
in order. -/
def Survives (opts : OpenOptions) (hw : ℤ) (disk : List StoredSegment)
    (must : Frame → Bool) (all : List Frame) : Prop :=
  ∃ opened, openLog opts hw disk = .ok opened ∧ (∀ o ∈ opened, o.Right opts) ∧
    ((readableOf opened).Pairwise fun a b => a.offset < b.offset) ∧
    (readableOf opened).filter must = all.filter must

/-- Reopening after a crash of either operation serves what had to
survive. -/
structure OverlapsResolve (opts : OpenOptions) (notes : DiskNotes) (hw : ℤ)
    (log : LogView) (minOffset : ℤ) (before : List Segment)
    (first : Segment) (others after : List Segment) : Prop where
  trim : ∀ disk, TrimDisk opts notes log minOffset disk →
    Survives opts hw disk (fun frame => decide (minOffset ≤ frame.offset)) (recordsOf log.segments)
  join : ∀ disk, JoinDisk opts notes log before first others after disk →
    Survives opts hw disk (fun _ => true) (recordsOf log.segments)

/-- Every segment can be indexed; a boundary that is rewritten is local and
its trim can be indexed; and a joined segment can be opened over what its
first input leaves. -/
structure OverlapSafe (opts : OpenOptions) (notes : DiskNotes)
    (log : LogView) (minOffset : ℤ) (before : List Segment)
    (first : Segment) (others after : List Segment) : Prop where
  indexable : ∀ seg ∈ log.segments, seg.Indexable opts.enc
  trim : ∀ obsolete boundary later trim, TrimCut log minOffset obsolete boundary later trim →
    boundary.isOffloaded = false ∧ trim.Indexable opts.enc
  join : JoinCut log before first others after →
    ((joinedSegment first others).renamedOver opts notes
      first).Openable opts

/-! ## The trim -/

section Trim

variable {opts : OpenOptions} {notes : DiskNotes} {hw : ℤ} {log : LogView}
  {minOffset : ℤ} {obsolete gone left later : List Segment}
  {boundary trim : Segment}

theorem TrimCut.segments_eq (hcut : TrimCut log minOffset obsolete boundary later trim) :
    log.segments = obsolete ++ boundary :: (later ++ [log.active]) := by
  rw [segments, hcut.sealed_eq]
  simp

theorem TrimCut.spec (hordered : LogOrdered log.segments)
    (hcut : TrimCut log minOffset obsolete boundary later trim) :
    trim.WellFormed ∧ trim.isOffloaded = false ∧ trim.frames = (boundary.frames.filter
        fun frame => decide (minOffset ≤ frame.offset)) ∧
      (∃ frame ∈ trim.frames, trim.baseOffset = frame.offset) ∧
      boundary.baseOffset ≤ trim.baseOffset ∧
      trim.baseOffset < boundary.nextOffset ∧
      trim.nextOffset ≤ boundary.nextOffset := by
  have hwf := hordered.wellFormed boundary (by simp [hcut.segments_eq])
  have htrim := hcut.trim_eq
  unfold trimmed at htrim
  split at htrim
  · cases htrim
  · next first rest hfilter =>
      cases htrim
      have hsub : (first :: rest).Sublist boundary.frames := by
        rw [← hfilter]
        exact filter_sublist
      have hordered := hwf.ordered.sublist hsub
      have hfirst := hsub.subset (mem_cons_self (a := first))
      have hbase := hwf.base_le first hfirst
      have hnonneg := hwf.base_nonneg
      have htrimWf : (writeEach first.offset boundary.encodesBlocks
          (first :: rest)).WellFormed := by
        apply wellFormed_writeEach (by omega) hordered
        intro frame hmem
        rcases mem_cons.mp hmem with rfl | hmem
        · exact le_rfl
        · exact ((pairwise_cons.mp hordered).1 frame hmem).le
      refine ⟨htrimWf, ?_, ?_, ?_, ?_, ?_, ?_⟩
      · unfold writeEach isOffloaded
        rw [tier_foldl_append]
        rfl
      · rw [frames_writeEach, hfilter]
      · rw [frames_writeEach, baseOffset_writeEach]
        exact ⟨first, mem_cons_self, rfl⟩
      · rw [baseOffset_writeEach]
        exact hbase
      · rw [baseOffset_writeEach]
        exact hwf.offset_lt_nextOffset hfirst
      · have hlt := hwf.offset_lt_nextOffset hfirst
        apply nextOffset_le_of
        · rw [baseOffset_writeEach]
          exact hlt.le
        · intro frame hframe
          rw [frames_writeEach] at hframe
          exact hwf.offset_lt_nextOffset (hsub.subset hframe)

theorem Segment.finalized_sound (hwf : trim.WellFormed) (hlocal : trim.isOffloaded = false)
    (ownIndex : Bool) : (trim.finalized opts ownIndex).Sound opts := by
  constructor
  · exact hwf
  · intro e he
    cases ownIndex with
    | true => exact storedIndex_fits he
    | false => cases he
  · intro hoffloaded
    change trim.isOffloaded = true at hoffloaded
    rw [hlocal] at hoffloaded
    cases hoffloaded

theorem Segment.finalized_openable_iff (ownIndex : Bool) :
    (trim.finalized opts ownIndex).Openable opts ↔ trim.Indexable opts.enc := by
  constructor
  · exact fun hopen => hopen.fits
  · intro hfits
    refine ⟨hfits, fun _ => ⟨tableRight_own false, Or.inr ?_⟩⟩
    cases ownIndex with
    | true =>
      have heq : storedIndex trim.baseOffset (trim.logFile opts.enc) =
          (trim.logFile opts.enc).entries := map_stored_of_fits hfits
      change storedIndex trim.baseOffset (trim.logFile opts.enc) <+: _
      rw [heq]
      exact prefix_rfl
    | false => exact nil_prefix

theorem survives_of_kept {front kept : List StoredSegment}
    {last : StoredSegment} {must : Frame → Bool} {records all : List Frame}
    (hgood : ∀ st ∈ front ++ [last], st.Sound opts ∧ st.Openable opts)
    (hresolve : Apart kept → resolveSegmentOverlaps base next front = some kept)
    (hspaced : Spaced ((kept ++ [last]).map fun st => st.seg))
    (hreadable : (kept ++ [last]).flatMap readable = records)
    (hordered : records.Pairwise fun a b => a.offset < b.offset)
    (hmust : records.filter must = all.filter must) :
    Survives opts hw (front ++ [last]) must all := by
  have hapart : Apart (kept ++ [last]) := apart_iff.mpr hspaced.apart
  rcases @openLog_of_kept opts hw front kept last
    (fun st hst => (hgood st hst).1) (fun st hst => (hgood st hst).2)
    (hresolve (pairwise_append.mp hapart).1) hapart with ⟨opened, hok, hright, hread, -⟩
  rw [hreadable] at hread
  refine ⟨opened, hok, hright, ?_, ?_⟩
  · rwa [hread]
  · rw [hread, hmust]

theorem filter_obsolete {segs : List Segment} (hwf : ∀ seg ∈ segs, seg.WellFormed)
    (hbelow : ∀ seg ∈ segs, seg.reaches minOffset = false) :
    (recordsOf segs).filter (fun frame => decide (minOffset ≤ frame.offset)) = [] := by
  induction segs with
  | nil => rfl
  | cons seg segs ih =>
    rw [recordsOf_cons, filter_append, filter_of_not_reaches (hwf seg mem_cons_self)
        (hbelow seg mem_cons_self),
      ih (fun other hother => hwf other (mem_cons_of_mem _ hother))
        (fun other hother => hbelow other (mem_cons_of_mem _ hother))]
    rfl

theorem TrimCut.lt_nextOffset (hcut : TrimCut log minOffset obsolete boundary later trim) :
    minOffset < boundary.nextOffset := by
  have hreaches := hcut.reaches
  unfold Segment.reaches at hreaches
  unfold Segment.nextOffset
  cases hlast : boundary.frames.getLast? with
  | none => simp [hlast] at hreaches
  | some last =>
    have hle : minOffset ≤ last.offset := by simpa [hlast] using hreaches
    simp only
    omega

theorem TrimCut.good (hordered : LogOrdered log.segments)
    (hindexable : ∀ seg ∈ log.segments, seg.Indexable opts.enc)
    (hcut : TrimCut log minOffset obsolete boundary later trim) (htrim : trim.Indexable opts.enc)
    (ownIndex : Bool) {st : StoredSegment} (hlisted : st = trim.finalized opts ownIndex ∨
      (st ∈ log.segments.map (store opts notes) ∨ st ∈ log.segments.flatMap (deleted opts notes))) :
    st.Sound opts ∧ st.Openable opts := by
  rcases hcut.spec hordered with ⟨htrimWf, hlocal, -⟩
  rcases hlisted with rfl | hlisted
  · exact ⟨finalized_sound htrimWf hlocal ownIndex, (finalized_openable_iff ownIndex).mpr htrim⟩
  · exact sound_of_listed notes hordered.spaced hindexable hlisted

theorem deleted_of_local (hboundary : boundary.isOffloaded = false) :
    boundary.deleted opts notes = [] := by
  unfold deleted
  rw [hboundary]
  rfl

section

variable (hordered : LogOrdered log.segments)
include hordered

theorem TrimCut.survives_finalized (hindexable : ∀ seg ∈ log.segments, seg.Indexable opts.enc)
    (hcut : TrimCut log minOffset (gone ++ left) boundary later trim)
    (htrim : trim.Indexable opts.enc) (ownIndex : Bool) :
    Survives opts hw (gone.flatMap (deleted opts notes) ++
        left.map (store opts notes) ++
        boundary.store opts notes :: trim.finalized opts ownIndex ::
          (later.map (store opts notes) ++ [log.active.store opts notes]))
      (fun frame => decide (minOffset ≤ frame.offset))
      (recordsOf log.segments) := by
  have hspaced := hordered.spaced
  have hsegments := hcut.segments_eq
  rcases hcut.spec hordered with ⟨-, -, -, -, -, hinside, hends⟩
  generalize hfront : gone.flatMap (deleted opts notes) ++
    left.map (store opts notes) = front
  have hsplit : front ++ boundary.store opts notes :: trim.finalized opts ownIndex ::
        (later.map (store opts notes) ++ [log.active.store opts notes]) =
      (front ++ boundary.store opts notes :: ([trim.finalized opts ownIndex] ++
          later.map (store opts notes))) ++
        [log.active.store opts notes] := by
    simp
  have hkept : front ++ boundary.store opts notes ::
      later.map (store opts notes) ++ [log.active.store opts notes] =
      gone.flatMap (deleted opts notes) ++ (left ++ boundary :: (later ++ [log.active])).map
          (store opts notes) := by
    rw [← hfront]
    simp
  have hrest : (left ++ boundary :: (later ++ [log.active])).Sublist
      log.segments := by
    rw [hsegments, append_assoc]
    exact sublist_append_right _ _
  rw [hsplit]
  apply survives_of_kept
  · intro st hst
    apply hcut.good hordered hindexable htrim ownIndex
    rw [hsegments]
    simp only [← hfront, map_append, map_cons, map_nil,
      flatMap_append, mem_append, mem_cons] at hst ⊢
    tauto
  · intro hapart
    apply resolve_covered hapart
    intro st hst
    rw [mem_singleton.mp hst]
    exact ⟨hinside, hends⟩
  · rw [hkept, map_append, map_seg_store]
    apply hspaced.sublist
    rw [hsegments, append_assoc]
    exact (deleted_sublist opts notes gone).append (Sublist.refl _)
  · rw [hkept, flatMap_append, readable_deleted, readable_store, nil_append]
  · exact (hordered.sublist hrest).records_ordered
  · have hgone := @filter_obsolete minOffset gone
      (fun seg hseg => hordered.wellFormed seg (by simp [hsegments, hseg]))
      (fun seg hseg => hcut.obsolete_below seg (by simp [hseg]))
    rw [hsegments, append_assoc, recordsOf_append gone, filter_append, hgone, nil_append]

theorem TrimCut.survives_deleted (hindexable : ∀ seg ∈ log.segments, seg.Indexable opts.enc)
    (hcut : TrimCut log minOffset obsolete boundary later trim)
    (hboundary : boundary.isOffloaded = false) (htrim : trim.Indexable opts.enc) :
    Survives opts hw ((obsolete ++ [boundary]).flatMap (deleted opts notes) ++
        trim.finalized opts true :: (later.map (store opts notes) ++ [log.active.store opts notes]))
      (fun frame => decide (minOffset ≤ frame.offset))
      (recordsOf log.segments) := by
  have hspaced := hordered.spaced
  have hsegments := hcut.segments_eq
  rcases hcut.spec hordered with ⟨htrimWf, -, hframes, -, hbase, -, hends⟩
  generalize hfront : obsolete.flatMap (deleted opts notes) = front
  have hdisk : (obsolete ++ [boundary]).flatMap (deleted opts notes) ++
      trim.finalized opts true :: (later.map (store opts notes) ++ [log.active.store opts notes]) =
      (front ++ trim.finalized opts true :: later.map (store opts notes)) ++
        [log.active.store opts notes] := by
    rw [← hfront]
    simp [deleted_of_local hboundary]
  have hkept : front ++ trim.finalized opts true ::
      later.map (store opts notes) ++ [log.active.store opts notes] =
      front ++ trim.finalized opts true :: (later ++ [log.active]).map (store opts notes) := by
    simp
  have hrecords : trim.frames ++ recordsOf (later ++ [log.active]) =
      (recordsOf (boundary :: (later ++ [log.active]))).filter
        fun frame => decide (minOffset ≤ frame.offset) := by
    have habove := @filter_recordsOf_eq_self minOffset (later ++ [log.active])
      (le_offset_of_reached (hsegments ▸ hspaced) hcut.lt_nextOffset)
    rw [recordsOf_cons, filter_append, habove, ← hframes]
  have hrest : (boundary :: (later ++ [log.active])).Sublist
      log.segments := by
    rw [hsegments]
    exact sublist_append_right _ _
  rw [hdisk]
  apply survives_of_kept
  · intro st hst
    apply hcut.good hordered hindexable htrim true
    rw [hsegments]
    simp only [← hfront, map_append, map_cons, map_nil,
      flatMap_append, mem_append, mem_cons] at hst ⊢
    tauto
  · exact resolveSegmentOverlaps_eq_self
  · rw [hkept, map_append, map_cons, map_seg_store, ← hfront]
    have hreplaced : Spaced (obsolete ++ trim :: (later ++ [log.active])) :=
      (hsegments ▸ hspaced).replace htrimWf hbase hends
    exact hreplaced.sublist ((deleted_sublist opts notes obsolete).append (Sublist.refl _))
  · rewrite [hkept, flatMap_append, flatMap_cons, readable_store, ← hfront, readable_deleted]
    exact hrecords
  · exact (hordered.sublist hrest).records_ordered.filter _
  · have hgone := @filter_obsolete minOffset obsolete
      (fun seg hseg => hordered.wellFormed seg (by simp [hsegments, hseg]))
      hcut.obsolete_below
    rw [filter_filter, hsegments, recordsOf_append obsolete, filter_append, hgone, nil_append]
    simp

theorem TrimCut.local_of_survives (hindexable : ∀ seg ∈ log.segments, seg.Indexable opts.enc)
    (hcut : TrimCut log minOffset obsolete boundary later trim)
    (hsurvives : Survives opts hw ((obsolete ++ [boundary]).flatMap (deleted opts notes) ++
        trim.finalized opts true :: (later.map (store opts notes) ++ [log.active.store opts notes]))
      (fun frame => decide (minOffset ≤ frame.offset))
      (recordsOf log.segments)) :
    boundary.isOffloaded = false := by
  have hspaced := hordered.spaced
  have hsegments := hcut.segments_eq
  rcases hcut.spec hordered with ⟨-, -, hframes, ⟨frame, hframe, -⟩, -, hinside, -⟩
  cases hoffloaded : boundary.isOffloaded with
  | false => rfl
  | true =>
    exfalso
    rcases hsurvives with ⟨opened, hok, hright, -, hmust⟩
    have hlost : boundary.deleted opts notes =
        [{ boundary.store opts notes with lost := true }] := by
      unfold deleted
      rw [hoffloaded]
      rfl
    have hdisk : (obsolete ++ [boundary]).flatMap (deleted opts notes) =
        obsolete.flatMap (deleted opts notes) ++
          [{ boundary.store opts notes with lost := true }] := by
      rw [flatMap_append, flatMap_singleton, hlost]
    have hlisted : ∀ st ∈ obsolete.flatMap (deleted opts notes) ++
        [{ boundary.store opts notes with lost := true }],
        st ∈ (obsolete ++ [boundary]).flatMap (deleted opts notes) := by
      rw [hdisk]
      exact fun st hst => hst
    have hfront : (obsolete ++ [boundary]).Sublist log.segments := by
      rw [hsegments]
      exact (Sublist.refl obsolete).append (by simp)
    rw [hdisk, append_assoc] at hok
    have hsound : ∀ st ∈ obsolete.flatMap (deleted opts notes) ++
        [{ boundary.store opts notes with lost := true }],
        st.Sound opts := fun st hst =>
      (sound_of_listed notes (hspaced.sublist hfront)
        (fun seg hseg => hindexable seg (hfront.subset hseg))
        (Or.inr (hlisted st hst))).1
    have hapart : Apart (obsolete.flatMap (deleted opts notes) ++
        [{ boundary.store opts notes with lost := true }]) := by
      rw [apart_iff, ← hdisk]
      exact (hspaced.sublist ((deleted_sublist opts notes _).trans hfront)).apart
    have hcovered : (trim.finalized opts true).base < ({ boundary.store opts notes with
          lost := true } : StoredSegment).next := hinside
    rw [hframes] at hframe
    rcases mem_filter.mp hframe with ⟨hboundary, hle⟩
    have hserved : frame ∈ readableOf opened := by
      have hin : frame ∈ (recordsOf log.segments).filter
          fun frame => decide (minOffset ≤ frame.offset) :=
        mem_filter.mpr ⟨mem_recordsOf.mpr ⟨boundary, by simp [hsegments], hboundary⟩, hle⟩
      rw [← hmust] at hin
      exact mem_of_mem_filter hin
    rcases mem_flatMap.mp hserved with ⟨o, ho, hin⟩
    rcases stored_of_covered hsound hapart hcovered hok hright ho with
      hstored | ⟨base, rfl⟩
    · rw [append_cons] at hstored
      rcases mem_append.mp hstored with hstored | hstored
      · rcases mem_flatMap.mp (hlisted _ hstored) with ⟨seg, -, hseg⟩
        rw [mem_deleted hseg] at hin
        cases hin
      · have hmap : later.map (store opts notes) ++ [log.active.store opts notes] =
            (later ++ [log.active]).map (store opts notes) := by
          simp
        rw [hmap] at hstored
        rcases mem_map.mp hstored with ⟨seg, hseg, heq⟩
        rw [← heq] at hin
        rw [hsegments] at hordered
        have hlt := ((pairwise_cons.mp (pairwise_append.mp
          hordered.increasing).2.1).1 seg hseg).2 frame hboundary
        have hge := (hordered.wellFormed seg (by
          rw [mem_append, mem_cons]
          exact Or.inr (Or.inr hseg))).base_le frame hin
        omega
    · simp [freshOpened, readable] at hin

theorem TrimCut.indexable_of_survives (hcut : TrimCut log minOffset obsolete boundary later trim)
    (hboundary : boundary.isOffloaded = false)
    (hsurvives : Survives opts hw ((obsolete ++ [boundary]).flatMap (deleted opts notes) ++
        trim.finalized opts true :: (later.map (store opts notes) ++ [log.active.store opts notes]))
      (fun frame => decide (minOffset ≤ frame.offset))
      (recordsOf log.segments)) :
    trim.Indexable opts.enc := by
  have hsegments := hcut.segments_eq
  rcases hcut.spec hordered with ⟨htrimWf, hlocal, -, -, hbase, -, hends⟩
  rcases hsurvives with ⟨opened, hok, hright, -⟩
  rw [flatMap_append, flatMap_singleton, deleted_of_local hboundary, append_nil] at hok
  have hreplaced : Spaced (obsolete ++ trim :: (later ++ [log.active])) :=
    (hsegments ▸ hordered.spaced).replace htrimWf hbase hends
  have hfront : Spaced (obsolete ++ [trim]) :=
    hreplaced.sublist ((Sublist.refl obsolete).append (by simp))
  apply (@finalized_openable_iff opts trim true).mp
  apply openable_of_openLog _ _ hok hright
  · intro st hst
    rcases mem_append.mp hst with hst | hst
    · rcases mem_flatMap.mp hst with ⟨seg, hseg, hin⟩
      rw [mem_deleted hin]
      have hsound : (seg.store opts notes).Sound opts :=
        store_sound (hfront.wellFormed seg (by simp [hseg]))
      exact ⟨hsound.1, hsound.2, hsound.3⟩
    · rw [mem_singleton.mp hst]
      exact finalized_sound htrimWf hlocal true
  · rw [apart_iff, map_append]
    exact (hfront.sublist ((deleted_sublist opts notes obsolete).append (Sublist.refl _))).apart

end

end Trim

/-! ## The join -/

section Join

variable {opts : OpenOptions} {notes : DiskNotes} {hw : ℤ} {log : LogView}
  {before others after left : List Segment} {first : Segment}

theorem JoinCut.segments_eq (hcut : JoinCut log before first others after) : log.segments =
      before ++ first :: (others ++ (after ++ [log.active])) := by
  rw [segments, hcut.sealed_eq]
  simp

theorem JoinCut.inputs_ordered (hordered : LogOrdered log.segments)
    (hcut : JoinCut log before first others after) : LogOrdered (first :: others) := by
  apply hordered.sublist
  rw [hcut.segments_eq, ← cons_append]
  exact (sublist_append_left _ _).trans (sublist_append_right _ _)

theorem JoinCut.joined_local (hcut : JoinCut log before first others after) :
    (joinedSegment first others).isOffloaded = false :=
  hcut.isLocal first mem_cons_self

theorem Spaced.split_at {segs : List Segment} (hspaced : Spaced segs) (bound : ℤ) :
    ∃ covered trailing, segs = covered ++ trailing ∧ (∀ seg ∈ covered, seg.baseOffset < bound) ∧
      ∀ seg ∈ trailing, bound ≤ seg.baseOffset := by
  induction segs with
  | nil => exact ⟨[], [], rfl, by simp, by simp⟩
  | cons seg segs ih =>
    have hcons := pairwise_cons.mp hspaced.apart
    by_cases hlt : seg.baseOffset < bound
    · rcases ih (hspaced.sublist (sublist_cons_self seg segs)) with
        ⟨covered, trailing, rfl, hcovered, htrailing⟩
      refine ⟨seg :: covered, trailing, rfl, ?_, htrailing⟩
      intro other hother
      rcases mem_cons.mp hother with rfl | hother
      · exact hlt
      · exact hcovered other hother
    · refine ⟨[], seg :: segs, rfl, by simp, ?_⟩
      intro other hother
      have hend := (hspaced.wellFormed seg mem_cons_self).base_le_nextOffset
      rcases mem_cons.mp hother with rfl | hother
      · omega
      · have hnext := hcons.1 other hother
        omega

theorem JoinCut.joined_le (hordered : LogOrdered log.segments)
    (hcut : JoinCut log before first others after) {other : Segment}
    (hother : other ∈ after ++ [log.active]) :
    (joinedSegment first others).nextOffset ≤ other.baseOffset := by
  have hincreasing := hordered.increasing
  rw [hcut.segments_eq, ← cons_append] at hincreasing
  have hrun : ∀ seg ∈ first :: others, seg.baseOffset < other.baseOffset ∧
      ∀ frame ∈ seg.frames, frame.offset < other.baseOffset := fun seg hseg =>
    (pairwise_append.mp (pairwise_append.mp hincreasing).2.1).2.2 seg hseg other hother
  apply nextOffset_le_of
  · exact (hrun first mem_cons_self).1.le
  · intro frame hframe
    rw [frames_joinedSegment] at hframe
    rcases mem_recordsOf.mp hframe with ⟨seg, hseg, hin⟩
    exact (hrun seg hseg).2 frame hin

theorem JoinCut.survives (hordered : LogOrdered log.segments)
    (hindexable : ∀ seg ∈ log.segments, seg.Indexable opts.enc)
    (hcut : JoinCut log before first others after) (hleft : left.Sublist others)
    {cover : StoredSegment} (hseg : cover.seg = joinedSegment first others)
    (hlost : cover.lost = false) (hgood : cover.Sound opts ∧ cover.Openable opts) :
    Survives opts hw (before.map (store opts notes) ++ cover ::
        (left.map (store opts notes) ++ (after.map (store opts notes) ++
            [log.active.store opts notes])))
      (fun _ => true) (recordsOf log.segments) := by
  have hspaced := hordered.spaced
  have hsegments := hcut.segments_eq
  have hinputs := hcut.inputs_ordered hordered
  have hwf := wellFormed_joinedSegment hinputs
  have hframes := frames_joinedSegment first others
  have hothers : others.Sublist (first :: others) :=
    sublist_cons_self first others
  have hheld : ∀ seg ∈ left, ∀ frame ∈ seg.frames,
      frame.offset < (joinedSegment first others).nextOffset := by
    intro seg hin frame hframe
    apply hwf.offset_lt_nextOffset
    rw [hframes]
    exact mem_recordsOf.mpr ⟨seg, hothers.subset (hleft.subset hin), hframe⟩
  rcases Spaced.split_at (hinputs.spaced.sublist (hleft.trans hothers))
    (joinedSegment first others).nextOffset with
    ⟨covered, trailing, rfl, hcovered, htrailing⟩
  have htrailingSub : trailing.Sublist others :=
    (sublist_append_right covered trailing).trans hleft
  have hempty : recordsOf trailing = [] := by
    rw [recordsOf, flatMap_eq_nil_iff]
    intro seg hin
    rw [eq_nil_iff_forall_not_mem]
    intro frame hframe
    have hbase := (hinputs.wellFormed seg
      (hothers.subset (htrailingSub.subset hin))).base_le frame hframe
    have hlt := hheld seg (mem_append_right _ hin) frame hframe
    have hle := htrailing seg hin
    omega
  have hkeptSpaced : Spaced (before ++ joinedSegment first others ::
      (trailing ++ (after ++ [log.active]))) := by
    have hsub : (before ++ first ::
        (trailing ++ (after ++ [log.active]))).Sublist log.segments := by
      rw [hsegments]
      exact (Sublist.refl before).append ((htrailingSub.append (Sublist.refl _)).cons_cons first)
    apply (hspaced.sublist hsub).exchange hwf le_rfl
    intro other hother
    rcases mem_append.mp hother with hother | hother
    · exact htrailing other hother
    · exact hcut.joined_le hordered hother
  generalize hback : trailing.map (store opts notes) ++ after.map (store opts notes) = back
  have hdisk : before.map (store opts notes) ++ cover ::
      ((covered ++ trailing).map (store opts notes) ++
        (after.map (store opts notes) ++ [log.active.store opts notes])) =
      (before.map (store opts notes) ++ cover :: (covered.map (store opts notes) ++ back)) ++
        [log.active.store opts notes] := by
    rw [← hback]
    simp
  have hkept : before.map (store opts notes) ++ cover :: back ++ [log.active.store opts notes] =
      before.map (store opts notes) ++ cover :: (trailing ++ (after ++ [log.active])).map
          (store opts notes) := by
    rw [← hback]
    simp
  have hcover : cover.readable = recordsOf (first :: others) := by
    rw [← hframes, ← hseg]
    unfold readable
    rw [hlost]
    rfl
  rw [hdisk]
  apply survives_of_kept
  · intro st hst
    have hlisted : st = cover ∨ st ∈ log.segments.map (store opts notes) := by
      by_cases heq : st = cover
      · exact Or.inl heq
      · right
        have hsub : (before ++ (covered ++ (trailing ++
            (after ++ [log.active])))).Sublist log.segments := by
          rw [hsegments, ← append_assoc covered]
          exact (Sublist.refl before).append ((hleft.append (Sublist.refl _)).cons first)
        apply map_subset _ hsub.subset
        simp only [← hback, map_append, map_cons, map_nil, mem_append, mem_cons] at hst ⊢
        tauto
    rcases hlisted with rfl | hlisted
    · exact hgood
    · exact sound_of_listed notes hspaced hindexable (Or.inl hlisted)
  · intro hapart
    apply resolve_covered hapart
    intro st hst
    rcases mem_map.mp hst with ⟨seg, hin, rfl⟩
    unfold StoredSegment.next StoredSegment.base
    rw [hseg]
    exact ⟨hcovered seg hin, nextOffset_le_of (hcovered seg hin).le
      (hheld seg (mem_append_left _ hin))⟩
  · rw [hkept, map_append, map_cons, map_seg_store, map_seg_store, hseg]
    exact hkeptSpaced
  · rw [hkept, flatMap_append, flatMap_cons, readable_store, readable_store, hcover,
      recordsOf_append trailing, hempty, nil_append, ← recordsOf_append, ← recordsOf_append,
      cons_append, ← hsegments]
  · exact hordered.records_ordered
  · rfl

theorem JoinCut.openable_of_survives (hordered : LogOrdered log.segments)
    (hcut : JoinCut log before first others after)
    (hsurvives : Survives opts hw (before.map (store opts notes) ++
        (joinedSegment first others).renamedOver opts notes first ::
          (others.map (store opts notes) ++ (after.map (store opts notes) ++
              [log.active.store opts notes])))
      (fun _ => true) (recordsOf log.segments)) :
    ((joinedSegment first others).renamedOver opts notes
      first).Openable opts := by
  have hwf := wellFormed_joinedSegment (hcut.inputs_ordered hordered)
  have hfront : Spaced (before ++ [joinedSegment first others]) := by
    have hsub : (before ++ [first]).Sublist log.segments := by
      rw [hcut.segments_eq]
      exact (Sublist.refl before).append (by simp)
    exact (hordered.spaced.sublist hsub).exchange hwf le_rfl (by simp)
  rcases hsurvives with ⟨opened, hok, hright, -⟩
  apply openable_of_openLog _ _ hok hright
  · intro st hst
    rcases mem_append.mp hst with hst | hst
    · rcases mem_map.mp hst with ⟨seg, hseg, rfl⟩
      exact store_sound (hfront.wellFormed seg (by simp [hseg]))
    · rw [mem_singleton.mp hst]
      exact renamedOver_sound hwf rfl hcut.joined_local
  · rw [apart_iff, map_append, map_seg_store]
    exact hfront.apart

end Join

/-! ## Both together -/

section Main

variable {opts : OpenOptions} {notes : DiskNotes} {hw : ℤ} {log : LogView}
  {minOffset : ℤ} {before others after : List Segment} {first : Segment}

theorem survives_untouched (hordered : LogOrdered log.segments)
    (hindexable : ∀ seg ∈ log.segments, seg.Indexable opts.enc) (must : Frame → Bool) :
    Survives opts hw (log.segments.map (store opts notes)) must (recordsOf log.segments) := by
  have hsplit : log.segments.map (store opts notes) =
      log.sealedSegs.map (store opts notes) ++ [log.active.store opts notes] := by
    simp [segments]
  rw [hsplit]
  apply survives_of_kept
  · intro st hst
    rw [← hsplit] at hst
    exact sound_of_listed notes hordered.spaced hindexable (Or.inl hst)
  · exact resolveSegmentOverlaps_eq_self
  · rw [← hsplit, map_seg_store]
    exact hordered.spaced
  · rw [← hsplit, readable_store]
  · exact hordered.records_ordered
  · rfl

end Main

/-- A record of 100032 bytes. -/
def bigFrame (offset : ℤ) : Frame :=
  { storedFrame offset with
    size := 100000
    encodedLen_le := by change 18 ≤ 100000; omega }

def bigInput : Segment :=
  writeEach 0 true [bigFrame 0, bigFrame 1, bigFrame 2]

def smallInput : Segment := writeEach 3 true [storedFrame 3]

/-- Records 0, 1 and 2 in large blocks, and records 3 and 4 behind them. -/
def joinLog : LogView :=
  ⟨[bigInput, smallInput], writeEach 4 true [storedFrame 4], fun _ => none⟩

theorem joinLog_end (floor : ℤ) : ∃ seg, ((joinedSegment bigInput [smallInput]).renamedOver
        (plainOptions true) noNotes bigInput).openWith (plainOptions true)
        floor = .ok seg ∧
      seg.nextOffset = 3 := by
  have hready := @blocksReady_initPositions 0 true
    [⟨⟨.v2, 0, 0⟩, 100, bigFrame 0, [bigFrame 1, bigFrame 2], by omega⟩, diskBlock 3 []] (by simp)
  have hkept := @BlocksReady.keeps_index (fun _ => ⟨0, 0, 0⟩) 0 floor _ _ [] [diskBlock 3 []]
    (storedIndex 0 (bigInput.logFile (plainOptions true).enc))
    (entryAt 0 (bigFrame 0)) (entryAt 200064 (bigFrame 2)) _
    [bigFrame 0, bigFrame 1] [] (bigFrame 2) hready
    (by decide +kernel) (by decide +kernel) (by decide) rfl rfl rfl
    (by decide +kernel)
  rw [openWith_of_local (by decide +kernel)]
  exact ⟨_, hkept, rfl⟩

/-- Records 0, 1 and 2 in the cold tier and record 3 behind them. -/
def tieredLog : LogView :=
  ⟨[rawSegment 0 [0, 1, 2] (some "cold")], rawSegment 3 [3] none, fun _ => none⟩

/-- What is left of them from offset 1 on. -/
def tieredTrim : Segment :=
  writeEach 1 false [storedFrame 1, storedFrame 2]

theorem tieredLog_cut : TrimCut tieredLog 1 [] (rawSegment 0 [0, 1, 2] (some "cold")) []
      tieredTrim := by
  constructor
  · rfl
  · simp
  · decide +kernel
  · decide
  · rfl

def rawLog : LogView :=
  ⟨[rawSegment 0 [0, 1, 2] none, rawSegment 3 [3] none], rawSegment 4 [4] none, fun _ => none⟩

end CommitLog
