import CommitLog.CrashDisks
import Mathlib.Data.List.TakeWhile

/-!
# A truncation that is stopped half way

`Truncate` deletes the segments behind the one it cuts one by one, oldest
first, then installs the rewrite, and publishes last.  A crash leaves one of
the directories in between; an error leaves the log running over them.
-/

namespace CommitLog

open List OpenSegment Segment

/-! ## What is left on disk -/

/-- The directories a crash of `Truncate` can leave. -/
inductive CrashDisk (opts : OpenOptions) (notes : DiskNotes) (log : LogView)
    (offset : ℤ) : List StoredSegment → Prop
  | untouched : CrashDisk opts notes log offset (log.segments.map (store opts notes))
  | deleting (before : List Segment) (seg : Segment) (gone left : List Segment)
      (hbefore : log.segments.takeWhile (endsBy offset) = before)
      (hlater : log.segments.dropWhile (endsBy offset) = seg :: (gone ++ left)) :
      CrashDisk opts notes log offset (before.map (store opts notes) ++
          seg.store opts notes :: (gone.flatMap (deleted opts notes) ++
            left.map (store opts notes)))
  | dropped (before : List Segment) (seg : Segment) (later : List Segment)
      (hbefore : log.segments.takeWhile (endsBy offset) = before)
      (hlater : log.segments.dropWhile (endsBy offset) = seg :: later)
      (hwhole : seg.baseOffset = offset ∧ before ≠ []) :
      CrashDisk opts notes log offset (before.map (store opts notes) ++
          (seg :: later).flatMap (deleted opts notes))
  | renamed (before : List Segment) (seg : Segment) (later : List Segment)
      (hbefore : log.segments.takeWhile (endsBy offset) = before)
      (hlater : log.segments.dropWhile (endsBy offset) = seg :: later)
      (hreplace : seg.baseOffset ≠ offset ∨ before = []) :
      CrashDisk opts notes log offset (before.map (store opts notes) ++
          (seg.truncated offset).renamedOver opts notes seg :: later.flatMap (deleted opts notes))
  | installed (before : List Segment) (seg : Segment) (later : List Segment) (oldTable : Bool)
      (hbefore : log.segments.takeWhile (endsBy offset) = before)
      (hlater : log.segments.dropWhile (endsBy offset) = seg :: later)
      (hreplace : seg.baseOffset ≠ offset ∨ before = []) :
      CrashDisk opts notes log offset (before.map (store opts notes) ++
          (seg.truncated offset).installedOver opts notes seg oldTable ::
            later.flatMap (deleted opts notes))

/-! ## What is left of the running log -/

inductive LiveStatus
  | inUse
  /-- Listed, but a read of it fails. -/
  | closed
  /-- Listed, but a read skips it. -/
  | left
deriving DecidableEq

structure LiveSegment where
  seg : Segment
  status : LiveStatus

def liveAs (status : LiveStatus) (segs : List Segment) : List LiveSegment :=
  segs.map fun seg => ⟨seg, status⟩

/-- The lists a failed `Truncate` can leave.  A deletion marks its segment
before it removes a file. -/
inductive FailedTruncate (log : LogView) (offset : ℤ) :
    List LiveSegment → Prop
  | early : FailedTruncate log offset (liveAs .inUse log.segments)
  | deleteFails (before : List Segment) (seg : Segment)
      (gone : List Segment) (failed : Segment) (rest : List Segment)
      (hbefore : log.segments.takeWhile (endsBy offset) = before)
      (hlater : log.segments.dropWhile (endsBy offset) = seg :: (gone ++ failed :: rest)) :
      FailedTruncate log offset (liveAs .inUse (before ++ [seg]) ++
          liveAs .left (gone ++ [failed]) ++ liveAs .inUse rest)
  | dropFails (before : List Segment) (seg : Segment) (later : List Segment)
      (hbefore : log.segments.takeWhile (endsBy offset) = before)
      (hlater : log.segments.dropWhile (endsBy offset) = seg :: later)
      (hwhole : seg.baseOffset = offset ∧ before ≠ []) :
      FailedTruncate log offset (liveAs .inUse before ++ liveAs .left (seg :: later))
  /-- A rename fails, and the old segment may not come up again. -/
  | replaceFails (before : List Segment) (seg : Segment) (later : List Segment) (closed : Bool)
      (hbefore : log.segments.takeWhile (endsBy offset) = before)
      (hlater : log.segments.dropWhile (endsBy offset) = seg :: later)
      (hreplace : seg.baseOffset ≠ offset ∨ before = []) :
      FailedTruncate log offset (liveAs .inUse before ++
          ⟨seg, if closed then .closed else .inUse⟩ :: liveAs .left later)
  /-- The installed rewrite cannot be opened. -/
  | installFails (before : List Segment) (seg : Segment) (later : List Segment)
      (hbefore : log.segments.takeWhile (endsBy offset) = before)
      (hlater : log.segments.dropWhile (endsBy offset) = seg :: later)
      (hreplace : seg.baseOffset ≠ offset ∨ before = []) :
      FailedTruncate log offset (liveAs .inUse before ++
          ⟨seg.truncated offset, .closed⟩ :: liveAs .left later)

/-- What a running log holds: the records of the segments it does not skip. -/
def heldBy (live : List LiveSegment) : List Frame :=
  recordsOf ((live.filter fun s => decide (s.status ≠ .left)).map LiveSegment.seg)

def LiveSegment.endsBy (offset : ℤ) (s : LiveSegment) : Bool :=
  s.seg.endsBy offset

def LiveSegment.skipped (offset : ℤ) (s : LiveSegment) : Bool :=
  decide (s.status = .left) || s.endsBy offset

/-- `Truncate` on a list with segments that have left it: `findSegment` passes
over them, and they stay listed in front of the one it finds. -/
def truncateLive (offset : ℤ) (live : List LiveSegment) :
    List LiveSegment :=
  let rest := live.dropWhile (LiveSegment.endsBy offset)
  let kept := live.takeWhile (LiveSegment.endsBy offset) ++
    rest.takeWhile (LiveSegment.skipped offset)
  match rest.dropWhile (LiveSegment.skipped offset) with
  | [] => live
  | found :: _ =>
    if found.seg.baseOffset ≠ offset ∨ kept = [] then
      kept ++ [⟨found.seg.truncated offset, .inUse⟩]
    else kept

/-! ## The property -/

structure HoldsFront (all : List Frame) (offset : ℤ) (held : List Frame) :
    Prop where
  front : held <+: all
  below : ∀ frame ∈ all, frame.offset < offset → frame ∈ held

/-- Wherever `Truncate` is stopped, a front part of the records with
everything below the offset is left, and truncating again leaves exactly what
lies below. -/
structure TruncateStopsRight (opts : OpenOptions) (notes : DiskNotes)
    (hw : ℤ) (log : LogView) (offset : ℤ) : Prop where
  reopened : ∀ disk, CrashDisk opts notes log offset disk →
    ∃ opened, openLog opts hw disk = .ok opened ∧ (∀ o ∈ opened, o.Right opts) ∧
      HoldsFront (recordsOf log.segments) offset (readableOf opened) ∧
      recordsOf ((openedView opened).truncate offset).segments = (recordsOf log.segments).filter
          fun frame => decide (frame.offset < offset)
  live : ∀ live, FailedTruncate log offset live →
    HoldsFront (recordsOf log.segments) offset (heldBy live) ∧ ((∀ s ∈ live, s.status ≠ .closed) →
        heldBy (truncateLive offset live) = (recordsOf log.segments).filter
            fun frame => decide (frame.offset < offset))

/-- Every segment can be indexed; of the segments behind the one that is cut at
most one holds records; and a rewrite can be opened over what its source
leaves. -/
structure TruncateStopSafe (opts : OpenOptions) (notes : DiskNotes)
    (log : LogView) (offset : ℤ) : Prop where
  indexable : ∀ seg ∈ log.segments, seg.Indexable opts.enc
  followers : ∀ seg gone left, log.segments.dropWhile (endsBy offset) = seg :: (gone ++ left) →
    recordsOf gone = [] ∨ recordsOf left = []
  install : ∀ seg later, log.segments.dropWhile (endsBy offset) = seg :: later →
    (seg.baseOffset ≠ offset ∨ log.segments.takeWhile (endsBy offset) = []) →
    ((seg.truncated offset).renamedOver opts notes seg).Openable opts

/-! ## Around the cut -/

section Cut

variable {log : LogView} {offset : ℤ} {before later : List Segment} {seg : Segment}

theorem cut_spec (hbefore : log.segments.takeWhile (endsBy offset) = before)
    (hlater : log.segments.dropWhile (endsBy offset) = seg :: later) :
    log.segments = before ++ seg :: later ∧ (∀ other ∈ before, other.nextOffset ≤ offset) ∧
      offset < seg.nextOffset := by
  refine ⟨?_, ?_, ?_⟩
  · rw [← hbefore, ← hlater, takeWhile_append_dropWhile]
  · intro other hmem
    rw [← hbefore] at hmem
    have hends := all_takeWhile (p := endsBy offset) (l := log.segments)
    simpa [endsBy] using all_eq_true.mp hends other hmem
  · have hhead := head?_dropWhile_not (endsBy offset) log.segments
    rw [hlater] at hhead
    simpa [endsBy] using hhead

theorem truncated_frames (seg : Segment) (offset : ℤ) : (seg.truncated offset).frames =
      seg.frames.takeWhile fun frame => decide (frame.offset < offset) := by
  simp [truncated]

theorem truncated_nextOffset_le_self (hwf : seg.WellFormed) :
    (seg.truncated offset).nextOffset ≤ seg.nextOffset := by
  have hbase : (seg.truncated offset).baseOffset = seg.baseOffset := by
    simp [truncated]
  cases hlast : (seg.truncated offset).frames.getLast? with
  | none =>
    unfold Segment.nextOffset
    rw [hlast, hbase]
    exact hwf.base_le_nextOffset
  | some last =>
    have hmem := mem_of_getLast? hlast
    rw [truncated_frames] at hmem
    have hlt := hwf.offset_lt_nextOffset ((takeWhile_sublist _).subset hmem)
    rw [Segment.nextOffset, hlast]
    simp only
    omega

theorem Spaced.truncated (hspaced : Spaced (before ++ seg :: later))
    (offset : ℤ) : Spaced (before ++ seg.truncated offset :: later) := by
  have hwf := hspaced.wellFormed seg (by simp)
  apply hspaced.replace (truncated_wellFormed hwf offset)
  · simp [Segment.truncated]
  · exact truncated_nextOffset_le_self hwf

theorem records_below_cut {mid rest : List Segment} (hspaced : Spaced (before ++ seg :: later))
    (hreaches : offset < seg.nextOffset)
    (hmid : (recordsOf mid).filter (fun frame => decide (frame.offset < offset)) =
      seg.frames.filter fun frame => decide (frame.offset < offset))
    (hrest : rest.Sublist later) :
    (recordsOf (before ++ mid ++ rest)).filter (fun frame => decide (frame.offset < offset)) =
      (recordsOf (before ++ seg :: later)).filter fun frame => decide (frame.offset < offset) := by
  have habove := le_offset_of_reached hspaced hreaches
  rw [recordsOf_append, recordsOf_append, recordsOf_append, recordsOf_cons, filter_append,
    filter_append, filter_append, filter_append, hmid, filter_recordsOf_above habove,
    filter_recordsOf_above fun other hother => habove other (hrest.subset hother)]
  simp

theorem holdsFront_cut (hspaced : Spaced (before ++ seg :: later))
    (hreaches : offset < seg.nextOffset) {mid : List Frame} (hmid : mid <+: seg.frames)
    (hbelow : ∀ frame ∈ seg.frames, frame.offset < offset → frame ∈ mid) :
    HoldsFront (recordsOf (before ++ seg :: later)) offset (recordsOf before ++ mid) := by
  have habove := le_offset_of_reached hspaced hreaches
  rw [recordsOf_append, recordsOf_cons]
  constructor
  · rw [prefix_append_right_inj]
    exact hmid.trans (prefix_append _ _)
  · intro frame hmem hlt
    rcases mem_append.mp hmem with hin | hin
    · exact mem_append_left _ hin
    · rcases mem_append.mp hin with hin | hin
      · exact mem_append_right _ (hbelow frame hin hlt)
      · rcases mem_recordsOf.mp hin with ⟨other, hother, hframe⟩
        have hle := habove other hother frame hframe
        omega

theorem HoldsFront.refl (all : List Frame) : HoldsFront all offset all :=
  ⟨prefix_rfl, fun _ hmem _ => hmem⟩

theorem holdsFront_truncated (hspaced : Spaced (before ++ seg :: later))
    (hreaches : offset < seg.nextOffset) :
    HoldsFront (recordsOf (before ++ seg :: later)) offset
      (recordsOf before ++ (seg.truncated offset).frames) := by
  have hwf := hspaced.wellFormed seg (by simp)
  rw [truncated_frames]
  apply holdsFront_cut hspaced hreaches ( takeWhile_prefix _)
  intro frame hmem hlt
  rw [takeWhile_offset_eq_filter hwf.ordered, mem_filter]
  exact ⟨hmem, by simpa using hlt⟩

end Cut

/-! ## Reopening -/

theorem truncated_renamedOver_sound {opts : OpenOptions} {notes : DiskNotes}
    {seg : Segment} {offset : ℤ} (hwf : seg.WellFormed) :
    ((seg.truncated offset).renamedOver opts notes seg).Sound opts :=
  renamedOver_sound (truncated_wellFormed hwf offset)
    (by simp [truncated]) (seg.isOffloaded_truncated offset)

section Reopening

variable {opts : OpenOptions} {notes : DiskNotes} {hw : ℤ} {log : LogView}
  {offset : ℤ} {disk : List StoredSegment}

structure GoodDisk (opts : OpenOptions) (log : LogView) (offset : ℤ)
    (disk : List StoredSegment) : Prop where
  nonempty : disk ≠ []
  sound : ∀ st ∈ disk, st.Sound opts
  openable : ∀ st ∈ disk, st.Openable opts
  apart : Apart disk
  below : (recordsOf (disk.map fun st => st.seg)).filter
      (fun frame => decide (frame.offset < offset)) =
    (recordsOf log.segments).filter fun frame => decide (frame.offset < offset)

theorem GoodDisk.reopens (hgood : GoodDisk opts log offset disk) :
    ∃ opened, openLog opts hw disk = .ok opened ∧ (∀ o ∈ opened, o.Right opts) ∧
      readableOf opened = disk.flatMap StoredSegment.readable ∧
      recordsOf ((openedView opened).truncate offset).segments = (recordsOf log.segments).filter
          fun frame => decide (frame.offset < offset) := by
  rcases @openLog_of_apart opts hw disk hgood.nonempty hgood.sound hgood.openable hgood.apart with
    ⟨opened, hok, hright, hread, hspaced, hrecords⟩
  refine ⟨opened, hok, hright, hread, ?_⟩
  rw [truncate_records hspaced, hrecords, hgood.below]

variable {before gone left later : List Segment} {seg : Segment}

theorem goodDisk_store (hspaced : Spaced log.segments)
    (hindexable : ∀ seg ∈ log.segments, seg.Indexable opts.enc) :
    GoodDisk opts log offset (log.segments.map (store opts notes)) := by
  constructor
  · simp [LogView.segments]
  · intro st hst
    rcases mem_map.mp hst with ⟨seg, hseg, rfl⟩
    exact store_sound (hspaced.wellFormed seg hseg)
  · intro st hst
    rcases mem_map.mp hst with ⟨seg, hseg, rfl⟩
    exact store_openable_iff.mpr (hindexable seg hseg)
  · rw [apart_iff, map_seg_store]
    exact hspaced.apart
  · rw [map_seg_store]

theorem goodDisk_deleting (hspaced : Spaced log.segments)
    (hindexable : ∀ seg ∈ log.segments, seg.Indexable opts.enc)
    (hsplit : log.segments = before ++ seg :: (gone ++ left)) (hreaches : offset < seg.nextOffset) :
    GoodDisk opts log offset (before.map (store opts notes) ++
        seg.store opts notes :: (gone.flatMap (deleted opts notes) ++
          left.map (store opts notes))) := by
  rw [hsplit] at hspaced hindexable
  have hsegs : ((before.map (store opts notes) ++
      seg.store opts notes :: (gone.flatMap (deleted opts notes) ++
        left.map (store opts notes))).map fun st => st.seg) =
      before ++ [seg] ++ (((gone.flatMap (deleted opts notes)).map fun st => st.seg) ++
          left) := by
    rw [map_append, map_seg_store, map_cons, map_append, map_seg_store, append_assoc]
    rfl
  have hsub := (deleted_sublist opts notes gone).append (Sublist.refl left)
  have hlisted : ∀ st ∈ before.map (store opts notes) ++
      seg.store opts notes :: (gone.flatMap (deleted opts notes) ++
        left.map (store opts notes)),
      st.Sound opts ∧ st.Openable opts := by
    intro st hst
    apply sound_of_listed notes hspaced hindexable
    simp only [map_append, map_cons, flatMap_append, flatMap_cons, mem_append, mem_cons] at hst ⊢
    tauto
  constructor
  · simp
  · exact fun st hst => (hlisted st hst).1
  · exact fun st hst => (hlisted st hst).2
  · rw [apart_iff, hsegs, append_assoc]
    exact (hspaced.sublist ((Sublist.refl before).append (hsub.cons_cons seg))).apart
  · rw [hsegs, hsplit]
    exact records_below_cut hspaced hreaches (by simp [recordsOf]) hsub

theorem goodDisk_dropped (hspaced : Spaced log.segments)
    (hindexable : ∀ seg ∈ log.segments, seg.Indexable opts.enc)
    (hsplit : log.segments = before ++ seg :: later) (hreaches : offset < seg.nextOffset)
    (hbase : seg.baseOffset = offset) (hne : before ≠ []) :
    GoodDisk opts log offset (before.map (store opts notes) ++
        (seg :: later).flatMap (deleted opts notes)) := by
  rw [hsplit] at hspaced hindexable
  have hsub := deleted_sublist opts notes (seg :: later)
  have hlisted : ∀ st ∈ before.map (store opts notes) ++
      (seg :: later).flatMap (deleted opts notes),
      st.Sound opts ∧ st.Openable opts := by
    intro st hst
    apply sound_of_listed notes hspaced hindexable
    simp only [map_append, flatMap_append, mem_append] at hst ⊢
    tauto
  have habove : ∀ other ∈ seg :: later, ∀ frame ∈ other.frames, offset ≤ frame.offset := by
    intro other hother
    rcases mem_cons.mp hother with rfl | hother
    · intro frame hframe
      rw [← hbase]
      exact (hspaced.wellFormed other (by simp)).base_le frame hframe
    · exact le_offset_of_reached hspaced hreaches other hother
  constructor
  · simp [hne]
  · exact fun st hst => (hlisted st hst).1
  · exact fun st hst => (hlisted st hst).2
  · rw [apart_iff, map_append, map_seg_store]
    exact (hspaced.sublist ((Sublist.refl before).append hsub)).apart
  · rw [hsplit, map_append, map_seg_store, recordsOf_append, recordsOf_append, filter_append,
      filter_append, filter_recordsOf_above habove,
      filter_recordsOf_above fun other hother => habove other (hsub.subset hother)]

theorem goodDisk_rewritten {st : StoredSegment} (hspaced : Spaced log.segments)
    (hindexable : ∀ seg ∈ log.segments, seg.Indexable opts.enc)
    (hsplit : log.segments = before ++ seg :: later) (hreaches : offset < seg.nextOffset)
    (hseg : st.seg = seg.truncated offset) (hsound : st.Sound opts) (hopen : st.Openable opts) :
    GoodDisk opts log offset (before.map (store opts notes) ++
        st :: later.flatMap (deleted opts notes)) := by
  rw [hsplit] at hspaced hindexable
  have hsub := deleted_sublist opts notes later
  have hlisted : ∀ other ∈ before.map (store opts notes) ++
      st :: later.flatMap (deleted opts notes),
      other.Sound opts ∧ other.Openable opts := by
    intro other hother
    rcases mem_append.mp hother with hin | hin
    · apply sound_of_listed notes hspaced hindexable
      rw [map_append]
      exact Or.inl (mem_append_left _ hin)
    · rcases mem_cons.mp hin with rfl | hin
      · exact ⟨hsound, hopen⟩
      · apply sound_of_listed notes hspaced hindexable
        rw [flatMap_append, flatMap_cons]
        exact Or.inr (mem_append_right _ (mem_append_right _ hin))
  have hsegs : ((before.map (store opts notes) ++
      st :: later.flatMap (deleted opts notes)).map fun st => st.seg) =
      before ++ [seg.truncated offset] ++ ((later.flatMap (deleted opts notes)).map
          fun st => st.seg) := by
    rw [map_append, map_seg_store, map_cons, hseg, append_assoc]
    rfl
  have hwf := hspaced.wellFormed seg (by simp)
  constructor
  · simp
  · exact fun st hst => (hlisted st hst).1
  · exact fun st hst => (hlisted st hst).2
  · rw [apart_iff, hsegs, append_assoc]
    exact ((hspaced.truncated offset).sublist
      ((Sublist.refl before).append (hsub.cons_cons _))).apart
  · rw [hsegs, hsplit]
    apply records_below_cut hspaced hreaches _ hsub
    simp only [recordsOf, flatMap_cons, flatMap_nil, append_nil]
    rw [truncated_frames, takeWhile_offset_eq_filter hwf.ordered, filter_filter]
    simp

end Reopening

/-! ## The running log -/

section Live

variable {log : LogView} {offset : ℤ} {before gone left later : List Segment} {seg : Segment}

@[simp] theorem heldBy_append (live live' : List LiveSegment) :
    heldBy (live ++ live') = heldBy live ++ heldBy live' := by
  simp [heldBy, recordsOf_append]

@[simp] theorem heldBy_cons (s : LiveSegment) (live : List LiveSegment) : heldBy (s :: live) =
      (if s.status = .left then [] else s.seg.frames) ++ heldBy live := by
  unfold heldBy
  by_cases hleft : s.status = .left
  · simp [hleft]
  · simp [hleft, recordsOf]

@[simp] theorem heldBy_nil : heldBy [] = [] := rfl

theorem heldBy_liveAs {status : LiveStatus} (segs : List Segment) : heldBy (liveAs status segs) =
      if status = .left then [] else recordsOf segs := by
  induction segs with
  | nil => simp [liveAs]
  | cons seg segs ih =>
    unfold liveAs at ih ⊢
    rw [map_cons, heldBy_cons, ih]
    split_ifs <;> rfl

theorem takeWhile_inUse {s : LiveSegment} {tail : List LiveSegment}
    (hends : ∀ other ∈ before, other.nextOffset ≤ offset) (hreaches : offset < s.seg.nextOffset) :
    (liveAs .inUse before ++ s :: tail).takeWhile
        (LiveSegment.endsBy offset) = liveAs .inUse before ∧
      (liveAs .inUse before ++ s :: tail).dropWhile (LiveSegment.endsBy offset) = s :: tail := by
  have hall : ∀ t ∈ liveAs .inUse before, t.endsBy offset = true := by
    intro t ht
    rcases mem_map.mp ht with ⟨other, hother, rfl⟩
    simpa [LiveSegment.endsBy, endsBy] using hends other hother
  have hs : ¬ s.endsBy offset = true := by
    simpa [LiveSegment.endsBy, endsBy] using hreaches
  rw [takeWhile_append_of_pos hall, dropWhile_append_of_pos hall,
    takeWhile_cons_of_neg hs, dropWhile_cons_of_neg hs]
  simp

theorem filter_cut_base (hspaced : Spaced (before ++ seg :: later))
    (hends : ∀ other ∈ before, other.nextOffset ≤ offset) (hreaches : offset < seg.nextOffset) :
    (recordsOf (before ++ seg :: later)).filter (fun frame => decide (frame.offset < offset)) =
      recordsOf before ++ (seg.truncated offset).frames := by
  have hwf := hspaced.wellFormed seg (by simp)
  have hlow := filter_recordsOf_below (offset_lt_of_endsBy
    (fun other hother => hspaced.wellFormed other (mem_append_left _ hother)) hends)
  rw [recordsOf_append, recordsOf_cons, filter_append, filter_append, hlow,
    filter_recordsOf_above (le_offset_of_reached hspaced hreaches),
    append_nil, truncated_frames, takeWhile_offset_eq_filter hwf.ordered]

theorem truncated_frames_of_base (hwf : seg.WellFormed) (hbase : seg.baseOffset = offset) :
    (seg.truncated offset).frames = [] := by
  rw [truncated_frames, takeWhile_offset_eq_filter hwf.ordered, filter_eq_nil_iff]
  intro frame hmem
  have hle := hwf.base_le frame hmem
  simp only [decide_eq_true_eq]
  omega

theorem truncateLive_found {tail : List LiveSegment} (hspaced : Spaced (before ++ seg :: later))
    (hends : ∀ other ∈ before, other.nextOffset ≤ offset) (hreaches : offset < seg.nextOffset) :
    heldBy (truncateLive offset (liveAs .inUse before ++ ⟨seg, .inUse⟩ :: tail)) =
      (recordsOf (before ++ seg :: later)).filter fun frame => decide (frame.offset < offset) := by
  have hwf := hspaced.wellFormed seg (by simp)
  rw [filter_cut_base hspaced hends hreaches]
  rcases @takeWhile_inUse offset before ⟨seg, .inUse⟩ tail hends hreaches with
    ⟨htake, hdrop⟩
  have hskip : ¬ (⟨seg, .inUse⟩ : LiveSegment).skipped offset = true := by
    simpa [LiveSegment.skipped, LiveSegment.endsBy, endsBy] using hreaches
  unfold truncateLive
  simp only [htake, hdrop]
  rw [dropWhile_cons_of_neg hskip, takeWhile_cons_of_neg hskip]
  simp only [append_nil]
  split_ifs with hreplace
  · rw [heldBy_append, heldBy_liveAs]
    simp
  · rw [not_or, not_not] at hreplace
    rw [heldBy_liveAs, truncated_frames_of_base hwf hreplace.1]
    simp

theorem truncateLive_none (hends : ∀ other ∈ before, other.nextOffset ≤ offset)
    (hreaches : offset < seg.nextOffset) :
    truncateLive offset (liveAs .inUse before ++ liveAs .left (seg :: later)) =
      liveAs .inUse before ++ liveAs .left (seg :: later) := by
  have hdrop : (liveAs .inUse before ++
      liveAs .left (seg :: later)).dropWhile (LiveSegment.endsBy offset) =
      liveAs .left (seg :: later) :=
    (@takeWhile_inUse offset before ⟨seg, .left⟩ (liveAs .left later) hends hreaches).2
  have hskip : (liveAs .left (seg :: later)).dropWhile (LiveSegment.skipped offset) = [] := by
    rw [dropWhile_eq_nil_iff]
    intro s hs
    rcases mem_map.mp hs with ⟨other, -, rfl⟩
    simp [LiveSegment.skipped]
  unfold truncateLive
  simp only [hdrop, hskip]

theorem holdsFront_followers (hspaced : Spaced (before ++ seg :: (gone ++ left)))
    (hreaches : offset < seg.nextOffset) (hor : recordsOf gone = [] ∨ recordsOf left = []) :
    HoldsFront (recordsOf (before ++ seg :: (gone ++ left))) offset
      (recordsOf before ++ (seg.frames ++ recordsOf left)) := by
  rcases hor with hgone | hleft
  · have heq : recordsOf (before ++ seg :: (gone ++ left)) =
        recordsOf before ++ (seg.frames ++ recordsOf left) := by
      rw [recordsOf_append, recordsOf_cons, recordsOf_append, hgone, nil_append]
    rw [heq]
    exact HoldsFront.refl _
  · rw [hleft, append_nil]
    exact holdsFront_cut hspaced hreaches prefix_rfl fun frame hmem _ => hmem

theorem followers_of_front (hordered : LogOrdered (before ++ seg :: (gone ++ left)))
    (hfront : recordsOf before ++ (seg.frames ++ recordsOf left) <+:
      recordsOf (before ++ seg :: (gone ++ left))) :
    recordsOf gone = [] ∨ recordsOf left = [] := by
  rw [recordsOf_append, recordsOf_cons, recordsOf_append,
    prefix_append_right_inj, prefix_append_right_inj] at hfront
  cases hgone : recordsOf gone with
  | nil => exact Or.inl rfl
  | cons first rest =>
    right
    cases hleft : recordsOf left with
    | nil => rfl
    | cons next more =>
      exfalso
      rw [hgone, hleft] at hfront
      have heq : next = first := (cons_prefix_cons.mp hfront).1
      have hlater : LogOrdered (gone ++ left) :=
        hordered.sublist ((sublist_cons_self seg _).trans (sublist_append_right before _))
      have hpairs := hlater.records_ordered
      rw [recordsOf_append, hgone, hleft] at hpairs
      have hlt := (pairwise_append.mp hpairs).2.2 first (by simp)
        next (by simp)
      rw [heq] at hlt
      exact lt_irrefl _ hlt

end Live

/-! ## When it stops right -/

section Stops

variable {opts : OpenOptions} {notes : DiskNotes} {hw : ℤ} {log : LogView} {offset : ℤ}

theorem TruncateStopSafe.reopened (hordered : LogOrdered log.segments)
    (hsafe : TruncateStopSafe opts notes log offset)
    {disk : List StoredSegment} (hdisk : CrashDisk opts notes log offset disk) :
    GoodDisk opts log offset disk ∧ HoldsFront (recordsOf log.segments) offset
        (disk.flatMap StoredSegment.readable) := by
  have hspaced := hordered.spaced
  cases hdisk with
  | untouched =>
    rw [readable_store]
    exact ⟨goodDisk_store hspaced hsafe.indexable, HoldsFront.refl _⟩
  | deleting before seg gone left hbefore hlater =>
    rcases cut_spec hbefore hlater with ⟨hsplit, -, hreaches⟩
    refine ⟨goodDisk_deleting hspaced hsafe.indexable hsplit hreaches, ?_⟩
    have hfront := @holdsFront_followers offset before gone left seg
      (hsplit ▸ hspaced) hreaches (hsafe.followers seg gone left hlater)
    rw [flatMap_append, readable_store, flatMap_cons,
      flatMap_append, readable_deleted, readable_store, hsplit]
    exact hfront
  | dropped before seg later hbefore hlater hwhole =>
    rcases cut_spec hbefore hlater with ⟨hsplit, -, hreaches⟩
    refine ⟨goodDisk_dropped hspaced hsafe.indexable hsplit hreaches hwhole.1 hwhole.2, ?_⟩
    rw [flatMap_append, readable_store, readable_deleted]
    rw [hsplit] at hspaced ⊢
    apply holdsFront_cut hspaced hreaches nil_prefix
    intro frame hmem hlt
    have hle := (hspaced.wellFormed seg (by simp)).base_le frame hmem
    omega
  | renamed before seg later hbefore hlater hreplace =>
    rcases cut_spec hbefore hlater with ⟨hsplit, -, hreaches⟩
    have hwf := hordered.wellFormed seg (by simp [hsplit])
    have hopen := hsafe.install seg later hlater (hbefore ▸ hreplace)
    refine ⟨goodDisk_rewritten hspaced hsafe.indexable hsplit hreaches rfl
      (truncated_renamedOver_sound hwf) hopen, ?_⟩
    rw [flatMap_append, readable_store, flatMap_cons, readable_deleted, append_nil, hsplit]
    exact holdsFront_truncated (hsplit ▸ hspaced) hreaches
  | installed before seg later oldTable hbefore hlater hreplace =>
    rcases cut_spec hbefore hlater with ⟨hsplit, -, hreaches⟩
    have hwf := hordered.wellFormed seg (by simp [hsplit])
    have hopen := hsafe.install seg later hlater (hbefore ▸ hreplace)
    refine ⟨goodDisk_rewritten hspaced hsafe.indexable hsplit hreaches rfl
      (installedOver_sound (truncated_wellFormed hwf offset) oldTable)
      (installedOver_openable hopen (seg.isOffloaded_truncated offset) oldTable), ?_⟩
    rw [flatMap_append, readable_store, flatMap_cons, readable_deleted, append_nil, hsplit]
    exact holdsFront_truncated (hsplit ▸ hspaced) hreaches

theorem TruncateStopSafe.running (hordered : LogOrdered log.segments)
    (hsafe : TruncateStopSafe opts notes log offset)
    {live : List LiveSegment} (hlive : FailedTruncate log offset live) :
    HoldsFront (recordsOf log.segments) offset (heldBy live) ∧ ((∀ s ∈ live, s.status ≠ .closed) →
        heldBy (truncateLive offset live) = (recordsOf log.segments).filter
            fun frame => decide (frame.offset < offset)) := by
  have hspaced := hordered.spaced
  cases hlive with
  | early =>
    rw [heldBy_liveAs]
    refine ⟨HoldsFront.refl _, fun _ => ?_⟩
    cases hlater : log.segments.dropWhile (endsBy offset) with
    | nil =>
      have hall := dropWhile_eq_nil_iff.mp hlater
      have hdrop : (liveAs .inUse log.segments).dropWhile (LiveSegment.endsBy offset) = [] := by
        rw [dropWhile_eq_nil_iff]
        intro s hs
        rcases mem_map.mp hs with ⟨seg, hseg, rfl⟩
        exact hall seg hseg
      unfold truncateLive
      simp only [hdrop, dropWhile_nil]
      rw [heldBy_liveAs, filter_recordsOf_below]
      · rfl
      · apply offset_lt_of_endsBy hspaced.wellFormed
        intro seg hseg
        simpa [endsBy] using hall seg hseg
    | cons seg later =>
      rcases cut_spec rfl hlater with ⟨hsplit, hends, hreaches⟩
      rw [hsplit] at hspaced ⊢
      have hlist := @truncateLive_found offset (log.segments.takeWhile (endsBy offset)) later seg
        (liveAs .inUse later) hspaced hends hreaches
      unfold liveAs at hlist ⊢
      rw [map_append, map_cons]
      exact hlist
  | deleteFails before seg gone failed rest hbefore hlater =>
    rw [append_cons] at hlater
    rcases cut_spec hbefore hlater with ⟨hsplit, hends, hreaches⟩
    rw [hsplit] at hspaced ⊢
    constructor
    · have hfront := holdsFront_followers hspaced hreaches (hsafe.followers seg _ rest hlater)
      rw [heldBy_append, heldBy_append, heldBy_liveAs, heldBy_liveAs, heldBy_liveAs,
        if_neg (by decide), if_pos rfl, if_neg (by decide), recordsOf_append]
      simpa [recordsOf] using hfront
    · intro _
      have hlist := @truncateLive_found offset before ((gone ++ [failed]) ++ rest) seg
        (liveAs .left (gone ++ [failed]) ++ liveAs .inUse rest) hspaced
        hends hreaches
      rw [append_assoc]
      unfold liveAs at hlist ⊢
      simpa using hlist
  | dropFails before seg later hbefore hlater hwhole =>
    rcases cut_spec hbefore hlater with ⟨hsplit, hends, hreaches⟩
    rw [truncateLive_none hends hreaches, heldBy_append, heldBy_liveAs,
      heldBy_liveAs, if_neg (by decide), if_pos rfl]
    rw [hsplit] at hspaced ⊢
    have hwf := hspaced.wellFormed seg (by simp)
    have hnone := truncated_frames_of_base hwf hwhole.1
    have hfront := holdsFront_truncated hspaced hreaches
    have hfilter := filter_cut_base hspaced hends hreaches
    rw [hnone] at hfront hfilter
    exact ⟨hfront, fun _ => hfilter.symm⟩
  | replaceFails before seg later closed hbefore hlater hreplace =>
    rcases cut_spec hbefore hlater with ⟨hsplit, hends, hreaches⟩
    rw [hsplit] at hspaced ⊢
    constructor
    · have hfront := @holdsFront_cut offset before later seg hspaced
        hreaches seg.frames prefix_rfl fun frame hmem _ => hmem
      rw [heldBy_append, heldBy_cons, heldBy_liveAs, heldBy_liveAs,
        if_neg (by decide), if_pos rfl, append_nil]
      cases closed <;> exact hfront
    · intro hnotClosed
      cases closed with
      | true => exact absurd rfl (hnotClosed ⟨seg, .closed⟩ (by simp))
      | false => exact truncateLive_found hspaced hends hreaches
  | installFails before seg later hbefore hlater hreplace =>
    rcases cut_spec hbefore hlater with ⟨hsplit, hends, hreaches⟩
    rw [hsplit] at hspaced ⊢
    constructor
    · have hfront := holdsFront_truncated hspaced hreaches
      rw [heldBy_append, heldBy_cons, heldBy_liveAs, heldBy_liveAs,
        if_neg (by decide), if_pos rfl, append_nil]
      exact hfront
    · intro hnotClosed
      exact absurd rfl (hnotClosed ⟨seg.truncated offset, .closed⟩ (by simp))

end Stops

/-- Records 0, 1 and 2 in segments of their own. -/
def threeSegments : LogView :=
  ⟨[rawSegment 0 [0] none, rawSegment 1 [1] none], rawSegment 2 [2] none, fun _ => none⟩

/-- Records 0, 1 and 2 in blocks of their own. -/
def threeBlocks : LogView :=
  ⟨[], writeEach 0 true [storedFrame 0, storedFrame 1, storedFrame 2], fun _ => none⟩

/-- Records 0, 1 and 2 in one segment and record 3 behind it. -/
def twoSegments : LogView :=
  ⟨[rawSegment 0 [0, 1, 2] none], rawSegment 3 [3] none, fun _ => none⟩

end CommitLog
