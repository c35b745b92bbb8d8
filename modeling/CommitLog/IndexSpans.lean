import CommitLog.MessageCodec
import CommitLog.OffsetHistory

/-!
# What an index entry can hold

An entry keeps the distance from the segment's base, the position and the size
in 32 bits each.  Nothing that appends or joins compares a segment with these
widths, so the entries read back as written exactly as long as the appended
and joined records stay within them.  Every other operation only takes records
away or makes them shorter.
-/

namespace CommitLog

open List LiveLog LogView Segment

variable {log log' : LogView} {pos : ℕ} {op : LiveOp}

open OpenSegment Runs

/-! ## The width of the fields -/

/-- Records written from a position on fit the index of a segment with this
base: none is further than 31 bits from the base, none is longer, and the last
one starts within them. -/
structure Spanned (base : ℤ) (position : ℕ) (frames : List Frame) :
    Prop where
  offsets : ∀ frame ∈ frames, frame.offset - base ≤ maxInt32
  sizes : ∀ frame ∈ frames, frame.length ≤ maxInt32
  starts : position + framingLen frames.dropLast ≤ maxInt32

/-- Every record of the segment has an entry that reads back as it was
written, and so has every frame or block its index names. -/
def Segment.EntriesRead (seg : Segment) : Prop :=
  (∀ e ∈ denseEntries 0 seg.frames, e.stored seg.baseOffset = e) ∧
    ∀ enc, ∀ e ∈ (seg.logFile enc).entries, e.stored seg.baseOffset = e

def LiveLog.EntriesRead (s : LiveLog) : Prop :=
  ∀ seg ∈ s.view.segments, seg.EntriesRead

/-! ## The condition -/

/-- The offsets of an append end below the largest 64-bit integer. -/
def FitsInt64 (s : LiveLog) (op : LiveOp) : Prop :=
  match op with
  | .append env input =>
    ∀ prepared, input.prepare env = some prepared → prepared.Fits s.nextOffset
  | _ => True

/-- The records of an append fit behind what the segment they go to holds, and
the records of a join fit one segment. -/
def SpanSafe (s : LiveLog) (op : LiveOp) : Prop :=
  match op with
  | .append env input =>
    ∀ prepared block, input.prepare env = some prepared →
      prepared.block env s.nextOffset = some block →
      (s.checkAndPerformSplit env).view.active.isOffloaded = false →
      Spanned (s.checkAndPerformSplit env).view.active.baseOffset
        (s.checkAndPerformSplit env).view.active.position block.frames
  | .join i count _ =>
    ∀ first second rest, (s.view.sealedSegs.drop i).take count = first :: second :: rest →
      Spanned first.baseOffset 0 (recordsOf (first :: second :: rest))
  | _ => True

/-! ## Entries within the width -/

theorem framingLen_le_dropLast (front rest : List Frame) (frame : Frame) :
    framingLen front ≤ framingLen (front ++ frame :: rest).dropLast := by
  rw [dropLast_append_of_ne_nil (cons_ne_nil _ _), framingLen_append]
  omega

variable {base : ℤ}

theorem entryAt_fits_iff {frame : Frame} (hbase : base ≤ frame.offset) :
    (entryAt pos frame).stored base = entryAt pos frame ↔
      frame.offset - base ≤ maxInt32 ∧ pos ≤ maxInt32 ∧ frame.length ≤ maxInt32 := by
  constructor
  · intro hstored
    have hoffset := congrArg Entry.offset hstored
    have hpos := congrArg Entry.position hstored
    have hsize := congrArg Entry.size hstored
    simp only [Entry.stored, entryAt] at hoffset hpos hsize
    have hoffsetLe := int32_le (frame.offset - base)
    have hposLe := int32_le pos
    have hsizeLe := int32_le frame.length
    omega
  · intro hfits
    unfold Entry.stored entryAt
    simp only
    rw [int32_eq_self (by omega) hfits.1, int32_natCast hfits.2.1, int32_natCast hfits.2.2]
    congr 1
    omega

variable {frames : List Frame}

theorem Spanned.dense (hspan : Spanned base pos frames)
    (hbase : ∀ frame ∈ frames, base ≤ frame.offset) :
    ∀ e ∈ denseEntries pos frames, e.stored base = e := by
  intro e he
  rcases mem_denseEntries.mp he with ⟨front, frame, rest, hsplit, rfl⟩
  have hmem : frame ∈ frames := by simp [hsplit]
  have hstart := hspan.starts
  have hfront := framingLen_le_dropLast front rest frame
  rw [← hsplit] at hfront
  apply (entryAt_fits_iff (hbase frame hmem)).mpr
  exact ⟨hspan.offsets frame hmem, by omega, hspan.sizes frame hmem⟩

theorem Spanned.of_dense (hne : frames ≠ []) (hbase : ∀ frame ∈ frames, base ≤ frame.offset)
    (hread : ∀ e ∈ denseEntries pos frames, e.stored base = e) : Spanned base pos frames := by
  have hfits : ∀ front frame rest, frames = front ++ frame :: rest →
      frame.offset - base ≤ maxInt32 ∧ pos + framingLen front ≤ maxInt32 ∧
        frame.length ≤ maxInt32 := by
    intro front frame rest hsplit
    apply (entryAt_fits_iff (hbase frame (by simp [hsplit]))).mp
    exact hread _ (mem_denseEntries.mpr ⟨front, frame, rest, hsplit, rfl⟩)
  constructor
  · intro frame hframe
    rcases append_of_mem hframe with ⟨front, rest, hsplit⟩
    exact (hfits front frame rest hsplit).1
  · intro frame hframe
    rcases append_of_mem hframe with ⟨front, rest, hsplit⟩
    exact (hfits front frame rest hsplit).2.2
  · exact (hfits frames.dropLast (frames.getLast hne) [] (dropLast_append_getLast hne).symm).2.1

theorem anchorEntries_subset (pos : ℕ) (bs : List DiskBlock) :
    anchorEntries pos bs ⊆ denseEntries pos (framesOf bs) := by
  induction bs generalizing pos with
  | nil => simp [anchorEntries]
  | cons block bs ih =>
    rw [anchorEntries, framesOf_cons, denseEntries_append]
    intro e he
    rcases mem_cons.mp he with rfl | he
    · apply mem_append_left
      simp [DiskBlock.frames, denseEntries]
    · exact mem_append_right _ (ih _ he)

theorem spanned_nil (base : ℤ) : Spanned base 0 [] :=
  ⟨by simp, by simp, by simp⟩

theorem Segment.entriesRead_iff {seg : Segment} (hwf : seg.WellFormed) :
    seg.EntriesRead ↔ Spanned seg.baseOffset 0 seg.frames := by
  constructor
  · intro hread
    by_cases hne : seg.frames = []
    · rw [hne]
      exact spanned_nil _
    · exact Spanned.of_dense hne hwf.base_le hread.1
  · intro hspan
    have hdense := hspan.dense hwf.base_le
    refine ⟨hdense, ?_⟩
    intro enc e he
    apply hdense
    rw [← frames_logFile enc seg]
    cases hfile : seg.logFile enc with
    | raw frames tail =>
      rw [hfile] at he
      exact he
    | blocks bs torn =>
      rw [hfile] at he
      exact anchorEntries_subset 0 bs he

/-! ## Operations that take records away -/

/-- The records of a segment, some of them gone, some of them shorter. -/
def Shortened (frames frames' : List Frame) : Prop :=
  ∃ rewrite : Frame → Option Frame, frames' = frames.filterMap rewrite ∧
    ∀ frame frame', rewrite frame = some frame' →
      frame'.offset = frame.offset ∧ frame'.length ≤ frame.length

theorem Shortened.refl (frames : List Frame) : Shortened frames frames := by
  refine ⟨some, (filterMap_some).symm, ?_⟩
  intro frame frame' hsome
  cases hsome
  exact ⟨rfl, le_rfl⟩

theorem Shortened.filter (p : Frame → Bool) (frames : List Frame) :
    Shortened frames (frames.filter p) := by
  refine ⟨Option.guard p, (filterMap_eq_filter (p := p)) ▸ rfl, ?_⟩
  intro frame frame' hsome
  rcases Option.guard_eq_some_iff.mp hsome with ⟨rfl, -⟩
  exact ⟨rfl, le_rfl⟩

theorem framingLen_filterMap_le {rewrite : Frame → Option Frame}
    (hshort : ∀ frame frame', rewrite frame = some frame' →
      frame'.offset = frame.offset ∧ frame'.length ≤ frame.length)
    (frames : List Frame) :
    framingLen (frames.filterMap rewrite) ≤ framingLen frames := by
  induction frames with
  | nil => rfl
  | cons frame frames ih =>
    cases hrewrite : rewrite frame with
    | none =>
      rw [filterMap_cons_none hrewrite, framingLen_cons]
      omega
    | some frame' =>
      rw [filterMap_cons_some hrewrite, framingLen_cons, framingLen_cons]
      have hle := (hshort frame frame' hrewrite).2
      omega

theorem framingLen_dropLast_le (frames : List Frame) :
    framingLen frames.dropLast ≤ framingLen frames := by
  have hsub := (dropLast_sublist frames).map Frame.length
  exact hsub.sum_le_sum (by simp)

theorem Spanned.shortened {base' : ℤ} {frames' : List Frame} (hspan : Spanned base 0 frames)
    (hshort : Shortened frames frames') (hbase : base ≤ base') : Spanned base' 0 frames' := by
  rcases hshort with ⟨rewrite, rfl, hshort⟩
  constructor
  · intro frame' hframe'
    rcases mem_filterMap.mp hframe' with ⟨frame, hframe, hrewrite⟩
    have hle := hspan.offsets frame hframe
    rw [(hshort frame frame' hrewrite).1]
    omega
  · intro frame' hframe'
    rcases mem_filterMap.mp hframe' with ⟨frame, hframe, hrewrite⟩
    exact (hshort frame frame' hrewrite).2.trans (hspan.sizes frame hframe)
  · have hstart := hspan.starts
    rcases eq_nil_or_concat' frames with rfl | ⟨front, last, rfl⟩
    · simp
    · rw [dropLast_concat] at hstart
      have hfront := framingLen_filterMap_le hshort front
      rw [filterMap_append]
      cases hlast : rewrite last with
      | none =>
        rw [filterMap_cons_none hlast, filterMap_nil, append_nil]
        have hdrop := framingLen_dropLast_le (front.filterMap rewrite)
        omega
      | some last' =>
        rw [filterMap_cons_some hlast, filterMap_nil, dropLast_concat]
        omega

/-- Every segment of the second log holds what is left of one of the first,
or nothing. -/
def LogView.Shrinks (log log' : LogView) : Prop :=
  ∀ seg' ∈ log'.segments, seg'.frames = [] ∨ ∃ seg ∈ log.segments,
    seg.baseOffset ≤ seg'.baseOffset ∧ Shortened seg.frames seg'.frames

theorem LogView.Shrinks.spanned (hshrinks : log.Shrinks log')
    (hspan : ∀ seg ∈ log.segments, Spanned seg.baseOffset 0 seg.frames) :
    ∀ seg' ∈ log'.segments, Spanned seg'.baseOffset 0 seg'.frames := by
  intro seg' hseg'
  rcases hshrinks seg' hseg' with hempty | ⟨seg, hseg, hbase, hshort⟩
  · rw [hempty]
    exact spanned_nil _
  · exact (hspan seg hseg).shortened hshort hbase

theorem LogView.shrinks_of_mem (hmem : ∀ seg' ∈ log'.segments, seg' ∈ log.segments) :
    log.Shrinks log' := by
  intro seg' hseg'
  exact Or.inr ⟨seg', hmem seg' hseg', le_rfl, Shortened.refl _⟩

theorem LogView.shrinks_of_sealed (hactive : log'.active = log.active)
    (hsealed : ∀ seg' ∈ log'.sealedSegs, ∃ seg ∈ log.sealedSegs, seg.baseOffset ≤ seg'.baseOffset ∧
        Shortened seg.frames seg'.frames) : log.Shrinks log' := by
  intro seg' hseg'
  right
  rcases mem_append.mp hseg' with hseg' | hseg'
  · rcases hsealed seg' hseg' with ⟨seg, hseg, hshort⟩
    exact ⟨seg, mem_append_left _ hseg, hshort⟩
  · rw [mem_singleton.mp hseg', hactive]
    exact ⟨log.active, by simp [segments], le_rfl, Shortened.refl _⟩

theorem LogView.shrinks_map {f : Segment → Segment} (hframes : ∀ seg, (f seg).frames = seg.frames)
    (hbase : ∀ seg, (f seg).baseOffset = seg.baseOffset) :
    log.Shrinks { log with sealedSegs := log.sealedSegs.map f } := by
  apply shrinks_of_sealed
  · rfl
  · intro seg' hseg'
    rcases mem_map.mp hseg' with ⟨seg, hseg, rfl⟩
    refine ⟨seg, hseg, (hbase seg).ge, ?_⟩
    rw [hframes]
    exact Shortened.refl _

theorem compactSpec_shrinks {spec : CleanSpec} {passEnv : PassEnv} {result : PassResult}
    (hpass : compactSpec spec passEnv log = .ok result) : log.Shrinks result.log := by
  unfold compactSpec at hpass
  split at hpass
  · cases hpass
    exact shrinks_of_mem fun _ hseg => hseg
  · rcases compact_eq_ok hpass with ⟨merged, -, hlog, -⟩
    rw [hlog]
    apply shrinks_of_sealed
    · rfl
    intro seg' hseg'
    rcases mem_flatMap.mp hseg' with ⟨c, hc, hin⟩
    have hsource := mem_of_getElem? (mem_candidatesOf.mp hc).1
    refine ⟨c.seg, hsource, ?_⟩
    rcases mem_segmentAfter hc hin with
      ⟨-, rfl⟩ | ⟨cleaned, -, hclean, hsegment⟩
    · exact ⟨le_rfl, Shortened.refl _⟩
    · have hbase := ((cleanSegment_spec hclean).identity seg' hsegment).1
      refine ⟨hbase.ge, _, cleanSegment_frames hclean hsegment, ?_⟩
      intro frame frame' hrewrite
      refine ⟨offset_of_rewriteFrame hrewrite, ?_⟩
      rcases length_of_rewriteFrame hrewrite with rfl | hlt
      · exact le_rfl
      · exact hlt.le

theorem LogView.truncate_shrinks (hordered : LogOrdered log.segments) (offset : ℤ) :
    log.Shrinks (log.truncate offset) := by
  cases truncates log offset with
  | nothing _ hlog _ =>
    rw [hlog]
    exact shrinks_of_mem fun _ hseg => hseg
  | rewrites before seg later hsegments _ _ _ hlog _ _ =>
    intro seg' hseg'
    right
    rw [segments, hlog.1, hlog.2] at hseg'
    rw [hsegments]
    rcases mem_append.mp hseg' with hseg' | hseg'
    · exact ⟨seg', mem_append_left _ hseg', le_rfl, Shortened.refl _⟩
    · rw [mem_singleton.mp hseg']
      have hwf := hordered.wellFormed seg (by simp [hsegments])
      refine ⟨seg, by simp, le_of_eq (by simp [truncated]), ?_⟩
      rw [truncated, frames_writeEach, takeWhile_offset_eq_filter hwf.ordered]
      exact Shortened.filter _ _
  | drops before last seg later hsegments _ _ _ hlog _ _ =>
    apply shrinks_of_mem
    intro seg' hseg'
    rw [segments, hlog.1, hlog.2] at hseg'
    rw [hsegments]
    rcases mem_append.mp hseg' with hseg' | hseg'
    · exact mem_append_left _ hseg'
    · rw [mem_singleton.mp hseg']
      simp

theorem LogView.truncateBefore_shrinks (hordered : LogOrdered log.segments) (minOffset : ℤ) :
    log.Shrinks (log.truncateBefore minOffset) := by
  have hdrop := dropWhile_sublist
    (fun seg : Segment => !seg.reaches minOffset) (l := log.sealedSegs)
  have hsub : ∀ segs : List Segment, ∀ keys, segs.Sublist log.sealedSegs →
      log.Shrinks { log with sealedSegs := segs, keys := keys } := by
    intro segs keys hsegs
    apply shrinks_of_sealed
    · rfl
    exact fun seg hseg => ⟨seg, hsegs.subset hseg, le_rfl, Shortened.refl _⟩
  unfold truncateBefore
  split
  · exact shrinks_of_mem fun _ hseg => hseg
  · simp only
    split
    · exact hsub [] _ (nil_sublist _)
    next boundary later hrest =>
      rw [hrest] at hdrop
      have hboundary := hdrop.subset mem_cons_self
      split
      · split
        · exact hsub later _ ((sublist_cons_self _ _).trans hdrop)
        next first rest hkept =>
          apply shrinks_of_sealed
          · rfl
          intro seg' hseg'
          rcases mem_cons.mp hseg' with rfl | hseg'
          · refine ⟨boundary, hboundary, ?_, ?_⟩
            · have hfirst : first ∈ boundary.frames.filter
                  fun frame => decide (minOffset ≤ frame.offset) := by
                rw [hkept]
                exact mem_cons_self
              rw [baseOffset_writeEach]
              exact (hordered.wellFormed boundary (mem_append_left _ hboundary)).base_le first
                (mem_filter.mp hfirst).1
            · rw [frames_writeEach, ← hkept]
              exact Shortened.filter _ _
          · exact ⟨seg', hdrop.subset (mem_cons_of_mem _ hseg'), le_rfl, Shortened.refl _⟩
      · exact hsub (boundary :: later) _ hdrop

/-! ## Steps -/

section Steps

variable {s s' : LiveLog} {env : AppendEnv}

structure SpansOk (s : LiveLog) : Prop where
  live : LiveOk s
  spanned : ∀ seg ∈ s.view.segments, Spanned seg.baseOffset 0 seg.frames

theorem LiveOk.entriesRead_iff (hok : LiveOk s) : s.EntriesRead ↔
      ∀ seg ∈ s.view.segments, Spanned seg.baseOffset 0 seg.frames :=
  forall₂_congr fun seg hseg =>
    Segment.entriesRead_iff (hok.ordered.wellFormed seg hseg)

theorem SpansOk.indexable (hok : SpansOk s) (enc : DiskEncoding) :
    ∀ seg ∈ s.view.segments, seg.Indexable enc := by
  intro seg hseg
  have hread := hok.live.entriesRead_iff.mpr hok.spanned seg hseg
  exact hread.2 enc

theorem SpansOk.liveSafe (hok : SpansOk s) (hfits : FitsInt64 s op) : LiveSafe s op := by
  cases op with
  | append env input => exact hfits
  | reopen opts notes hw pending => exact hok.indexable opts.enc
  | _ => trivial

theorem LiveLog.split_shrinks (s : LiveLog) (env : AppendEnv) :
    s.view.Shrinks (s.checkAndPerformSplit env).view := by
  unfold checkAndPerformSplit
  split_ifs
  · intro seg' hseg'
    rcases mem_append.mp hseg' with hseg' | hseg'
    · exact Or.inr ⟨seg', hseg', le_rfl, Shortened.refl _⟩
    · rw [mem_singleton.mp hseg']
      exact Or.inl (frames_fresh _ _)
  · exact shrinks_of_mem fun _ hseg => hseg

theorem spanned_append {base : ℤ} {frames added : List Frame} (hne : added ≠ []) :
    Spanned base 0 (frames ++ added) ↔ (∀ frame ∈ frames, frame.offset - base ≤ maxInt32) ∧
        (∀ frame ∈ frames, frame.length ≤ maxInt32) ∧
        Spanned base (framingLen frames) added := by
  have hdrop : framingLen (frames ++ added).dropLast =
      framingLen frames + framingLen added.dropLast := by
    rw [dropLast_append_of_ne_nil hne, framingLen_append]
  constructor
  · intro hspan
    have hstart := hspan.starts
    rw [hdrop] at hstart
    refine ⟨?_, ?_, ?_⟩
    · exact fun frame hframe =>
        hspan.offsets frame (mem_append_left _ hframe)
    · exact fun frame hframe =>
        hspan.sizes frame (mem_append_left _ hframe)
    · constructor
      · exact fun frame hframe =>
          hspan.offsets frame (mem_append_right _ hframe)
      · exact fun frame hframe =>
          hspan.sizes frame (mem_append_right _ hframe)
      · omega
  · rintro ⟨hoffsets, hsizes, hadded⟩
    have hstart := hadded.starts
    constructor
    · intro frame hframe
      rcases mem_append.mp hframe with hframe | hframe
      · exact hoffsets frame hframe
      · exact hadded.offsets frame hframe
    · intro frame hframe
      rcases mem_append.mp hframe with hframe | hframe
      · exact hsizes frame hframe
      · exact hadded.sizes frame hframe
    · rw [hdrop]
      omega

theorem LiveLog.append_eq_some_iff {input : AppendInput} {block : Block} :
    (s.append env input).2 = some block ↔ ∃ prepared, input.prepare env = some prepared ∧
        prepared.block env (s.checkAndPerformSplit env).nextOffset = some block ∧
        (s.checkAndPerformSplit env).view.active.isOffloaded = false := by
  unfold append
  cases hprepare : input.prepare env with
  | none => simp
  | some prepared =>
    simp only [Option.some.injEq, exists_eq_left']
    cases prepared.block env (s.checkAndPerformSplit env).nextOffset with
    | none => simp
    | some block' =>
      simp only
      cases (s.checkAndPerformSplit env).view.active.isOffloaded <;> simp

theorem SpansOk.append_iff (hok : SpansOk s) {input : AppendInput}
    (hfits : FitsInt64 s (.append env input)) :
    (∀ seg ∈ (s.append env input).1.view.segments, Spanned seg.baseOffset 0 seg.frames) ↔
      SpanSafe s (.append env input) := by
  rcases @LiveOk.split s env hok.live with ⟨-, -, hnext⟩
  have hsplit := (s.split_shrinks env).spanned hok.spanned
  have hactive := hsplit (s.checkAndPerformSplit env).view.active (by simp [segments])
  have hsome : ∀ block, (s.append env input).2 = some block ↔ _ :=
    fun block => @append_eq_some_iff s env input block
  rw [hnext] at hsome
  cases hblock : (s.append env input).2 with
  | none =>
    have hspanned : ∀ seg ∈ (s.append env input).1.view.segments,
        Spanned seg.baseOffset 0 seg.frames := by
      rcases append_refused hblock with hsame | hsame <;> rw [hsame]
      · exact hok.spanned
      · exact hsplit
    apply iff_of_true hspanned
    intro prepared block hprepare hprepared hlocal
    rw [(hsome block).mpr ⟨prepared, hprepare, hprepared, hlocal⟩] at hblock
    cases hblock
  | some block =>
    rcases hok.live.append_behind hfits hblock with ⟨hlog, hbehind⟩
    rcases (hsome block).mp hblock with
      ⟨prepared, hprepare, hprepared, hlocal⟩
    have happended := @spanned_append (s.checkAndPerformSplit env).view.active.baseOffset
      (s.checkAndPerformSplit env).view.active.frames block.frames
      hbehind.nonempty
    have hframes := frames_append (s.checkAndPerformSplit env).view.active block
    rw [hlog]
    constructor
    · intro hspan prepared' block' hprepare' hprepared' _
      rw [hprepare] at hprepare'
      cases hprepare'
      rw [hprepared] at hprepared'
      cases hprepared'
      have hwritten := hspan ((s.checkAndPerformSplit env).view.active.append block)
        (by simp [LiveLog.write, LogView.append, LogView.segments])
      rw [hframes] at hwritten
      exact (happended.mp hwritten).2.2
    · intro hsafe seg hseg
      rcases mem_append.mp hseg with hseg | hseg
      · exact hsplit seg (mem_append_left _ hseg)
      · rw [mem_singleton.mp hseg]
        change Spanned _ 0 ((s.checkAndPerformSplit env).view.active.append block).frames
        rw [hframes]
        exact happended.mpr ⟨hactive.offsets, hactive.sizes,
          hsafe prepared block hprepare hprepared hlocal⟩

theorem SpansOk.join_iff (hok : SpansOk s) {i count : ℕ} {refreshFails : Bool} :
    (∀ seg ∈ (s.view.join i count refreshFails).segments, Spanned seg.baseOffset 0 seg.frames) ↔
      SpanSafe s (.join i count refreshFails) := by
  have hsealed : ∀ seg ∈ s.view.sealedSegs, Spanned seg.baseOffset 0 seg.frames :=
    fun seg hseg => hok.spanned seg (mem_append_left _ hseg)
  unfold join SpanSafe
  split
  next first second rest hinputs =>
    constructor
    · intro hspan first' second' rest' hinputs'
      rw [hinputs] at hinputs'
      cases hinputs'
      have hjoined := hspan (joinedSegment first (second :: rest)) (by simp [segments])
      rw [frames_joinedSegment] at hjoined
      exact hjoined
    · intro hsafe seg hseg
      rcases mem_append.mp hseg with hseg | hseg
      · rcases mem_append.mp hseg with hseg | hseg
        · exact hsealed seg (mem_of_mem_take hseg)
        · rcases mem_cons.mp hseg with rfl | hseg
          · rw [frames_joinedSegment]
            exact hsafe first second rest hinputs
          · exact hsealed seg (mem_of_mem_drop (mem_of_mem_drop hseg))
      · exact hok.spanned seg (mem_append_right _ hseg)
  next hshort =>
    exact iff_of_true hok.spanned fun first second rest hinputs =>
      absurd hinputs (hshort first second rest)

theorem SpansOk.reopened_shrinks (hok : SpansOk s) {opts : OpenOptions} {notes : DiskNotes} {hw : ℤ}
    {pending : ℤ → Bool} {opened : List OpenedSegment}
    (hopen : openLog opts hw (s.view.segments.map (store opts notes)) = .ok opened) :
    s.view.Shrinks (s.reopened opts pending opened).view := by
  rw [hok.live.reopened_eq (hok.indexable opts.enc) hopen]
  split_ifs
  · intro seg' hseg'
    rcases mem_append.mp hseg' with hseg' | hseg'
    · rcases mem_map.mp hseg' with ⟨seg, hseg, rfl⟩
      exact Or.inr ⟨seg, hseg, le_rfl, Shortened.refl _⟩
    · rw [mem_singleton.mp hseg']
      exact Or.inl (frames_fresh _ _)
  · exact shrinks_map (fun _ => rfl) (fun _ => rfl)

theorem SpansOk.step_iff (hok : SpansOk s) (hstep : LiveStep s op s') (hfits : FitsInt64 s op) :
    (∀ seg ∈ s'.view.segments, Spanned seg.baseOffset 0 seg.frames) ↔
      SpanSafe s op := by
  cases op with
  | append env input =>
    rw [show s' = _ from hstep]
    exact hok.append_iff hfits
  | join i count refreshFails =>
    rw [show s' = _ from hstep]
    exact hok.join_iff
  | split env =>
    rw [show s' = _ from hstep]
    exact iff_of_true ((s.split_shrinks env).spanned hok.spanned) trivial
  | pass spec passEnv =>
    rcases hstep with ⟨result, hpass, rfl⟩
    exact iff_of_true ((compactSpec_shrinks hpass).spanned hok.spanned)
      trivial
  | consolidate chosen =>
    rw [show s' = _ from hstep]
    refine iff_of_true (Shrinks.spanned ?_ hok.spanned) trivial
    apply shrinks_map
    · intro seg
      split <;> simp
    · intro seg
      split <;> simp
  | retire kept =>
    rcases hstep with ⟨hsub, rfl⟩
    refine iff_of_true (Shrinks.spanned ?_ hok.spanned) trivial
    exact shrinks_of_mem (hsub.append (Sublist.refl [s.view.active])).subset
  | offload tierOf =>
    rw [show s' = _ from hstep]
    refine iff_of_true (Shrinks.spanned ?_ hok.spanned) trivial
    apply shrinks_map
    · intro seg
      split <;> rfl
    · intro seg
      split <;> rfl
  | truncate offset =>
    rw [show s' = _ from hstep]
    exact iff_of_true ((truncate_shrinks hok.live.ordered offset).spanned hok.spanned) trivial
  | truncateBefore minOffset =>
    rw [show s' = _ from hstep]
    exact iff_of_true ((truncateBefore_shrinks hok.live.ordered
      minOffset).spanned hok.spanned) trivial
  | reopen opts notes hw pending =>
    rcases hstep with ⟨opened, hopen, rfl⟩
    exact iff_of_true ((hok.reopened_shrinks hopen).spanned hok.spanned)
      trivial

theorem SpansOk.step (hok : SpansOk s) (hstep : LiveStep s op s') (hfits : FitsInt64 s op)
    (hsafe : SpanSafe s op) : SpansOk s' :=
  ⟨hok.live.step hstep (hok.liveSafe hfits), (hok.step_iff hstep hfits).mpr hsafe⟩

end Steps

/-! ## Entries that wrap -/

/-- Two sealed segments of one record each, `2 ^ 31` offsets apart. -/
def spreadLive : LiveLog :=
  ⟨⟨[writeEach 0 false [storedFrame 0], writeEach (2 ^ 31) false [storedFrame (2 ^ 31)]],
    fresh (2 ^ 31 + 1) false, fun _ => none⟩, -1⟩

instance (base : ℤ) (position : ℕ) (frames : List Frame) :
    Decidable (Spanned base position frames) :=
  decidable_of_iff ((∀ frame ∈ frames, frame.offset - base ≤ maxInt32) ∧
      (∀ frame ∈ frames, frame.length ≤ maxInt32) ∧
      position + framingLen frames.dropLast ≤ maxInt32)
    ⟨fun h => ⟨h.1, h.2.1, h.2.2⟩, fun h => ⟨h.1, h.2, h.3⟩⟩

theorem spreadLive_ok : LiveOk spreadLive := by
  constructor <;> decide +kernel

end CommitLog
