import CommitLog.LeaderEpochs
import CommitLog.OffsetHistory

/-!
# Leader epochs over the life of a log

An append opens the epochs its records are stamped with, a leader opens one by
name.  Truncations and passes trim the cache at both ends, at offsets of their
own choice.  An answer stays below the records of later epochs as long as no
trim moves an entry onto such a record or past the end of the log.
-/

namespace CommitLog

open EpochCache List LiveLog LogView Runs Segment

/-! ## The log with its epochs -/

structure EpochLog where
  live : LiveLog
  cache : List EpochOffset
  under : ℤ → ℕ

/-- `OldestOffset`: the first offset of the first segment, `-1` if that is
empty. -/
def LiveLog.oldestOffset (s : LiveLog) : ℤ :=
  ((s.view.segments.head?.bind fun seg => seg.frames.head?).map Frame.offset).getD (-1)

def LiveLog.firstBase (s : LiveLog) : ℤ :=
  (s.view.segments.head?.map baseOffset).getD 0

/-- The epochs of a batch: one above the last is opened at the record in front
of it. -/
def appendEpochs : ℤ → ℕ → List Frame → List EpochOffset → List EpochOffset
  | _, _, [], cache => cache
  | tail, last, frame :: rest, cache =>
    if last < frame.leaderEpoch then
      appendEpochs frame.offset frame.leaderEpoch rest (assign cache frame.leaderEpoch tail)
    else appendEpochs frame.offset last rest cache

namespace EpochLog

def records (s : EpochLog) : List Frame := recordsOf s.live.view.segments

def writes (s : EpochLog) : Set (ℤ × ℕ) :=
  { write | ∃ frame ∈ s.records, write = (frame.offset, s.under frame.offset) }

/-- A probe that names no epoch is refused; one the cache has no answer for is
answered with the end of the log. -/
def lastOffsetForLeaderEpoch (s : EpochLog) (epoch : Option ℕ) : Option ℤ :=
  epoch.map fun epoch =>
    (EpochCache.lastOffsetForLeaderEpoch s.cache epoch).getD s.live.newestOffset

end EpochLog

inductive EpochOp
  | newLeaderEpoch (epoch : ℕ)
  /-- The end of a cleaning pass. -/
  | cleaned
  /-- An operation, with the epochs an append is written under. -/
  | log (op : LiveOp) (epochs : ℤ → ℕ)

def CacheStep (s : EpochLog) (op : LiveOp) (live' : LiveLog) (cache' : List EpochOffset) : Prop :=
  match op with
  | .append env input =>
    env.lastLeaderEpoch = latestEpoch s.cache ∧ cache' = match (s.live.append env input).2 with
        | none => s.cache
        | some block =>
          appendEpochs (s.live.checkAndPerformSplit env).newestOffset
            (latestEpoch s.cache) block.frames s.cache
  | .truncate offset =>
    cache' =
      if s.live.view.segments.dropWhile (endsBy offset) = [] then
        s.cache
      else clearLatest offset s.cache
  | .truncateBefore minOffset => cache' = clearEarliest minOffset s.cache
  | .reopen _ _ _ _ =>
    ∃ loaded, readLeaderEpochOffsets (checkpoint s.cache) = .ok loaded ∧
      cache' = clearEarliest live'.oldestOffset (clearLatest live'.nextOffset loaded)
  | _ => cache' = s.cache

def EpochLog.added (s : EpochLog) : LiveOp → List Frame
  | .append env input =>
    ((s.live.append env input).2.map Block.frames).getD []
  | _ => []

def EpochStep (s : EpochLog) (op : EpochOp) (s' : EpochLog) : Prop :=
  match op with
  | .newLeaderEpoch epoch =>
    s' = { s with cache := assign s.cache epoch s.live.newestOffset }
  | .cleaned =>
    s' = { s with cache := clearEarliest s.live.firstBase s.cache }
  | .log op epochs =>
    LiveStep s.live op s'.live ∧ CacheStep s op s'.live s'.cache ∧
      (∀ offset, epochs offset < uint64Size) ∧
      s'.under = fun offset =>
        if offset ∈ (s.added op).map Frame.offset then epochs offset
        else s.under offset

/-! ## The property and its condition -/

def NoLaterEpoch (s : EpochLog) : Prop :=
  ∀ epoch < uint64Size, ∀ answer, s.lastOffsetForLeaderEpoch (some epoch) = some answer →
      ∀ frame ∈ s.records, frame.offset ≤ answer → s.under frame.offset ≤ epoch

/-- The records of an append are of epochs the cache has recorded, or that
their own stamps open. -/
def WrittenUnder (epochs : ℤ → ℕ) : ℕ → List Frame → Prop
  | _, [] => True
  | last, frame :: rest =>
    epochs frame.offset ≤ max last frame.leaderEpoch ∧
      WrittenUnder epochs (max last frame.leaderEpoch) rest

def EpochLog.trimmed (s : EpochLog) (minOffset : ℤ) : EpochLog :=
  { s with live := s.live.withView (s.live.view.truncateBefore minOffset) }

/-- Records are written under epochs that are open; a truncation leaves no
entry past the new end, and a trim leaves none at or past a record of an epoch
above 0. -/
def EpochSafe (s : EpochLog) (op : EpochOp) : Prop :=
  match op with
  | .newLeaderEpoch _ => True
  | .cleaned =>
    TrimSafe s.writes s.live.nextOffset s.live.firstBase s.cache
  | .log op epochs =>
    LiveSafe s.live op ∧
      match op with
      | .append _ _ =>
        WrittenUnder epochs (latestEpoch s.cache) (s.added op)
      | .truncate offset =>
        ∀ entry ∈ s.cache, entry.assignedAtOffset < offset → entry.assignedAtOffset <
            (s.live.withView (s.live.view.truncate offset)).nextOffset
      | .truncateBefore minOffset =>
        TrimSafe (s.trimmed minOffset).writes s.live.nextOffset minOffset s.cache
      | .reopen _ _ _ _ =>
        TrimSafe s.writes s.live.nextOffset s.live.oldestOffset s.cache
      | _ => True

structure EpochsOk (s : EpochLog) : Prop where
  live : LiveOk s.live
  right : Right s.writes s.live.nextOffset s.cache
  typed : ∀ write ∈ s.writes, write.2 < uint64Size

theorem EpochsOk.noLaterEpoch {s : EpochLog} (hok : EpochsOk s) : NoLaterEpoch s := by
  intro epoch hepoch answer hanswer frame hframe hle
  have hwrite : (frame.offset, s.under frame.offset) ∈ s.writes :=
    ⟨frame, hframe, rfl⟩
  by_cases hmax : epoch + 1 < uint64Size
  · apply hok.right.lastOffset hmax hwrite
    intro found hfound
    simp only [EpochLog.lastOffsetForLeaderEpoch, Option.map_some, hfound,
      Option.getD_some, Option.some.injEq] at hanswer
    rw [hanswer]
    exact hle
  · have htyped := hok.typed _ hwrite
    simp only at htyped
    omega

/-! ## Appends -/

theorem right_appendEpochs {epochs : ℤ → ℕ} {frames : List Frame} {writes : Set (ℤ × ℕ)} {next : ℤ}
    {cache : List EpochOffset} (hright : Right writes next cache)
    (hrising : frames.Pairwise fun a b => a.offset < b.offset)
    (habove : ∀ frame ∈ frames, next ≤ frame.offset)
    (hunder : WrittenUnder epochs (latestEpoch cache) frames) {next' : ℤ} (hnext : next ≤ next')
    (hbelow : ∀ frame ∈ frames, frame.offset < next') :
    Right (writes ∪ { write | ∃ frame ∈ frames, write = (frame.offset, epochs frame.offset) }) next'
      (appendEpochs (next - 1) (latestEpoch cache) frames cache) := by
  induction frames generalizing writes next cache with
  | nil =>
    have hsub : writes ∪ { write | ∃ frame ∈ ([] : List Frame),
        write = (frame.offset, epochs frame.offset) } ⊆ writes := by
      simp
    apply hright.mono hsub
    intro entry hentry
    have hlt := hright.reached entry hentry
    exact hlt.trans_le hnext
  | cons frame frames ih =>
    have hparts := pairwise_cons.mp hrising
    have hframe := habove frame mem_cons_self
    -- The cache with the record's epoch opened, whether it was new or not.
    have hopen : ∃ opened, Right writes next opened ∧
        latestEpoch opened = max (latestEpoch cache) frame.leaderEpoch ∧
        appendEpochs (next - 1) (latestEpoch cache) (frame :: frames) cache =
          appendEpochs frame.offset (latestEpoch opened) frames opened := by
      by_cases hnew : latestEpoch cache < frame.leaderEpoch
      · have hlatest := hright.latestEpoch_assign hnew
        refine ⟨_, hright.assign frame.leaderEpoch, ?_, ?_⟩
        · rw [hlatest, max_eq_right hnew.le]
        · rw [appendEpochs, if_pos hnew, hlatest]
      · refine ⟨cache, hright, ?_, ?_⟩
        · rw [max_eq_left (not_lt.mp hnew)]
        · rw [appendEpochs, if_neg hnew]
    rcases hopen with ⟨opened, hopened, hlatest, heq⟩
    have hwritten := @Right.write writes next opened hopened frame.offset
      (epochs frame.offset) hframe (by
        rw [hlatest]
        exact hunder.1)
    have hrest := ih hwritten hparts.2 (fun other hother => by
        have hlt := hparts.1 other hother
        omega)
      (by
        rw [hlatest]
        exact hunder.2)
      (by
        have hlt := hbelow frame mem_cons_self
        omega)
      (fun other hother => hbelow other (mem_cons_of_mem _ hother))
    rw [add_sub_cancel_right, ← heq] at hrest
    apply hrest.mono _ hrest.reached
    intro write hwrite
    rcases hwrite with hwrite | ⟨other, hother, rfl⟩
    · exact Or.inl (Or.inr hwrite)
    · rcases mem_cons.mp hother with rfl | hother
      · exact Or.inl (Or.inl rfl)
      · exact Or.inr ⟨other, hother, rfl⟩

/-! ## Operations that take records away -/

def LogView.Within (log log' : LogView) : Prop :=
  ∀ frame' ∈ recordsOf log'.segments, ∃ frame ∈ recordsOf log.segments, frame'.offset = frame.offset

variable {log : LogView}

theorem LogView.within_of_mem {log' : LogView}
    (hmem : ∀ frame ∈ recordsOf log'.segments, frame ∈ recordsOf log.segments) : log.Within log' :=
  fun frame hframe => ⟨frame, hmem frame hframe, rfl⟩

theorem LogView.within_of_sealed {log' : LogView} (hactive : log'.active = log.active)
    (hsealed : ∀ seg' ∈ log'.sealedSegs, ∀ frame' ∈ seg'.frames,
      ∃ frame ∈ recordsOf log.sealedSegs, frame'.offset = frame.offset) :
    log.Within log' := by
  intro frame' hframe'
  rcases mem_recordsOf.mp hframe' with ⟨seg', hseg', hin⟩
  rcases mem_append.mp hseg' with hseg' | hseg'
  · rcases hsealed seg' hseg' frame' hin with ⟨frame, hframe, heq⟩
    refine ⟨frame, ?_, heq⟩
    rw [segments, CommitLog.recordsOf_append]
    exact mem_append_left _ hframe
  · rw [mem_singleton.mp hseg', hactive] at hin
    exact ⟨frame', mem_recordsOf.mpr ⟨log.active, by simp [segments], hin⟩, rfl⟩

theorem within_map {f : Segment → Segment} (hframes : ∀ seg, (f seg).frames = seg.frames) :
    log.Within { log with sealedSegs := log.sealedSegs.map f } := by
  apply within_of_sealed
  · rfl
  · intro seg' hseg' frame hframe
    rcases mem_map.mp hseg' with ⟨seg, hseg, rfl⟩
    rw [hframes] at hframe
    exact ⟨frame, mem_recordsOf.mpr ⟨seg, hseg, hframe⟩, rfl⟩

theorem compactSpec_within {spec : CleanSpec} {passEnv : PassEnv} {result : PassResult}
    (hpass : compactSpec spec passEnv log = .ok result) : log.Within result.log := by
  unfold compactSpec at hpass
  split at hpass
  · cases hpass
    exact within_of_mem fun _ hframe => hframe
  · rcases compact_eq_ok hpass with ⟨merged, -, hlog, -⟩
    rw [hlog]
    apply within_of_sealed
    · rfl
    intro seg' hseg' frame' hframe'
    rcases mem_flatMap.mp hseg' with ⟨c, hc, hin⟩
    have hsource := mem_of_getElem? (mem_candidatesOf.mp hc).1
    rcases mem_segmentAfter hc hin with
      ⟨-, rfl⟩ | ⟨cleaned, -, hclean, hsegment⟩
    · exact ⟨frame', mem_recordsOf.mpr ⟨c.seg, hsource, hframe'⟩, rfl⟩
    · rcases cleanSegment_origin hclean hsegment hframe' with
        ⟨frame, hframe, heq⟩
      exact ⟨frame, mem_recordsOf.mpr ⟨c.seg, hsource, hframe⟩, heq⟩

theorem LogView.join_within (log : LogView) (i count : ℕ)
    (refreshFails : Bool) : log.Within (log.join i count refreshFails) := by
  unfold join
  split
  next first second rest hinputs =>
    have hinput : ∀ seg ∈ first :: second :: rest, seg ∈ log.sealedSegs := by
      intro seg hseg
      rw [← hinputs] at hseg
      exact mem_of_mem_drop (mem_of_mem_take hseg)
    apply within_of_sealed
    · rfl
    intro seg' hseg' frame hframe
    rcases mem_append.mp hseg' with hseg' | hseg'
    · exact ⟨frame, mem_recordsOf.mpr ⟨seg', mem_of_mem_take hseg', hframe⟩, rfl⟩
    · rcases mem_cons.mp hseg' with rfl | hseg'
      · rw [frames_joinedSegment] at hframe
        rcases mem_recordsOf.mp hframe with ⟨seg, hseg, hin⟩
        exact ⟨frame, mem_recordsOf.mpr ⟨seg, hinput seg hseg, hin⟩, rfl⟩
      · have hmem := mem_of_mem_drop (mem_of_mem_drop hseg')
        exact ⟨frame, mem_recordsOf.mpr ⟨seg', hmem, hframe⟩, rfl⟩
  · exact within_of_mem fun _ hframe => hframe

theorem LogView.truncateBefore_within (log : LogView) (minOffset : ℤ) :
    log.Within (log.truncateBefore minOffset) := by
  have hdrop := dropWhile_sublist
    (fun seg : Segment => !seg.reaches minOffset) (l := log.sealedSegs)
  have hsub : ∀ segs : List Segment, ∀ keys, segs.Sublist log.sealedSegs →
      log.Within { log with sealedSegs := segs, keys := keys } := by
    intro segs keys hsegs
    apply within_of_sealed
    · rfl
    intro seg hseg frame hframe
    exact ⟨frame, mem_recordsOf.mpr ⟨seg, hsegs.subset hseg, hframe⟩, rfl⟩
  unfold truncateBefore
  split
  · exact within_of_mem fun _ hframe => hframe
  · simp only
    split
    · exact hsub [] _ (nil_sublist _)
    next boundary later hrest =>
      rw [hrest] at hdrop
      split
      · split
        · exact hsub later _ ((sublist_cons_self _ _).trans hdrop)
        next first rest hkept =>
          apply within_of_sealed
          · rfl
          intro seg' hseg' frame hframe
          rcases mem_cons.mp hseg' with rfl | hseg'
          · rw [frames_writeEach, ← hkept] at hframe
            have hin := (mem_filter.mp hframe).1
            exact ⟨frame, mem_recordsOf.mpr ⟨boundary, hdrop.subset mem_cons_self, hin⟩, rfl⟩
          · exact ⟨frame, mem_recordsOf.mpr ⟨seg',
              hdrop.subset (mem_cons_of_mem _ hseg'), hframe⟩, rfl⟩
      · exact hsub (boundary :: later) _ hdrop

section Steps

variable {s s' : EpochLog} {live' : LiveLog}

theorem EpochLog.writes_subset {cache' : List EpochOffset}
    (hwithin : s.live.view.Within live'.view) :
    EpochLog.writes ⟨live', cache', s.under⟩ ⊆ s.writes := by
  rintro write ⟨frame', hframe', rfl⟩
  rcases hwithin frame' hframe' with ⟨frame, hframe, heq⟩
  exact ⟨frame, hframe, by rw [heq]⟩

theorem LiveLog.nextOffset_withView {s : LiveLog} {view : LogView}
    (hactive : view.active = s.view.active) : (s.withView view).nextOffset = s.nextOffset := by
  unfold withView
  rw [if_pos hactive]
  unfold nextOffset
  simp only [hactive]

theorem EpochsOk.keep (hok : EpochsOk s) (hlive : LiveOk live')
    (hwithin : s.live.view.Within live'.view) (hnext : live'.nextOffset = s.live.nextOffset) :
    EpochsOk ⟨live', s.cache, s.under⟩ where
  live := hlive
  right := hok.right.mono (EpochLog.writes_subset hwithin) (by
    simp only [hnext]
    exact hok.right.reached)
  typed write hwrite :=
    hok.typed write (EpochLog.writes_subset hwithin hwrite)

theorem EpochsOk.newest_eq (hok : EpochsOk s) : s.live.newestOffset = s.live.nextOffset - 1 :=
  hok.live.newestOffset_eq

variable {cache' : List EpochOffset}

theorem EpochsOk.truncate (hok : EpochsOk s) {offset : ℤ}
    (hcache : CacheStep s (.truncate offset) (s.live.withView (s.live.view.truncate offset)) cache')
    (hreached : ∀ entry ∈ s.cache, entry.assignedAtOffset < offset → entry.assignedAtOffset <
        (s.live.withView (s.live.view.truncate offset)).nextOffset) :
    EpochsOk ⟨s.live.withView (s.live.view.truncate offset), cache', s.under⟩ := by
  have hlive := hok.live.truncate offset
  have hrecords : recordsOf (s.live.view.truncate offset).segments = _ :=
    truncate_records hok.live.ordered.spaced
  have hwithin : s.live.view.Within (s.live.view.truncate offset) := by
    apply within_of_mem
    intro frame hframe
    rw [hrecords] at hframe
    exact (mem_filter.mp hframe).1
  have hcut : ∀ write ∈ EpochLog.writes
      ⟨s.live.withView (s.live.view.truncate offset), cache', s.under⟩,
      write.1 < offset := by
    rintro write ⟨frame, hframe, rfl⟩
    change frame ∈ recordsOf (s.live.view.truncate offset).segments at hframe
    rw [hrecords] at hframe
    simpa using (mem_filter.mp hframe).2
  have hsub := @EpochLog.writes_subset s
    (s.live.withView (s.live.view.truncate offset)) cache' hwithin
  constructor
  · exact hlive
  · cases hdrop : s.live.view.segments.dropWhile (endsBy offset) with
    | nil =>
      have hsame : s.live.view.truncate offset = s.live.view := by
        rw [truncate_eq, hdrop]
      rw [show cache' = s.cache by rw [hcache, if_pos hdrop]]
      apply hok.right.mono hsub
      simp only
      rw [nextOffset_withView (by rw [hsame])]
      exact hok.right.reached
    | cons seg later =>
      rw [show cache' = clearLatest offset s.cache by
        rw [hcache, if_neg (by simp [hdrop])]]
      exact hok.right.clearLatest hsub hcut hreached
  · exact fun write hwrite => hok.typed write (hsub hwrite)

theorem EpochsOk.truncateBefore (hok : EpochsOk s) {minOffset : ℤ}
    (hsafe : TrimSafe (s.trimmed minOffset).writes s.live.nextOffset minOffset s.cache) :
    EpochsOk ⟨s.live.withView (s.live.view.truncateBefore minOffset),
      clearEarliest minOffset s.cache, s.under⟩ := by
  have hfilled := @truncateBefore_filled s.live.view minOffset hok.live.filled
  have hlive : LiveOk (s.live.withView (s.live.view.truncateBefore minOffset)) :=
    hok.live.sealed (truncateBefore_ordered hok.live.ordered minOffset) hfilled.1 hfilled.2
  have hnext := nextOffset_withView hfilled.2
  have hkeep := hok.keep hlive (truncateBefore_within s.live.view minOffset) hnext
  constructor
  · exact hlive
  · have hright := hkeep.right
    simp only [hnext] at hright ⊢
    exact hright.clearEarliest hsafe
  · exact hkeep.typed

theorem LogView.frames_reopen (log : LogView) (encodesBlocks : Bool) (pending : ℤ → Bool) :
    (log.reopen encodesBlocks pending).segments.map frames =
      log.segments.map frames := by
  simp [segments, reopen, frames]

theorem LiveLog.oldestOffset_eq (s : LiveLog) :
    s.oldestOffset = (((s.view.segments.map frames).head?.bind
      head?).map Frame.offset).getD (-1) := by
  unfold oldestOffset
  cases s.view.segments <;> rfl

theorem LiveOk.reopened_frames {s : LiveLog} (hok : LiveOk s) {opts : OpenOptions}
    {notes : DiskNotes} {hw : ℤ} {pending : ℤ → Bool} {opened : List OpenedSegment}
    (hindexable : ∀ seg ∈ s.view.segments, seg.Indexable opts.enc)
    (hopen : openLog opts hw (s.view.segments.map (store opts notes)) = .ok opened) :
    s.view.Within (s.reopened opts pending opened).view ∧
      (s.reopened opts pending opened).nextOffset = s.nextOffset ∧
      (s.reopened opts pending opened).oldestOffset = s.oldestOffset := by
  have hne : s.view.segments.map frames ≠ [] := by
    simp [segments]
  have hrecords : ∀ segs : List Segment, recordsOf segs = (segs.map frames).flatten := by
    intro segs
    simp [recordsOf, flatMap]
  rw [hok.reopened_eq hindexable hopen]
  split_ifs with hoffloaded
  · have hroll : (s.view.roll opts.encodesBlocks).segments.map
        frames = s.view.segments.map frames ++ [[]] := by
      simp [roll, segments]
    refine ⟨?_, ?_, ?_⟩
    · apply within_of_mem
      intro frame hframe
      rw [hrecords, frames_reopen, hroll] at hframe
      rw [hrecords]
      simpa using hframe
    · rw [hok.nextOffset_eq]
      rfl
    · rw [oldestOffset_eq, frames_reopen, hroll, head?_append_of_ne_nil _ hne, ← oldestOffset_eq]
  · refine ⟨?_, rfl, ?_⟩
    · apply within_of_mem
      intro frame hframe
      rw [hrecords, frames_reopen] at hframe
      rw [hrecords]
      exact hframe
    · rw [oldestOffset_eq, frames_reopen, ← oldestOffset_eq]

theorem EpochsOk.reopen (hok : EpochsOk s) {opts : OpenOptions} {notes : DiskNotes} {hw : ℤ}
    {pending : ℤ → Bool} {opened : List OpenedSegment}
    (hindexable : ∀ seg ∈ s.live.view.segments, seg.Indexable opts.enc)
    (hopen : openLog opts hw (s.live.view.segments.map (store opts notes)) = .ok opened)
    (hsafe : TrimSafe s.writes s.live.nextOffset s.live.oldestOffset s.cache) :
    EpochsOk ⟨s.live.reopened opts pending opened,
      clearEarliest (s.live.reopened opts pending opened).oldestOffset
        (clearLatest (s.live.reopened opts pending opened).nextOffset s.cache),
      s.under⟩ := by
  rcases @LiveOk.reopened_frames s.live hok.live opts notes hw pending opened
    hindexable hopen with ⟨hwithin, hnext, holdest⟩
  have hlive := @LiveOk.reopen s.live hok.live opts notes hw pending opened hindexable hopen
  have hsub := @EpochLog.writes_subset s _ s.cache hwithin
  rw [hnext, holdest]
  constructor
  · exact hlive
  · simp only [hnext]
    apply Right.clearEarliest
    · apply hok.right.clearLatest hsub
      · rintro write ⟨frame, hframe, rfl⟩
        rcases hwithin frame hframe with ⟨old, hold, heq⟩
        rw [heq]
        exact hok.live.lt_nextOffset hold
      · exact fun entry hentry _ => hok.right.reached entry hentry
    · intro hpos hbelow
      have hcleared := hok.right.clearLatest_eq s.live.nextOffset
      rcases hbelow with ⟨entry, hentry, hlt⟩
      rw [hcleared] at hentry
      have hold := hsafe hpos ⟨entry, (mem_filter.mp hentry).1, hlt⟩
      exact ⟨hold.1, fun write hwrite => hold.2 write (hsub hwrite)⟩
  · exact fun write hwrite => hok.typed write (hsub hwrite)

theorem EpochsOk.append (hok : EpochsOk s) {env : AppendEnv} {input : AppendInput} {epochs : ℤ → ℕ}
    (hsafe : LiveSafe s.live (.append env input))
    (hcache : CacheStep s (.append env input) (s.live.append env input).1 cache')
    (htyped : ∀ offset, epochs offset < uint64Size)
    (hunder : WrittenUnder epochs (latestEpoch s.cache) (s.added (.append env input))) :
    EpochsOk ⟨(s.live.append env input).1, cache', fun offset =>
      if offset ∈ (s.added (.append env input)).map Frame.offset then
        epochs offset else s.under offset⟩ := by
  rcases hok.live.append hsafe with ⟨hlive, habove⟩
  rcases hcache with ⟨-, rfl⟩
  rcases @LiveOk.split s.live env hok.live with ⟨hsplit, hrecords, hnext⟩
  rw [show s.added (.append env input) =
    ((s.live.append env input).2.map Block.frames).getD [] from rfl]
    at hunder ⊢
  cases hblock : (s.live.append env input).2 with
  | none =>
    have hkeep : EpochsOk ⟨(s.live.append env input).1, s.cache, s.under⟩ := by
      rcases append_refused hblock with hsame | hsame
      · rw [hsame]
        exact hok
      · apply hok.keep hlive <;> rw [hsame]
        · apply within_of_mem
          rw [hrecords]
          exact fun _ hframe => hframe
        · exact hnext
    simpa using hkeep
  | some block =>
    rcases hok.live.append_behind hsafe hblock with ⟨hlog, hbehind⟩
    have hall := (habove block hblock).1
    rw [hblock] at hunder
    simp only [Option.map_some, Option.getD_some] at hunder ⊢
    have htail : (s.live.checkAndPerformSplit env).newestOffset = s.live.nextOffset - 1 := by
      rw [← hnext]
      exact hsplit.newestOffset_eq
    rw [htail]
    -- The old records lie below the end, so they keep their epochs.
    have hsub : EpochLog.writes ⟨(s.live.append env input).1,
        appendEpochs (s.live.nextOffset - 1) (latestEpoch s.cache) block.frames s.cache,
        fun offset => if offset ∈ block.frames.map Frame.offset then
          epochs offset else s.under offset⟩ ⊆
        s.writes ∪ { write | ∃ frame ∈ block.frames,
          write = (frame.offset, epochs frame.offset) } := by
      rintro write ⟨frame, hframe, rfl⟩
      change frame ∈ recordsOf (s.live.append env input).1.view.segments at hframe
      rw [hall] at hframe
      rcases mem_append.mp hframe with hframe | hframe
      · left
        refine ⟨frame, hframe, ?_⟩
        simp only
        rw [if_neg]
        intro hnew
        rcases mem_map.mp hnew with ⟨new, hnew, heq⟩
        have hlt := (habove block hblock).2 frame hframe new hnew
        omega
      · right
        refine ⟨frame, hframe, ?_⟩
        simp only
        rw [if_pos (mem_map_of_mem hframe)]
    have hbelow : ∀ frame ∈ block.frames,
        frame.offset < (s.live.append env input).1.nextOffset := by
      intro frame hframe
      apply hlive.lt_nextOffset
      rw [hall]
      exact mem_append_right _ hframe
    have hgrows : s.live.nextOffset ≤ (s.live.append env input).1.nextOffset := by
      cases hframes : block.frames with
      | nil => exact absurd hframes hbehind.nonempty
      | cons frame frames =>
        have hin : frame ∈ block.frames := by simp [hframes]
        have hle := hbehind.above frame hin
        have hlt := hbelow frame hin
        omega
    have hright := right_appendEpochs hok.right hbehind.rising hbehind.above hunder hgrows hbelow
    refine ⟨hlive, hright.mono hsub hright.reached, ?_⟩
    intro write hwrite
    rcases hsub hwrite with hold | ⟨frame, -, rfl⟩
    · exact hok.typed write hold
    · exact htyped frame.offset

theorem EpochsOk.step {op : EpochOp} (hok : EpochsOk s)
    (hstep : EpochStep s op s') (hsafe : EpochSafe s op) : EpochsOk s' := by
  cases op with
  | newLeaderEpoch epoch =>
    rw [show s' = _ from hstep]
    refine ⟨hok.live, ?_, hok.typed⟩
    rw [hok.newest_eq]
    exact hok.right.assign epoch
  | cleaned =>
    rw [show s' = _ from hstep]
    exact ⟨hok.live, hok.right.clearEarliest hsafe, hok.typed⟩
  | log op epochs =>
    rcases s' with ⟨live', cache', under'⟩
    rcases hstep with ⟨hstep, hcache, htyped, hunder⟩
    have hlive := hok.live.step hstep hsafe.1
    have hkept : s.added op = [] → under' = s.under := by
      intro hadded
      rw [show under' = _ from hunder, hadded]
      simp
    cases op with
    | append env input =>
      have hview : live' = (s.live.append env input).1 := hstep
      subst hview
      rw [show under' = _ from hunder]
      exact hok.append hsafe.1 hcache htyped hsafe.2
    | split env =>
      have hview : live' = s.live.checkAndPerformSplit env := hstep
      subst hview
      rw [hkept rfl, show cache' = s.cache from hcache]
      have hsplit := @LiveOk.split s.live env hok.live
      apply hok.keep hlive _ hsplit.2.2
      apply within_of_mem
      rw [hsplit.2.1]
      exact fun _ hframe => hframe
    | pass spec passEnv =>
      rcases hstep with ⟨result, hpass, hview⟩
      cases hview
      rw [hkept rfl, show cache' = s.cache from hcache]
      exact hok.keep hlive (compactSpec_within hpass) (nextOffset_withView
          (compactSpec_filled hpass hok.live.filled).2)
    | consolidate chosen =>
      cases hstep
      rw [hkept rfl, show cache' = s.cache from hcache]
      apply hok.keep hlive _ (nextOffset_withView rfl)
      apply within_map
      intro seg
      split <;> simp
    | join i count refreshFails =>
      cases hstep
      rw [hkept rfl, show cache' = s.cache from hcache]
      exact hok.keep hlive (s.live.view.join_within i count refreshFails)
        (nextOffset_withView (join_filled hok.live.filled).2)
    | retire kept =>
      rcases hstep with ⟨hsub, hview⟩
      cases hview
      rw [hkept rfl, show cache' = s.cache from hcache]
      apply hok.keep hlive _ (nextOffset_withView rfl)
      apply within_of_sealed
      · rfl
      intro seg hseg frame hframe
      exact ⟨frame, mem_recordsOf.mpr ⟨seg, hsub.subset hseg, hframe⟩,
        rfl⟩
    | offload tierOf =>
      cases hstep
      rw [hkept rfl, show cache' = s.cache from hcache]
      apply hok.keep hlive _ (nextOffset_withView rfl)
      apply within_map
      intro seg
      split <;> rfl
    | truncate offset =>
      cases hstep
      rw [hkept rfl]
      exact hok.truncate hcache hsafe.2
    | truncateBefore minOffset =>
      cases hstep
      rw [hkept rfl, show cache' = _ from hcache]
      exact hok.truncateBefore hsafe.2
    | reopen opts notes hw pending =>
      rcases hstep with ⟨opened, hopen, hview⟩
      rcases hcache with ⟨loaded, hread, hloaded⟩
      rw [eq_of_readLeaderEpochOffsets hread] at hloaded
      cases hview
      rw [hkept rfl, show cache' = _ from hloaded]
      exact hok.reopen hsafe.1 hopen hsafe.2

end Steps

/-! ## A trim onto a record -/

def newEpochLog : EpochLog := ⟨newLive, [], fun _ => 0⟩

def stampedBatch (epoch : ℕ) : AppendInput :=
  .append [⟨smallMessage, 0, epoch⟩, ⟨smallMessage, 0, epoch⟩]

/-- The log with the first two records, of epoch 1. -/
def stampedLog : EpochLog where
  live := (newLive.append plainEnv (stampedBatch 1)).1
  cache := [⟨1, -1⟩]
  under := fun offset => if offset ∈ [(0 : ℤ), 1] then 1 else 0

theorem stampedLog_step :
    EpochStep newEpochLog (.log (.append plainEnv (stampedBatch 1)) fun _ => 1)
      stampedLog := by
  have hcache : stampedLog.cache = appendEpochs (-1) 0
      (newMessageSet 0 1 0 [⟨smallMessage, 0, 1⟩, ⟨smallMessage, 0, 1⟩])
      [] := by
    decide +kernel
  refine ⟨rfl, ⟨rfl, hcache⟩, ?_, rfl⟩
  intro offset
  change 1 < uint64Size
  decide

end CommitLog
