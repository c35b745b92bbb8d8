import CommitLog.Appends
import CommitLog.SortSearch

/-!
# The state after a truncation

`Truncate` finds the first segment that reaches past the offset, rewrites it
without its tail or drops it whole, and makes the last segment left the active
one, whatever kind it is.
-/

namespace CommitLog

open List LogView Segment

variable {before later segs : List Segment} {seg : Segment} {offset : ℤ}

def Segment.endsBy (offset : ℤ) (seg : Segment) : Bool :=
  decide (seg.nextOffset ≤ offset)

/-- The watermark after `Truncate`, which is only looked at when there was
something to truncate. -/
def LogView.truncateHighWatermark (log : LogView) (offset hw : ℤ) : ℤ :=
  match log.segments.dropWhile (endsBy offset) with
  | [] => hw
  | _ :: _ =>
    if (log.truncate offset).newestOffset < hw then
      (log.truncate offset).newestOffset
    else hw

/-- The three ways a truncation can go. -/
inductive Truncates (log : LogView) (offset : ℤ) : Prop
  | nothing (hends : ∀ seg ∈ log.segments, seg.nextOffset ≤ offset)
      (hlog : log.truncate offset = log)
      (hdrop : log.segments.dropWhile (endsBy offset) = [])
  | rewrites (before : List Segment) (seg : Segment) (later : List Segment)
      (hsegments : log.segments = before ++ seg :: later)
      (hends : ∀ other ∈ before, other.nextOffset ≤ offset)
      (hreaches : offset < seg.nextOffset)
      (hbase : seg.baseOffset ≠ offset ∨ before = [])
      (hlog : (log.truncate offset).sealedSegs = before ∧
        (log.truncate offset).active = seg.truncated offset)
      (htake : log.segments.takeWhile (endsBy offset) = before)
      (hdrop : log.segments.dropWhile (endsBy offset) = seg :: later)
  | drops (before : List Segment) (last seg : Segment) (later : List Segment)
      (hsegments : log.segments = before ++ last :: seg :: later)
      (hends : ∀ other ∈ before ++ [last], other.nextOffset ≤ offset)
      (hreaches : offset < seg.nextOffset) (hbase : seg.baseOffset = offset)
      (hlog : (log.truncate offset).sealedSegs = before ∧ (log.truncate offset).active = last)
      (htake : log.segments.takeWhile (endsBy offset) = before ++ [last])
      (hdrop : log.segments.dropWhile (endsBy offset) = seg :: later)

theorem LogView.truncate_eq (log : LogView) (offset : ℤ) : log.truncate offset =
      match log.segments.dropWhile (endsBy offset) with
      | [] => log
      | seg :: later =>
        if seg.baseOffset ≠ offset ∨ log.segments.takeWhile (endsBy offset) = [] then
          ⟨log.segments.takeWhile (endsBy offset), seg.truncated offset, removeKeys log.keys later⟩
        else
          match (log.segments.takeWhile (endsBy offset)).getLast? with
          | none => log
          | some last =>
            ⟨(log.segments.takeWhile (endsBy offset)).dropLast,
              last, removeKeys log.keys (seg :: later)⟩ := rfl

theorem truncates (log : LogView) (offset : ℤ) : Truncates log offset := by
  have hsplit := takeWhile_append_dropWhile (p := endsBy offset) (l := log.segments)
  have hlog := log.truncate_eq offset
  have hbefore : ∀ seg ∈ log.segments.takeWhile (endsBy offset), seg.nextOffset ≤ offset := by
    intro seg hmem
    have hends := all_takeWhile (p := endsBy offset) (l := log.segments)
    simpa [endsBy] using all_eq_true.mp hends seg hmem
  generalize htake : log.segments.takeWhile (endsBy offset) = before at hsplit hlog hbefore
  cases hdrop : log.segments.dropWhile (endsBy offset) with
  | nil =>
    rw [hdrop, append_nil] at hsplit
    rw [hdrop] at hlog
    rw [hsplit] at hbefore
    exact Truncates.nothing hbefore hlog hdrop
  | cons seg later =>
    have hreaches : offset < seg.nextOffset := by
      have hhead := head?_dropWhile_not (endsBy offset) log.segments
      rw [hdrop] at hhead
      simpa [endsBy] using hhead
    rw [hdrop] at hsplit hlog
    simp only at hlog
    split_ifs at hlog with hreplace
    · exact Truncates.rewrites before seg later hsplit.symm hbefore hreaches
        hreplace (by rw [hlog]; exact ⟨rfl, rfl⟩) htake hdrop
    · rw [not_or, not_not] at hreplace
      rcases eq_nil_or_concat before with hnil | ⟨front, last, hfront⟩
      · exact absurd hnil hreplace.2
      · rw [concat_eq_append] at hfront
        have hlast : before.getLast? = some last := by simp [hfront]
        rw [hlast] at hlog
        simp only at hlog
        rw [hfront] at htake
        apply Truncates.drops front last seg later _ _ hreaches hreplace.1 _ htake hdrop
        · rw [← hsplit, hfront]
          simp
        · rwa [hfront] at hbefore
        · rw [hlog, hfront]
          simp

/-! ## The records that are left -/

theorem takeWhile_offset_eq_filter {frames : List Frame}
    (hordered : frames.Pairwise fun a b => a.offset < b.offset) :
    (frames.takeWhile fun frame => decide (frame.offset < offset)) =
      frames.filter fun frame => decide (frame.offset < offset) := by
  apply SortSearch.takeWhile_eq_filter
  apply hordered.imp
  intro a b hlt hb
  simp only [decide_eq_true_eq] at hb ⊢
  omega

theorem filter_recordsOf_below
    (hbelow : ∀ seg ∈ segs, ∀ frame ∈ seg.frames, frame.offset < offset) :
    (recordsOf segs).filter (fun frame => decide (frame.offset < offset)) =
      recordsOf segs := by
  rw [filter_eq_self]
  intro frame hmem
  rcases mem_recordsOf.mp hmem with ⟨seg, hseg, hframe⟩
  simpa using hbelow seg hseg frame hframe

theorem filter_recordsOf_above {segs : List Segment} {offset : ℤ}
    (habove : ∀ seg ∈ segs, ∀ frame ∈ seg.frames, offset ≤ frame.offset) :
    (recordsOf segs).filter (fun frame => decide (frame.offset < offset)) = [] := by
  rw [filter_eq_nil_iff]
  intro frame hmem
  rcases mem_recordsOf.mp hmem with ⟨seg, hseg, hframe⟩
  have hle := habove seg hseg frame hframe
  simp only [decide_eq_true_eq]
  omega

structure Spaced (segs : List Segment) : Prop where
  wellFormed : ∀ seg ∈ segs, seg.WellFormed
  apart : segs.Pairwise fun a b => a.nextOffset ≤ b.baseOffset

theorem LogOrdered.spaced (hordered : LogOrdered segs) : Spaced segs := by
  refine ⟨hordered.wellFormed, hordered.increasing.imp ?_⟩
  intro a b hab
  exact nextOffset_le_of hab.1.le hab.2

theorem Spaced.sublist {segs' : List Segment} (hspaced : Spaced segs)
    (hsub : segs'.Sublist segs) : Spaced segs' :=
  ⟨fun seg hseg => hspaced.wellFormed seg (hsub.subset hseg), hspaced.apart.sublist hsub⟩

theorem Spaced.exchange {seg' : Segment} (hspaced : Spaced (before ++ seg :: later))
    (hwf : seg'.WellFormed) (hbase : seg.baseOffset ≤ seg'.baseOffset)
    (hlater : ∀ other ∈ later, seg'.nextOffset ≤ other.baseOffset) :
    Spaced (before ++ seg' :: later) := by
  have hparts := pairwise_append.mp hspaced.apart
  have hbehind := pairwise_cons.mp hparts.2.1
  constructor
  · intro other hother
    rcases mem_append.mp hother with hother | hother
    · exact hspaced.wellFormed other (mem_append_left _ hother)
    · rcases mem_cons.mp hother with rfl | hother
      · exact hwf
      · exact hspaced.wellFormed other (by simp [hother])
  · apply pairwise_append.mpr
    refine ⟨hparts.1, pairwise_cons.mpr ⟨hlater, hbehind.2⟩, ?_⟩
    intro a ha b hb
    rcases mem_cons.mp hb with rfl | hb
    · exact (hparts.2.2 a ha seg mem_cons_self).trans hbase
    · exact hparts.2.2 a ha b (mem_cons_of_mem _ hb)

theorem Spaced.replace {seg' : Segment} (hspaced : Spaced (before ++ seg :: later))
    (hwf : seg'.WellFormed) (hbase : seg.baseOffset ≤ seg'.baseOffset)
    (hnext : seg'.nextOffset ≤ seg.nextOffset) : Spaced (before ++ seg' :: later) := by
  apply hspaced.exchange hwf hbase
  intro other hother
  have hparts := pairwise_append.mp hspaced.apart
  exact hnext.trans ((pairwise_cons.mp hparts.2.1).1 other hother)

theorem Spaced.nextOffset_le_last {last : Segment} (hspaced : Spaced segs)
    (hlast : segs.getLast? = some last) : ∀ seg ∈ segs, seg.nextOffset ≤ last.nextOffset := by
  intro seg hseg
  rcases Runs.eq_or_rel_last hspaced.apart hlast hseg with rfl | hle
  · rfl
  · exact hle.trans (hspaced.wellFormed last (mem_of_getLast? hlast)).base_le_nextOffset

theorem Spaced.concat (hspaced : Spaced segs) (hwf : seg.WellFormed)
    (hbehind : ∀ other ∈ segs, other.nextOffset ≤ seg.baseOffset) : Spaced (segs ++ [seg]) := by
  constructor
  · intro other hother
    rcases mem_append.mp hother with hother | hother
    · exact hspaced.wellFormed other hother
    · rwa [mem_singleton.mp hother]
  · apply pairwise_append.mpr
    exact ⟨hspaced.apart, by simp, by simpa using hbehind⟩

section Records

variable {log : LogView} {offset : ℤ}

theorem offset_lt_of_endsBy (hwf : ∀ seg ∈ segs, seg.WellFormed)
    (hends : ∀ seg ∈ segs, seg.nextOffset ≤ offset) :
    ∀ seg ∈ segs, ∀ frame ∈ seg.frames, frame.offset < offset := by
  intro seg hseg frame hframe
  exact ((hwf seg hseg).offset_lt_nextOffset hframe).trans_le (hends seg hseg)

theorem le_offset_of_reached (hspaced : Spaced (before ++ seg :: later))
    (hreaches : offset < seg.nextOffset) :
    ∀ other ∈ later, ∀ frame ∈ other.frames, offset ≤ frame.offset := by
  intro other hother frame hframe
  have hapart := (pairwise_append.mp hspaced.apart).2.1
  have hnext := (pairwise_cons.mp hapart).1 other hother
  have hbase := (hspaced.wellFormed other (by simp [hother])).base_le frame hframe
  omega

theorem truncate_records (hordered : Spaced log.segments) :
    recordsOf (log.truncate offset).segments = (recordsOf log.segments).filter
        fun frame => decide (frame.offset < offset) := by
  cases truncates log offset with
  | nothing hends hlog hdrop =>
    rw [hlog, filter_recordsOf_below]
    exact offset_lt_of_endsBy hordered.wellFormed hends
  | rewrites before seg later hsegments hends hreaches hbase hlog htake hdrop =>
    rw [hsegments] at hordered
    have hwf := hordered.wellFormed seg (by simp)
    have hlow := filter_recordsOf_below (offset_lt_of_endsBy
      (fun other hother => hordered.wellFormed other (mem_append_left _ hother)) hends)
    have hhigh := filter_recordsOf_above (le_offset_of_reached hordered hreaches)
    rw [segments, hlog.1, hlog.2, hsegments, recordsOf_append, recordsOf_append, filter_append,
      recordsOf_cons, recordsOf_cons, filter_append, hlow, hhigh, truncated, frames_writeEach,
      takeWhile_offset_eq_filter hwf.ordered]
    simp
  | drops before last seg later hsegments hends hreaches hbase hlog htake hdrop =>
    have hassoc : before ++ last :: seg :: later = before ++ [last] ++ seg :: later := by simp
    rw [hassoc] at hsegments
    rw [hsegments] at hordered
    have hlow := filter_recordsOf_below (offset_lt_of_endsBy
      (fun other hother => hordered.wellFormed other (mem_append_left _ hother)) hends)
    have hhigh := @filter_recordsOf_above (seg :: later) offset (by
        intro other hother
        rcases mem_cons.mp hother with rfl | hother
        · intro frame hframe
          rw [← hbase]
          exact (hordered.wellFormed other (by simp)).base_le frame hframe
        · exact le_offset_of_reached hordered hreaches other hother)
    rw [segments, hlog.1, hlog.2, hsegments, recordsOf_append (before ++ [last]), filter_append,
      hlow, hhigh, append_nil]

theorem truncated_nextOffset_le {seg : Segment} (hwf : seg.WellFormed) :
    (seg.truncated offset).nextOffset ≤ offset ↔ seg.baseOffset ≤ offset := by
  have hframes : (seg.truncated offset).frames =
      seg.frames.takeWhile fun frame => decide (frame.offset < offset) := by
    simp [truncated]
  have hbase : (seg.truncated offset).baseOffset = seg.baseOffset := by
    simp [truncated]
  have hle := (truncated_wellFormed hwf offset).base_le_nextOffset
  constructor
  · intro hnext
    rw [hbase] at hle
    omega
  · intro hbaseLe
    apply nextOffset_le_of
    · rwa [hbase]
    · intro frame hframe
      rw [hframes, takeWhile_offset_eq_filter hwf.ordered] at hframe
      exact of_decide_eq_true (mem_filter.mp hframe).2

end Records

/-! ## Going on from there -/

/-- The log a truncation is to leave: the records below the offset, an end and
a watermark below it, and room for the next append. -/
structure TruncatesRight (limits : RollLimits) (now : ℤ)
    (encodesBlocks : Bool) (leaderEpoch : ℕ) (log : LogView)
    (hw offset : ℤ) : Prop where
  records_eq : recordsOf (log.truncate offset).segments =
    (recordsOf log.segments).filter fun frame => decide (frame.offset < offset)
  newest_lt : (log.truncate offset).newestOffset < offset
  highWatermark_le : log.truncateHighWatermark offset hw ≤ (log.truncate offset).newestOffset
  takes_set : ∀ first rest, first.offset = offset →
    ((first :: rest).Pairwise fun a b => a.offset < b.offset) →
    ∃ log', (log.truncate offset).appendMessageSet limits now encodesBlocks
        (first :: rest) = .ok log' ∧
      recordsOf log'.segments = recordsOf (log.truncate offset).segments ++ first :: rest
  takes_messages : ∀ messages, messages ≠ [] →
    ∃ log', (log.truncate offset).appendMessages limits now encodesBlocks
        leaderEpoch messages = .ok log' ∧
      recordsOf log'.segments = recordsOf (log.truncate offset).segments ++
          messageFrames (log.truncate offset).active.nextOffset now leaderEpoch messages

/-- Something is truncated only where a segment begins at or below the offset;
a segment that goes whole leaves one that can be written; and with nothing to
truncate the log itself is as it should be. -/
def TruncateSafe (limits : RollLimits) (now : ℤ) (log : LogView) (hw offset : ℤ) : Prop :=
  match log.segments.dropWhile (endsBy offset) with
  | [] => hw ≤ log.newestOffset ∧ log.Writable limits now
  | seg :: _ => seg.baseOffset ≤ offset ∧ (seg.baseOffset = offset → ∀ last,
        (log.segments.takeWhile (endsBy offset)).getLast? = some last →
        last.isOffloaded = true → last.checkSplit limits now = true)

theorem Segment.tier_foldl_append (frames : List Frame) (seg : Segment) :
    (frames.foldl (fun s frame => s.append (Block.ofFrames [frame])) seg).tier = seg.tier := by
  induction frames generalizing seg with
  | nil => rfl
  | cons frame frames ih =>
    rw [foldl_cons, ih]
    rfl

theorem Segment.isOffloaded_truncated (seg : Segment) (offset : ℤ) :
    (seg.truncated offset).isOffloaded = false := by
  unfold truncated writeEach isOffloaded
  rw [tier_foldl_append]
  rfl

section Going

variable {limits : RollLimits} {now : ℤ} {encodesBlocks : Bool}
  {leaderEpoch : ℕ} {log : LogView} {hw offset : ℤ}

theorem truncatesRight_iff_writable (hordered : LogOrdered log.segments) :
    TruncatesRight limits now encodesBlocks leaderEpoch log hw offset ↔
      (log.truncate offset).newestOffset < offset ∧ log.truncateHighWatermark offset hw ≤
          (log.truncate offset).newestOffset ∧
        (log.truncate offset).Writable limits now := by
  constructor
  · intro hright
    refine ⟨hright.newest_lt, hright.highWatermark_le, ?_⟩
    have habove : ∀ frame ∈ [storedFrame offset],
        (log.truncate offset).newestOffset < frame.offset := by
      intro frame hmem
      rw [mem_singleton.mp hmem]
      exact hright.newest_lt
    apply (appendMessageSet_iff (by simp) (by simp) habove).mp
    exact hright.takes_set (storedFrame offset) [] rfl (by simp)
  · rintro ⟨hnewest, hhw, hwritable⟩
    refine ⟨truncate_records hordered.spaced, hnewest, hhw, ?_, ?_⟩
    · intro first rest hfirst hset
      apply (appendMessageSet_iff (by simp) hset _).mpr hwritable
      intro frame hmem
      rcases mem_cons.mp hmem with rfl | hmem
      · rwa [hfirst]
      · have hgt := (pairwise_cons.mp hset).1 frame hmem
        omega
    · intro messages hne
      exact (appendMessages_iff hne).mpr hwritable

theorem truncateHighWatermark_le (hdrop : log.segments.dropWhile (endsBy offset) = seg :: later) :
    log.truncateHighWatermark offset hw ≤ (log.truncate offset).newestOffset := by
  unfold truncateHighWatermark
  rw [hdrop]
  simp only
  split_ifs with hlt
  · exact le_rfl
  · exact not_lt.mp hlt

end Going

def rawSegment (base : ℤ) (offsets : List ℤ) (tier : Option String) :
    Segment :=
  ⟨base, .raw (offsets.map storedFrame), false, false, tier⟩

def smallLimits : RollLimits := ⟨1000, 0, Nat.succ_pos (nat_lit 999)⟩

/-- Records 0 and 5, in segments of their own. -/
def gapLog (tier : Option String) : LogView :=
  ⟨[rawSegment 0 [0] tier], rawSegment 5 [5] none, fun _ => none⟩

end CommitLog
