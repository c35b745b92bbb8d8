import CommitLog.TimestampLookups

/-!
# The latest record before a time

The latest record at or before a time is looked up as the offset before the
earliest later one.  That names a record only where no gap lies between the
two.
-/

namespace CommitLog

open List Option

/-! ## The lookup -/

/-- `LatestOffsetBeforeTimestamp`; none is the error for a time before the
log. -/
def latestOffsetBeforeTimestamp (entries : List PassEntry) (timestamp : ℤ) :
    Option ℤ :=
  if timestamp < (entries.head?.map fun e =>
      e.published.firstWriteTime).getD 0 then none
  else if timestamp = maxInt64 then
    some ((entries.getLast?.map fun e => e.published.lastOffset).getD (-1))
  else some (earliestOffsetAfterTimestamp entries (timestamp + 1) - 1)

def LatestAt (frames : List Bytes) (timestamp : ℤ) (answer : Option ℤ) :
    Prop :=
  match answer with
  | some offset => ∃ ms ∈ frames, (setFrame ms).timestamp ≤ timestamp ∧
      offset = (setFrame ms).offset ∧
      ∀ other ∈ frames, (setFrame other).timestamp ≤ timestamp → (setFrame other).offset ≤ offset
  | none => ∀ ms ∈ frames, timestamp < (setFrame ms).timestamp

/-! ## The latest record before a time -/

/-- The record after the last one at or before the time, or the next append,
has the offset right behind it. -/
def ByteLog.NoGapAfter (s : ByteLog) (timestamp : ℤ) : Prop :=
  ∀ front ms rest, s.frames = front ++ ms :: rest → (setFrame ms).timestamp ≤ timestamp →
    (∀ other ∈ rest, timestamp < (setFrame other).timestamp) →
    (rest.head?.map fun next => (setFrame next).offset).getD
      (s.newestOffset + 1) = (setFrame ms).offset + 1

def ByteLog.LatestNamed (s : ByteLog) (timestamp : ℤ) : Prop :=
  match s.frames with
  | [] => timestamp < 0
  | _ :: _ =>
    if timestamp = maxInt64 then s.active.frames ≠ []
    else s.NoGapAfter timestamp

section Latest

variable {s : ByteLog}

theorem ByteLog.Timed.head_firstWriteTime (htimed : s.Timed) :
    (s.entries.head?.map fun e => e.published.firstWriteTime).getD 0 =
      (s.frames.head?.map fun ms => (setFrame ms).timestamp).getD 0 := by
  cases hsealed : s.sealedSegs with
  | nil =>
    have hentries : s.entries = [⟨s.active, s.active.frames, some s.active⟩] := by
      simp [ByteLog.entries, ByteLog.segments, hsealed]
    have hframes : s.frames = s.active.frames := by
      simp [ByteLog.frames, ByteLog.segments, hsealed]
    rw [hentries, hframes, head?_cons, map_some, getD_some, ByteSegment.firstWriteTime]
  | cons seg rest =>
    have hheld := htimed.held seg (by rw [hsealed]; exact mem_cons_self)
    obtain ⟨first, frames, hfirst⟩ := exists_cons_of_ne_nil hheld
    have hentries : s.entries.head? = some ⟨seg, seg.frames, some seg⟩ := by
      simp [ByteLog.entries, ByteLog.segments, hsealed]
    have hframes : s.frames.head? = some first := by
      simp [ByteLog.frames, ByteLog.segments, hsealed, hfirst]
    rw [hentries, hframes, map_some, getD_some, map_some, getD_some, ByteSegment.firstWriteTime,
      hfirst, head?_cons, map_some, getD_some]

theorem timestamp_le_maxInt64 (ms : Bytes) : (setFrame ms).timestamp ≤ maxInt64 := by
  have hlt := @Int.bmod_lt (bigEndian ((ms.drop 8).take 8)) (2 ^ 64) (by norm_num)
  unfold setFrame wrapInt64 maxInt64
  simp only
  omega

theorem EarliestAt.eq_head {frames front rest : List Bytes} {ms : Bytes} {next timestamp answer : ℤ}
    (hearliest : EarliestAt frames next (timestamp + 1) answer)
    (hordered : frames.Pairwise fun a b => (setFrame a).offset < (setFrame b).offset)
    (hchronological : frames.Pairwise fun a b => (setFrame a).timestamp ≤ (setFrame b).timestamp)
    (hparts : frames = front ++ ms :: rest) (hearly : (setFrame ms).timestamp ≤ timestamp)
    (hlate : ∀ other ∈ rest, timestamp < (setFrame other).timestamp) :
    answer = (rest.head?.map fun next => (setFrame next).offset).getD next := by
  have hfront : ∀ other ∈ front ++ [ms], (setFrame other).timestamp ≤ timestamp := by
    intro other hother
    rcases mem_append.mp hother with hother | hother
    · rw [hparts] at hchronological
      exact ((pairwise_append.mp hchronological).2.2 other hother ms mem_cons_self).trans hearly
    · rwa [mem_singleton.mp hother]
  have hsplit : frames = (front ++ [ms]) ++ rest := by simp [hparts]
  have hnone : (front ++ [ms]).find? (fun other =>
      decide (timestamp + 1 ≤ (setFrame other).timestamp)) = none := by
    rw [find?_eq_none]
    intro other hother
    have hle := hfront other hother
    rw [decide_eq_true_eq]
    omega
  cases hrest : rest with
  | nil =>
    rw [hrest, append_nil] at hsplit
    rcases hearliest with ⟨other, hother, hafter, -⟩ | ⟨-, hanswer⟩
    · have hle := hfront other (by rwa [← hsplit])
      omega
    · rw [hanswer, head?_nil, map_none, getD_none]
  | cons first others =>
    have hfirst := hlate first (by rw [hrest]; exact mem_cons_self)
    have hfind : (frames.find? fun other =>
        decide (timestamp + 1 ≤ (setFrame other).timestamp)) =
          some first := by
      rw [hsplit, find?_append, hnone, none_or, hrest,
        find?_cons_of_pos (by rw [decide_eq_true_eq]; omega)]
    rw [hearliest.eq_of_find? hordered hfind, head?_cons, map_some, getD_some]

/-- The end of the active segment is the newest record unless the segment is
empty. -/
theorem ByteLog.Timed.latestAt_newest (htimed : s.Timed) :
    LatestAt s.frames maxInt64 (some s.active.lastOffset) ↔ s.active.frames ≠ [] := by
  have hframes : s.frames = s.sealedSegs.flatMap ByteSegment.frames ++ s.active.frames := by
    simp [ByteLog.frames, ByteLog.segments]
  constructor
  · rintro ⟨ms, hms, -, hoffset, -⟩ hempty
    obtain ⟨seg, hseg, hin⟩ := mem_flatMap.mp hms
    have hnonneg := (htimed.wellFormed.segs seg hseg).nonneg hin
    rw [ByteSegment.lastOffset, hempty, getLast?_nil, map_none, getD_none] at hoffset
    omega
  · intro hne
    obtain ⟨front, last, hlast⟩ :=
      (eq_nil_or_concat' s.active.frames).resolve_left hne
    have hoffset : s.active.lastOffset = (setFrame last).offset := by
      rw [ByteSegment.lastOffset, hlast, getLast?_concat, map_some, getD_some]
    have hparts : s.frames = (s.sealedSegs.flatMap ByteSegment.frames ++ front) ++ [last] := by
      rw [hframes, hlast, append_assoc]
    have hrising := htimed.wellFormed.rising
    rw [hparts] at hrising
    refine ⟨last, by rw [hparts]; simp, timestamp_le_maxInt64 last, hoffset, ?_⟩
    intro other hother _
    rw [hoffset]
    rw [hparts] at hother
    rcases mem_append.mp hother with hother | hother
    · exact ((pairwise_append.mp hrising).2.2 other hother last (mem_singleton_self last)).le
    · rw [mem_singleton.mp hother]

/-- One step back from the earliest later record is the latest one before it
unless there is a gap. -/
theorem ByteLog.Timed.latestAt_before (htimed : s.Timed) {timestamp answer : ℤ}
    (hearliest : EarliestAt s.frames (s.newestOffset + 1) (timestamp + 1) answer) {first : Bytes}
    {frames : List Bytes} (hframes : s.frames = first :: frames)
    (hfirst : (setFrame first).timestamp ≤ timestamp) :
    LatestAt s.frames timestamp (some (answer - 1)) ↔
      s.NoGapAfter timestamp := by
  have hrising := htimed.wellFormed.rising
  have hhead : ∀ {front ms rest}, s.frames = front ++ ms :: rest →
      (setFrame ms).timestamp ≤ timestamp →
      (∀ other ∈ rest, timestamp < (setFrame other).timestamp) →
      answer = (rest.head?.map fun next => (setFrame next).offset).getD (s.newestOffset + 1) :=
    fun hparts hearly hlate => hearliest.eq_head hrising htimed.chronological hparts hearly hlate
  -- a record that is early enough lies at or before the last such one
  have hlast : ∀ {front ms rest}, s.frames = front ++ ms :: rest →
      (∀ other ∈ rest, timestamp < (setFrame other).timestamp) →
      ∀ other ∈ s.frames, (setFrame other).timestamp ≤ timestamp →
        (setFrame other).offset ≤ (setFrame ms).offset := by
    intro front ms rest hparts hlate other hother hearly
    rw [hparts] at hrising hother
    rcases mem_append.mp hother with hother | hother
    · exact ((pairwise_append.mp hrising).2.2 other hother ms mem_cons_self).le
    · rcases mem_cons.mp hother with rfl | hother
      · exact le_rfl
      · have hlt := hlate other hother
        omega
  constructor
  · rintro ⟨ms, hms, hearly, hoffset, hgreatest⟩ front other rest hparts hother hlate
    rw [← hhead hparts hother hlate]
    have hle := hlast hparts hlate ms hms hearly
    have hge := hgreatest other (by rw [hparts]; simp) hother
    omega
  · intro hnogap
    obtain ⟨low, high, hparts, hlow, hhigh⟩ := @SortSearch.exists_split _
      s.frames (fun ms => decide (timestamp < (setFrame ms).timestamp)) (by
        refine htimed.chronological.imp ?_
        intro a b hab
        simp only [decide_eq_true_eq]
        omega)
    have hne : low ≠ [] := by
      rintro rfl
      have hlt := hhigh first (by
        rw [← nil_append high, ← hparts, hframes]
        exact mem_cons_self)
      rw [decide_eq_true_eq] at hlt
      omega
    obtain ⟨front, ms, rfl⟩ := (eq_nil_or_concat' low).resolve_left hne
    rw [append_assoc, singleton_append] at hparts
    have hearly : (setFrame ms).timestamp ≤ timestamp := by
      have hnot := hlow ms (by simp)
      rw [decide_eq_false_iff_not] at hnot
      omega
    have hlate : ∀ other ∈ high, timestamp < (setFrame other).timestamp := by
      intro other hother
      simpa using hhigh other hother
    have hnext := hnogap front ms high hparts hearly hlate
    rw [← hhead hparts hearly hlate] at hnext
    refine ⟨ms, by rw [hparts]; simp, hearly, by omega, ?_⟩
    intro other hother hle
    have hbound := hlast hparts hlate other hother hle
    omega

end Latest

/-! ## A gap -/

def gapFrames : List Bytes := [timedFrame 0 10, timedFrame 5 20]

end CommitLog
