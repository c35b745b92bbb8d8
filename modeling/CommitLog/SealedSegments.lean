import CommitLog.TruncateBeforeRun
import Mathlib.Data.List.TakeWhile

/-!
# The sealed flag

A segment is sealed when a roll puts another one behind it and when it is
closed.  Nothing else sets the flag and nothing clears it: a rewrite that is
installed was closed on the way, a segment that is opened was not.  An upload
asks for the flag, and a reader that has drained a segment waits only on one
that is not sealed.
-/

namespace CommitLog

open List

variable {s : FlagLog} {seg : Segment}

open Runs

structure FlaggedSegment where
  segment : Segment
  isSealed : Bool

namespace FlaggedSegment

/-- `LastOffset`. -/
def lastOffset (seg : FlaggedSegment) : ℤ :=
  match seg.segment.frames.getLast? with
  | none => -1
  | some frame => frame.offset

/-- `waitForData` at a position: whether the reader is registered, rather than
handed a channel that is closed already. -/
def waitForData (limits : RollLimits) (seg : FlaggedSegment) (pos : ℕ) : Bool :=
  !(seg.isSealed || decide (pos < seg.segment.position) ||
    decide (limits.maxSegmentBytes ≤ seg.segment.position))

/-- `openSegment` and `openOffloadedSegment`. -/
def reopened (seg : FlaggedSegment) : FlaggedSegment where
  segment := { seg.segment with
    blocksPending := seg.segment.isOffloaded && seg.segment.layout.blockMode }
  isSealed := seg.segment.isOffloaded

/-- A rewrite of a segment: an offloaded one swaps its objects and stays the
segment it is, a local one is replaced by a working copy that was closed. -/
def rewritten (seg : FlaggedSegment) (cleaned : Segment) : FlaggedSegment where
  segment := cleaned
  isSealed := if seg.segment.isOffloaded then seg.isSealed else true

end FlaggedSegment

/-- A log with the flags of its segments, and the tier its segments move to
when they leave the disk. -/
structure FlagLog where
  limits : RollLimits
  encodesBlocks : Bool
  primary : String
  older : List FlaggedSegment
  active : FlaggedSegment

inductive FlagEvent
  | append (now : ℤ) (block : Block)
  | split (now : ℤ)
  | truncate (offset : ℤ)
  | truncateBefore (minOffset : ℤ)
  | remove (i : ℕ)
  | clean (i : ℕ) (cleaned : Segment)
  | consolidate (i : ℕ)
  | join (i count : ℕ)
  | offloadBefore (minOffset : ℤ)
  | reopen

inductive OffloadError
  | unsealed (baseOffset : ℤ)
deriving DecidableEq

/-- The loop of `OffloadBefore` over a store that does not fail: the segments,
how many were offloaded, and the error it stops with. -/
def offloadEach (primary : String) (minOffset : ℤ) :
    List FlaggedSegment → List FlaggedSegment × ℕ × Option OffloadError
  | [] => ([], 0, none)
  | seg :: rest =>
    if !seg.segment.isOffloaded && decide (0 ≤ seg.lastOffset) &&
        decide (seg.lastOffset < minOffset) &&
        !seg.segment.needsBlockConsolidation then
      if seg.isSealed then
        let later := offloadEach primary minOffset rest
        ({ seg with segment := { seg.segment with tier := some primary } } ::
            later.1, later.2.1 + 1, later.2.2)
      else (seg :: rest, 0, some (.unsealed seg.segment.baseOffset))
    else
      let later := offloadEach primary minOffset rest
      (seg :: later.1, later.2)

namespace FlagLog

def segments (s : FlagLog) : List FlaggedSegment := s.older ++ [s.active]

/-- `split`, and the seal of the segment it leaves behind. -/
def roll (s : FlagLog) : FlagLog :=
  { s with
    older := s.older ++ [{ s.active with isSealed := true }]
    active := ⟨Segment.fresh s.active.segment.nextOffset s.encodesBlocks, false⟩ }

def checkAndPerformSplit (s : FlagLog) (now : ℤ) : FlagLog :=
  if s.active.segment.checkSplit s.limits now then s.roll else s

def accepts (s : FlagLog) (block : Block) : Bool :=
  checkAppendedSet (s.active.segment.nextOffset - 1) block.frames && !s.active.segment.isOffloaded

def write (s : FlagLog) (block : Block) : FlagLog :=
  if s.accepts block then
    { s with active := { s.active with
        segment := s.active.segment.append block } }
  else s

/-- `Truncate`: the rewrite of the boundary was closed before it was
installed, and the last segment that is left is the active one. -/
def truncate (s : FlagLog) (offset : ℤ) : FlagLog :=
  let before := s.segments.takeWhile fun seg => seg.segment.endsBy offset
  match s.segments.dropWhile fun seg => seg.segment.endsBy offset with
  | [] => s
  | seg :: _ =>
    if seg.segment.baseOffset ≠ offset ∨ before.isEmpty then
      { s with
        older := before
        active := ⟨seg.segment.truncated offset, true⟩ }
    else
      match before.getLast? with
      | none => s
      | some last => { s with older := before.dropLast, active := last }

/-- `TruncateBefore`: the trim of the boundary is finalized and sealed. -/
def truncateBefore (s : FlagLog) (minOffset : ℤ) : FlagLog :=
  if minOffset ≤ 0 then s
  else
    match s.older.dropWhile fun seg => !seg.segment.reaches minOffset with
    | [] => { s with older := [] }
    | boundary :: later =>
      if boundary.segment.baseOffset < minOffset then
        match boundary.segment.trimmed minOffset with
        | none => { s with older := later }
        | some trim => { s with older := ⟨trim, true⟩ :: later }
      else { s with older := boundary :: later }

def rewrites (seg cleaned : Segment) : Bool :=
  decide (cleaned.baseOffset = seg.baseOffset) &&
    decide (cleaned.tier = seg.tier) &&
    cleaned.frames.all fun frame =>
      seg.frames.any fun old => decide (old.offset = frame.offset)

def clean (s : FlagLog) (i : ℕ) (cleaned : Segment) : FlagLog :=
  match s.older[i]? with
  | none => s
  | some seg =>
    if rewrites seg.segment cleaned then
      { s with older := s.older.set i (seg.rewritten cleaned) }
    else s

/-- `consolidateOne` replaces the segment, offloaded or not. -/
def consolidate (s : FlagLog) (i : ℕ) : FlagLog :=
  match s.older[i]? with
  | none => s
  | some seg =>
    { s with older := s.older.set i ⟨consolidateOne seg.segment, true⟩ }

/-- `joinOne` on the `count` segments from index `i` on. -/
def join (s : FlagLog) (i count : ℕ) : FlagLog :=
  match (s.older.drop i).take count with
  | first :: second :: rest =>
    { s with
      older := s.older.take i ++
        first.rewritten (LogView.joinedSegment first.segment
          ((second :: rest).map FlaggedSegment.segment)) :: (s.older.drop i).drop count }
  | _ => s

/-- `OffloadBefore` on a log that owns its primary tier. -/
def offloadBefore (s : FlagLog) (minOffset : ℤ) : FlagLog × ℕ × Option OffloadError :=
  if minOffset ≤ 0 then (s, 0, none)
  else
    let result := offloadEach s.primary minOffset s.older
    ({ s with older := result.1 }, result.2)

/-- A clean close and an open.  An offloaded segment at the end gets an empty
one behind it. -/
def reopen (s : FlagLog) : FlagLog :=
  let found := s.older.map FlaggedSegment.reopened
  if s.active.segment.isOffloaded then
    { s with
      older := found ++ [s.active.reopened]
      active := ⟨Segment.fresh s.active.segment.nextOffset s.encodesBlocks, false⟩ }
  else { s with older := found, active := s.active.reopened }

def step (s : FlagLog) : FlagEvent → FlagLog
  | .append now block => (s.checkAndPerformSplit now).write block
  | .split now => s.checkAndPerformSplit now
  | .truncate offset => s.truncate offset
  | .truncateBefore minOffset => s.truncateBefore minOffset
  | .remove i => { s with older := s.older.eraseIdx i }
  | .clean i cleaned => s.clean i cleaned
  | .consolidate i => s.consolidate i
  | .join i count => s.join i count
  | .offloadBefore minOffset => (s.offloadBefore minOffset).1
  | .reopen => s.reopen

def start (limits : RollLimits) (encodesBlocks : Bool) (primary : String) : FlagLog where
  limits := limits
  encodesBlocks := encodesBlocks
  primary := primary
  older := []
  active := ⟨Segment.fresh 0 encodesBlocks, false⟩

/-- Sealed means not active, an offload goes through, and a reader at the end
waits. -/
structure SealsRight (s : FlagLog) : Prop where
  older : ∀ seg ∈ s.older, seg.isSealed = true
  active : s.active.isSealed = false
  offloads : ∀ minOffset, (s.offloadBefore minOffset).2.2 = none ∧
    ∀ seg ∈ (s.offloadBefore minOffset).1.older, seg.segment.frames ≠ [] →
      seg.lastOffset < minOffset → seg.segment.needsBlockConsolidation = false →
          seg.segment.isOffloaded = true
  parks : s.active.waitForData s.limits s.active.segment.position = true

/-- A truncation finds nothing to do, an open finds local bytes in the active
segment only, and an append does not fill the active segment. -/
def KeepsFlags (s : FlagLog) : FlagEvent → Prop
  | .append now block =>
    (s.checkAndPerformSplit now).accepts block = true →
      (s.checkAndPerformSplit now).active.segment.position +
        framingLen block.frames < s.limits.maxSegmentBytes
  | .truncate offset =>
    ∀ seg ∈ s.segments, seg.segment.nextOffset ≤ offset
  | .reopen => ∀ seg ∈ s.older, seg.segment.isOffloaded = true
  | _ => True

end FlagLog

/-! ## Offsets -/

structure Segment.Nonneg (seg : Segment) : Prop where
  base : 0 ≤ seg.baseOffset
  frames : ∀ frame ∈ seg.frames, 0 ≤ frame.offset

namespace Segment.Nonneg

theorem nextOffset (hseg : seg.Nonneg) : 0 ≤ seg.nextOffset := by
  unfold Segment.nextOffset
  cases hlast : seg.frames.getLast? with
  | none => exact hseg.base
  | some frame =>
    have hframe := hseg.frames frame (mem_of_getLast? hlast)
    simp only
    omega

theorem fresh {base : ℤ} (hbase : 0 ≤ base) (encodesBlocks : Bool) :
    (Segment.fresh base encodesBlocks).Nonneg := by
  constructor
  · exact hbase
  · simp

theorem lastOffset {seg : FlaggedSegment} (hseg : seg.segment.Nonneg)
    (hne : seg.segment.frames ≠ []) : 0 ≤ seg.lastOffset := by
  unfold FlaggedSegment.lastOffset
  cases hlast : seg.segment.frames.getLast? with
  | none => exact absurd (getLast?_eq_none_iff.mp hlast) hne
  | some frame => exact hseg.frames frame (mem_of_getLast? hlast)

theorem append (hseg : seg.Nonneg) {block : Block}
    (hset : checkAppendedSet (seg.nextOffset - 1) block.frames = true) :
    (seg.append block).Nonneg := by
  constructor
  · exact hseg.base
  · intro frame hframe
    rw [Segment.frames_append, mem_append] at hframe
    cases hframe with
    | inl hold => exact hseg.frames frame hold
    | inr hnew =>
      have habove := (checkAppendedSet_iff.mp hset).2.2 frame hnew
      have hnext := hseg.nextOffset
      omega

theorem trimmed {trim : Segment} (hseg : seg.Nonneg) {minOffset : ℤ}
    (htrim : seg.trimmed minOffset = some trim) : trim.Nonneg := by
  unfold Segment.trimmed at htrim
  split at htrim
  · cases htrim
  · rename_i first rest hfilter
    rw [← Option.some.inj htrim]
    have hkept : ∀ frame ∈ first :: rest, 0 ≤ frame.offset := by
      intro frame hframe
      rw [← hfilter] at hframe
      exact hseg.frames frame (mem_filter.mp hframe).1
    constructor
    · rw [Segment.baseOffset_writeEach]
      exact hkept first mem_cons_self
    · rw [Segment.frames_writeEach]
      exact hkept

theorem rewrites {cleaned : Segment} (hseg : seg.Nonneg)
    (hrewrites : FlagLog.rewrites seg cleaned = true) : cleaned.Nonneg := by
  simp only [FlagLog.rewrites, Bool.and_eq_true, decide_eq_true_eq,
    all_eq_true, any_eq_true] at hrewrites
  constructor
  · rw [hrewrites.1.1]
    exact hseg.base
  · intro frame hframe
    obtain ⟨old, hold, heq⟩ := hrewrites.2 frame hframe
    rw [← heq]
    exact hseg.frames old hold

theorem joined {first : Segment} {others : List Segment}
    (hsegs : ∀ seg ∈ first :: others, seg.Nonneg) :
    (LogView.joinedSegment first others).Nonneg := by
  constructor
  · exact (hsegs first mem_cons_self).base
  · intro frame hframe
    have hrecord : frame ∈ recordsOf (first :: others) := by
      simpa [LogView.joinedSegment, Segment.frames] using hframe
    obtain ⟨seg, hseg, hin⟩ := mem_flatMap.mp hrecord
    exact (hsegs seg hseg).frames frame hin

end Segment.Nonneg

/-! ## Flags along a run -/

namespace FlagLog

/-- What a run that keeps the flags keeps. -/
structure Ok (s : FlagLog) : Prop where
  older : ∀ seg ∈ s.older, seg.isSealed = true ∧ seg.segment.Nonneg
  active : s.active.isSealed = false
  nonneg : s.active.segment.Nonneg
  resident : s.active.segment.isOffloaded = false
  room : s.active.segment.position < s.limits.maxSegmentBytes

theorem Ok.start (limits : RollLimits) (encodesBlocks : Bool)
    (primary : String) : (start limits encodesBlocks primary).Ok := by
  constructor
  · intro seg hseg
    cases hseg
  · rfl
  · exact .fresh le_rfl encodesBlocks
  · rfl
  · simpa [FlagLog.start, Segment.position] using limits.maxSegmentBytes_pos

theorem Ok.relist (hok : s.Ok) {older : List FlaggedSegment}
    (holder : ∀ seg ∈ older, seg.isSealed = true ∧ seg.segment.Nonneg) :
    Ok { s with older := older } :=
  ⟨holder, hok.active, hok.nonneg, hok.resident, hok.room⟩

theorem Ok.split (hok : s.Ok) (now : ℤ) : (s.checkAndPerformSplit now).Ok := by
  unfold checkAndPerformSplit
  split
  · constructor
    · intro seg hseg
      cases mem_append.mp hseg with
      | inl hold => exact hok.older seg hold
      | inr hnew =>
        rw [mem_singleton.mp hnew]
        exact ⟨rfl, hok.nonneg⟩
    · rfl
    · exact .fresh hok.nonneg.nextOffset s.encodesBlocks
    · rfl
    · simpa [roll, Segment.position] using s.limits.maxSegmentBytes_pos
  · exact hok

@[simp] theorem limits_checkAndPerformSplit (s : FlagLog) (now : ℤ) :
    (s.checkAndPerformSplit now).limits = s.limits := by
  unfold checkAndPerformSplit
  split <;> rfl

theorem Ok.write (hok : s.Ok) {block : Block}
    (hroom : s.accepts block = true → s.active.segment.position +
      framingLen block.frames < s.limits.maxSegmentBytes) :
    (s.write block).Ok := by
  unfold FlagLog.write
  split
  · rename_i haccepts
    have hset : checkAppendedSet (s.active.segment.nextOffset - 1) block.frames = true := by
      simp only [accepts, Bool.and_eq_true] at haccepts
      exact haccepts.1
    constructor
    · exact hok.older
    · exact hok.active
    · exact hok.nonneg.append hset
    · exact hok.resident
    · have hlt := hroom haccepts
      simpa [Segment.position] using hlt
  · exact hok

theorem Ok.truncateBefore (hok : s.Ok) (minOffset : ℤ) : (s.truncateBefore minOffset).Ok := by
  unfold FlagLog.truncateBefore
  split
  · exact hok
  · split
    · apply hok.relist
      intro seg hseg
      cases hseg
    · rename_i boundary later hdrop
      have hkept : ∀ seg ∈ boundary :: later, seg.isSealed = true ∧ seg.segment.Nonneg := by
        intro seg hseg
        rw [← hdrop] at hseg
        exact hok.older seg ((dropWhile_suffix _).subset hseg)
      have hlater : ∀ seg ∈ later, seg.isSealed = true ∧ seg.segment.Nonneg :=
        fun seg hseg => hkept seg (mem_cons_of_mem _ hseg)
      split
      · split
        · exact hok.relist hlater
        · rename_i trim htrim
          apply hok.relist
          intro seg hseg
          cases mem_cons.mp hseg with
          | inl heq =>
            rw [heq]
            exact ⟨rfl, (hkept boundary mem_cons_self).2.trimmed htrim⟩
          | inr hin => exact hlater seg hin
      · exact hok.relist hkept

theorem Ok.set (hok : s.Ok) (i : ℕ) {seg : FlaggedSegment} (hsealed : seg.isSealed = true)
    (hnonneg : seg.segment.Nonneg) : Ok { s with older := s.older.set i seg } := by
  apply hok.relist
  intro other hother
  cases mem_or_eq_of_mem_set hother with
  | inl hold => exact hok.older other hold
  | inr heq =>
    rw [heq]
    exact ⟨hsealed, hnonneg⟩

theorem isSealed_rewritten {seg : FlaggedSegment} (hsealed : seg.isSealed = true)
    (cleaned : Segment) : (seg.rewritten cleaned).isSealed = true := by
  unfold FlaggedSegment.rewritten
  simp only [hsealed, ite_self]

theorem Ok.clean (hok : s.Ok) (i : ℕ) (cleaned : Segment) : (s.clean i cleaned).Ok := by
  unfold FlagLog.clean
  split
  · exact hok
  · rename_i seg hseg
    obtain ⟨hsealed, hnonneg⟩ := hok.older seg (mem_of_getElem? hseg)
    split
    · rename_i hrewrites
      exact hok.set i (isSealed_rewritten hsealed cleaned) (hnonneg.rewrites hrewrites)
    · exact hok

theorem Ok.consolidate (hok : s.Ok) (i : ℕ) : (s.consolidate i).Ok := by
  unfold FlagLog.consolidate
  split
  · exact hok
  · rename_i seg hseg
    have hnonneg := (hok.older seg (mem_of_getElem? hseg)).2
    apply hok.set i rfl
    constructor
    · rw [consolidateOne_baseOffset]
      exact hnonneg.base
    · rw [consolidateOne_frames]
      exact hnonneg.frames

theorem Ok.join {s : FlagLog} (hok : s.Ok) (i count : ℕ) : (s.join i count).Ok := by
  unfold FlagLog.join
  split
  · rename_i first second rest htake
    have hrun : ∀ seg ∈ first :: second :: rest, seg.isSealed = true ∧ seg.segment.Nonneg := by
      intro seg hseg
      rw [← htake] at hseg
      exact hok.older seg (mem_of_mem_drop (mem_of_mem_take hseg))
    apply hok.relist
    intro seg hseg
    cases mem_append.mp hseg with
    | inl hin => exact hok.older seg (mem_of_mem_take hin)
    | inr hin =>
      cases mem_cons.mp hin with
      | inl heq =>
        rw [heq]
        constructor
        · exact isSealed_rewritten (hrun first mem_cons_self).1 _
        · apply Segment.Nonneg.joined
          intro other hother
          rw [← map_cons] at hother
          obtain ⟨flagged, hflagged, rfl⟩ := mem_map.mp hother
          exact (hrun flagged hflagged).2
      | inr hin =>
        exact hok.older seg (mem_of_mem_drop (mem_of_mem_drop hin))
  · exact hok

/-! ## Offloads -/

theorem offloadEach_sealed {primary : String} {minOffset : ℤ} {segs : List FlaggedSegment}
    (hsegs : ∀ seg ∈ segs, seg.isSealed = true ∧ seg.segment.Nonneg) :
    (offloadEach primary minOffset segs).2.2 = none ∧
      ∀ seg ∈ (offloadEach primary minOffset segs).1, (seg.isSealed = true ∧ seg.segment.Nonneg) ∧
          (seg.segment.frames ≠ [] → seg.lastOffset < minOffset →
            seg.segment.needsBlockConsolidation = false → seg.segment.isOffloaded = true) := by
  induction segs with
  | nil =>
    refine ⟨rfl, ?_⟩
    intro seg hseg
    cases hseg
  | cons seg rest ih =>
    obtain ⟨hsealed, hnonneg⟩ := hsegs seg mem_cons_self
    obtain ⟨herror, hlater⟩ := ih fun other hother =>
      hsegs other (mem_cons_of_mem _ hother)
    unfold offloadEach
    split
    · refine ⟨herror, ?_⟩
      intro other hother
      cases mem_cons.mp hother with
      | inl heq =>
        rw [heq]
        exact ⟨⟨hsealed, hnonneg.base, hnonneg.frames⟩, fun _ _ _ => rfl⟩
      | inr hin => exact hlater other hin
    · rename_i hskipped
      refine ⟨herror, ?_⟩
      intro other hother
      cases mem_cons.mp hother with
      | inl heq =>
        rw [heq]
        refine ⟨⟨hsealed, hnonneg⟩, ?_⟩
        intro hne hbelow hconsolidated
        by_contra hresident
        have hlast := hnonneg.lastOffset hne
        simp [hlast, hbelow, hconsolidated, hresident] at hskipped
      | inr hin => exact hlater other hin

theorem Ok.offloadBefore (hok : s.Ok) (minOffset : ℤ) :
    (s.offloadBefore minOffset).1.Ok ∧ (s.offloadBefore minOffset).2.2 = none ∧
      ∀ seg ∈ (s.offloadBefore minOffset).1.older,
        seg.segment.frames ≠ [] → seg.lastOffset < minOffset →
          seg.segment.needsBlockConsolidation = false → seg.segment.isOffloaded = true := by
  unfold FlagLog.offloadBefore
  split
  · rename_i hnothing
    refine ⟨hok, rfl, ?_⟩
    intro seg hseg hne hbelow
    have hlast := (hok.older seg hseg).2.lastOffset hne
    omega
  · have hloop := @offloadEach_sealed s.primary minOffset s.older hok.older
    exact ⟨hok.relist fun seg hseg => (hloop.2 seg hseg).1, hloop.1,
      fun seg hseg => (hloop.2 seg hseg).2⟩

theorem Ok.reopen (hok : s.Ok) (holder : ∀ seg ∈ s.older, seg.segment.isOffloaded = true) :
    s.reopen.Ok := by
  unfold FlagLog.reopen
  rw [if_neg (by simp [hok.resident])]
  constructor
  · intro seg hseg
    obtain ⟨old, hold, rfl⟩ := mem_map.mp hseg
    have hnonneg := (hok.older old hold).2
    exact ⟨holder old hold, hnonneg.base, hnonneg.frames⟩
  · exact hok.resident
  · exact ⟨hok.nonneg.base, hok.nonneg.frames⟩
  · exact hok.resident
  · exact hok.room

theorem truncate_nothing {offset : ℤ}
    (hends : ∀ seg ∈ s.segments, seg.segment.nextOffset ≤ offset) :
    s.truncate offset = s := by
  have hdrop : s.segments.dropWhile (fun seg => seg.segment.endsBy offset) = [] := by
    apply dropWhile_eq_nil_iff.mpr
    intro seg hseg
    simpa [Segment.endsBy] using hends seg hseg
  unfold FlagLog.truncate
  rw [hdrop]

theorem Ok.step {event : FlagEvent} (hok : s.Ok)
    (hkeeps : s.KeepsFlags event) : (s.step event).Ok := by
  cases event with
  | append now block =>
    apply (hok.split now).write
    rw [limits_checkAndPerformSplit]
    exact hkeeps
  | split now => exact hok.split now
  | truncate offset =>
    change (s.truncate offset).Ok
    rw [truncate_nothing hkeeps]
    exact hok
  | truncateBefore minOffset => exact hok.truncateBefore minOffset
  | remove i =>
    apply hok.relist
    intro seg hseg
    exact hok.older seg (mem_of_mem_eraseIdx hseg)
  | clean i cleaned => exact hok.clean i cleaned
  | consolidate i => exact hok.consolidate i
  | join i count => exact hok.join i count
  | offloadBefore minOffset => exact (hok.offloadBefore minOffset).1
  | reopen => exact hok.reopen hkeeps

theorem Ok.sealsRight (hok : s.Ok) : s.SealsRight := by
  constructor
  · exact fun seg hseg => (hok.older seg hseg).1
  · exact hok.active
  · exact fun minOffset => (hok.offloadBefore minOffset).2
  · have hroom := hok.room
    simp only [FlaggedSegment.waitForData, hok.active, lt_irrefl]
    simpa using hroom

def twoLocal : FlagLog where
  limits := smallLimits
  encodesBlocks := false
  primary := "tier"
  older := [⟨rawSegment 0 [0] none, true⟩]
  active := ⟨rawSegment 1 [1] none, false⟩

end FlagLog

end CommitLog
