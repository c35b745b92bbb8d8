import CommitLog.LogOps

/-!
# Appending to a log

An append first rolls a full active segment.  `Append` takes its offsets from
the end of the log; every other way in frames its own records, and these are
checked against the end of the log before anything is written.
-/

namespace CommitLog

open LogView

structure RollLimits where
  maxSegmentBytes : ℕ
  /-- Zero turns rolling by age off. -/
  maxSegmentAge : ℤ
  maxSegmentBytes_pos : 0 < maxSegmentBytes

def maxSegmentBlocks : ℕ := 16 * 1024

namespace Segment

/-- The blocks of the table as far as it is loaded. -/
def blockCount (seg : Segment) : ℕ :=
  match seg.layout with
  | .raw _ => 0
  | .blocks bs => if seg.blocksPending then 0 else bs.length

/-- `CheckSplit`. -/
def checkSplit (limits : RollLimits) (now : ℤ) (seg : Segment) : Bool :=
  decide (limits.maxSegmentBytes ≤ seg.position) ||
    decide (maxSegmentBlocks ≤ seg.blockCount) ||
    (decide (limits.maxSegmentAge ≠ 0) && decide (seg.firstWriteTime ≠ 0) &&
      decide (limits.maxSegmentAge ≤ now - seg.firstWriteTime))

end Segment

inductive AppendError
  | messageSetRefused
  | readOnlySegment
deriving DecidableEq, Repr

/-- `checkAppendedSet` on the frames of a set that is tiled by them. -/
def checkAppendedSet (tail : ℤ) (frames : List Frame) : Bool :=
  match frames with
  | [] => false
  | first :: _ => decide (tail < first.offset) &&
      decide (frames.Pairwise fun a b => a.offset < b.offset)

/-- The frames `Append` makes of messages. -/
def messageFrames (next timestamp : ℤ) (leaderEpoch : ℕ) : List Message → List Frame
  | [] => []
  | message :: messages =>
    Frame.ofMessage next timestamp leaderEpoch message ::
      messageFrames (next + 1) timestamp leaderEpoch messages

namespace LogView

/-- `NewestOffset`. -/
def newestOffset (log : LogView) : ℤ := log.active.nextOffset - 1

/-- `checkAndPerformSplit`. -/
def checkAndPerformSplit (limits : RollLimits) (now : ℤ)
    (encodesBlocks : Bool) (log : LogView) : LogView :=
  if log.active.checkSplit limits now then log.roll encodesBlocks else log

/-- The write of an append.  The bytes of an offloaded segment cannot be
written. -/
def writeActive (log : LogView) (frames : List Frame) :
    Except AppendError LogView :=
  if frames = [] then .error .messageSetRefused
  else if log.active.isOffloaded then .error .readOnlySegment
  else .ok (log.append (Block.ofFrames frames))

/-- `AppendMessageSet`. -/
def appendMessageSet (limits : RollLimits) (now : ℤ) (encodesBlocks : Bool)
    (log : LogView) (frames : List Frame) : Except AppendError LogView :=
  let log := log.checkAndPerformSplit limits now encodesBlocks
  if checkAppendedSet log.newestOffset frames then log.writeActive frames
  else .error .messageSetRefused

/-- `Append`. -/
def appendMessages (limits : RollLimits) (now : ℤ) (encodesBlocks : Bool)
    (leaderEpoch : ℕ) (log : LogView) (messages : List Message) :
    Except AppendError LogView :=
  let log := log.checkAndPerformSplit limits now encodesBlocks
  log.writeActive (messageFrames log.active.nextOffset now leaderEpoch messages)

end LogView

/-! ## What the checks let through -/

theorem checkAppendedSet_iff {tail : ℤ} {frames : List Frame} :
    checkAppendedSet tail frames = true ↔
      frames ≠ [] ∧ (frames.Pairwise fun a b => a.offset < b.offset) ∧
        ∀ frame ∈ frames, tail < frame.offset := by
  cases frames with
  | nil => simp [checkAppendedSet]
  | cons first rest =>
    simp only [checkAppendedSet, Bool.and_eq_true, decide_eq_true_eq]
    constructor
    · rintro ⟨hfirst, hordered⟩
      refine ⟨by simp, hordered, ?_⟩
      intro frame hmem
      rcases List.mem_cons.mp hmem with rfl | hmem
      · exact hfirst
      · exact hfirst.trans ((List.pairwise_cons.mp hordered).1 frame hmem)
    · rintro ⟨_, hordered, habove⟩
      exact ⟨habove first List.mem_cons_self, hordered⟩

theorem messageFrames_ne_nil {next timestamp : ℤ} {leaderEpoch : ℕ} {messages : List Message}
    (hne : messages ≠ []) : messageFrames next timestamp leaderEpoch messages ≠ [] := by
  cases messages with
  | nil => exact absurd rfl hne
  | cons message messages => simp [messageFrames]

/-! ## Rolling and writing -/

section Writing

variable {limits : RollLimits} {now : ℤ} {encodesBlocks : Bool} {leaderEpoch : ℕ} {log : LogView}

@[simp] theorem Segment.nextOffset_fresh (base : ℤ) (encodesBlocks : Bool) :
    (Segment.fresh base encodesBlocks).nextOffset = base := by
  unfold Segment.nextOffset
  rw [Segment.frames_fresh]
  rfl

@[simp] theorem LogView.recordsOf_roll (log : LogView) (encodesBlocks : Bool) :
    recordsOf (log.roll encodesBlocks).segments = recordsOf log.segments := by
  simp [roll, segments]

@[simp] theorem LogView.recordsOf_append (log : LogView) (block : Block) :
    recordsOf (log.append block).segments = recordsOf log.segments ++ block.frames := by
  simp [append, segments]

theorem LogView.checkAndPerformSplit_keeps :
    recordsOf (log.checkAndPerformSplit limits now encodesBlocks).segments =
        recordsOf log.segments ∧
      (log.checkAndPerformSplit limits now encodesBlocks).active.nextOffset =
        log.active.nextOffset := by
  unfold checkAndPerformSplit
  split_ifs
  · exact ⟨recordsOf_roll log encodesBlocks, Segment.nextOffset_fresh _ _⟩
  · exact ⟨rfl, rfl⟩

def LogView.Writable (limits : RollLimits) (now : ℤ) (log : LogView) : Prop :=
  log.active.isOffloaded = true → log.active.checkSplit limits now = true

theorem LogView.isOffloaded_split :
    (log.checkAndPerformSplit limits now encodesBlocks).active.isOffloaded =
        false ↔ log.Writable limits now := by
  unfold checkAndPerformSplit Writable
  split_ifs with hsplit
  · simp [roll, Segment.fresh, Segment.isOffloaded, hsplit]
  · rw [Bool.eq_false_iff]
    exact ⟨fun hlocal hoffloaded => absurd hoffloaded hlocal,
      fun hwritable hoffloaded => hsplit (hwritable hoffloaded)⟩

theorem LogView.writeActive_split {frames : List Frame} (hne : frames ≠ []) :
    (∃ log', (log.checkAndPerformSplit limits now encodesBlocks).writeActive frames = .ok log' ∧
      recordsOf log'.segments = recordsOf log.segments ++ frames) ↔
      log.Writable limits now := by
  rw [← isOffloaded_split]
  unfold writeActive
  rw [if_neg hne]
  constructor
  · rintro ⟨log', hok, _⟩
    split_ifs at hok with hoffloaded
    exact Bool.eq_false_iff.mpr hoffloaded
  · intro hlocal
    rw [if_neg (by rw [hlocal]; exact Bool.false_ne_true)]
    refine ⟨_, rfl, ?_⟩
    rw [recordsOf_append, checkAndPerformSplit_keeps.1]
    rfl

theorem LogView.appendMessageSet_iff {frames : List Frame} (hne : frames ≠ [])
    (hordered : frames.Pairwise fun a b => a.offset < b.offset)
    (habove : ∀ frame ∈ frames, log.newestOffset < frame.offset) :
    (∃ log', log.appendMessageSet limits now encodesBlocks frames = .ok log' ∧
      recordsOf log'.segments = recordsOf log.segments ++ frames) ↔
      log.Writable limits now := by
  have hnewest : (log.checkAndPerformSplit limits now
      encodesBlocks).newestOffset = log.newestOffset := by
    unfold newestOffset
    rw [checkAndPerformSplit_keeps.2]
  unfold appendMessageSet
  simp only [hnewest]
  rw [if_pos (checkAppendedSet_iff.mpr ⟨hne, hordered, habove⟩)]
  exact writeActive_split hne

theorem LogView.appendMessages_iff {messages : List Message} (hne : messages ≠ []) :
    (∃ log', log.appendMessages limits now encodesBlocks leaderEpoch messages = .ok log' ∧
      recordsOf log'.segments = recordsOf log.segments ++
        messageFrames log.active.nextOffset now leaderEpoch messages) ↔
      log.Writable limits now := by
  unfold appendMessages
  simp only [checkAndPerformSplit_keeps.2]
  exact writeActive_split (messageFrames_ne_nil hne)

end Writing

end CommitLog
