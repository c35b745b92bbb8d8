import CommitLog.CrashDisks
import CommitLog.MessageSets

/-!
# Offsets over the life of a log

A process takes the next offset from the last offset it holds for the active
segment.  Writes keep that number; a reopen reads it back from an index whose
entries are 32 bits wide.  As long as the entries fit and the offsets stay
below the largest 64-bit integer, no operation gives an offset twice.
-/

namespace CommitLog

open LogView OpenSegment Runs Segment
open List hiding set

/-! ## The live log -/

/-- A log with the last offset held for its active segment, `-1` if nothing
was written to it. -/
structure LiveLog where
  view : LogView
  lastOffset : ℤ

/-- What an append depends on besides its input. -/
structure AppendEnv where
  limits : RollLimits
  now : ℤ
  encodesBlocks : Bool
  formatV3 : Bool
  lastLeaderEpoch : ℕ
  reader : PayloadReader

/-- The calls that append, with the blocks they are handed as far as these
decode. -/
inductive AppendInput
  | append (messages : List StampedMessage)
  | appendBatch (batch : BatchMeta) (messages : List StampedMessage)
  | appendMessageSet (set : Bytes)
  | appendBlock (decoded : Option (Bytes × ℕ))
  | appendBlockV3 (decoded : Option V3Block)
  | appendPreframed (decoded : Option V3Block)

/-- An append that was not refused before the lock. -/
inductive Prepared
  | messages (messages : List StampedMessage)
  | set (logical : Bytes) (records : Option ℕ)
  | batch (batch : BatchMeta) (messages : List StampedMessage)
  | stored (block : V3Block)
  | preframed (block : V3Block)

/-- What is decided before the lock. -/
def AppendInput.prepare (env : AppendEnv) : AppendInput → Option Prepared
  | .append messages => some (.messages messages)
  | .appendBatch batch messages =>
    if !batchAllowed messages then none
    else if env.formatV3 then
      if batchUniform messages then some (.batch batch messages) else none
    else if batch.isZero then some (.messages messages)
    else some (.messages (messages.zipIdx.map fun m =>
      { m.1 with message := batch.stamp m.2 m.1.message }))
  | .appendMessageSet set => some (.set set none)
  | .appendBlock decoded =>
    decoded.map fun block => .set block.1 (some block.2)
  | .appendBlockV3 decoded =>
    (decoded.filter V3Block.appendable).map Prepared.stored
  | .appendPreframed decoded =>
    if env.formatV3 then
      (decoded.filter V3Block.appendable).map Prepared.preframed
    else none

/-- The block that is written behind the offset `next - 1`; none if the append
is refused. -/
def Prepared.block (env : AppendEnv) (next : ℤ) : Prepared → Option Block
  | .messages msgs =>
    if msgs ≠ [] ∧ msgs.all fun m => m.message.encodable then
      some (Block.ofFrames (newMessageSet next env.now 0 msgs))
    else none
  | .set logical records =>
    if checkAppendedEntries (wrapInt64 (next - 1)) (entriesForMessageSet logical) logical.length &&
        records.all fun n =>
          decide ((entriesForMessageSet logical).length = n) then
      some (Block.ofFrames ((entriesForMessageSet logical).map (SetFrame.frame env.reader)))
    else none
  | .batch identity msgs =>
    (identity.block msgs next env.now).checked (wrapInt64 (next - 1))
  | .stored block => block.checked (wrapInt64 (next - 1))
  | .preframed block =>
    (block.rewrite next env.lastLeaderEpoch env.now).checked (wrapInt64 (next - 1))

namespace LiveLog

/-- `NextOffset` of the active segment. -/
def nextOffset (s : LiveLog) : ℤ :=
  if s.lastOffset = -1 then s.view.active.baseOffset
  else wrapInt64 (s.lastOffset + 1)

/-- `NewestOffset`. -/
def newestOffset (s : LiveLog) : ℤ := wrapInt64 (s.nextOffset - 1)

/-- `checkAndPerformSplit`. -/
def checkAndPerformSplit (env : AppendEnv) (s : LiveLog) : LiveLog :=
  if s.view.active.checkSplit env.limits env.now then
    ⟨⟨s.view.sealedSegs ++ [s.view.active],
      fresh (wrapInt64 (s.newestOffset + 1)) env.encodesBlocks,
      s.view.keys⟩, -1⟩
  else s

def write (s : LiveLog) (block : Block) : LiveLog :=
  ⟨s.view.append block, lastOffsetOf block.frames⟩

/-- An append, with the block it wrote.  The roll stays when the append is
refused behind it. -/
def append (env : AppendEnv) (s : LiveLog) (input : AppendInput) : LiveLog × Option Block :=
  match input.prepare env with
  | none => (s, none)
  | some prepared =>
    let s := s.checkAndPerformSplit env
    match prepared.block env s.nextOffset with
    | none => (s, none)
    | some block =>
      if s.view.active.isOffloaded then (s, none)
      else (s.write block, some block)

/-- The log after an operation on its segments.  A segment that becomes the
active one comes with its own last offset. -/
def withView (s : LiveLog) (view : LogView) : LiveLog :=
  ⟨view, if view.active = s.view.active then s.lastOffset
    else lastOffsetOf view.active.frames⟩

def reopened (s : LiveLog) (opts : OpenOptions) (pending : ℤ → Bool)
    (opened : List OpenedSegment) : LiveLog :=
  ⟨({ openedView opened with keys := s.view.keys } : LogView).reopen opts.encodesBlocks pending,
    (opened.getLast?.map fun o => o.seg.lastOffset).getD (-1)⟩

end LiveLog

/-! ## The steps -/

inductive LiveOp
  | append (env : AppendEnv) (input : AppendInput)
  | split (env : AppendEnv)
  | pass (spec : CleanSpec) (env : PassEnv)
  | consolidate (chosen : ℤ → Bool)
  | join (i count : ℕ) (refreshFails : Bool)
  | retire (kept : List Segment)
  | offload (tierOf : ℤ → Option String)
  | truncate (offset : ℤ)
  | truncateBefore (minOffset : ℤ)
  | reopen (opts : OpenOptions) (notes : DiskNotes) (hw : ℤ) (pending : ℤ → Bool)

/-- One operation on a live log.  `Clean` is made of passes, consolidations,
joins and the deletion of sealed segments. -/
def LiveStep (s : LiveLog) (op : LiveOp) (s' : LiveLog) : Prop :=
  match op with
  | .append env input => s' = (s.append env input).1
  | .split env => s' = s.checkAndPerformSplit env
  | .pass spec env =>
    ∃ result, compactSpec spec env s.view = .ok result ∧ s' = s.withView result.log
  | .consolidate chosen => s' = s.withView (s.view.consolidate chosen)
  | .join i count refreshFails =>
    s' = s.withView (s.view.join i count refreshFails)
  | .retire kept =>
    kept.Sublist s.view.sealedSegs ∧ s' = s.withView { s.view with sealedSegs := kept }
  | .offload tierOf => s' = s.withView (s.view.offload tierOf)
  | .truncate offset => s' = s.withView (s.view.truncate offset)
  | .truncateBefore minOffset =>
    s' = s.withView (s.view.truncateBefore minOffset)
  | .reopen opts notes hw pending =>
    ∃ opened, openLog opts hw (s.view.segments.map (store opts notes)) = .ok opened ∧
      s' = s.reopened opts pending opened

/-! ## The property and its condition -/

/-- Offsets rise within a segment from its base on and end below the base of
every later one, and the newest offset is at or above all of them. -/
structure OffsetsRight (s : LiveLog) : Prop where
  rising : ∀ seg ∈ s.view.segments, seg.frames.Pairwise fun a b => a.offset < b.offset
  base_le : ∀ seg ∈ s.view.segments, ∀ frame ∈ seg.frames, seg.baseOffset ≤ frame.offset
  apart : s.view.segments.Pairwise fun seg later =>
    ∀ frame ∈ seg.frames, frame.offset < later.baseOffset
  newest : ∀ frame ∈ recordsOf s.view.segments, frame.offset ≤ s.newestOffset

/-- An append that is accepted puts its records behind the ones that are
there, at offsets above all of theirs. -/
def AppendsAbove (s : LiveLog) (env : AppendEnv) (input : AppendInput) :
    Prop :=
  ∀ block, (s.append env input).2 = some block → recordsOf (s.append env input).1.view.segments =
        recordsOf s.view.segments ++ block.frames ∧
      ∀ old ∈ recordsOf s.view.segments, ∀ new ∈ block.frames, old.offset < new.offset

/-- The offsets of an append end below the largest 64-bit integer. -/
def Prepared.Fits (next : ℤ) : Prepared → Prop
  | .messages msgs => next + msgs.length ≤ maxInt64
  | .set logical _ =>
    ∀ entry ∈ entriesForMessageSet logical, entry.offset < maxInt64
  | .batch _ msgs => next + msgs.length ≤ maxInt64
  | .stored block => ∀ record ∈ block.records, wrapInt64 (block.baseOffset + record.1) < maxInt64
  | .preframed block => ∀ record ∈ block.records, wrapInt64 (next + record.1) < maxInt64

/-- An append stays within 64 bits, and a log is reopened only while the
entries of its segments fit the index. -/
def LiveSafe (s : LiveLog) (op : LiveOp) : Prop :=
  match op with
  | .append env input =>
    ∀ prepared, input.prepare env = some prepared → prepared.Fits s.nextOffset
  | .reopen opts _ _ _ => ∀ seg ∈ s.view.segments, seg.Indexable opts.enc
  | _ => True

structure LiveOk (s : LiveLog) : Prop where
  ordered : LogOrdered s.view.segments
  filled : ∀ seg ∈ s.view.sealedSegs, seg.frames ≠ []
  offloaded : s.view.active.isOffloaded = true → s.view.active.frames ≠ []
  idle : s.view.active.frames = [] → s.view.active.blockCount = 0
  last_eq : s.lastOffset = lastOffsetOf s.view.active.frames
  room : s.view.active.nextOffset ≤ maxInt64

/-! ## The end of the log -/

section Steps

variable {s s' : LiveLog} {env : AppendEnv}

theorem LiveOk.active_wellFormed (hok : LiveOk s) : s.view.active.WellFormed :=
  hok.ordered.wellFormed _ (by simp [segments])

theorem LiveOk.nextOffset_eq (hok : LiveOk s) : s.nextOffset = s.view.active.nextOffset := by
  have hwf := hok.active_wellFormed
  have hroom := hok.room
  unfold LiveLog.nextOffset
  rw [hok.last_eq]
  unfold lastOffsetOf Segment.nextOffset at *
  cases hlast : s.view.active.frames.getLast? with
  | none => rfl
  | some last =>
    have hnonneg := hwf.offset_nonneg (mem_of_getLast? hlast)
    simp only [hlast] at hroom
    simp only [Option.map_some, Option.getD_some]
    rw [if_neg (by omega), wrapInt64_eq_self (by unfold maxInt64; omega) hroom]

theorem LiveOk.next_nonneg (hok : LiveOk s) : 0 ≤ s.nextOffset := by
  rw [hok.nextOffset_eq]
  have hwf := hok.active_wellFormed
  exact hwf.base_nonneg.trans hwf.base_le_nextOffset

theorem LiveOk.newestOffset_eq (hok : LiveOk s) :
    wrapInt64 (s.nextOffset - 1) = s.nextOffset - 1 := by
  have hnonneg := hok.next_nonneg
  have hroom := hok.room
  rw [← hok.nextOffset_eq] at hroom
  exact wrapInt64_eq_self (by unfold maxInt64; omega) (by omega)

theorem LiveOk.lt_nextOffset (hok : LiveOk s) {frame : Frame}
    (hframe : frame ∈ recordsOf s.view.segments) : frame.offset < s.nextOffset := by
  rw [hok.nextOffset_eq]
  have hspaced := hok.ordered.spaced
  rcases mem_recordsOf.mp hframe with ⟨seg, hseg, hin⟩
  have hlast : s.view.segments.getLast? = some s.view.active := by
    simp [segments]
  have hend := hspaced.nextOffset_le_last hlast seg hseg
  have hlt := (hspaced.wellFormed seg hseg).offset_lt_nextOffset hin
  omega

theorem LiveOk.offsetsRight (hok : LiveOk s) : OffsetsRight s := by
  constructor
  · exact fun seg hseg => (hok.ordered.wellFormed seg hseg).ordered
  · exact fun seg hseg => (hok.ordered.wellFormed seg hseg).base_le
  · exact hok.ordered.increasing.imp fun hlt => hlt.2
  · intro frame hframe
    have hlt := hok.lt_nextOffset hframe
    unfold LiveLog.newestOffset
    rw [hok.newestOffset_eq]
    omega

/-! ## Appending -/

variable {block : Block}

theorem V3Block.checked_spec {tail : ℤ} {v3 : V3Block} (hchecked : v3.checked tail = some block) :
    checkAppendedSet tail block.frames = true ∧ ∀ frame ∈ block.frames, ∃ record ∈ v3.records,
        frame.offset = wrapInt64 (v3.baseOffset + record.1) := by
  unfold V3Block.checked at hchecked
  rcases Option.map_eq_some_iff.mp hchecked with ⟨frames, hfilter, rfl⟩
  rcases Option.filter_eq_some_iff.mp hfilter with ⟨hframing, hcheck⟩
  refine ⟨hcheck, ?_⟩
  unfold V3Block.framing at hframing
  split_ifs at hframing
  cases hframing
  intro frame hframe
  rcases mem_map.mp hframe with ⟨record, hrecord, rfl⟩
  exact ⟨record, hrecord, rfl⟩

/-- What an append writes: records that rise from the next offset on. -/
structure Behind (next : ℤ) (frames : List Frame) : Prop where
  nonempty : frames ≠ []
  rising : frames.Pairwise fun a b => a.offset < b.offset
  above : ∀ frame ∈ frames, next ≤ frame.offset
  below : ∀ frame ∈ frames, frame.offset < maxInt64

theorem Behind.of_check {next : ℤ} {frames : List Frame}
    (hcheck : checkAppendedSet (next - 1) frames = true)
    (hbelow : ∀ frame ∈ frames, frame.offset < maxInt64) : Behind next frames := by
  rcases checkAppendedSet_iff.mp hcheck with ⟨hne, hrising, habove⟩
  refine ⟨hne, hrising, ?_, hbelow⟩
  intro frame hframe
  have hlt := habove frame hframe
  omega

theorem Prepared.behind {next : ℤ} {prepared : Prepared} (hnonneg : 0 ≤ next)
    (htail : wrapInt64 (next - 1) = next - 1) (hfits : prepared.Fits next)
    (hblock : prepared.block env next = some block) : Behind next block.frames := by
  cases prepared with
  | messages msgs =>
    have hlength : next + msgs.length ≤ maxInt64 := hfits
    have hroom : next + (0 : ℕ) + msgs.length ≤ maxInt64 := by
      simpa using hlength
    simp only [Prepared.block] at hblock
    split_ifs at hblock with hallowed
    cases hblock
    have hoffset := @offset_of_mem_newMessageSet next env.now 0 msgs hnonneg hroom
    constructor
    · cases msgs with
      | nil => exact absurd rfl hallowed.1
      | cons m msgs => simp [Block.ofFrames, newMessageSet]
    · exact newMessageSet_rising hnonneg hroom
    · intro frame hframe
      simpa using (hoffset hframe).1
    · intro frame hframe
      have hlt := (hoffset hframe).2
      omega
  | set logical records =>
    simp only [Prepared.block] at hblock
    split_ifs at hblock with hcheck
    cases hblock
    rw [Bool.and_eq_true, htail] at hcheck
    apply Behind.of_check (checkAppendedEntries_rising env.reader hcheck.1)
    intro frame hframe
    rcases mem_map.mp hframe with ⟨entry, hentry, rfl⟩
    exact hfits entry hentry
  | batch identity msgs =>
    rw [Prepared.block, htail] at hblock
    rcases V3Block.checked_spec hblock with ⟨hcheck, horigin⟩
    apply Behind.of_check hcheck
    intro frame hframe
    rcases horigin frame hframe with ⟨record, hrecord, hoffset⟩
    rcases mem_map.mp hrecord with ⟨m, hm, rfl⟩
    have hindex := (mem_zipIdx hm).2.1
    have hroom : next + msgs.length ≤ maxInt64 := hfits
    simp only [BatchMeta.block] at hoffset
    rw [hoffset, wrapInt64_eq_self (by unfold maxInt64; omega) (by omega)]
    omega
  | stored v3 | preframed v3 =>
    rw [Prepared.block, htail] at hblock
    rcases V3Block.checked_spec hblock with ⟨hcheck, horigin⟩
    apply Behind.of_check hcheck
    intro frame hframe
    rcases horigin frame hframe with ⟨record, hrecord, hoffset⟩
    rw [hoffset]
    exact hfits record hrecord

theorem Segment.frames_of_checkSplit {limits : RollLimits} {now : ℤ}
    {seg : Segment} (hidle : seg.frames = [] → seg.blockCount = 0)
    (hsplit : seg.checkSplit limits now = true) : seg.frames ≠ [] := by
  intro hempty
  have hpos := limits.maxSegmentBytes_pos
  have hposition : seg.position = 0 := by
    rw [position, hempty]
    rfl
  have hfirst : seg.firstWriteTime = 0 := by
    rw [firstWriteTime, hempty]
    rfl
  unfold checkSplit at hsplit
  rw [hposition, hfirst, hidle hempty] at hsplit
  simp [maxSegmentBlocks] at hsplit
  omega

theorem LiveOk.split (hok : LiveOk s) : LiveOk (s.checkAndPerformSplit env) ∧
      recordsOf (s.checkAndPerformSplit env).view.segments = recordsOf s.view.segments ∧
      (s.checkAndPerformSplit env).nextOffset = s.nextOffset := by
  unfold LiveLog.checkAndPerformSplit
  split_ifs with hsplit
  · have hne := frames_of_checkSplit hok.idle hsplit
    have hwf := hok.active_wellFormed
    have hroom := hok.room
    have hend : wrapInt64 (s.newestOffset + 1) = s.view.active.nextOffset := by
      unfold LiveLog.newestOffset
      rw [hok.newestOffset_eq, sub_add_cancel, hok.nextOffset_eq]
      have hle := hwf.base_nonneg.trans hwf.base_le_nextOffset
      exact wrapInt64_eq_self (by unfold maxInt64; omega) hroom
    rw [hend]
    refine ⟨?_, recordsOf_roll s.view env.encodesBlocks, ?_⟩
    · constructor
      · exact roll_ordered hok.ordered hne env.encodesBlocks
      · intro seg hseg
        rcases mem_append.mp hseg with hseg | hseg
        · exact hok.filled seg hseg
        · rw [mem_singleton.mp hseg]
          exact hne
      · intro hoffloaded
        cases hoffloaded
      · intro _
        cases env.encodesBlocks <;> rfl
      · simp [lastOffsetOf]
      · simpa using hroom
    · rw [hok.nextOffset_eq]
      rfl
  · exact ⟨hok, rfl, rfl⟩

theorem LiveOk.write (hok : LiveOk s) {block : Block}
    (hbehind : Behind s.nextOffset block.frames) : LiveOk (s.write block) := by
  have hnext := hok.nextOffset_eq
  have hlast : (s.view.append block).active.frames.getLast? = block.frames.getLast? := by
    rw [LogView.append, frames_append, getLast?_append_of_ne_nil _ hbehind.nonempty]
  constructor
  · apply append_ordered hok.ordered
    refine ⟨hbehind.rising, ?_⟩
    rw [← hnext]
    exact hbehind.above
  · exact hok.filled
  · intro _ hempty
    have happend := frames_append s.view.active block
    rw [LiveLog.write, LogView.append] at hempty
    rw [hempty] at happend
    exact hbehind.nonempty (append_eq_nil_iff.mp happend.symm).2
  · intro hempty
    have happend := frames_append s.view.active block
    rw [LiveLog.write, LogView.append] at hempty
    rw [hempty] at happend
    exact absurd (append_eq_nil_iff.mp happend.symm).2 hbehind.nonempty
  · unfold LiveLog.write lastOffsetOf
    rw [hlast]
  · unfold LiveLog.write Segment.nextOffset
    rw [hlast]
    cases hend : block.frames.getLast? with
    | none =>
      exact absurd (getLast?_eq_none_iff.mp hend) hbehind.nonempty
    | some last =>
      have hlt := hbehind.below last (mem_of_getLast? hend)
      simp only
      omega

variable {input : AppendInput}

theorem LiveLog.append_refused (hnone : (s.append env input).2 = none) :
    (s.append env input).1 = s ∨ (s.append env input).1 = s.checkAndPerformSplit env := by
  unfold LiveLog.append at *
  cases hprepare : input.prepare env with
  | none => exact Or.inl rfl
  | some prepared =>
    right
    rw [hprepare] at hnone
    simp only at hnone ⊢
    cases hblock : prepared.block env (s.checkAndPerformSplit env).nextOffset with
    | none => rfl
    | some block =>
      rw [hblock] at hnone
      simp only at hnone ⊢
      split_ifs at hnone ⊢ with hoffloaded
      rfl

theorem LiveOk.append_behind (hok : LiveOk s) (hsafe : LiveSafe s (.append env input))
    (hsome : (s.append env input).2 = some block) :
    (s.append env input).1 = (s.checkAndPerformSplit env).write block ∧
      Behind s.nextOffset block.frames := by
  unfold LiveLog.append at *
  cases hprepare : input.prepare env with
  | none =>
    rw [hprepare] at hsome
    cases hsome
  | some prepared =>
    rcases @LiveOk.split s env hok with ⟨hsplit, -, hnext⟩
    have hfits := hsafe prepared hprepare
    rw [hprepare] at hsome
    simp only at hsome ⊢
    cases hblock : prepared.block env (s.checkAndPerformSplit env).nextOffset with
    | none =>
      rw [hblock] at hsome
      cases hsome
    | some written =>
      rw [hblock] at hsome
      simp only at hsome ⊢
      split_ifs at hsome ⊢ with hoffloaded
      cases hsome
      rw [← hnext] at hfits ⊢
      exact ⟨rfl, Prepared.behind hsplit.next_nonneg hsplit.newestOffset_eq hfits hblock⟩

theorem LiveOk.append (hok : LiveOk s) (hsafe : LiveSafe s (.append env input)) :
    LiveOk (s.append env input).1 ∧ AppendsAbove s env input := by
  rcases @LiveOk.split s env hok with ⟨hsplit, hrecords, hnext⟩
  unfold AppendsAbove
  cases hblock : (s.append env input).2 with
  | none =>
    refine ⟨?_, by simp⟩
    rcases LiveLog.append_refused hblock with hsame | hsame <;> rw [hsame]
    · exact hok
    · exact hsplit
  | some block =>
    rcases hok.append_behind hsafe hblock with ⟨hlog, hbehind⟩
    rw [hlog]
    refine ⟨hsplit.write (by rw [hnext]; exact hbehind), ?_⟩
    intro block' hblock'
    cases hblock'
    constructor
    · rw [LiveLog.write, LogView.recordsOf_append, hrecords]
    · intro old hold new hnew
      exact (hok.lt_nextOffset hold).trans_le (hbehind.above new hnew)

/-! ## Operations on the segments -/

theorem LiveOk.sealed (hok : LiveOk s) {view : LogView} (hordered : LogOrdered view.segments)
    (hfilled : ∀ seg ∈ view.sealedSegs, seg.frames ≠ [])
    (hactive : view.active = s.view.active) : LiveOk (s.withView view) := by
  unfold LiveLog.withView
  rw [if_pos hactive]
  constructor
  · exact hordered
  · exact hfilled
  · simpa only [hactive] using hok.offloaded
  · simpa only [hactive] using hok.idle
  · simpa only [hactive] using hok.last_eq
  · simpa only [hactive] using hok.room

theorem filled_map {segs : List Segment} {f : Segment → Segment}
    (hframes : ∀ seg, (f seg).frames = seg.frames) (hfilled : ∀ seg ∈ segs, seg.frames ≠ []) :
    ∀ seg ∈ segs.map f, seg.frames ≠ [] := by
  intro seg hseg
  rcases mem_map.mp hseg with ⟨source, hsource, rfl⟩
  rw [hframes]
  exact hfilled source hsource

theorem compactSpec_filled {spec : CleanSpec} {passEnv : PassEnv} {log : LogView}
    {result : PassResult} (hpass : compactSpec spec passEnv log = .ok result)
    (hfilled : ∀ seg ∈ log.sealedSegs, seg.frames ≠ []) :
    (∀ seg ∈ result.log.sealedSegs, seg.frames ≠ []) ∧ result.log.active = log.active := by
  unfold compactSpec at hpass
  split at hpass
  · cases hpass
    exact ⟨hfilled, rfl⟩
  · rcases compact_eq_ok hpass with ⟨merged, -, hlog, -⟩
    rw [hlog]
    refine ⟨?_, rfl⟩
    intro seg hseg
    rcases mem_flatMap.mp hseg with ⟨c, hc, hin⟩
    have hsource : c.seg.frames ≠ [] :=
      hfilled c.seg (mem_of_getElem? (mem_candidatesOf.mp hc).1)
    rcases mem_segmentAfter hc hin with
      ⟨-, rfl⟩ | ⟨cleaned, -, hclean, hsegment⟩
    · exact hsource
    · cases houtcome : cleaned.outcome with
      | emptied =>
        rw [houtcome] at hsegment
        cases hsegment
      | converged =>
        rw [houtcome] at hsegment
        cases hsegment
        exact hsource
      | replaced seg' =>
        rw [houtcome] at hsegment
        cases hsegment
        exact (cleanSegment_spec hclean).replaced seg houtcome

theorem LogView.join_filled {log : LogView} {i count : ℕ}
    {refreshFails : Bool} (hfilled : ∀ seg ∈ log.sealedSegs, seg.frames ≠ []) :
    (∀ seg ∈ (log.join i count refreshFails).sealedSegs, seg.frames ≠ []) ∧
      (log.join i count refreshFails).active = log.active := by
  unfold join
  split
  next first second rest hinputs =>
    refine ⟨?_, rfl⟩
    intro seg hseg
    have hfirst : first ∈ log.sealedSegs := by
      apply mem_of_mem_drop (i := i)
      apply mem_of_mem_take (i := count)
      rw [hinputs]
      exact mem_cons_self
    rcases mem_append.mp hseg with hseg | hseg
    · exact hfilled seg (mem_of_mem_take hseg)
    · rcases mem_cons.mp hseg with rfl | hseg
      · rw [frames_joinedSegment, recordsOf_cons]
        intro hnil
        exact hfilled first hfirst (append_eq_nil_iff.mp hnil).1
      · exact hfilled seg (mem_of_mem_drop (mem_of_mem_drop hseg))
  · exact ⟨hfilled, rfl⟩

theorem LogView.truncateBefore_filled {log : LogView} {minOffset : ℤ}
    (hfilled : ∀ seg ∈ log.sealedSegs, seg.frames ≠ []) :
    (∀ seg ∈ (log.truncateBefore minOffset).sealedSegs, seg.frames ≠ []) ∧
      (log.truncateBefore minOffset).active = log.active := by
  have hdrop := dropWhile_sublist
    (fun seg : Segment => !seg.reaches minOffset) (l := log.sealedSegs)
  unfold truncateBefore
  split
  · exact ⟨hfilled, rfl⟩
  · simp only
    split
    · exact ⟨by simp, rfl⟩
    next boundary later hrest =>
      rw [hrest] at hdrop
      have hkept : ∀ seg ∈ boundary :: later, seg.frames ≠ [] :=
        fun seg hseg => hfilled seg (hdrop.subset hseg)
      split
      · split
        · exact ⟨fun seg hseg => hkept seg (mem_cons_of_mem _ hseg), rfl⟩
        next first rest _ =>
          refine ⟨?_, rfl⟩
          intro seg hseg
          rcases mem_cons.mp hseg with rfl | hseg
          · rw [frames_writeEach]
            exact cons_ne_nil _ _
          · exact hkept seg (mem_cons_of_mem _ hseg)
      · exact ⟨hkept, rfl⟩

theorem LogView.mem_sealed_of_front {log : LogView} {before later : List Segment}
    {seg other : Segment} (hsegments : log.segments = before ++ seg :: later)
    (hother : other ∈ before) : other ∈ log.sealedSegs := by
  have hdrop := congrArg dropLast hsegments
  rw [segments, dropLast_concat, dropLast_append_of_ne_nil (cons_ne_nil _ _)] at hdrop
  rw [hdrop]
  exact mem_append_left _ hother

theorem LiveOk.truncate (hok : LiveOk s) (offset : ℤ) :
    LiveOk (s.withView (s.view.truncate offset)) := by
  have hordered := truncate_ordered hok.ordered offset
  have hspaced := hok.ordered.spaced
  have hlast : s.view.segments.getLast? = some s.view.active := by
    simp [segments]
  have hroom := hok.room
  cases truncates s.view offset with
  | nothing _ hlog _ =>
    rw [hlog]
    exact hok.sealed hok.ordered hok.filled rfl
  | rewrites before seg later hsegments _ _ _ hlog _ _ =>
    have hfilled : ∀ other ∈ (s.view.truncate offset).sealedSegs, other.frames ≠ [] := by
      rw [hlog.1]
      exact fun other hother =>
        hok.filled other (mem_sealed_of_front hsegments hother)
    by_cases hsame : (s.view.truncate offset).active = s.view.active
    · exact hok.sealed hordered hfilled hsame
    · have hseg : seg ∈ s.view.segments := by simp [hsegments]
      have hwf := hspaced.wellFormed seg hseg
      have hend := hspaced.nextOffset_le_last hlast seg hseg
      unfold LiveLog.withView
      rw [if_neg hsame]
      constructor
      · exact hordered
      · exact hfilled
      · intro hoffloaded
        change (s.view.truncate offset).active.isOffloaded = true at hoffloaded
        rw [hlog.2] at hoffloaded
        unfold truncated writeEach isOffloaded at hoffloaded
        rw [tier_foldl_append] at hoffloaded
        cases hoffloaded
      · intro hempty
        change (s.view.truncate offset).active.frames = [] at hempty
        change (s.view.truncate offset).active.blockCount = 0
        rw [hlog.2] at hempty ⊢
        unfold truncated at hempty ⊢
        rw [frames_writeEach] at hempty
        rw [hempty]
        unfold writeEach fresh blockCount
        cases seg.encodesBlocks <;> rfl
      · rfl
      · change (s.view.truncate offset).active.nextOffset ≤ maxInt64
        rw [hlog.2]
        refine le_trans (nextOffset_le_of ?_ ?_) (hend.trans hroom)
        · simpa [truncated] using hwf.base_le_nextOffset
        · intro frame hframe
          simp only [truncated, frames_writeEach] at hframe
          exact hwf.offset_lt_nextOffset ((takeWhile_sublist _).subset hframe)
  | drops before last seg later hsegments _ _ _ hlog _ _ =>
    have hsplit : s.view.segments = (before ++ [last]) ++ seg :: later := by
      simp [hsegments]
    have hsealed : ∀ other ∈ before ++ [last], other.frames ≠ [] :=
      fun other hother =>
        hok.filled other (mem_sealed_of_front hsplit hother)
    have hfilled : ∀ other ∈ (s.view.truncate offset).sealedSegs, other.frames ≠ [] := by
      rw [hlog.1]
      exact fun other hother => hsealed other (by simp [hother])
    by_cases hsame : (s.view.truncate offset).active = s.view.active
    · exact hok.sealed hordered hfilled hsame
    · have hne : (s.view.truncate offset).active.frames ≠ [] := by
        rw [hlog.2]
        exact hsealed last (by simp)
      have hend := hspaced.nextOffset_le_last hlast last (by simp [hsegments])
      unfold LiveLog.withView
      rw [if_neg hsame]
      constructor
      · exact hordered
      · exact hfilled
      · exact fun _ => hne
      · exact fun hempty => absurd hempty hne
      · rfl
      · change (s.view.truncate offset).active.nextOffset ≤ maxInt64
        rw [hlog.2]
        exact hend.trans hroom

/-! ## Reopening -/

theorem LiveOk.opened (hok : LiveOk s) {opts : OpenOptions} {notes : DiskNotes} {hw : ℤ}
    {opened : List OpenedSegment} (hindexable : ∀ seg ∈ s.view.segments, seg.Indexable opts.enc)
    (hopen : openLog opts hw (s.view.segments.map (store opts notes)) = .ok opened) :
    ∃ front last, (front.map fun o : OpenedSegment => o.stored.seg) = s.view.sealedSegs ∧
      last.stored.seg = s.view.active ∧
      last.seg.lastOffset = lastOffsetOf s.view.active.frames ∧
      last.next = s.view.active.nextOffset ∧
      opened = if s.view.active.isOffloaded then
        front ++ [last] ++ [freshOpened opts last.next] else front ++ [last] := by
  have hspaced := hok.ordered.spaced
  have hsplit : s.view.segments.map (store opts notes) =
      s.view.sealedSegs.map (store opts notes) ++ [s.view.active.store opts notes] := by
    simp [segments]
  have hgood := fun st hst =>
    @sound_of_listed opts notes s.view.segments st hspaced hindexable (Or.inl hst)
  have hapart : Apart (s.view.segments.map (store opts notes)) := by
    rw [apart_iff, map_seg_store]
    exact hspaced.apart
  rw [hsplit] at hgood hapart hopen
  have hparts := pairwise_append.mp hapart
  rcases @openLog_of_openable opts hw _ _ _ (fun st hst => (hgood st hst).1)
    (fun st hst => (hgood st hst).2)
    (resolveSegmentOverlaps_eq_self hparts.1)
    (fun st hst => hparts.2.2 st hst _ (mem_singleton_self _)) with
    ⟨all, hall, hmap, hright⟩
  rw [hall] at hopen
  cases hopen
  rcases map_eq_append_iff.mp hmap with
    ⟨front, lasts, rfl, hfront, hlasts⟩
  rcases map_eq_cons_iff.mp hlasts with ⟨last, rest, rfl, hlast, hrest⟩
  cases map_eq_nil_iff.mp hrest
  have hseg : last.stored.seg = s.view.active := by
    rw [hlast]
    rfl
  have hopens := (hright last (by simp)).opens
  refine ⟨front, last, ?_, hseg, ?_, ?_, ?_⟩
  · have hsegs := congrArg (map fun st : StoredSegment => st.seg) hfront
    rw [map_map, map_seg_store] at hsegs
    exact hsegs
  · rw [hopens.lastOffset_eq, StoredSegment.file, frames_logFile, hseg]
  · have hnext := (hright last (by simp)).next_eq (by
      rw [hseg]
      exact hok.active_wellFormed)
    rw [← hnext, StoredSegment.next, hseg]
  · unfold withActive
    rw [getLast?_concat]
    simp only [hseg]

theorem LiveOk.reopened_eq (hok : LiveOk s) {opts : OpenOptions} {notes : DiskNotes} {hw : ℤ}
    {pending : ℤ → Bool} {opened : List OpenedSegment}
    (hindexable : ∀ seg ∈ s.view.segments, seg.Indexable opts.enc)
    (hopen : openLog opts hw (s.view.segments.map (store opts notes)) = .ok opened) :
    s.reopened opts pending opened =
      if s.view.active.isOffloaded then
        ⟨(s.view.roll opts.encodesBlocks).reopen opts.encodesBlocks pending, -1⟩
      else ⟨s.view.reopen opts.encodesBlocks pending, s.lastOffset⟩ := by
  rcases hok.opened hindexable hopen with
    ⟨front, last, hfront, hseg, hlast, hnext, hopened⟩
  unfold LiveLog.reopened
  cases hoffloaded : s.view.active.isOffloaded with
  | false =>
    rw [hoffloaded, if_neg (by simp)] at hopened
    rw [hopened, if_neg (by simp)]
    have hview : ({ openedView (front ++ [last]) with
        keys := s.view.keys } : LogView) = s.view := by
      simp [openedView, hfront, hseg]
    rw [hview, getLast?_concat]
    simp [hlast, ← hok.last_eq]
  | true =>
    rw [hoffloaded, if_pos rfl] at hopened
    rw [hopened, if_pos rfl]
    have hview : ({ openedView (front ++ [last] ++ [freshOpened opts last.next]) with
        keys := s.view.keys } : LogView) =
        s.view.roll opts.encodesBlocks := by
      simp [openedView, roll, hfront, hseg, freshOpened, hnext]
    have hfresh := (@fresh_initPositions last.next opts.encodesBlocks
      ((freshOpened opts last.next).stored.file opts) none).lastOffset_eq
    rw [hview, getLast?_concat]
    simpa [lastOffsetOf, freshOpened] using hfresh

theorem LiveOk.reopen (hok : LiveOk s) {opts : OpenOptions} {notes : DiskNotes} {hw : ℤ}
    {pending : ℤ → Bool} {opened : List OpenedSegment}
    (hindexable : ∀ seg ∈ s.view.segments, seg.Indexable opts.enc)
    (hopen : openLog opts hw (s.view.segments.map (store opts notes)) = .ok opened) :
    LiveOk (s.reopened opts pending opened) := by
  have hreopened : ∀ view : LogView, ∀ lastOffset, LiveOk ⟨view, lastOffset⟩ →
      LiveOk ⟨view.reopen opts.encodesBlocks pending, lastOffset⟩ := by
    intro view lastOffset hview
    constructor
    · exact reopen_ordered hview.ordered _ _
    · exact filled_map (fun _ => rfl) hview.filled
    · exact hview.offloaded
    · exact hview.idle
    · exact hview.last_eq
    · exact hview.room
  rw [hok.reopened_eq hindexable hopen]
  split_ifs with hoffloaded
  · apply hreopened
    have hne := hok.offloaded hoffloaded
    constructor
    · exact roll_ordered hok.ordered hne opts.encodesBlocks
    · intro seg hin
      rcases mem_append.mp hin with hin | hin
      · exact hok.filled seg hin
      · rw [mem_singleton.mp hin]
        exact hne
    · intro hfresh
      cases hfresh
    · intro _
      simp only [roll, fresh, blockCount]
      cases opts.encodesBlocks <;> rfl
    · simp [roll, lastOffsetOf]
    · simpa [roll] using hok.room
  · exact hreopened s.view s.lastOffset hok

/-! ## Runs -/

theorem LiveOk.step {op : LiveOp} (hok : LiveOk s)
    (hstep : LiveStep s op s') (hsafe : LiveSafe s op) : LiveOk s' := by
  cases op with
  | append env input =>
    rw [show s' = _ from hstep]
    exact (hok.append hsafe).1
  | split env =>
    rw [show s' = _ from hstep]
    exact hok.split.1
  | pass spec passEnv =>
    rcases hstep with ⟨result, hpass, rfl⟩
    have hfilled := compactSpec_filled hpass hok.filled
    exact hok.sealed (compactSpec_ordered hok.ordered hpass) hfilled.1 hfilled.2
  | consolidate chosen =>
    rw [show s' = _ from hstep]
    apply hok.sealed (consolidate_ordered hok.ordered chosen)
    · apply filled_map _ hok.filled
      intro seg
      split <;> simp
    · rfl
  | join i count refreshFails =>
    rw [show s' = _ from hstep]
    have hfilled := @join_filled s.view i count refreshFails hok.filled
    exact hok.sealed (join_ordered hok.ordered i count refreshFails) hfilled.1 hfilled.2
  | retire kept =>
    rcases hstep with ⟨hsub, rfl⟩
    apply hok.sealed
    · exact hok.ordered.sublist (hsub.append (Sublist.refl _))
    · exact fun seg hseg => hok.filled seg (hsub.subset hseg)
    · rfl
  | offload tierOf =>
    rw [show s' = _ from hstep]
    apply hok.sealed (offload_ordered hok.ordered tierOf)
    · apply filled_map _ hok.filled
      intro seg
      split <;> rfl
    · rfl
  | truncate offset =>
    rw [show s' = _ from hstep]
    exact hok.truncate offset
  | truncateBefore minOffset =>
    rw [show s' = _ from hstep]
    have hfilled := @truncateBefore_filled s.view minOffset hok.filled
    exact hok.sealed (truncateBefore_ordered hok.ordered minOffset) hfilled.1 hfilled.2
  | reopen opts notes hw pending =>
    rcases hstep with ⟨opened, hopen, rfl⟩
    exact hok.reopen hsafe hopen

end Steps

/-! ## An offset that does not fit -/

def newLive : LiveLog := ⟨⟨[], fresh 0 false, fun _ => none⟩, -1⟩

theorem newLive_ok : LiveOk newLive := by
  constructor
  · decide +kernel
  · simp [newLive]
  · decide +kernel
  · decide +kernel
  · decide +kernel
  · decide +kernel

def smallMessage : Message := ⟨1, 0, some [5], some [7], Headers.empty⟩

def plainEnv : AppendEnv where
  limits := smallLimits
  now := 1
  encodesBlocks := false
  formatV3 := false
  lastLeaderEpoch := 0
  reader := ⟨fun _ => smallMessage, fun _ => true⟩

/-- One frame at offset `2 ^ 32` with a payload of one byte. -/
def farSet : Bytes :=
  [0, 0, 0, 1, 0, 0, 0, 0] ++ replicate 16 0 ++ [0, 0, 0, 1] ++ [0, 0, 0, 0] ++ [7]

def farLive : LiveLog :=
  (newLive.append plainEnv (.appendMessageSet farSet)).1

end CommitLog
