import CommitLog.PassDigests

/-!
# The operations on a log

Besides compaction, a log appends to its active segment, rolls it, merges
blocks, joins adjacent sealed segments, offloads and reopens them, and is
truncated from either end.  Each operation is given with what it does to the
digest files, which are named by base offset alone.
-/

namespace CommitLog

open List LogView Segment

/-! ## Writing segments -/

def Layout.append (layout : Layout) (block : Block) : Layout :=
  match layout with
  | .raw frames => .raw (frames ++ block.frames)
  | .blocks bs => .blocks (bs ++ [block])

@[simp] theorem Layout.frames_append (layout : Layout) (block : Block) :
    (layout.append block).frames = layout.frames ++ block.frames := by
  cases layout with
  | raw frames => rfl
  | blocks blocks => simp [Layout.append, Layout.frames]

namespace Segment

def append (seg : Segment) (block : Block) : Segment :=
  { seg with layout := seg.layout.append block }

@[simp] theorem frames_append (seg : Segment) (block : Block) :
    (seg.append block).frames = seg.frames ++ block.frames :=
  Layout.frames_append seg.layout block

/-- A new segment of the log, in the mode its codec and format ask for. -/
def fresh (base : ℤ) (encodesBlocks : Bool) : Segment where
  baseOffset := base
  layout := if encodesBlocks then .blocks [] else .raw []
  encodesBlocks := encodesBlocks
  blocksPending := false
  tier := none

@[simp] theorem frames_fresh (base : ℤ) (encodesBlocks : Bool) :
    (fresh base encodesBlocks).frames = [] := by
  cases encodesBlocks <;> rfl

/-- A working copy that was written one message set at a time, as the two
truncations do. -/
def writeEach (base : ℤ) (encodesBlocks : Bool) (frames : List Frame) :
    Segment :=
  frames.foldl (fun seg frame => seg.append (Block.ofFrames [frame])) (fresh base encodesBlocks)

theorem foldl_append_frames (frames : List Frame) (seg : Segment) :
    let seg' := frames.foldl (fun s frame => s.append (Block.ofFrames [frame])) seg
    seg'.frames = seg.frames ++ frames ∧ seg'.baseOffset = seg.baseOffset := by
  induction frames generalizing seg with
  | nil => simp
  | cons frame frames ih =>
    have hrest := ih (seg.append (Block.ofFrames [frame]))
    simp only [foldl_cons]
    refine ⟨?_, hrest.2⟩
    rw [hrest.1, frames_append]
    simp

@[simp] theorem frames_writeEach (base : ℤ) (encodesBlocks : Bool) (frames : List Frame) :
    (writeEach base encodesBlocks frames).frames = frames := by
  have hfold := foldl_append_frames frames (fresh base encodesBlocks)
  simpa [writeEach] using hfold.1

@[simp] theorem baseOffset_writeEach (base : ℤ) (encodesBlocks : Bool) (frames : List Frame) :
    (writeEach base encodesBlocks frames).baseOffset = base :=
  (foldl_append_frames frames (fresh base encodesBlocks)).2

end Segment

def BlockWriter.write (blockMode : Bool) (frames : List Frame) : Layout :=
  (frames.foldl BlockWriter.add ⟨blockMode, [], []⟩).flush.layout

theorem BlockWriter.frames_foldl_add (frames : List Frame) (writer : BlockWriter) :
    (frames.foldl BlockWriter.add writer).frames = writer.frames ++ frames := by
  induction frames generalizing writer with
  | nil => simp
  | cons frame frames ih =>
    rw [foldl_cons, ih, BlockWriter.frames_add]
    simp

@[simp] theorem BlockWriter.frames_write (blockMode : Bool) (frames : List Frame) :
    (BlockWriter.write blockMode frames).frames = frames := by
  unfold BlockWriter.write
  rw [BlockWriter.frames_layout (by simp), BlockWriter.frames_flush, BlockWriter.frames_foldl_add]
  simp [BlockWriter.frames]

/-! ## Consolidation -/

/-- The closure `keep` of `consolidateOne`. -/
def addFrame (st : Rewrite) (frame : Frame) : Except StripError Rewrite :=
  .ok { st with writer := st.writer.add frame }

/-- `consolidateOne`: every record is kept and every block that must not be
merged is carried over whole. -/
def consolidateOne (seg : Segment) : Segment :=
  match rewriteWalk addFrame (fun _ => true) seg.layout (Rewrite.start seg.encodesBlocks) with
  | .error _ => seg
  | .ok st =>
    { seg with
      layout := st.writer.flush.layout
      blocksPending := false
      tier := none }

theorem foldlM_addFrame (frames : List Frame) (st : Rewrite) :
    ∃ st', frames.foldlM addFrame st = .ok st' ∧
      st'.writer.frames = st.writer.frames ++ frames := by
  induction frames generalizing st with
  | nil => exact ⟨st, rfl, by simp⟩
  | cons frame frames ih =>
    obtain ⟨st', hfold, hframes⟩ :=
      ih { st with writer := st.writer.add frame }
    refine ⟨st', hfold, ?_⟩
    rw [hframes, BlockWriter.frames_add]
    simp

theorem walkBlock_addFrame (st : Rewrite) (block : Block) :
    ∃ st', walkBlock addFrame (fun _ => true) st block = .ok st' ∧
      st'.writer.frames = st.writer.frames ++ block.frames := by
  unfold walkBlock
  by_cases hmergeable : block.mergeable = true
  · rw [if_pos hmergeable]
    exact foldlM_addFrame block.frames st
  · rw [if_neg hmergeable]
    by_cases hmode : st.writer.blockMode = true
    · rw [if_pos (by simp [hmode])]
      refine ⟨_, rfl, ?_⟩
      rw [BlockWriter.frames_writeBlock (by simp), BlockWriter.frames_flush]
    · rw [if_neg (by simp [hmode])]
      by_cases hcontrol : block.control = true
      · rw [if_pos hcontrol]
        obtain ⟨st', hfold, hframes⟩ :=
          foldlM_addFrame block.frames st.flush
        refine ⟨st'.flush, by rw [hfold]; rfl, ?_⟩
        simpa [Rewrite.flush] using hframes
      · rw [if_neg hcontrol]
        exact foldlM_addFrame block.frames st

theorem foldlM_walkBlock_addFrame (blocks : List Block) (st : Rewrite) :
    ∃ st', blocks.foldlM (walkBlock addFrame fun _ => true) st = .ok st' ∧ st'.writer.frames =
        st.writer.frames ++ blocks.flatMap Block.frames := by
  induction blocks generalizing st with
  | nil => exact ⟨st, rfl, by simp⟩
  | cons block blocks ih =>
    obtain ⟨mid, hwalk, hmid⟩ := walkBlock_addFrame st block
    obtain ⟨st', hfold, hframes⟩ := ih mid
    refine ⟨st', ?_, ?_⟩
    · rw [foldlM_cons, hwalk]
      exact hfold
    · rw [hframes, hmid]
      simp

theorem rewriteWalk_addFrame (layout : Layout) (st : Rewrite) :
    ∃ st', rewriteWalk addFrame (fun _ => true) layout st = .ok st' ∧
      st'.writer.frames = st.writer.frames ++ layout.frames := by
  cases layout with
  | raw frames => exact foldlM_addFrame frames st
  | blocks bs => exact foldlM_walkBlock_addFrame bs st

theorem consolidateOne_eq (seg : Segment) : ∃ st, rewriteWalk addFrame (fun _ => true) seg.layout
        (Rewrite.start seg.encodesBlocks) = .ok st ∧
      st.writer.frames = seg.layout.frames ∧
      consolidateOne seg = { seg with
        layout := st.writer.flush.layout
        blocksPending := false
        tier := none } := by
  obtain ⟨st, hst, hframes⟩ :=
    rewriteWalk_addFrame seg.layout (Rewrite.start seg.encodesBlocks)
  refine ⟨st, hst, ?_, ?_⟩
  · simpa [Rewrite.start, BlockWriter.frames] using hframes
  · rw [consolidateOne, hst]

@[simp] theorem consolidateOne_frames (seg : Segment) :
    (consolidateOne seg).frames = seg.frames := by
  obtain ⟨st, -, hframes, hout⟩ := consolidateOne_eq seg
  rw [hout]
  change st.writer.flush.layout.frames = seg.layout.frames
  rw [BlockWriter.frames_layout (by simp), BlockWriter.frames_flush, hframes]

@[simp] theorem consolidateOne_baseOffset (seg : Segment) :
    (consolidateOne seg).baseOffset = seg.baseOffset := by
  unfold consolidateOne
  split <;> rfl

/-! ## Operations on the log -/

/-- Deleting a segment deletes the digest file of its base offset. -/
def removeKeys (keys : ℤ → Option KeyDigest) (segs : List Segment) : ℤ → Option KeyDigest :=
  fun base =>
    if segs.any fun seg => decide (seg.baseOffset = base) then none
    else keys base

def Segment.truncated (seg : Segment) (offset : ℤ) : Segment :=
  writeEach seg.baseOffset seg.encodesBlocks
    (seg.frames.takeWhile fun frame => decide (frame.offset < offset))

def Segment.reaches (seg : Segment) (offset : ℤ) : Bool :=
  seg.frames.getLast?.any fun frame => decide (offset ≤ frame.offset)

def Segment.hasBlock (seg : Segment) : Bool :=
  match seg.layout with
  | .raw _ => false
  | .blocks bs => !bs.isEmpty

/-- The scan of `refreshJoinedDigest`.  The join decoded its inputs through
the same cache, so the first block of an offloaded result is read from the
old object when no later input had a block to decode. -/
def joinScan (first : Segment) (others : List Segment) (joined : Segment) : Option (List Frame) :=
  match first.isOffloaded, first.layout, joined.layout with
  | true, .blocks [cached], .blocks (new :: more) =>
    if others.any hasBlock then some joined.frames
    else
      (readExtent cached.frames (framingLen new.frames)).bind fun read =>
        (resumeAt (more.flatMap Block.frames) read.2).map (read.1 ++ ·)
  | _, _, _ => some joined.frames

namespace LogView

def append (log : LogView) (block : Block) : LogView :=
  { log with active := log.active.append block }

/-- `split`. -/
def roll (log : LogView) (encodesBlocks : Bool) : LogView where
  sealedSegs := log.sealedSegs ++ [log.active]
  active := fresh log.active.nextOffset encodesBlocks
  keys := log.keys

/-- `consolidateSegments`; the budget decides which segments are reached. -/
def consolidate (log : LogView) (chosen : ℤ → Bool) : LogView :=
  { log with
    sealedSegs := log.sealedSegs.map fun seg =>
      if seg.needsBlockConsolidation && chosen seg.baseOffset then
        consolidateOne seg
      else seg }

def offload (log : LogView) (tierOf : ℤ → Option String) : LogView :=
  { log with
    sealedSegs := log.sealedSegs.map fun seg =>
      if seg.isOffloaded then seg
      else { seg with tier := tierOf seg.baseOffset } }

/-- Reopening finds the same files; the codec of the new session decides how
working copies are written, and the tables of offloaded segments wait for a
read. -/
def reopen (log : LogView) (encodesBlocks : Bool) (pending : ℤ → Bool) :
    LogView :=
  { log with
    sealedSegs := log.sealedSegs.map fun seg =>
      { seg with
        encodesBlocks := encodesBlocks
        blocksPending := pending seg.baseOffset } }

def joinedSegment (first : Segment) (others : List Segment) : Segment :=
  { first with
    layout := BlockWriter.write first.encodesBlocks (recordsOf (first :: others))
    blocksPending := false }

/-- The digest files after a join.  A local join deletes its later inputs with
their files, `retireIntoJoin` does not; the file of the first input is
replaced when there was one. -/
def joinedKeys (keys : ℤ → Option KeyDigest) (first : Segment)
    (others : List Segment) (refreshFails : Bool) : ℤ → Option KeyDigest :=
  let joined := joinedSegment first others
  let kept := if first.isOffloaded then keys else removeKeys keys others
  if (keys first.baseOffset).isNone then kept
  else Function.update kept first.baseOffset (if refreshFails then none
    else (joinScan first others joined).map (digestOfScan joined.baseOffset joined.position
        joined.firstWriteTime))

/-- `joinOne` on the `count` segments from index `i` on. -/
def join (log : LogView) (i count : ℕ) (refreshFails : Bool) : LogView :=
  match (log.sealedSegs.drop i).take count with
  | first :: second :: rest =>
    { log with
      sealedSegs := log.sealedSegs.take i ++ joinedSegment first (second :: rest) ::
          (log.sealedSegs.drop i).drop count
      keys := joinedKeys log.keys first (second :: rest) refreshFails }
  | _ => log

/-- `Truncate`. -/
def truncate (log : LogView) (offset : ℤ) : LogView :=
  let below := fun seg : Segment => decide (seg.nextOffset ≤ offset)
  let before := log.segments.takeWhile below
  match log.segments.dropWhile below with
  | [] => log
  | seg :: later =>
    if seg.baseOffset ≠ offset ∨ before = [] then
      ⟨before, seg.truncated offset, removeKeys log.keys later⟩
    else
      match before.getLast? with
      | none => log
      | some last =>
        ⟨before.dropLast, last, removeKeys log.keys (seg :: later)⟩

/-- `TruncateBefore`. -/
def truncateBefore (log : LogView) (minOffset : ℤ) : LogView :=
  if minOffset ≤ 0 then log
  else
    let obsolete := fun seg : Segment => !seg.reaches minOffset
    let gone := log.sealedSegs.takeWhile obsolete
    match log.sealedSegs.dropWhile obsolete with
    | [] => { log with sealedSegs := [], keys := removeKeys log.keys gone }
    | boundary :: later =>
      if boundary.baseOffset < minOffset then
        let keys := removeKeys log.keys (gone ++ [boundary])
        match boundary.frames.filter fun frame => decide (minOffset ≤ frame.offset) with
        | [] => { log with sealedSegs := later, keys := keys }
        | first :: rest =>
          { log with
            sealedSegs := writeEach first.offset boundary.encodesBlocks (first :: rest) :: later
            keys := keys }
      else
        { log with
          sealedSegs := boundary :: later
          keys := removeKeys log.keys gone }

end LogView

inductive LogOp
  | append (block : Block)
  | roll (encodesBlocks : Bool)
  | pass (spec : CleanSpec) (env : PassEnv)
  | consolidate (chosen : ℤ → Bool)
  | offload (tierOf : ℤ → Option String)
  | reopen (encodesBlocks : Bool) (pending : ℤ → Bool)
  | join (i count : ℕ) (refreshFails : Bool)
  | truncate (offset : ℤ)
  | truncateBefore (minOffset : ℤ)

/-- Appends carry rising offsets from the end of the log on. -/
def LogView.appendable (log : LogView) (block : Block) : Prop :=
  (block.frames.Pairwise fun a b => a.offset < b.offset) ∧
    ∀ frame ∈ block.frames, log.active.nextOffset ≤ frame.offset

instance (log : LogView) (block : Block) : Decidable (log.appendable block) :=
  inferInstanceAs (Decidable (_ ∧ _))

def LogStep (log : LogView) (op : LogOp) (log' : LogView) : Prop :=
  match op with
  | .append block => log.appendable block ∧ log' = log.append block
  | .roll encodesBlocks =>
    log.active.frames ≠ [] ∧ log' = log.roll encodesBlocks
  | .pass spec env =>
    ∃ result, compactSpec spec env log = .ok result ∧ result.log = log'
  | .consolidate chosen => log' = log.consolidate chosen
  | .offload tierOf => log' = log.offload tierOf
  | .reopen encodesBlocks pending => log' = log.reopen encodesBlocks pending
  | .join i count refreshFails => log' = log.join i count refreshFails
  | .truncate offset => log' = log.truncate offset
  | .truncateBefore minOffset => log' = log.truncateBefore minOffset

/-! ## Order -/

theorem LogOrdered.insert {before after : List Segment} {seg : Segment}
    (hordered : LogOrdered (before ++ after)) (hwf : seg.WellFormed)
    (hbefore : ∀ other ∈ before, other.baseOffset < seg.baseOffset ∧
      ∀ frame ∈ other.frames, frame.offset < seg.baseOffset)
    (hafter : ∀ other ∈ after, seg.baseOffset < other.baseOffset ∧
      ∀ frame ∈ seg.frames, frame.offset < other.baseOffset) :
    LogOrdered (before ++ seg :: after) := by
  have hparts := pairwise_append.mp hordered.increasing
  constructor
  · intro other hother
    rcases mem_append.mp hother with hin | hin
    · exact hordered.wellFormed other (mem_append_left _ hin)
    · rcases mem_cons.mp hin with heq | hin
      · rw [heq]
        exact hwf
      · exact hordered.wellFormed other (mem_append_right _ hin)
  · rw [pairwise_append, pairwise_cons]
    refine ⟨hparts.1, ⟨hafter, hparts.2.1⟩, ?_⟩
    intro first hfirst second hsecond
    rcases mem_cons.mp hsecond with heq | hin
    · rw [heq]
      exact hbefore first hfirst
    · exact hparts.2.2 first hfirst second hin

theorem LogOrdered.replace {before after : List Segment} {first seg : Segment}
    {others : List Segment} (hordered : LogOrdered (before ++ (first :: others) ++ after))
    (hwf : seg.WellFormed) (hbase : first.baseOffset ≤ seg.baseOffset)
    (hafter : ∀ other ∈ after, seg.baseOffset < other.baseOffset)
    (hframes : ∀ frame ∈ seg.frames, frame ∈ recordsOf (first :: others)) :
    LogOrdered (before ++ seg :: after) := by
  have hsplit := pairwise_append.mp hordered.increasing
  have hfront := pairwise_append.mp hsplit.1
  apply LogOrdered.insert _ hwf
  · intro other hother
    have hlt := hfront.2.2 other hother first mem_cons_self
    exact ⟨hlt.1.trans_le hbase, fun frame hframe => (hlt.2 frame hframe).trans_le hbase⟩
  · intro other hother
    refine ⟨hafter other hother, ?_⟩
    intro frame hframe
    obtain ⟨source, hsource, hmem⟩ := mem_recordsOf.mp (hframes frame hframe)
    exact (hsplit.2.2 source (mem_append_right _ hsource) other hother).2 frame hmem
  · apply hordered.sublist
    rw [append_assoc]
    exact (Sublist.refl before).append (sublist_append_right _ after)

theorem LogOrdered.mapSealed {sealedSegs : List Segment} {active : Segment} {f : Segment → Segment}
    (hordered : LogOrdered (sealedSegs ++ [active]))
    (hbase : ∀ seg, (f seg).baseOffset = seg.baseOffset)
    (hframes : ∀ seg, (f seg).frames = seg.frames) : LogOrdered (sealedSegs.map f ++ [active]) := by
  induction sealedSegs with
  | nil => exact hordered
  | cons seg segs ih =>
    have hhead := (pairwise_cons.mp hordered.increasing).1
    have hwf := hordered.wellFormed seg mem_cons_self
    have htail : LogOrdered ([] ++ (segs.map f ++ [active])) :=
      ih hordered.tail
    have hbases : ∀ other ∈ segs.map f ++ [active], ∃ source ∈ segs ++ [active],
          other.baseOffset = source.baseOffset := by
      intro other hother
      rcases mem_append.mp hother with hin | hin
      · obtain ⟨source, hsource, heq⟩ := mem_map.mp hin
        refine ⟨source, mem_append_left _ hsource, ?_⟩
        rw [← heq, hbase]
      · exact ⟨other, mem_append_right _ hin, rfl⟩
    change LogOrdered ([] ++ f seg :: (segs.map f ++ [active]))
    apply LogOrdered.insert htail
    · constructor
      · rw [hbase]
        exact hwf.base_nonneg
      · rw [hframes]
        exact hwf.ordered
      · rw [hframes, hbase]
        exact hwf.base_le
    · intro other hother
      simp at hother
    · intro other hother
      obtain ⟨source, hsource, hsourceBase⟩ := hbases other hother
      rw [hsourceBase, hbase, hframes]
      exact hhead source hsource

theorem Segment.WellFormed.append {seg : Segment} {block : Block} (hwf : seg.WellFormed)
    (hordered : block.frames.Pairwise fun a b => a.offset < b.offset)
    (habove : ∀ frame ∈ block.frames, seg.nextOffset ≤ frame.offset) :
    (seg.append block).WellFormed := by
  constructor
  · exact hwf.base_nonneg
  · rw [frames_append, pairwise_append]
    refine ⟨hwf.ordered, hordered, ?_⟩
    intro frame hframe frame' hframe'
    exact (hwf.offset_lt_nextOffset hframe).trans_le (habove frame' hframe')
  · intro frame hframe
    rw [frames_append] at hframe
    rcases mem_append.mp hframe with hin | hin
    · exact hwf.base_le frame hin
    · exact hwf.base_le_nextOffset.trans (habove frame hin)

theorem Segment.wellFormed_fresh {base : ℤ} (hbase : 0 ≤ base)
    (encodesBlocks : Bool) : (fresh base encodesBlocks).WellFormed := by
  constructor
  · exact hbase
  · simp
  · simp

theorem Segment.wellFormed_writeEach {base : ℤ} {encodesBlocks : Bool} {frames : List Frame}
    (hbase : 0 ≤ base) (hordered : frames.Pairwise fun a b => a.offset < b.offset)
    (hle : ∀ frame ∈ frames, base ≤ frame.offset) :
    (writeEach base encodesBlocks frames).WellFormed := by
  constructor
  · simpa using hbase
  · simpa using hordered
  · simpa using hle

section StepOrder

variable {log : LogView}

section

variable (hordered : LogOrdered log.segments)
include hordered

theorem LogView.append_ordered {block : Block} (happend : log.appendable block) :
    LogOrdered (log.append block).segments := by
  have hwf := hordered.wellFormed log.active (by simp [segments])
  have hbound := (pairwise_append.mp hordered.increasing).2.2
  have hsealed : LogOrdered (log.sealedSegs ++ []) :=
    hordered.sublist (by simp [segments])
  apply hsealed.insert (hwf.append happend.1 happend.2)
  · intro other hother
    exact hbound other hother log.active (by simp)
  · intro other hother
    simp at hother

theorem LogView.roll_ordered (hnonempty : log.active.frames ≠ []) (encodesBlocks : Bool) :
    LogOrdered (log.roll encodesBlocks).segments := by
  have hwf := hordered.wellFormed log.active (by simp [segments])
  obtain ⟨last, hlast⟩ : ∃ last, last ∈ log.active.frames :=
    exists_mem_of_ne_nil _ hnonempty
  have hnext := hwf.offset_lt_nextOffset hlast
  have hbase := hwf.base_le last hlast
  have hnonneg := hwf.base_nonneg
  have hold : LogOrdered (log.segments ++ []) := by simpa using hordered
  apply hold.insert (wellFormed_fresh (by omega) encodesBlocks)
  · intro other hother
    change other.baseOffset < log.active.nextOffset ∧
      ∀ frame ∈ other.frames, frame.offset < log.active.nextOffset
    rcases mem_append.mp hother with hin | hin
    · have hlt := (pairwise_append.mp hordered.increasing).2.2 other hin log.active (by simp)
      constructor
      · omega
      · intro frame hframe
        have hframeLt := hlt.2 frame hframe
        omega
    · rw [mem_singleton] at hin
      rw [hin]
      exact ⟨by omega, fun frame hframe => hwf.offset_lt_nextOffset hframe⟩
  · intro other hother
    simp at hother

theorem LogView.consolidate_ordered
    (chosen : ℤ → Bool) : LogOrdered (log.consolidate chosen).segments := by
  apply LogOrdered.mapSealed hordered
  · intro seg
    split <;> simp
  · intro seg
    split <;> simp

theorem LogView.offload_ordered (tierOf : ℤ → Option String) :
    LogOrdered (log.offload tierOf).segments := by
  apply LogOrdered.mapSealed hordered
  · intro seg
    split <;> rfl
  · intro seg
    split <;> rfl

theorem LogView.reopen_ordered (encodesBlocks : Bool) (pending : ℤ → Bool) :
    LogOrdered (log.reopen encodesBlocks pending).segments :=
  LogOrdered.mapSealed hordered (fun _ => rfl) fun _ => rfl

end

theorem LogView.frames_joinedSegment (first : Segment) (others : List Segment) :
    (joinedSegment first others).frames = recordsOf (first :: others) :=
  BlockWriter.frames_write _ _

theorem LogView.wellFormed_joinedSegment {first : Segment} {others : List Segment}
    (hordered : LogOrdered (first :: others)) : (joinedSegment first others).WellFormed := by
  have hframes := frames_joinedSegment first others
  have hwf := hordered.wellFormed first mem_cons_self
  constructor
  · exact hwf.base_nonneg
  · rw [hframes]
    exact hordered.records_ordered
  · intro frame hframe
    rw [hframes] at hframe
    obtain ⟨seg, hseg, hmem⟩ := mem_recordsOf.mp hframe
    change first.baseOffset ≤ frame.offset
    rcases mem_cons.mp hseg with heq | hin
    · rw [heq] at hmem
      exact hwf.base_le frame hmem
    · have hlt := (pairwise_cons.mp hordered.increasing).1 seg hin
      have hle := (hordered.wellFormed seg (mem_cons_of_mem _ hin)).base_le frame hmem
      omega

theorem LogView.join_ordered (hordered : LogOrdered log.segments) (i count : ℕ)
    (refreshFails : Bool) : LogOrdered (log.join i count refreshFails).segments := by
  unfold join
  split
  next first second rest hinputs =>
    have hsplit : log.segments = log.sealedSegs.take i ++ (first :: second :: rest) ++
          ((log.sealedSegs.drop i).drop count ++ [log.active]) := by
      rw [← hinputs, segments, ← append_assoc, append_assoc (log.sealedSegs.take i),
        take_append_drop, take_append_drop]
    rw [hsplit] at hordered
    have hinner : LogOrdered (first :: second :: rest) := by
      apply hordered.sublist
      rw [append_assoc]
      exact (sublist_append_left _ _).trans (sublist_append_right _ _)
    have hwf := wellFormed_joinedSegment hinner
    simp only [segments, append_assoc, cons_append]
    apply hordered.replace hwf le_rfl
    · intro other hother
      exact ((pairwise_append.mp hordered.increasing).2.2 first (by simp) other hother).1
    · intro frame hframe
      simpa [joinedSegment, frames] using hframe
  · exact hordered

theorem Segment.truncated_wellFormed {seg : Segment} (hwf : seg.WellFormed) (offset : ℤ) :
    (seg.truncated offset).WellFormed := by
  have hsub := takeWhile_sublist
    (fun frame : Frame => decide (frame.offset < offset)) (l := seg.frames)
  apply wellFormed_writeEach hwf.base_nonneg
  · exact hwf.ordered.sublist hsub
  · exact fun frame hframe => hwf.base_le frame (hsub.subset hframe)

theorem LogView.truncate_ordered (hordered : LogOrdered log.segments)
    (offset : ℤ) : LogOrdered (log.truncate offset).segments := by
  unfold truncate
  simp only
  have hsplit := takeWhile_append_dropWhile
    (p := fun seg : Segment => decide (seg.nextOffset ≤ offset))
    (l := log.segments)
  split
  · exact hordered
  next seg later hrest =>
    rw [hrest] at hsplit
    split
    · have hrun : LogOrdered (log.segments.takeWhile
          (fun s => decide (s.nextOffset ≤ offset)) ++ (seg :: []) ++ later) := by
        rw [append_assoc]
        change LogOrdered (_ ++ seg :: later)
        rw [hsplit]
        exact hordered
      have hfront : LogOrdered (log.segments.takeWhile
          (fun s => decide (s.nextOffset ≤ offset)) ++ (seg :: []) ++ []) := by
        rw [append_nil]
        exact hrun.sublist (sublist_append_left _ _)
      have hwf := hrun.wellFormed seg (by simp)
      apply hfront.replace (truncated_wellFormed hwf offset)
      · simp [truncated]
      · intro other hother
        simp at hother
      · intro frame hframe
        have hmem : frame ∈ seg.frames := by
          simp only [truncated, frames_writeEach] at hframe
          exact (takeWhile_sublist _).subset hframe
        simpa using hmem
    · split
      · exact hordered
      next last hlast =>
        change LogOrdered ((log.segments.takeWhile _).dropLast ++ [last])
        rw [dropLast_append_getLast? last hlast]
        exact hordered.sublist (takeWhile_sublist _)

theorem LogView.truncateBefore_ordered (hordered : LogOrdered log.segments) (minOffset : ℤ) :
    LogOrdered (log.truncateBefore minOffset).segments := by
  unfold truncateBefore
  split
  · exact hordered
  · have hdrop := dropWhile_sublist
      (fun seg : Segment => !seg.reaches minOffset) (l := log.sealedSegs)
    simp only
    split
    · exact hordered.sublist (by simp [segments])
    next boundary later hrest =>
      rw [hrest] at hdrop
      have hkept : LogOrdered (boundary :: later ++ [log.active]) :=
        hordered.sublist (hdrop.append (Sublist.refl _))
      split
      · split
        · exact hkept.tail
        next first rest hfilter =>
          have hfirst : first ∈ boundary.frames := by
            apply (filter_sublist (p := fun f : Frame => decide (minOffset ≤ f.offset))).subset
            rw [hfilter]
            exact mem_cons_self
          have hsub : (first :: rest).Sublist boundary.frames := by
            rw [← hfilter]
            exact filter_sublist
          have hwf := hkept.wellFormed boundary mem_cons_self
          have hrun : LogOrdered ([] ++ (boundary :: []) ++ (later ++ [log.active])) := hkept
          have htrim : (writeEach first.offset
              boundary.encodesBlocks (first :: rest)).WellFormed := by
            have hpair := hwf.ordered.sublist hsub
            apply wellFormed_writeEach (hwf.offset_nonneg hfirst) hpair
            intro frame hframe
            rcases mem_cons.mp hframe with heq | hin
            · rw [heq]
            · exact ((pairwise_cons.mp hpair).1 frame hin).le
          apply hrun.replace htrim
          · simpa using hwf.base_le first hfirst
          · intro other hother
            rw [baseOffset_writeEach]
            exact ((pairwise_cons.mp hkept.increasing).1 other hother).2 first hfirst
          · intro frame hframe
            rw [frames_writeEach] at hframe
            simpa using hsub.subset hframe
      · exact hkept

theorem LogStep.ordered {log' : LogView} {op : LogOp} (hstep : LogStep log op log')
    (hordered : LogOrdered log.segments) : LogOrdered log'.segments := by
  cases op with
  | append block =>
    rw [hstep.2]
    exact append_ordered hordered hstep.1
  | roll encodesBlocks =>
    rw [hstep.2]
    exact roll_ordered hordered hstep.1 encodesBlocks
  | pass spec env =>
    obtain ⟨result, hpass, hlog⟩ := hstep
    rw [← hlog]
    exact compactSpec_ordered hordered hpass
  | consolidate chosen =>
    rw [show log' = _ from hstep]
    exact consolidate_ordered hordered chosen
  | offload tierOf =>
    rw [show log' = _ from hstep]
    exact offload_ordered hordered tierOf
  | reopen encodesBlocks pending =>
    rw [show log' = _ from hstep]
    exact reopen_ordered hordered encodesBlocks pending
  | join i count refreshFails =>
    rw [show log' = _ from hstep]
    exact join_ordered hordered i count refreshFails
  | truncate offset =>
    rw [show log' = _ from hstep]
    exact truncate_ordered hordered offset
  | truncateBefore minOffset =>
    rw [show log' = _ from hstep]
    exact truncateBefore_ordered hordered minOffset

end StepOrder

end CommitLog
