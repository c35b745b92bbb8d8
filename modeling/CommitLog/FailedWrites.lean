import CommitLog.Appends
import CommitLog.TornTail

/-!
# Appends that fail on the way

An append writes the log, then the index, then the history of leader epochs,
and each of these can fail.  The log file is only ever appended to, but the
position the next append counts from moves on after a whole write: what a
failed write leaves behind the position shifts everything that is written
after it.  Without such bytes an append may fail at any step.
-/

namespace CommitLog

open LogFile OpenSegment Runs
open List hiding set

/-! ## Writing with faults -/

/-- What fails in an append: the write to the log after some of its bytes, the
write of the index entries, or the note of a new leader epoch. -/
inductive WriteFault
  | log (bytes : ℕ)
  | index
  | epoch

inductive WriteError
  | messageSetRefused
  | logWrite
  | indexWrite
  | epochAssign
deriving DecidableEq, Repr

/-- The first bytes of a message set land at the end of the file.  Behind the
remains of another write nothing is a whole frame or block in its place. -/
def LogFile.writeBytes (file : LogFile) (blockMode : Bool) (set : DiskBlock)
    (bytes : ℕ) : LogFile :=
  match file.inMode blockMode with
  | .raw frames [] =>
    .raw (frames ++ (cutFrames bytes set.frames).1) (cutFrames bytes set.frames).2
  | .raw frames (cell :: tail) =>
    .raw frames (cell :: tail ++ (cellsOf set.frames).take bytes)
  | .blocks bs 0 =>
    if set.physLen ≤ bytes then .blocks (bs ++ [set]) 0
    else .blocks bs bytes
  | .blocks bs (torn + 1) =>
    .blocks bs (torn + 1 + min bytes set.physLen)

namespace OpenSegment

/-- `physPosition`, which the block table's extent follows. -/
def physPosition (seg : OpenSegment) : ℕ := (blockTableExtent seg.blocks).2

def physEnd (seg : OpenSegment) : ℕ :=
  if seg.blockMode then seg.physPosition else seg.position

/-- The bytes an append hands to the backing. -/
def writeLen (seg : OpenSegment) (set : DiskBlock) : ℕ :=
  if seg.blockMode then set.physLen else framingLen set.frames

/-- `write`, when every byte lands. -/
def write (seg : OpenSegment) (set : DiskBlock) : OpenSegment :=
  { seg with
    file := seg.file.writeBytes seg.blockMode set (seg.writeLen set)
    blocks := if seg.blockMode then
        seg.blocks ++ [refOf seg.position seg.physPosition set]
      else seg.blocks
    position := seg.position + framingLen set.frames
    firstOffset := if seg.firstOffset = -1 then set.first.offset
      else seg.firstOffset
    lastOffset := max seg.lastOffset (lastOfBlock set) }

/-- The entries an append adds to the index. -/
def newEntries (seg : OpenSegment) (set : DiskBlock) : List Entry :=
  if seg.blockMode then [entryAt seg.position set.first]
  else denseEntries seg.position set.frames

/-- `writeEntries`, behind a write that landed. -/
def writeIndexed (seg : OpenSegment) (set : DiskBlock) : OpenSegment :=
  { seg.write set with
    index := seg.index ++ (seg.newEntries set).map (Entry.stored seg.baseOffset) }

def appendSet (seg : OpenSegment) (set : DiskBlock)
    (fault : Option WriteFault) : Except WriteError (List ℤ) × OpenSegment :=
  if checkAppendedSet (seg.nextOffset - 1) set.frames then
    match fault with
    | some (.log bytes) =>
      (.error .logWrite, { seg with file := seg.file.writeBytes seg.blockMode set bytes })
    | some .index => (.error .indexWrite, seg.write set)
    | some .epoch => (.error .epochAssign, seg.writeIndexed set)
    | none => (.ok (set.frames.map Frame.offset), seg.writeIndexed set)
  else (.error .messageSetRefused, seg)

/-- Opening the segment again over its own files, with the block table an
earlier open may have left. -/
def reopen (stray : ℕ → Header) (seg : OpenSegment) (encodesBlocks : Bool)
    (sidecar : Option ℕ) (floor : ℤ) : Except OpenError OpenSegment :=
  openSegment stray seg.baseOffset encodesBlocks seg.file
    (seg.file.oldSidecar sidecar) seg.index floor

/-! ## Reading records -/

/-- The bytes of a record at a logical position. -/
def readCells (seg : OpenSegment) (pos len : ℕ) : Option (List Cell) :=
  if seg.blockMode then
    (findBlock seg.blocks pos).bind fun ref =>
      (seg.file.decodeBlock ref).bind fun data =>
        if data.length < pos - ref.logicalStart + len then none
        else some ((data.drop (pos - ref.logicalStart)).take len)
  else if seg.file.size < pos + len then none
  else some ((seg.file.rawCells.drop pos).take len)

/-- `Scan` with the records it hands out. -/
def scanRecords (stray : ℕ → Header) (seg : OpenSegment) : ℕ → ℕ → List (Entry × List Cell)
  | 0, _ => []
  | fuel + 1, pos =>
    match seg.headerAt stray pos with
    | none => []
    | some m =>
      -- A frame longer than what is left of the segment ends the scan.
      if seg.position < pos + msgSetHeaderLen + m.size then []
      else
        match seg.readCells pos (msgSetHeaderLen + m.size) with
        | none => []
        | some cells =>
          (Header.entry m pos, cells) :: seg.scanRecords stray fuel (pos + msgSetHeaderLen + m.size)

end OpenSegment

/-- What a scan of whole frames hands out. -/
def recordsFrom : ℕ → List Frame → List (Entry × List Cell)
  | _, [] => []
  | pos, frame :: frames =>
    (entryAt pos frame, frameCells frame) :: recordsFrom (pos + frame.length) frames

/-! ## Runs -/

/-- A segment, with the records of its successful appends and of all appends
that were tried. -/
structure FaultLog where
  seg : OpenSegment
  acked : List Frame
  handed : List Frame

inductive FaultOp
  | append (set : DiskBlock) (fault : Option WriteFault)
  | reopen (encodesBlocks : Bool) (sidecar : Option ℕ) (floor : ℤ)

def FaultLog.append (s : FaultLog) (set : DiskBlock) (fault : Option WriteFault) : FaultLog where
  seg := (s.seg.appendSet set fault).2
  acked :=
    match (s.seg.appendSet set fault).1 with
    | .ok _ => s.acked ++ set.frames
    | .error _ => s.acked
  handed := s.handed ++ set.frames

def FaultStep (stray : ℕ → Header) (s : FaultLog) (op : FaultOp) (s' : FaultLog) : Prop :=
  match op with
  | .append set fault => s' = s.append set fault
  | .reopen encodesBlocks sidecar floor =>
    ∃ seg, s.seg.reopen stray encodesBlocks sidecar floor = .ok seg ∧ s' = { s with seg := seg }

/-- An append finds the file as long as the segment's positions say, and its
index entries fit; a reopen does not find a torn tail below the watermark. -/
def FaultSafe (s : FaultLog) (op : FaultOp) : Prop :=
  match op with
  | .append set _ =>
    s.seg.file.size = s.seg.physEnd ∧ ∀ e ∈ s.seg.newEntries set, e.Fits s.seg.baseOffset
  | .reopen _ _ floor =>
    ¬ Refuses s.seg.baseOffset floor s.seg.file.frames s.seg.file.tail

/-- The record is found at a position with its own bytes. -/
def OpenSegment.HoldsAt (seg : OpenSegment) (e : Entry) (frame : Frame) : Prop :=
  ∃ pos, e = entryAt pos frame ∧ seg.readCells pos frame.length = some (frameCells frame)

/-- Every record of a successful append is found at its offset and by a scan,
with its own bytes; nothing but whole records is found, in the order of their
offsets. -/
structure FaultLog.Served (stray : ℕ → Header) (s : FaultLog) : Prop where
  seek : ∀ frame ∈ s.acked, ∃ e, s.seg.findEntry stray frame.offset = some e ∧ s.seg.HoldsAt e frame
  whole : ∀ offset e, s.seg.findEntry stray offset = some e →
    ∃ frame ∈ s.handed, s.seg.HoldsAt e frame
  scan : ∃ frames, s.seg.scanRecords stray (s.seg.position + 1) 0 = recordsFrom 0 frames ∧
      (frames.Pairwise fun a b => a.offset < b.offset) ∧
      (∀ frame ∈ s.acked, frame ∈ frames) ∧ ∀ frame ∈ frames, frame ∈ s.handed

/-! ## Files and modes -/

section Files

variable {file : LogFile} {mode : Bool}

theorem LogFile.frames_inMode (mode : Bool) (file : LogFile) :
    (file.inMode mode).frames = file.frames := by
  unfold inMode
  split
  · cases mode <;> rfl
  · cases mode <;> rfl
  · rfl

theorem LogFile.tail_inMode (mode : Bool) (file : LogFile) :
    (file.inMode mode).tail = file.tail := by
  unfold inMode
  split
  · cases mode <;> rfl
  · cases mode <;> rfl
  · rfl

theorem LogFile.rawCells_inMode (mode : Bool) (file : LogFile) :
    (file.inMode mode).rawCells = file.rawCells := by
  unfold inMode
  split
  · cases mode <;> rfl
  · cases mode <;> rfl
  · rfl

theorem LogFile.inMode_false_raw (frames : List Frame) (tail : List Cell) :
    (raw frames tail).inMode false = .raw frames tail := by
  cases frames <;> cases tail <;> rfl

theorem LogFile.inMode_true_blocks (bs : List DiskBlock) (torn : ℕ) :
    (blocks bs torn).inMode true = .blocks bs torn := by
  cases bs <;> cases torn <;> rfl

theorem LogFile.eq_nil_of_physLen {bs : List DiskBlock} (hlen : physLen bs = 0) : bs = [] := by
  cases bs with
  | nil => rfl
  | cons block bs =>
    have hpos := block.physLen_pos
    rw [physLen_cons] at hlen
    omega

theorem tableRight_oldSidecar (file : LogFile) (blocks : Option ℕ) :
    TableRight file (file.oldSidecar blocks) := by
  cases file with
  | raw frames tail => trivial
  | blocks bs torn =>
    intro table hside _ hextent
    rcases Option.map_eq_some_iff.mp hside with ⟨j, _, rfl⟩
    rw [blockTableExtent_tableOf] at hextent
    have hsplit := take_append_drop j bs
    have hphys := congrArg physLen hsplit
    rw [physLen_append] at hphys
    have hdrop : physLen (bs.drop j) = 0 := by
      simp only [size] at hextent
      omega
    rw [eq_nil_of_physLen hdrop, append_nil] at hsplit
    rw [hsplit]
    rfl

end Files

/-! ## What a run keeps -/

namespace FaultLog

/-- The records of the segment, and the whole records a failed write left
behind its end. -/
structure Kept (frames rest : List Frame) (s : FaultLog) : Prop where
  base_nonneg : 0 ≤ s.seg.baseOffset
  ordered : (frames ++ rest).Pairwise fun a b => a.offset < b.offset
  base_le : ∀ frame ∈ frames ++ rest, s.seg.baseOffset ≤ frame.offset
  lastOffset_eq : s.seg.lastOffset = lastOffsetOf frames
  acked_mem : ∀ frame ∈ s.acked, frame ∈ frames
  handed_mem : ∀ frame ∈ frames ++ rest, frame ∈ s.handed

/-- A raw segment.  The index may leave out records of failed appends. -/
structure RawKept (frames rest : List Frame) (tail : List Cell)
    (s : FaultLog) : Prop where
  blockMode_eq : s.seg.blockMode = false
  file_eq : s.seg.file.inMode false = .raw (frames ++ rest) tail
  tail_broken : TailBroken tail
  position_eq : s.seg.position = framingLen frames
  index_rising : s.seg.index.Pairwise fun a b => a.offset < b.offset
  index_mem : ∀ e ∈ s.seg.index, e ∈ denseEntries 0 frames
  index_acked : ∀ frame ∈ s.acked, ∃ e ∈ s.seg.index, e.offset = frame.offset
  fits : ∀ e ∈ denseEntries 0 (frames ++ rest), e.Fits s.seg.baseOffset

/-- A block segment.  After a reopen the anchors need not be in order: as many
blocks from the end are anchored again as anchors are missing. -/
structure BlocksKept (bs rest : List DiskBlock) (torn : ℕ)
    (s : FaultLog) : Prop where
  ready : BlocksReady s.seg.baseOffset bs s.seg
  file_eq : s.seg.file.inMode true = .blocks (bs ++ rest) torn
  index_mem : ∀ e ∈ s.seg.index, e ∈ anchorEntries 0 bs
  index_length : s.seg.index.length ≤ bs.length
  index_last : s.seg.index.length = bs.length → s.seg.index.getLast? = (anchorEntries 0 bs).getLast?
  index_acked : ∀ frame ∈ s.acked, ∃ e, s.seg.index.head? = some e ∧ e.offset ≤ frame.offset
  fits : ∀ e ∈ anchorEntries 0 (bs ++ rest), e.Fits s.seg.baseOffset

inductive Ok (s : FaultLog) : Prop
  | raw {frames rest : List Frame} {tail : List Cell} :
      Kept frames rest s → RawKept frames rest tail s → Ok s
  | blocks {bs rest : List DiskBlock} {torn : ℕ} :
      Kept (framesOf bs) (framesOf rest) s → BlocksKept bs rest torn s → Ok s

end FaultLog

/-! ## Reading what is kept -/

/-- The segment's bytes read as the frames; what comes behind them is not
said. -/
structure OpenSegment.Reads (stray : ℕ → Header) (frames : List Frame)
    (seg : OpenSegment) : Prop where
  headerAt_eq : ∀ done frame todo, frames = done ++ frame :: todo →
    seg.headerAt stray (framingLen done) = some frame.header
  readCells_eq : ∀ done frame todo, frames = done ++ frame :: todo →
    seg.readCells (framingLen done) frame.length = some (frameCells frame)
  position_eq : seg.position = framingLen frames

section Reading

variable {stray : ℕ → Header} {s : FaultLog} {seg : OpenSegment}
  {frames rest : List Frame} {tail : List Cell} {bs restBlocks : List DiskBlock}
  {torn : ℕ}

theorem take_drop_cellsOf (done : List Frame) (frame : Frame) (cells : List Cell) :
    ((cellsOf done ++ (frameCells frame ++ cells)).drop
      (framingLen done)).take frame.length = frameCells frame := by
  rw [← length_cellsOf, drop_left, ← length_frameCells, take_left]

theorem FaultLog.RawKept.reads (hraw : s.RawKept frames rest tail) : s.seg.Reads stray frames := by
  have hsize : s.seg.file.size = framingLen (frames ++ rest) + tail.length := by
    rw [← size_inMode false, hraw.file_eq]
    rfl
  have hmode : ¬ s.seg.blockMode = true := by simp [hraw.blockMode_eq]
  have hlong : ∀ done frame todo, frames = done ++ frame :: todo →
      framingLen done + frame.length ≤ s.seg.file.size := by
    intro done frame todo hframes
    rw [hsize, hframes]
    simp only [framingLen_append, framingLen_cons]
    omega
  have hcells : ∀ done frame todo, frames = done ++ frame :: todo →
      s.seg.file.rawCells = cellsOf done ++ (frameCells frame ++
        (cellsOf todo ++ (cellsOf rest ++ tail))) := by
    intro done frame todo hframes
    rw [← rawCells_inMode false, hraw.file_eq, hframes]
    simp [rawCells]
  constructor
  · intro done frame todo hframes
    have hle := hlong done frame todo hframes
    have hlen : frame.length = msgSetHeaderLen + frame.size := rfl
    unfold headerAt
    rw [if_neg hmode, if_neg (by omega), hcells done frame todo hframes]
    exact congrArg some (headerIn_start stray 0 done frame _)
  · intro done frame todo hframes
    have hle := hlong done frame todo hframes
    unfold readCells
    rw [if_neg hmode, if_neg (by omega), hcells done frame todo hframes, take_drop_cellsOf]
  · exact hraw.position_eq

theorem FaultLog.BlocksKept.reads (hblocks : s.BlocksKept bs restBlocks torn) :
    s.seg.Reads stray (framesOf bs) := by
  have hready := hblocks.ready
  constructor
  · exact hready.holds.headerAt_eq
  · intro done frame todo hframes
    rcases exists_block_split hframes with
      ⟨front, block, after, before, behind, hsplit, hblock, hdone, _⟩
    have hpos := frame.length_pos
    have hfind : findBlock s.seg.blocks (framingLen done) = some (refAfter front block) := by
      rw [hready.blocks_eq, hsplit, hdone]
      apply findBlock_tableOf
      · simp
      · simp only [hblock, framingLen_append, framingLen_cons]
        omega
    have hplace : framingLen done - (refAfter front block).logicalStart =
        framingLen before := by
      rw [hdone, framingLen_append]
      exact Nat.add_sub_cancel_left _ _
    unfold readCells
    rw [if_pos hready.blockMode_eq, hfind, Option.bind_some,
      hready.decode_eq front block after hsplit, Option.bind_some, hplace,
      hblock, cellsOf_append, cellsOf_cons, take_drop_cellsOf, if_neg]
    simp only [length_append, length_cellsOf, length_frameCells]
    omega
  · exact hready.position_eq

theorem OpenSegment.Reads.scanRecords_eq (hreads : seg.Reads stray frames) {done todo : List Frame}
    (hframes : frames = done ++ todo) {fuel : ℕ} (hfuel : todo.length < fuel) :
    seg.scanRecords stray fuel (framingLen done) = recordsFrom (framingLen done) todo := by
  induction todo generalizing done fuel with
  | nil =>
    cases fuel with
    | zero => exact absurd hfuel (by simp)
    | succ fuel =>
      rw [append_nil] at hframes
      rw [scanRecords]
      cases hheader : seg.headerAt stray (framingLen done) with
      | none => rfl
      | some m =>
        -- Whatever lies behind the last frame is past the position.
        have hend : seg.position < framingLen done + msgSetHeaderLen + m.size := by
          have hheaderLen : 0 < msgSetHeaderLen := by decide
          rw [hreads.position_eq, hframes]
          omega
        simp only
        rw [if_pos hend]
        rfl
  | cons frame todo ih =>
    cases fuel with
    | zero => exact absurd hfuel (by simp)
    | succ fuel =>
      have hnext := @ih (done ++ [frame]) (by simp [hframes]) fuel (by simpa using hfuel)
      have hlen : msgSetHeaderLen + frame.header.size = frame.length :=
        rfl
      have hfits : ¬ seg.position < framingLen done + msgSetHeaderLen + frame.header.size := by
        rw [hreads.position_eq, hframes, Nat.add_assoc, hlen]
        simp only [framingLen_append, framingLen_cons]
        omega
      rw [framingLen_append, framingLen_cons, framingLen_nil, Nat.add_zero] at hnext
      rw [scanRecords, hreads.headerAt_eq done frame todo hframes]
      simp only
      rw [if_neg hfits, hlen, hreads.readCells_eq done frame todo hframes]
      simp only [header_entry, recordsFrom]
      rw [Nat.add_assoc, hlen, hnext]

theorem OpenSegment.Reads.scan_eq (hreads : seg.Reads stray frames) :
    seg.scanRecords stray (seg.position + 1) 0 = recordsFrom 0 frames := by
  have hle := length_le_framingLen frames
  apply @OpenSegment.Reads.scanRecords_eq stray seg frames hreads [] frames rfl
  rw [hreads.position_eq]
  omega

theorem OpenSegment.Reads.holdsAt (hreads : seg.Reads stray frames) {done todo : List Frame}
    {frame : Frame} (hframes : frames = done ++ frame :: todo) :
    seg.HoldsAt (entryAt (framingLen done) frame) frame :=
  ⟨_, rfl, hreads.readCells_eq done frame todo hframes⟩

theorem denseEntries_rising {pos : ℕ} {frames : List Frame}
    (hordered : frames.Pairwise fun a b => a.offset < b.offset) :
    (denseEntries pos frames).Pairwise fun a b => a.offset < b.offset := by
  induction frames generalizing pos with
  | nil => exact Pairwise.nil
  | cons frame frames ih =>
    have hparts := pairwise_cons.mp hordered
    apply pairwise_cons.mpr
    constructor
    · intro e he
      rcases offset_of_mem_denseEntries he with ⟨other, hother, heq⟩
      rw [heq]
      exact hparts.1 other hother
    · exact ih hparts.2

theorem findEntry_of_mem {e : Entry} (hmode : seg.blockMode = false)
    (hrising : seg.index.Pairwise fun a b => a.offset < b.offset)
    (hmem : e ∈ seg.index) : seg.findEntry stray e.offset = some e := by
  rcases append_of_mem hmem with ⟨front, behind, hsplit⟩
  rw [hsplit] at hrising
  have hsides := pairwise_append.mp hrising
  unfold findEntry
  rw [if_neg (by simp [hmode]), hsplit, SortSearch.search_append]
  · rw [getElem?_append_right le_rfl, Nat.sub_self]
    rfl
  · intro other hother
    have hlt := hsides.2.2 other hother e mem_cons_self
    simp only [decide_eq_false_iff_not]
    omega
  · intro other hother
    rw [decide_eq_true_eq]
    rcases mem_cons.mp hother with rfl | hother
    · exact le_rfl
    · exact ((pairwise_cons.mp hsides.2.1).1 other hother).le

theorem FaultLog.RawKept.served (hraw : s.RawKept frames rest tail)
    (hkept : s.Kept frames rest) : s.Served stray := by
  have hreads : s.seg.Reads stray frames := hraw.reads
  have hordered := (pairwise_append.mp hkept.ordered).1
  constructor
  · intro frame hframe
    rcases hraw.index_acked frame hframe with ⟨e, he, hoffset⟩
    have hfind := @findEntry_of_mem stray s.seg e hraw.blockMode_eq hraw.index_rising he
    rcases mem_denseEntries.mp (hraw.index_mem e he) with
      ⟨done, other, todo, hframes, heq⟩
    have hsame : other = frame := by
      apply eq_of_offset_eq_of_pairwise hordered
      · simp [hframes]
      · exact hkept.acked_mem frame hframe
      · rw [← hoffset, heq]
        rfl
    rw [hsame] at hframes heq
    rw [Nat.zero_add] at heq
    rw [hoffset] at hfind
    refine ⟨e, hfind, ?_⟩
    rw [heq]
    exact hreads.holdsAt hframes
  · intro offset e hfind
    unfold findEntry at hfind
    rw [if_neg (by simp [hraw.blockMode_eq])] at hfind
    have he := mem_of_getElem? hfind
    rcases mem_denseEntries.mp (hraw.index_mem e he) with
      ⟨done, frame, todo, hframes, heq⟩
    rw [Nat.zero_add] at heq
    refine ⟨frame, hkept.handed_mem frame (by simp [hframes]), ?_⟩
    rw [heq]
    exact hreads.holdsAt hframes
  · exact ⟨frames, hreads.scan_eq, hordered, hkept.acked_mem, fun frame hframe =>
        hkept.handed_mem frame (mem_append_left _ hframe)⟩

theorem OpenSegment.Holds.mem_of_scanForward (hholds : Holds stray frames seg) {offset : ℤ}
    {e : Entry} {fuel : ℕ} {done todo : List Frame} (hframes : frames = done ++ todo)
    (hfind : seg.scanForward stray offset fuel (framingLen done) = some e) :
    ∃ before frame after, frames = before ++ frame :: after ∧
      e = entryAt (framingLen before) frame := by
  induction todo generalizing done fuel with
  | nil =>
    rw [append_nil] at hframes
    cases fuel with
    | zero => cases hfind
    | succ fuel =>
      rw [scanForward, ← hframes, hholds.headerAt_end] at hfind
      cases hfind
  | cons frame todo ih =>
    cases fuel with
    | zero => cases hfind
    | succ fuel =>
      rw [scanForward, hholds.headerAt_eq done frame todo hframes] at hfind
      simp only [header_entry] at hfind
      by_cases hat : offset ≤ frame.header.offset
      · rw [if_pos hat] at hfind
        exact ⟨done, frame, todo, hframes, (Option.some.inj hfind).symm⟩
      · rw [if_neg hat, show framingLen done + msgSetHeaderLen +
          frame.header.size = framingLen (done ++ [frame]) by
            simp [Frame.header, Frame.length, Nat.add_assoc]] at hfind
        exact ih (by simp [hframes]) hfind

theorem FaultLog.BlocksKept.anchorPosition_start
    (hblocks : s.BlocksKept bs restBlocks torn) (offset : ℤ) :
    ∃ front behind, bs = front ++ behind ∧
      s.seg.anchorPosition offset = framingLen (framesOf front) := by
  unfold anchorPosition
  simp only
  generalize SortSearch.search s.seg.index.length _ = i
  cases hentry : s.seg.index[i - 1]? with
  | none => exact ⟨[], bs, rfl, rfl⟩
  | some e =>
    rcases mem_anchorEntries.mp (hblocks.index_mem e (mem_of_getElem? hentry)) with
      ⟨front, block, behind, hsplit, rfl⟩
    refine ⟨front, block :: behind, hsplit, ?_⟩
    rw [Nat.zero_add]
    rfl

theorem FaultLog.BlocksKept.anchorPosition_le
    (hblocks : s.BlocksKept bs restBlocks torn) {offset : ℤ} {first : Entry}
    (hhead : s.seg.index.head? = some first) (hle : first.offset ≤ offset) :
    ∃ front block behind, bs = front ++ block :: behind ∧ block.first.offset ≤ offset ∧
      s.seg.anchorPosition offset = framingLen (framesOf front) := by
  have hbound := SortSearch.search_boundary s.seg.index.length fun i =>
    (s.seg.index[i]?).any fun e => decide (offset < e.offset)
  unfold anchorPosition
  simp only
  generalize SortSearch.search s.seg.index.length _ = i at hbound
  rcases hbound with ⟨hleft, hright, hi⟩
  have hnonempty : 0 < s.seg.index.length := by
    apply length_pos_of_ne_nil
    intro hnil
    rw [hnil] at hhead
    cases hhead
  have hpos : i ≠ 0 := by
    intro hzero
    have htrue := hright (by omega)
    rw [hzero, ← head?_eq_getElem?, hhead] at htrue
    simp only [Option.any_some, decide_eq_true_eq] at htrue
    omega
  have hfalse := hleft.resolve_left hpos
  have hlt : i - 1 < s.seg.index.length := by omega
  rw [getElem?_eq_getElem hlt] at hfalse ⊢
  simp only [Option.any_some, decide_eq_false_iff_not, not_lt] at hfalse
  rcases mem_anchorEntries.mp (hblocks.index_mem _ (getElem_mem hlt)) with
    ⟨front, block, behind, hsplit, heq⟩
  rw [heq] at hfalse
  refine ⟨front, block, behind, hsplit, hfalse, ?_⟩
  rw [heq, Nat.zero_add]
  rfl

theorem FaultLog.BlocksKept.served (hblocks : s.BlocksKept bs restBlocks torn)
    (hkept : s.Kept (framesOf bs) (framesOf restBlocks)) : s.Served stray := by
  have hreads : s.seg.Reads stray (framesOf bs) := hblocks.reads
  have hholds : Holds stray (framesOf bs) s.seg := hblocks.ready.holds
  have hordered := (pairwise_append.mp hkept.ordered).1
  constructor
  · intro frame hframe
    rcases hblocks.index_acked frame hframe with ⟨first, hhead, hle⟩
    rcases hblocks.anchorPosition_le hhead hle with
      ⟨front, block, behind, hsplit, hblock, hanchor⟩
    have hmem := hkept.acked_mem frame hframe
    rw [hsplit, framesOf_append] at hmem hordered
    have hsides := pairwise_append.mp hordered
    -- The record is in the anchor's block or behind it.
    have hbehind : frame ∈ framesOf (block :: behind) := by
      rcases mem_append.mp hmem with hfront | hmem
      · have hlt := hsides.2.2 frame hfront block.first (first_mem_framesOf mem_cons_self)
        omega
      · exact hmem
    rcases append_of_mem hbehind with ⟨below, after, hplace⟩
    have hframes : framesOf bs = framesOf front ++ below ++ frame :: after := by
      rw [hsplit, framesOf_append, hplace, append_assoc]
    rw [hplace] at hsides
    have hscan := @Holds.scanForward_eq stray (framesOf bs) (framesOf front)
      after s.seg hholds frame.offset below frame hframes
      (fun other hother => (pairwise_append.mp hsides.2.1).2.2 other
        hother frame mem_cons_self) le_rfl (s.seg.position + 1) (by
        have hle := length_le_framingLen (framesOf bs)
        have hlen := congrArg length hframes
        simp only [length_append, length_cons] at hlen
        rw [hreads.position_eq]
        omega)
    refine ⟨entryAt (framingLen (framesOf front ++ below)) frame, ?_, hreads.holdsAt hframes⟩
    unfold findEntry
    rw [if_pos hblocks.ready.blockMode_eq, hanchor, if_neg (by omega), Int.toNat_natCast]
    exact hscan
  · intro offset e hfind
    rcases hblocks.anchorPosition_start offset with
      ⟨front, behind, hsplit, hanchor⟩
    unfold findEntry at hfind
    rw [if_pos hblocks.ready.blockMode_eq, hanchor, if_neg (by omega), Int.toNat_natCast] at hfind
    rcases hholds.mem_of_scanForward (show framesOf bs = framesOf front ++ framesOf behind by
          rw [hsplit, framesOf_append]) hfind with
      ⟨before, frame, after, hframes, rfl⟩
    refine ⟨frame, hkept.handed_mem frame ?_, hreads.holdsAt hframes⟩
    apply mem_append_left
    simp [hframes]
  · exact ⟨framesOf bs, hreads.scan_eq, hordered, hkept.acked_mem, fun frame hframe =>
        hkept.handed_mem frame (mem_append_left _ hframe)⟩

theorem FaultLog.Ok.served (hok : s.Ok) : s.Served stray := by
  cases hok with
  | raw hkept hraw => exact hraw.served hkept
  | blocks hkept hblocks => exact hblocks.served hkept

end Reading

end CommitLog
