import CommitLog.SortSearch
import CommitLog.TieredReads

/-!
# Opening a segment

A segment is opened from three files that can disagree after a crash: the log,
which may end inside a frame or a block; the index, which may be behind or
ahead of the log or belong to another one; and the sidecar with the block
table.  Headers are read at positions the index names, so where a stale index
points between frames the bytes found there are arbitrary: `stray` gives what
they read as.
-/

namespace CommitLog

/-! ## Index entries -/

structure Entry where
  offset : ℤ
  timestamp : ℤ
  position : ℤ
  size : ℤ
deriving DecidableEq

/-- The conversion to `int32`. -/
def int32 (x : ℤ) : ℤ := Int.bmod x (2 ^ 32)

/-- What an entry reads back as once the index holds it: `newRelEntry`, then
`fill`. -/
def Entry.stored (base : ℤ) (e : Entry) : Entry :=
  ⟨base + int32 (e.offset - base), e.timestamp, int32 e.position, int32 e.size⟩

def entryAt (pos : ℕ) (frame : Frame) : Entry :=
  ⟨frame.offset, frame.timestamp, pos, frame.length⟩

def denseEntries : ℕ → List Frame → List Entry
  | _, [] => []
  | pos, frame :: frames =>
    entryAt pos frame :: denseEntries (pos + frame.length) frames

/-! ## The files -/

/-- What a block header says besides the lengths. -/
structure BlockKind where
  version : BlockVersion
  codec : ℕ
  flags : ℕ
deriving DecidableEq

structure DiskBlock where
  kind : BlockKind
  physLen : ℕ
  first : Frame
  others : List Frame
  physLen_pos : 0 < physLen

def DiskBlock.frames (block : DiskBlock) : List Frame :=
  block.first :: block.others

/-- `blockRef`. -/
structure BlockRef where
  logicalStart : ℕ
  logicalLen : ℕ
  physStart : ℕ
  physLen : ℕ
  records : ℕ
  kind : BlockKind
deriving DecidableEq

def refOf (logical phys : ℕ) (block : DiskBlock) : BlockRef :=
  ⟨logical, framingLen block.frames, phys, block.physLen, block.frames.length, block.kind⟩

def tableOf : ℕ → ℕ → List DiskBlock → List BlockRef
  | _, _, [] => []
  | logical, phys, block :: blocks =>
    refOf logical phys block :: tableOf (logical + framingLen block.frames) (phys + block.physLen)
        blocks

def blockTableExtent (table : List BlockRef) : ℕ × ℕ :=
  match table.getLast? with
  | none => (0, 0)
  | some last =>
    (last.logicalStart + last.logicalLen, last.physStart + last.physLen)

def anchorEntries : ℕ → List DiskBlock → List Entry
  | _, [] => []
  | pos, block :: blocks =>
    entryAt pos block.first :: anchorEntries (pos + framingLen block.frames) blocks

/-- A log file: whole frames and the cells of a broken-off one, or whole
blocks and the bytes of a broken-off one. -/
inductive LogFile
  | raw (frames : List Frame) (tail : List Cell)
  | blocks (blocks : List DiskBlock) (torn : ℕ)

namespace LogFile

def frames : LogFile → List Frame
  | .raw frames _ => frames
  | .blocks bs _ => bs.flatMap DiskBlock.frames

def physLen (bs : List DiskBlock) : ℕ := (bs.map DiskBlock.physLen).sum

def size : LogFile → ℕ
  | .raw frames tail => framingLen frames + tail.length
  | .blocks bs torn => physLen bs + torn

def rawCells : LogFile → List Cell
  | .raw frames tail => cellsOf frames ++ tail
  | .blocks _ _ => []

def table : LogFile → List BlockRef
  | .raw _ _ => []
  | .blocks bs _ => tableOf 0 0 bs

def entries : LogFile → List Entry
  | .raw frames _ => denseEntries 0 frames
  | .blocks bs _ => anchorEntries 0 bs

/-- `decodeBlock`.  Bytes at a place where no block of this shape is stored do
not decode. -/
def decodeBlock (file : LogFile) (ref : BlockRef) : Option (List Cell) :=
  match file with
  | .raw _ _ => none
  | .blocks bs _ =>
    (((tableOf 0 0 bs).zip bs).find? fun pair =>
      decide (pair.1 = ref)).map fun pair => cellsOf pair.2.frames

end LogFile

/-- A block of small records. -/
def diskBlock (first : ℤ) (others : List ℤ) : DiskBlock :=
  ⟨⟨.v2, 0, 0⟩, 100, storedFrame first, others.map storedFrame, by omega⟩

/-- One block per first offset and the offsets behind it. -/
def blockFile (groups : List (ℤ × List ℤ)) : LogFile :=
  .blocks (groups.map fun group => diskBlock group.1 group.2) 0

def rawFile (offsets : List ℤ) : LogFile := .raw (offsets.map storedFrame) []

/-- An empty file is written in the mode its segment was opened in. -/
def LogFile.inMode (blockMode : Bool) : LogFile → LogFile
  | .raw [] [] => if blockMode then .blocks [] 0 else .raw [] []
  | .blocks [] 0 => if blockMode then .blocks [] 0 else .raw [] []
  | file => file

/-- A message set at the end of a file, as frames or as a block of its own. -/
def LogFile.writeSet (file : LogFile) (blockMode : Bool) (set : DiskBlock) : LogFile :=
  match file.inMode blockMode with
  | .raw frames tail => .raw (frames ++ set.frames) tail
  | .blocks bs torn => .blocks (bs ++ [set]) torn

/-- The whole frames within the first `n` bytes, and what is left of the frame
the cut falls into. -/
def cutFrames : ℕ → List Frame → List Frame × List Cell
  | _, [] => ([], [])
  | n, frame :: frames =>
    if frame.length ≤ n then
      (frame :: (cutFrames (n - frame.length) frames).1, (cutFrames (n - frame.length) frames).2)
    else ([], (frameCells frame).take n)

/-- `os.Truncate` on a raw log. -/
def LogFile.truncate (file : LogFile) (n : ℕ) : LogFile :=
  match file with
  | .raw frames tail =>
    if n ≤ framingLen frames then
      .raw (cutFrames n frames).1 (cutFrames n frames).2
    else .raw frames (tail.take (n - framingLen frames))
  | .blocks bs torn => .blocks bs torn

/-! ## Reading headers -/

structure Header where
  offset : ℤ
  timestamp : ℤ
  size : ℕ

def Frame.header (frame : Frame) : Header :=
  ⟨frame.offset, frame.timestamp, frame.size⟩

/-- The header at a place of a run of cells that starts at `start`. -/
def headerIn (stray : ℕ → Header) (start : ℕ) (cells : List Cell) (pos : ℕ) : Header :=
  match cells[pos]? with
  | some cell =>
    if cell.index = 0 then cell.frame.header else stray (start + pos)
  | none => stray (start + pos)

structure OpenSegment where
  baseOffset : ℤ
  file : LogFile
  blockMode : Bool
  blocks : List BlockRef
  position : ℕ
  droppedTornTail : Bool
  index : List Entry
  firstOffset : ℤ
  lastOffset : ℤ

inductive OpenError
  | indexCorrupt
  | readFailed
  | tornBelowWatermark
deriving DecidableEq, Repr

def findBlock (table : List BlockRef) (logical : ℕ) : Option BlockRef :=
  match table[SortSearch.search table.length fun i =>
      (table[i]?).any fun ref =>
        decide (logical < ref.logicalStart + ref.logicalLen)]? with
  | none => none
  | some ref => if logical < ref.logicalStart then none else some ref

namespace OpenSegment

variable (stray : ℕ → Header)

/-- `initPositions`.  The codec and format decide the mode of an empty file;
a table that accounts for the file's size is believed. -/
def initPositions (base : ℤ) (encodesBlocks : Bool) (file : LogFile)
    (sidecar : Option (List BlockRef)) : OpenSegment :=
  if file.size = 0 then
    ⟨base, file, encodesBlocks, [], 0, false, [], -1, -1⟩
  else
    match file with
    | .raw _ _ => ⟨base, file, false, [], file.size, false, [], -1, -1⟩
    | .blocks bs torn =>
      match sidecar.filter fun table =>
          decide ((blockTableExtent table).2 = file.size) with
      | some table =>
        ⟨base, file, true, table, (blockTableExtent table).1, false, [], -1, -1⟩
      | none =>
        ⟨base, .blocks bs 0, true, tableOf 0 0 bs,
          (blockTableExtent (tableOf 0 0 bs)).1, decide (torn ≠ 0), [],
          -1, -1⟩

def frameOffsetAt (seg : OpenSegment) (pos : ℤ) : Option ℤ :=
  if pos < 0 then none
  else if seg.blockMode then
    (findBlock seg.blocks pos.toNat).bind fun ref =>
      (seg.file.decodeBlock ref).bind fun data =>
        if data.length < pos.toNat - ref.logicalStart + msgSetHeaderLen then
          none
        else some (headerIn stray ref.logicalStart data (pos.toNat - ref.logicalStart)).offset
  else if seg.file.size < pos.toNat + msgSetHeaderLen then none
  else some (headerIn stray 0 seg.file.rawCells pos.toNat).offset

def indexOvershootsLog (seg : OpenSegment) (last : Entry) : Bool :=
  if seg.blockMode then decide ((seg.position : ℤ) ≤ last.position)
  else decide ((seg.position : ℤ) < last.position + last.size)

/-- The deepest entry that fits into the log is checked against the frame it
points at. -/
def indexDescribesLog (seg : OpenSegment) : Bool :=
  match seg.index.reverse.find? fun e =>
      decide (e.position + e.size ≤ (seg.position : ℤ)) with
  | none => false
  | some e => decide (seg.frameOffsetAt stray e.position = some e.offset)

def rebuildOverIndex (seg : OpenSegment) : Bool :=
  seg.droppedTornTail || !seg.blockMode || !seg.indexDescribesLog stray

/-- The frames of `lastFrameInBlock`, from a place in the block on. -/
def lastFrameLoop (start : ℕ) (data : List Cell) : ℕ → ℕ → Option ℤ → Option ℤ
  | 0, _, last => last
  | fuel + 1, pos, last =>
    if pos + msgSetHeaderLen ≤ data.length then
      let m := headerIn stray start data pos
      lastFrameLoop start data fuel (pos + msgSetHeaderLen + m.size) (some m.offset)
    else last

/-- `lastFrameInBlock`: the offset of the last frame of the block at a logical
position. -/
def lastFrameInBlock (seg : OpenSegment) (start : ℤ) :
    Except OpenError ℤ :=
  if start < 0 then .error .indexCorrupt
  else
    match findBlock seg.blocks start.toNat with
    | none => .error .indexCorrupt
    | some ref =>
      match seg.file.decodeBlock ref with
      | none => .error .readFailed
      | some data =>
        match lastFrameLoop stray ref.logicalStart data
            (data.length + 1) (start.toNat - ref.logicalStart) none with
        | none => .error .indexCorrupt
        | some offset => .ok offset

/-! ## Filling up the index -/

def writeEntry (seg : OpenSegment) (e : Entry) : OpenSegment :=
  { seg with
    index := seg.index ++ [e.stored seg.baseOffset]
    firstOffset := if seg.firstOffset = -1 then e.offset
      else seg.firstOffset }

structure RawWalk where
  seg : OpenSegment
  startPos : ℕ
  torn : Bool

/-- The loop of `reconcileIndexTailRaw`. -/
def walkRaw : ℕ → ℕ → OpenSegment → RawWalk
  | 0, startPos, seg => ⟨seg, startPos, false⟩
  | fuel + 1, startPos, seg =>
    if seg.position ≤ startPos then ⟨seg, startPos, false⟩
    else if seg.position < startPos + msgSetHeaderLen then
      ⟨seg, startPos, true⟩
    else
      let m := headerIn stray 0 seg.file.rawCells startPos
      if seg.position < startPos + msgSetHeaderLen + m.size then
        ⟨seg, startPos, true⟩
      else
        walkRaw fuel (startPos + msgSetHeaderLen + m.size)
          { seg.writeEntry ⟨m.offset, m.timestamp, startPos,
              msgSetHeaderLen + m.size⟩ with lastOffset := m.offset }

def walkStart (seg : OpenSegment) : ℤ :=
  match seg.index.getLast? with
  | none => 0
  | some last => last.position + last.size

def reconcileIndexTailRaw (seg : OpenSegment) (committedThrough : ℤ) :
    Except OpenError OpenSegment :=
  if seg.walkStart < 0 then .error .readFailed
  else
    let walk := walkRaw stray (seg.position + 1) seg.walkStart.toNat seg
    if walk.torn = false then .ok walk.seg
    else if seg.baseOffset ≤ committedThrough ∧ walk.seg.lastOffset < committedThrough then
      .error .tornBelowWatermark
    else
      .ok { walk.seg with
        file := walk.seg.file.truncate walk.startPos
        position := walk.startPos }

/-- The loop of `reconcileIndexTailBlocks` over the blocks without an
anchor. -/
def anchorBlocks : List BlockRef → OpenSegment → Except OpenError OpenSegment
  | [], seg => .ok seg
  | ref :: refs, seg =>
    match seg.file.decodeBlock ref with
    | none => .error .readFailed
    | some data =>
      if data.length < msgSetHeaderLen then .ok seg
      else
        let m := headerIn stray ref.logicalStart data 0
        anchorBlocks refs (seg.writeEntry ⟨m.offset, m.timestamp, ref.logicalStart,
            msgSetHeaderLen + m.size⟩)

def reconcileIndexTailBlocks (seg : OpenSegment) :
    Except OpenError OpenSegment :=
  match seg.blocks.drop seg.index.length, seg.blocks.getLast? with
  | ref :: refs, some last =>
    match anchorBlocks stray (ref :: refs) seg with
    | .error e => .error e
    | .ok seg =>
      match seg.lastFrameInBlock stray last.logicalStart with
      | .error e => .error e
      | .ok offset => .ok { seg with lastOffset := offset }
  | _, _ => .ok seg

def reconcileIndexTail (seg : OpenSegment) (committedThrough : ℤ) :
    Except OpenError OpenSegment :=
  if seg.blockMode then seg.reconcileIndexTailBlocks stray
  else seg.reconcileIndexTailRaw stray committedThrough

def rebuildIndexFromLog (seg : OpenSegment) :
    Except OpenError OpenSegment :=
  { seg with index := [], firstOffset := -1, lastOffset := -1 }
    |>.reconcileIndexTail stray (-1)

/-- `setupIndex` on the entries the index file holds. -/
def setupIndex (seg : OpenSegment) (index : List Entry) :
    Except OpenError OpenSegment :=
  let seg := { seg with index := index }
  match index.head?, index.getLast? with
  | some first, some last =>
    if last.offset < seg.baseOffset then .error .indexCorrupt
    else if seg.indexOvershootsLog last && seg.rebuildOverIndex stray then
      seg.rebuildIndexFromLog stray
    else if seg.blockMode then
      match seg.lastFrameInBlock stray last.position with
      | .error e => .error e
      | .ok offset =>
        .ok { seg with firstOffset := first.offset, lastOffset := offset }
    else
      .ok { seg with
        firstOffset := first.offset
        lastOffset := last.offset }
  | _, _ => .ok seg

/-- `setupIndex`, then the reconciliation of the index tail. -/
def setupAndReconcile (seg : OpenSegment) (index : List Entry)
    (committedThrough : ℤ) : Except OpenError OpenSegment :=
  match seg.setupIndex stray index with
  | .error e => .error e
  | .ok seg => seg.reconcileIndexTail stray committedThrough

end OpenSegment

def openSegment (stray : ℕ → Header) (base : ℤ) (encodesBlocks : Bool)
    (file : LogFile) (sidecar : Option (List BlockRef)) (index : List Entry)
    (committedThrough : ℤ) : Except OpenError OpenSegment :=
  (OpenSegment.initPositions base encodesBlocks file sidecar).setupAndReconcile
    stray index committedThrough

/-! ## Using an open segment -/

namespace OpenSegment

variable (stray : ℕ → Header)

/-- `NextOffset`. -/
def nextOffset (seg : OpenSegment) : ℤ :=
  if seg.lastOffset = -1 then seg.baseOffset else seg.lastOffset + 1

def lastOfBlock (block : DiskBlock) : ℤ :=
  (block.others.getLast?.map Frame.offset).getD block.first.offset

/-- `WriteMessageSet`: a raw segment gets an entry per frame, a block segment
one for the block. -/
def writeMessageSet (seg : OpenSegment) (set : DiskBlock) : OpenSegment :=
  { seg with
    file := seg.file.writeSet seg.blockMode set
    blocks := if seg.blockMode then
        seg.blocks ++ [refOf seg.position seg.file.size set]
      else seg.blocks
    position := seg.position + framingLen set.frames
    index := seg.index ++ (if seg.blockMode then
        [entryAt seg.position set.first]
      else denseEntries seg.position set.frames).map (Entry.stored seg.baseOffset)
    firstOffset := if seg.firstOffset = -1 then set.first.offset
      else seg.firstOffset
    lastOffset := lastOfBlock set }

def headerAt (seg : OpenSegment) (pos : ℕ) : Option Header :=
  if seg.blockMode then
    (findBlock seg.blocks pos).bind fun ref =>
      (seg.file.decodeBlock ref).map fun data =>
        headerIn stray ref.logicalStart data (pos - ref.logicalStart)
  else if seg.file.size < pos + msgSetHeaderLen then none
  else some (headerIn stray 0 seg.file.rawCells pos)

def Header.entry (m : Header) (pos : ℕ) : Entry :=
  ⟨m.offset, m.timestamp, pos, msgSetHeaderLen + m.size⟩

/-- `Scan` until the end of the segment. -/
def scanFrom (seg : OpenSegment) : ℕ → ℕ → List Entry
  | 0, _ => []
  | fuel + 1, pos =>
    match seg.headerAt stray pos with
    | none => []
    | some m =>
      Header.entry m pos :: seg.scanFrom fuel (pos + msgSetHeaderLen + m.size)

def scanAll (seg : OpenSegment) : List Entry :=
  seg.scanFrom stray (seg.position + 1) 0

/-- `scanForward` to the first offset at or above the target. -/
def scanForward (seg : OpenSegment) (offset : ℤ) : ℕ → ℕ → Option Entry
  | 0, _ => none
  | fuel + 1, pos =>
    match seg.headerAt stray pos with
    | none => none
    | some m =>
      if offset ≤ m.offset then some (Header.entry m pos)
      else seg.scanForward offset fuel (pos + msgSetHeaderLen + m.size)

/-- `anchorPositionForOffset`. -/
def anchorPosition (seg : OpenSegment) (offset : ℤ) : ℤ :=
  let i := SortSearch.search seg.index.length fun i =>
    (seg.index[i]?).any fun e => decide (offset < e.offset)
  match seg.index[i - 1]? with
  | none => 0
  | some e => e.position

/-- `findEntry`. -/
def findEntry (seg : OpenSegment) (offset : ℤ) : Option Entry :=
  if seg.blockMode then
    if seg.anchorPosition offset < 0 then none
    else seg.scanForward stray offset (seg.position + 1) (seg.anchorPosition offset).toNat
  else
    seg.index[SortSearch.search seg.index.length fun i =>
      (seg.index[i]?).any fun e => decide (offset ≤ e.offset)]?

end OpenSegment

end CommitLog
