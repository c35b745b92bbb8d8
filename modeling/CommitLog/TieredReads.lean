import CommitLog.BlockSpace
import CommitLog.Segments

/-!
# Reading an offloaded segment

A stored object is a byte space of frames, raw or in blocks.  Readers keep a
logical position, a read-ahead buffer and the segment's decode cache; a
scanner keeps a position, a cache of its pass and the object it was opened on.
Bytes are followed as cells that name their frame, so that a header checksum
accepts exactly the header cells of one frame.
-/

namespace CommitLog

open List

/-! ## Cells -/

/-- A byte of the framing: the frame it belongs to and its place in it. -/
structure Cell where
  frame : Frame
  index : ℕ
deriving DecidableEq

def frameCells (frame : Frame) : List Cell :=
  (range frame.length).map (Cell.mk frame)

def cellsOf (frames : List Frame) : List Cell :=
  frames.flatMap frameCells

@[simp] theorem length_frameCells (frame : Frame) : (frameCells frame).length = frame.length := by
  simp [frameCells]

@[simp] theorem cellsOf_nil : cellsOf [] = [] := rfl

@[simp] theorem cellsOf_cons (frame : Frame) (frames : List Frame) :
    cellsOf (frame :: frames) = frameCells frame ++ cellsOf frames := rfl

@[simp] theorem cellsOf_append (frames frames' : List Frame) :
    cellsOf (frames ++ frames') = cellsOf frames ++ cellsOf frames' := by
  simp [cellsOf]

@[simp] theorem length_cellsOf (frames : List Frame) :
    (cellsOf frames).length = framingLen frames := by
  induction frames with
  | nil => rfl
  | cons frame frames ih => simp [ih]

theorem head?_frameCells (frame : Frame) : (frameCells frame).head? = some ⟨frame, 0⟩ := by
  have hpos := frame.length_pos
  obtain ⟨n, hn⟩ : ∃ n, frame.length = n + 1 :=
    ⟨frame.length - 1, by omega⟩
  simp [frameCells, hn, range_succ_eq_map]

theorem eq_cons_of_head?_cellsOf {frames : List Frame} {cell : Cell}
    (hhead : (cellsOf frames).head? = some cell) : ∃ rest, frames = cell.frame :: rest := by
  cases frames with
  | nil => simp at hhead
  | cons frame rest =>
    rw [cellsOf_cons, head?_append, head?_frameCells] at hhead
    cases hhead
    exact ⟨rest, rfl⟩

theorem prefix_of_cellsOf_prefix {frames frames' : List Frame}
    (hfront : cellsOf frames <+: cellsOf frames') : frames <+: frames' := by
  induction frames generalizing frames' with
  | nil => exact nil_prefix
  | cons frame frames ih =>
    obtain ⟨more, hmore⟩ := hfront
    have hhead : (cellsOf frames').head? = some ⟨frame, 0⟩ := by
      rw [← hmore, cellsOf_cons, append_assoc, head?_append, head?_frameCells]
      rfl
    obtain ⟨rest, hrest⟩ := eq_cons_of_head?_cellsOf hhead
    rw [hrest, cellsOf_cons, cellsOf_cons, append_assoc] at hmore
    have htail : cellsOf frames <+: cellsOf rest :=
      ⟨more, append_cancel_left hmore⟩
    rw [hrest]
    exact prefix_cons_inj frame |>.mpr (ih htail)

/-! ## Stored objects -/

structure StoredBlock where
  physLen : ℕ
  frames : List Frame
  physLen_pos : 0 < physLen

inductive StoredObject
  | raw (frames : List Frame)
  | blocks (blocks : List StoredBlock)

namespace StoredObject

def frames : StoredObject → List Frame
  | .raw frames => frames
  | .blocks bs => bs.flatMap StoredBlock.frames

def cells (object : StoredObject) : List Cell := cellsOf object.frames

def position (object : StoredObject) : ℕ := framingLen object.frames

def chunks (bs : List StoredBlock) : List (BlockSpace.Chunk Cell) :=
  bs.map fun block => ⟨block.physLen, cellsOf block.frames, block.physLen_pos⟩

def table : StoredObject → List (BlockSpace.Ref Cell)
  | .raw _ => []
  | .blocks bs => BlockSpace.refs 0 0 (chunks bs)

theorem content_chunks (bs : List StoredBlock) :
    BlockSpace.content (chunks bs) = (StoredObject.blocks bs).cells := by
  induction bs with
  | nil => rfl
  | cons block bs ih =>
    change cellsOf block.frames ++ BlockSpace.content (chunks bs) = cellsOf (block.frames ++ _)
    rw [ih, cellsOf_append]
    rfl

/-- `decodeBlock` on the bytes of a backing.  Where the backing has another
block, or none, at the place the table names, the payload does not decode. -/
def decodeFrom (backing : StoredObject) (ref : BlockSpace.Ref Cell) : Option (List Cell) :=
  (backing.table.find? fun other =>
    decide (other.start = ref.start) && decide (other.stored = ref.stored) &&
      decide (other.data = ref.data)).map BlockSpace.Ref.data

/-- `scanReadAt`: the segment's table and mode, over the bytes of a backing;
`ReadAt` is the case where the backing is the segment's own. -/
def readAt (object backing : StoredObject)
    (cache : Option (ℕ × List Cell)) (n off : ℕ) : BlockSpace.Read Cell :=
  match object, backing with
  | .raw _, .raw frames =>
    let data := ((cellsOf frames).drop off).take n
    ⟨data, if data.length < n then .eof else .full, cache⟩
  | .raw _, .blocks _ => ⟨[], .failed, cache⟩
  | .blocks bs, backing =>
    BlockSpace.read (StoredObject.blocks bs).table (decodeFrom backing)
      (StoredObject.blocks bs).position n cache n off

theorem decodeFrom_self {object : StoredObject} {ref : BlockSpace.Ref Cell}
    (hmem : ref ∈ object.table) : decodeFrom object ref = some ref.data := by
  unfold decodeFrom
  cases hfind : object.table.find? fun other =>
      decide (other.start = ref.start) &&
        decide (other.stored = ref.stored) &&
        decide (other.data = ref.data) with
  | none =>
    have hnone := find?_eq_none.mp hfind ref hmem
    simp at hnone
  | some other =>
    have hsame := find?_some hfind
    simp only [Bool.and_eq_true, decide_eq_true_eq] at hsame
    simp [hsame.2]

theorem readAt_spec (object : StoredObject) {cache : Option (ℕ × List Cell)}
    (hfits : BlockSpace.Fits object.table cache) (n off : ℕ) :
    (object.readAt object cache n off).data = (object.cells.drop off).take n ∧
      (object.readAt object cache n off).finish ≠ .failed ∧
      ((object.readAt object cache n off).finish = .eof ↔
        (object.readAt object cache n off).data.length < n) ∧
      BlockSpace.Fits object.table (object.readAt object cache n off).cache := by
  cases object with
  | raw frames =>
    refine ⟨rfl, ?_, ?_, hfits⟩
    · simp only [readAt]
      split <;> simp
    · simp only [readAt]
      split <;> simp_all
  | blocks bs =>
    have hdecode : ∀ ref ∈ BlockSpace.refs 0 0 (chunks bs),
        decodeFrom (.blocks bs) ref = some ref.data :=
      fun ref hmem => @decodeFrom_self (.blocks bs) ref hmem
    have hspec := @BlockSpace.read_spec Cell (chunks bs) _ hdecode n n off (le_refl n) cache hfits
    have hsize : (BlockSpace.content (chunks bs)).length = (StoredObject.blocks bs).position := by
      rw [content_chunks]
      exact length_cellsOf _
    rw [hsize, content_chunks] at hspec
    exact hspec

end StoredObject

end CommitLog
