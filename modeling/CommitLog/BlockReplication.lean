import CommitLog.FormatIndependence
import CommitLog.SetReplication

/-!
# Copying a log block by block

A follower that stores blocks asks for the frames up to the end of the block
its next offset lies in, and for the whole blocks behind them as they are in
the file.  It appends the frames as a message set and each block as it is,
once the block decodes to frames that go behind its own.
-/

namespace CommitLog

open ByteSegment List Runs

/-! ## Logs of blocks -/

/-- One write to a segment: its frames, and the bytes in the file with what
the block table says of them.  In a raw segment these bytes are the frames. -/
structure BlockBatch where
  frames : List Bytes
  stored : BlockBytes

structure BlockSegment where
  base : ℤ
  blockMode : Bool
  batches : List BlockBatch

def BlockSegment.logical (seg : BlockSegment) : ByteSegment :=
  ⟨seg.base, seg.blockMode, seg.batches.map BlockBatch.frames⟩

structure BlockLog where
  sealedSegs : List BlockSegment
  active : BlockSegment

namespace BlockLog

def segments (s : BlockLog) : List BlockSegment := s.sealedSegs ++ [s.active]

def batches (s : BlockLog) : List BlockBatch :=
  s.segments.flatMap BlockSegment.batches

def logical (s : BlockLog) : ByteLog :=
  ⟨s.sealedSegs.map BlockSegment.logical, s.active.logical⟩

end BlockLog

/-! ## Reading blocks -/

/-- `anchorEntryForOffset`. -/
def ByteSegment.anchorEntry (seg : ByteSegment) (offset : ℤ) : Option Entry :=
  let i := SortSearch.search seg.index.length fun i =>
    (seg.index[i]?).any fun e => decide (offset < e.offset)
  seg.index[i - 1]?

/-- `blockAnchor`. -/
def ByteSegment.blockAnchor (seg : ByteSegment) (position : ℕ) : Option ℤ :=
  let i := SortSearch.search seg.index.length fun i =>
    (seg.index[i]?).any fun e => decide ((position : ℤ) ≤ e.position)
  ((seg.index[i]?).filter fun e => decide (e.position = (position : ℤ))).map Entry.offset

def blockRefs : ℕ → List BlockBatch → List (ℕ × BlockBatch)
  | _, [] => []
  | start, b :: batches =>
    (start, b) :: blockRefs (start + b.stored.logicalLen) batches

/-- `blockTailFrom`: the blocks from the one that holds a position on. -/
def blockTail (refs : List (ℕ × BlockBatch)) (position : ℤ) : List (ℕ × BlockBatch) :=
  refs.drop (SortSearch.search refs.length fun i =>
    (refs[i]?).any fun r =>
      decide (position < ((r.1 + r.2.stored.logicalLen : ℕ) : ℤ)))

structure SentBlock where
  data : Bytes
  firstOffset : ℤ
  lastOffset : ℤ

inductive BlockRead
  | notFound
  | failed
  | read (head : Bytes) (blocks : List SentBlock)

section Reads

variable (headerCrc : Bytes → Fin (2 ^ 32))

/-- The loop of `readFramesBetween`, with the number of bytes that are left up
to the end of the block. -/
def framesBetween (blockMode : Bool) : ℕ → ℕ → Bytes → Bytes → Option Bytes
  | 0, _, _, out => some out
  | fuel + 1, left, bytes, out =>
    if left = 0 then some out
    else
      match scanOne headerCrc blockMode bytes with
      | .eof => some out
      | .failed => none
      | .frame ms rest =>
        framesBetween blockMode fuel (left - ms.length) rest (out ++ ms)

def lastBefore (seg : ByteSegment) (last : ℤ) : List (ℕ × BlockBatch) → Option ℤ
  | [] => some last
  | (next, _) :: _ => (seg.blockAnchor next).map fun offset => offset - 1

/-- The loop of `readBlocksFrom` over the block table. -/
def sendBlocks (seg : ByteSegment) (last : ℤ) :
    Bool → ℤ → List (ℕ × BlockBatch) → Option (List SentBlock)
  | _, _, [] => some []
  | started, budget, (start, b) :: rest =>
    if started && decide (budget < b.stored.bytes.length) then some []
    else
      (seg.blockAnchor start).bind fun firstOffset =>
        (lastBefore seg last rest).bind fun lastOffset =>
          (sendBlocks seg last true (budget - b.stored.bytes.length) rest).map fun blocks =>
              ⟨b.stored.bytes, firstOffset, lastOffset⟩ :: blocks

/-- The position `readBlocksFrom` starts at: the index alone answers for the
first record of a block. -/
def ByteSegment.blockStart (seg : ByteSegment) (contains : Bool) (offset : ℤ) : Option ℤ :=
  if contains then
    (seg.anchorEntry offset).bind fun e =>
      if e.offset < offset then (seg.findEntry offset).map Entry.position
      else some e.position
  else some 0

def BlockSegment.readBlocksFrom (seg : BlockSegment) (contains : Bool)
    (offset : ℤ) (maxBytes : ℕ) : BlockRead :=
  if seg.blockMode then
    match seg.logical.blockStart contains offset with
    | none => .failed
    | some start =>
      match blockTail (blockRefs 0 seg.batches) start with
      | [] => .read [] []
      | first :: rest =>
        match (if (first.1 : ℤ) < start then
            framesBetween headerCrc true seg.logical.bytes.length
              (first.1 + first.2.stored.logicalLen - start.toNat)
              (seg.logical.bytes.drop start.toNat) []
          else some []) with
        | none => .failed
        | some head =>
          match sendBlocks seg.logical seg.logical.lastOffset
              (decide (head ≠ [])) ((maxBytes : ℤ) - head.length)
              (if (first.1 : ℤ) < start then rest
                else first :: rest) with
          | none => .failed
          | some blocks => .read head blocks
  else
    match seg.logical.readMessageSetFrom headerCrc contains offset maxBytes with
    | none => .failed
    | some head => .read head []

/-- `ReadBlocks`. -/
def BlockLog.readBlocks (s : BlockLog) (offset : ℤ) (maxBytes : ℕ) :
    BlockRead :=
  match s.segments.dropWhile fun seg =>
      decide (seg.logical.nextOffset ≤ offset) with
  | [] => .notFound
  | seg :: _ =>
    seg.readBlocksFrom headerCrc (decide (seg.base ≤ offset)) offset maxBytes

end Reads

/-! ## Appending blocks -/

/-- `parseBlockHeader`: codec, lengths and number of records. -/
def parseBlockHeader (b : Bytes) : Option (CodecByte × ℕ × ℕ × ℕ) :=
  let codec : CodecByte := Fin.ofNat 256 (uintIn b 2 1)
  if b.length < 15 ∨ uintIn b 0 1 ≠ 0xC1 ∨ uintIn b 1 1 ≠ 2 ∨
      !codec.valid ∨ uintIn b 11 4 = 0 then none
  else some (codec, uintIn b 3 4, uintIn b 7 4, uintIn b 11 4)

/-- What `AppendBlock` makes of a block before it takes the lock. -/
structure DecodedBlock where
  framing : Bytes
  codec : CodecByte
  records : Option ℕ

/-- The records of an identity-bearing block answer to their indexes, and the
nonce is there if the block says so. -/
def BlockHeader.consistent (h : BlockHeader) (recs : List BlockRecord) :
    Bool :=
  (h.hasFlag flagStripped ||
    recs.zipIdx.all fun r => decide (r.1.offsetDelta = BitVec.ofNat 32 r.2)) &&
  (h.hasFlag flagTransactional == decide (h.txNonce ≠ 0))

namespace BlockEnv

variable (env : BlockEnv)

/-- `decodeV3ForAppend`. -/
def decodeV3ForAppend (block : Bytes) : Option (BlockHeader × List BlockRecord) :=
  match decodeBlock env.blockCrc env.comp block with
  | .error _ => none
  | .ok (h, recs) => if h.consistent recs then some (h, recs) else none

def decodeForAppend (data : Bytes) : Option DecodedBlock :=
  if 1 < data.length ∧ uintIn data 0 1 = 0xC1 ∧ uintIn data 1 1 = 3 then
    (env.decodeV3ForAppend data).bind fun block =>
      (env.synthesizeFraming block.1 (block.2.map BlockRecord.produced)).map fun framing =>
          ⟨framing, block.1.codec, none⟩
  else
    (parseBlockHeader data).bind fun header =>
      if data.length ≠ 15 + header.2.2.1 then none
      else
        (env.comp.decompress header.1 (data.drop 15)).bind fun logical =>
          if logical.length ≠ header.2.1 then none
          else some ⟨logical, header.1, some header.2.2.2⟩

def readStored (stored : BlockBytes) : Option Bytes :=
  if uintIn stored.bytes 1 1 = 3 then env.readV3Block stored
  else env.readBlock stored

end BlockEnv

namespace BlockLog

variable (env : BlockEnv)

def checkAndPerformSplit (opts : ByteEnv) (s : BlockLog) : BlockLog :=
  if s.active.logical.checkSplit opts.limits opts.now then
    ⟨s.sealedSegs ++ [s.active], ⟨s.active.logical.nextOffset, opts.encodesBlocks, []⟩⟩
  else s

def write (s : BlockLog) (framing : Bytes) (block : BlockBytes) : BlockLog :=
  ⟨s.sealedSegs, { s.active with
    batches := s.active.batches ++ [⟨splitFrames framing,
      if s.active.blockMode then block
      else ⟨framing, 0, framing.length⟩⟩] }⟩

/-- `checkAppendedSet` against the end of the active segment. -/
def accepts (s : BlockLog) (framing : Bytes) : Bool :=
  checkAppendedEntries (wrapInt64 (s.active.logical.nextOffset - 1))
    (entriesForMessageSet framing) framing.length

def appendMessageSet (opts : ByteEnv) (s : BlockLog) (ms : Bytes) :
    Option BlockLog :=
  let s := s.checkAndPerformSplit opts
  if s.accepts ms then
    some (s.write ms (env.appendBlock ms (entriesForMessageSet ms).length))
  else none

def appendBlock (opts : ByteEnv) (s : BlockLog) (data : Bytes) :
    Option BlockLog :=
  (env.decodeForAppend data).bind fun block =>
    let s := s.checkAndPerformSplit opts
    if s.accepts block.framing && block.records.all fun n =>
        decide ((entriesForMessageSet block.framing).length = n) then
      some (s.write block.framing ⟨data, block.codec, block.framing.length⟩)
    else none

end BlockLog

/-! ## The follower -/

/-- One round of a follower that writes blocks or not: the budget, and the
options and clock of each append by the offset it starts at. -/
structure BlockCall (encodesBlocks : Bool) where
  maxBytes : ℕ
  positive : 0 < maxBytes
  opts : ℤ → ByteEnv
  mode : ∀ offset, (opts offset).encodesBlocks = encodesBlocks

section Copy

variable (env : BlockEnv) (source : BlockLog) {encodesBlocks : Bool}

/-- One round.  The next one starts behind the last block, or behind the
frames if there is none. -/
def blockRound (c : BlockCall encodesBlocks) (state : ℤ × BlockLog) :
    Round (ℤ × BlockLog) (Option BlockLog) :=
  match source.readBlocks env.headerCrc state.1 c.maxBytes with
  | .notFound => .stop (some state.2)
  | .failed => .stop none
  | .read head blocks =>
    if head = [] ∧ blocks = [] then .stop (some state.2)
    else
      match (if head = [] then some state.2
        else state.2.appendMessageSet env (c.opts state.1) head) with
      | none => .stop none
      | some headed =>
        match blocks.foldlM (fun follower b =>
            follower.appendBlock env (c.opts b.firstOffset) b.data)
            headed with
        | none => .stop none
        | some follower =>
          .more ((blocks.getLast?.map fun b => b.lastOffset + 1).getD
            follower.active.logical.nextOffset, follower)

def BlockLog.Reads (s : BlockLog) : Prop :=
  ∀ seg ∈ s.segments, seg.blockMode = true → ∀ b ∈ seg.batches,
    env.readStored b.stored = some b.frames.flatten

def BlockBatch.From (b : BlockBatch) (offset : ℤ) : Prop :=
  ∀ ms ∈ b.frames, offset ≤ (setFrame ms).offset

def BlockLog.CopiedBlocks (encodesBlocks : Bool) (start : ℤ)
    (follower : BlockLog) (result : Option BlockLog) : Prop :=
  ∃ copy added, result = some copy ∧ copy.batches = follower.batches ++ added ∧
    added.flatMap BlockBatch.frames = source.logical.framesFrom start ∧
    copy.Reads env ∧
    (encodesBlocks = true → follower.active.blockMode = true →
      ∀ b ∈ source.batches, b.From start → b ∈ added)

/-- Whatever the budgets and clocks, the loop ends with such a copy, and every
round but the last adds records. -/
def ReplicatesBlocks (encodesBlocks : Bool) (start : ℤ) (follower : BlockLog) : Prop :=
  Round.Ends (@blockRound env source encodesBlocks) (fun before after =>
      before.2.logical.frames.length < after.2.logical.frames.length)
    (start, follower)
    (source.CopiedBlocks env encodesBlocks start follower)

end Copy

/-! ## Sources -/

/-- A version-2 block whose header says what it holds. -/
def BlockBatch.IsV2 (env : BlockEnv) (b : BlockBatch) : Prop :=
  ∃ payload, b.stored.bytes = putWords [(1, 0xC1), (1, 2),
      (1, b.stored.codec.val), (4, b.frames.flatten.length),
      (4, payload.length), (4, b.frames.length)] ++ payload ∧
    b.stored.codec.valid = true ∧
    env.comp.decompress b.stored.codec payload = some b.frames.flatten ∧
    b.frames.flatten.length < 2 ^ 32 ∧ payload.length < 2 ^ 32

def BlockBatch.IsV3 (env : BlockEnv) (b : BlockBatch) : Prop :=
  ∃ h recs, decodeBlock env.blockCrc env.comp b.stored.bytes = .ok (h, recs) ∧
    h.consistent recs = true ∧ b.stored.codec = h.codec ∧
    env.synthesizeFraming h (recs.map BlockRecord.produced) = some b.frames.flatten

structure BlockBatch.Held (env : BlockEnv) (b : BlockBatch) : Prop where
  whole : ∀ ms ∈ b.frames, WholeFrame ms
  size : msgSetHeaderLen < b.frames.flatten.length
  length : b.stored.logicalLen = b.frames.flatten.length
  form : b.IsV2 env ∨ b.IsV3 env

structure BlockLog.Source (env : BlockEnv) (s : BlockLog) : Prop where
  logical : s.logical.Source
  blocks : ∀ seg ∈ s.segments, seg.blockMode = true
  held : ∀ b ∈ s.batches, b.Held env

/-- Frames in the middle of a block that are scanned and appended; `final` if
nothing comes behind them in their segment. -/
structure HeadCarried (headerCrc : Bytes → Fin (2 ^ 32)) (final : Prop)
    (head : List Bytes) : Prop where
  headers : ∀ ms ∈ head, headerCrcMatches headerCrc ms = true
  admissible : Admissible head
  payload : final → ∀ ms, head.getLast? = some ms → msgSetHeaderLen < ms.length

/-- What a copy from an offset on needs: each whole block ends with a frame of
a 32-bit length, and the frames of a block the offset lies inside of can be
scanned and appended. -/
structure BlockLog.Carried (headerCrc : Bytes → Fin (2 ^ 32)) (s : BlockLog)
    (start : ℤ) : Prop where
  whole : ∀ b ∈ s.batches, b.From start → ∀ ms, b.frames.getLast? = some ms → ms.length ≤ maxInt32
  head : ∀ seg ∈ s.segments, ∀ b ∈ seg.batches, ∀ inner head,
    b.frames = inner ++ head → inner ≠ [] → head ≠ [] →
    (∀ ms ∈ inner, (setFrame ms).offset < start) →
    (∀ ms ∈ head, start ≤ (setFrame ms).offset) →
    HeadCarried headerCrc (seg.logical.frames.getLast? = head.getLast?) head

/-! ## The logical byte space -/

theorem BlockSegment.frames_logical (seg : BlockSegment) :
    seg.logical.frames = seg.batches.flatMap BlockBatch.frames := by
  rw [BlockSegment.logical, frames, flatMap_def]

theorem BlockLog.segments_logical (s : BlockLog) :
    s.logical.segments = s.segments.map BlockSegment.logical := by
  simp [BlockLog.logical, ByteLog.segments, BlockLog.segments]

theorem BlockLog.frames_logical (s : BlockLog) :
    s.logical.frames = s.batches.flatMap BlockBatch.frames := by
  rw [ByteLog.frames, BlockLog.segments_logical, BlockLog.batches, flatMap_map, flatMap_assoc]
  simp only [BlockSegment.frames_logical]

/-! ## The block table -/

section Table

def framingOf (batches : List BlockBatch) : Bytes :=
  (batches.flatMap BlockBatch.frames).flatten

theorem framingOf_append (front rest : List BlockBatch) :
    framingOf (front ++ rest) = framingOf front ++ framingOf rest := by
  simp [framingOf]

theorem blockRefs_append {front rest : List BlockBatch}
    (hlength : ∀ b ∈ front, b.stored.logicalLen = b.frames.flatten.length) (start : ℕ) :
    blockRefs start (front ++ rest) = blockRefs start front ++
      blockRefs (start + (framingOf front).length) rest := by
  induction front generalizing start with
  | nil => simp [blockRefs, framingOf]
  | cons b front ih =>
    have hb := hlength b mem_cons_self
    rw [cons_append, blockRefs, blockRefs, cons_append,
      ih fun other hother => hlength other (mem_cons_of_mem _ hother)]
    simp [framingOf, hb, Nat.add_assoc]

theorem end_le_of_mem_blockRefs {batches : List BlockBatch}
    (hlength : ∀ b ∈ batches, b.stored.logicalLen = b.frames.flatten.length)
    {start : ℕ} {r : ℕ × BlockBatch} (hr : r ∈ blockRefs start batches) :
    start ≤ r.1 ∧ r.2 ∈ batches ∧
      r.1 + r.2.stored.logicalLen ≤ start + (framingOf batches).length := by
  induction batches generalizing start with
  | nil => cases hr
  | cons b batches ih =>
    have hb := hlength b mem_cons_self
    have hsum : (framingOf (b :: batches)).length =
        b.frames.flatten.length + (framingOf batches).length := by
      simp [framingOf]
    rcases mem_cons.mp hr with rfl | hr
    · refine ⟨le_rfl, mem_cons_self, ?_⟩
      simp only [hsum, hb]
      omega
    · obtain ⟨hstart, hmem, hend⟩ := ih
        (fun other hother => hlength other (mem_cons_of_mem _ hother)) hr
      exact ⟨by omega, mem_cons_of_mem _ hmem, by omega⟩

theorem blockTail_eq {before after : List BlockBatch} {b : BlockBatch}
    (hlength : ∀ other ∈ before ++ b :: after,
      other.stored.logicalLen = other.frames.flatten.length) {inner : ℕ}
    (hinner : inner < b.frames.flatten.length) :
    blockTail (blockRefs 0 (before ++ b :: after)) (((framingOf before).length + inner : ℕ) : ℤ) =
      blockRefs (framingOf before).length (b :: after) := by
  have hbefore : ∀ other ∈ before, other.stored.logicalLen = other.frames.flatten.length :=
    fun other hother => hlength other (mem_append_left _ hother)
  have hafter : ∀ other ∈ after, other.stored.logicalLen = other.frames.flatten.length :=
    fun other hother => hlength other (mem_append_right _ (mem_cons_of_mem _ hother))
  have hb : b.stored.logicalLen = b.frames.flatten.length :=
    hlength b (by simp)
  have hlow : ∀ r ∈ blockRefs 0 before,
      decide ((((framingOf before).length + inner : ℕ) : ℤ) <
        ((r.1 + r.2.stored.logicalLen : ℕ) : ℤ)) = false := by
    intro r hr
    have hend := (end_le_of_mem_blockRefs hbefore hr).2.2
    rw [decide_eq_false_iff_not]
    omega
  have hhigh : ∀ r ∈ blockRefs (framingOf before).length (b :: after),
      decide ((((framingOf before).length + inner : ℕ) : ℤ) <
        ((r.1 + r.2.stored.logicalLen : ℕ) : ℤ)) = true := by
    intro r hr
    rw [decide_eq_true_eq]
    rcases mem_cons.mp hr with rfl | hr
    · simp only [hb]
      omega
    · have hstart := (end_le_of_mem_blockRefs hafter hr).1
      omega
  rw [blockRefs_append hbefore, Nat.zero_add, blockTail,
    SortSearch.search_append hlow hhigh, drop_left]

end Table

/-! ## Anchors -/

section Anchors

variable {seg : ByteSegment}

theorem ByteSegment.Indexed.index_blocks (hindexed : seg.Indexed) (hblocks : seg.blockMode = true) :
    seg.index = batchEntries 0 seg.batches := by
  rw [hindexed.index_eq, written, if_pos hblocks]

theorem ByteSegment.WellFormed.anchorEntry_spec (hwf : seg.WellFormed)
    (hblocks : seg.blockMode = true) (hindexed : seg.Indexed) (hne : seg.index ≠ []) (target : ℤ) :
    ∃ before ms batch after, seg.batches = before ++ (ms :: batch) :: after ∧
      seg.anchorEntry target = some (entryOf before.flatten.flatten.length ms) ∧
      ((setFrame ms).offset ≤ target ∨ before.flatten = []) := by
  have hindex := hindexed.index_blocks hblocks
  obtain ⟨low, high, hentries, hlow, hhigh⟩ := SortSearch.exists_split
    ((hwf.byOffset_rising target).2.1.sublist (batchEntries_sublist 0 seg.batches))
  simp only [byOffset] at hlow hhigh
  have hanchor : seg.anchorEntry target = (low ++ high)[low.length - 1]? := by
    rw [anchorEntry, hindex]
    simp only [hentries]
    rw [SortSearch.search_append hlow hhigh]
  rw [hindex, hentries] at hne
  rcases eq_nil_or_concat' low with rfl | ⟨front, e, rfl⟩
  · -- every anchor lies above: the first one
    obtain ⟨e, high', rfl⟩ := exists_cons_of_ne_nil hne
    have hhead : (batchEntries 0 seg.batches).head? = some e := by
      rw [hentries]
      rfl
    have hmem : e ∈ batchEntries 0 seg.batches := mem_of_head? hhead
    obtain ⟨before, ms, batch, after, hbatches, rfl⟩ := mem_batchEntries hmem
    have hposition := head_batchEntries hhead
    rw [Nat.zero_add] at hanchor hposition
    refine ⟨before, ms, batch, after, hbatches, ?_, Or.inr ?_⟩
    · rw [hanchor]
      rfl
    · have hwhole : ∀ other ∈ before.flatten, WholeFrame other := by
        intro other hother
        apply hwf.whole
        rw [frames, hbatches, flatten_append]
        exact mem_append_left _ hother
      have hle := length_le_flatten hwhole
      have hzero : ((before.flatten.flatten.length : ℕ) : ℤ) = 0 := hposition
      exact eq_nil_of_length_eq_zero (by omega)
  · have hmem : e ∈ batchEntries 0 seg.batches := by
      rw [hentries]
      simp
    obtain ⟨before, ms, batch, after, hbatches, rfl⟩ := mem_batchEntries hmem
    refine ⟨before, ms, batch, after, hbatches, ?_, Or.inl ?_⟩
    · rw [hanchor]
      simp
    · have hle := hlow _ (mem_append_right _ (mem_singleton_self _))
      simpa using hle

theorem front_unique {target : ℤ} {front front' rest rest' : List Bytes}
    {ms ms' : Bytes} (heq : front ++ ms :: rest = front' ++ ms' :: rest')
    (hbelow : ∀ other ∈ front, (setFrame other).offset < target)
    (hat : target ≤ (setFrame ms).offset)
    (hbelow' : ∀ other ∈ front', (setFrame other).offset < target)
    (hat' : target ≤ (setFrame ms').offset) : front = front' := by
  have htake : ∀ {front rest : List Bytes} {ms : Bytes},
      (∀ other ∈ front, (setFrame other).offset < target) →
      target ≤ (setFrame ms).offset →
      (front ++ ms :: rest).takeWhile
        (fun other => decide ((setFrame other).offset < target)) = front := by
    intro front rest ms hbelow hat
    rw [takeWhile_append_of_pos (by simpa using hbelow),
      takeWhile_cons_of_neg (by simpa using hat), append_nil]
  rw [← htake hbelow hat, heq, htake hbelow' hat']

theorem ByteSegment.WellFormed.blockStart_eq (hwf : seg.WellFormed) (hblocks : seg.blockMode = true)
    (hindexed : seg.Indexed) {target : ℤ} {front rest : List Bytes} {ms : Bytes}
    (hsplit : seg.frames = front ++ ms :: rest)
    (hbelow : ∀ other ∈ front, (setFrame other).offset < target)
    (hat : target ≤ (setFrame ms).offset) (hne : ∀ batch ∈ seg.batches, batch ≠ []) :
    seg.blockStart (decide (seg.base ≤ target)) target = some (front.flatten.length : ℤ) := by
  unfold blockStart
  by_cases hcontains : seg.base ≤ target
  · rw [if_pos (by simpa using hcontains)]
    have hindex : seg.index ≠ [] := by
      rw [hindexed.index_blocks hblocks]
      cases hbatches : seg.batches with
      | nil => simp [frames, hbatches] at hsplit
      | cons batch batches =>
        obtain ⟨first, others, rfl⟩ := exists_cons_of_ne_nil
          (hne batch (by rw [hbatches]; exact mem_cons_self))
        simp [batchEntries]
    obtain ⟨before, other, batch, after, hbatches, hanchor, hplace⟩ :=
      hwf.anchorEntry_spec hblocks hindexed hindex target
    rw [hanchor, Option.bind_some, offset_entryOf]
    by_cases hlt : (setFrame other).offset < target
    · have hfound := hwf.findEntry_target hindexed hsplit hbelow hat
      obtain ⟨e, he, hfields⟩ := Option.map_eq_some_iff.mp hfound
      rw [if_pos hlt, he, Option.map_some]
      exact congrArg some (congrArg (fun fields => fields.2.2) hfields)
    · rw [if_neg hlt]
      have hframes : seg.frames = before.flatten ++ other :: (batch ++ after.flatten) := by
        rw [frames, hbatches]
        simp
      have hlower : ∀ frame ∈ before.flatten, (setFrame frame).offset < target := by
        intro frame hframe
        rcases hplace with hle | hempty
        · have hrising := hwf.rising
          rw [hframes] at hrising
          have hless := (pairwise_append.mp hrising).2.2 frame hframe other mem_cons_self
          omega
        · rw [hempty] at hframe
          cases hframe
      have hfront := front_unique (hsplit.symm.trans hframes) hbelow hat hlower (by omega)
      rw [hfront]
      rfl
  · rw [if_neg (by simpa using hcontains)]
    have hempty : front = [] := by
      by_contra hfront
      obtain ⟨other, hother⟩ := exists_mem_of_ne_nil _ hfront
      have hlt := hbelow other hother
      have hle := hwf.base_le other (by
        rw [hsplit]
        exact mem_append_left _ hother)
      omega
    rw [hempty]
    rfl

theorem ByteSegment.WellFormed.blockAnchor_eq (hwf : seg.WellFormed)
    (hblocks : seg.blockMode = true) (hindexed : seg.Indexed) {before after : List (List Bytes)}
    {ms : Bytes} {batch : List Bytes} (hbatches : seg.batches = before ++ (ms :: batch) :: after) :
    seg.blockAnchor before.flatten.flatten.length = some (setFrame ms).offset := by
  have hentries : batchEntries 0 seg.batches = batchEntries 0 before ++
      batchEntries before.flatten.flatten.length ((ms :: batch) :: after) := by
    rw [hbatches, batchEntries_append, Nat.zero_add]
  have hwhole : ∀ frame ∈ seg.batches.flatten, WholeFrame frame := hwf.whole
  have hlow : ∀ e ∈ batchEntries 0 before,
      decide (((before.flatten.flatten.length : ℕ) : ℤ) ≤ e.position) =
        false := by
    intro e he
    obtain ⟨front, first, others, rest, rfl, rfl⟩ := mem_batchEntries he
    have hfirst := (hwhole first (by rw [hbatches]; simp)).1
    unfold msgSetHeaderLen at hfirst
    rw [decide_eq_false_iff_not]
    simp only [entryOf, Nat.zero_add, flatten_append, length_append, flatten_cons]
    omega
  have hhigh : ∀ e ∈ batchEntries before.flatten.flatten.length ((ms :: batch) :: after),
      decide (((before.flatten.flatten.length : ℕ) : ℤ) ≤ e.position) =
        true := by
    intro e he
    obtain ⟨front, first, others, rest, -, rfl⟩ := mem_batchEntries he
    rw [decide_eq_true_eq]
    simp only [entryOf]
    omega
  rw [blockAnchor, hindexed.index_blocks hblocks, hentries, SortSearch.search_append hlow hhigh,
    getElem?_append_right le_rfl, Nat.sub_self]
  simp [batchEntries, entryOf]

end Anchors

/-! ## What is sent -/

section Sent

variable {seg : BlockSegment}

theorem BlockSegment.batches_logical (seg : BlockSegment) :
    seg.logical.batches = seg.batches.map BlockBatch.frames := rfl

theorem blockAnchor_framingOf (hwf : seg.logical.WellFormed) (hblocks : seg.blockMode = true)
    (hindexed : seg.logical.Indexed) {before after : List BlockBatch} {b : BlockBatch} {ms : Bytes}
    (hbatches : seg.batches = before ++ b :: after) (hfirst : b.frames.head? = some ms) :
    seg.logical.blockAnchor (framingOf before).length = some (setFrame ms).offset := by
  obtain ⟨others, hframes⟩ := head?_eq_some_iff.mp hfirst
  have hlogical : seg.logical.batches = before.map BlockBatch.frames ++
      (ms :: others) :: after.map BlockBatch.frames := by
    rw [BlockSegment.batches_logical, hbatches, map_append, map_cons, hframes]
  rw [framingOf, flatMap_def]
  exact hwf.blockAnchor_eq hblocks hindexed hlogical

structure BlockSegment.Served (seg : BlockSegment) : Prop where
  wellFormed : seg.logical.WellFormed
  indexed : seg.logical.Indexed
  blocks : seg.blockMode = true
  nonempty : ∀ b ∈ seg.batches, b.frames ≠ []
  length : ∀ b ∈ seg.batches, b.stored.logicalLen = b.frames.flatten.length

def reportedLast (seg : ByteSegment) : List BlockBatch → ℤ
  | [] => seg.lastOffset
  | b :: _ => (b.frames.head?.map fun ms => (setFrame ms).offset).getD 0 - 1

variable {rest : List BlockBatch}

theorem BlockSegment.Served.reportedLast_spec (hserved : seg.Served)
    {upTo : List BlockBatch} (hbatches : seg.batches = upTo ++ rest) :
    (∀ ms ∈ upTo.flatMap BlockBatch.frames,
        (setFrame ms).offset < reportedLast seg.logical rest + 1) ∧
      ∀ ms ∈ rest.flatMap BlockBatch.frames,
        reportedLast seg.logical rest + 1 ≤ (setFrame ms).offset := by
  have hrising := hserved.wellFormed.rising
  have hframes : seg.logical.frames = upTo.flatMap BlockBatch.frames ++
      rest.flatMap BlockBatch.frames := by
    rw [BlockSegment.frames_logical, hbatches, flatMap_append]
  cases rest with
  | nil =>
    rw [flatMap_nil, append_nil] at hframes
    refine ⟨?_, by simp⟩
    intro ms hms
    rw [← hframes] at hms
    obtain ⟨last, hlast⟩ : ∃ last, seg.logical.frames.getLast? = some last :=
      ⟨_, getLast?_eq_some_getLast (ne_nil_of_mem hms)⟩
    have hlt := hserved.wellFormed.lt_nextOffset hms
    rw [hserved.wellFormed.next_of_last hlast] at hlt
    have hlast' : reportedLast seg.logical [] = (setFrame last).offset := by
      rw [reportedLast, lastOffset, hlast, Option.map_some, Option.getD_some]
    rw [hlast']
    exact hlt
  | cons b rest =>
    obtain ⟨first, others, hb⟩ := exists_cons_of_ne_nil
      (hserved.nonempty b (by rw [hbatches]; simp))
    have hlast : reportedLast seg.logical (b :: rest) + 1 = (setFrame first).offset := by
      rw [reportedLast, hb, head?_cons, Option.map_some, Option.getD_some, sub_add_cancel]
    rw [flatMap_cons, hb, cons_append] at hframes ⊢
    rw [hframes, pairwise_append] at hrising
    rw [hlast]
    constructor
    · intro ms hms
      exact hrising.2.2 ms hms first mem_cons_self
    · intro ms hms
      rcases mem_cons.mp hms with rfl | hms
      · exact le_rfl
      · exact ((pairwise_cons.mp hrising.2.1).1 ms hms).le

theorem BlockSegment.Served.sendBlocks_cons (hserved : seg.Served) {before rest : List BlockBatch}
    {b : BlockBatch} (hbatches : seg.batches = before ++ b :: rest) {started : Bool} {budget : ℤ}
    (hbudget : (started && decide (budget < b.stored.bytes.length)) = false) :
    ∃ firstOffset, sendBlocks seg.logical seg.logical.lastOffset started budget
        (blockRefs (framingOf before).length (b :: rest)) =
      (sendBlocks seg.logical seg.logical.lastOffset true (budget - b.stored.bytes.length)
        (blockRefs (framingOf (before ++ [b])).length rest)).map
        fun blocks => ⟨b.stored.bytes, firstOffset, reportedLast seg.logical rest⟩ :: blocks := by
  have hanchor := fun {before' after' : List BlockBatch} {b' : BlockBatch}
      {ms : Bytes} => @blockAnchor_framingOf seg hserved.wellFormed
        hserved.blocks hserved.indexed before' after' b' ms
  obtain ⟨first, others, hb⟩ := exists_cons_of_ne_nil (hserved.nonempty b (by rw [hbatches]; simp))
  have hstart : (framingOf before).length + b.stored.logicalLen =
      (framingOf (before ++ [b])).length := by
    rw [hserved.length b (by rw [hbatches]; simp), framingOf_append, length_append]
    simp [framingOf]
  have hfirst := hanchor hbatches (show b.frames.head? = some first by
    rw [hb]
    rfl)
  refine ⟨(setFrame first).offset, ?_⟩
  rw [blockRefs, hstart, sendBlocks, hbudget, if_neg (by simp), hfirst, Option.bind_some]
  have hlast : lastBefore seg.logical seg.logical.lastOffset
      (blockRefs (framingOf (before ++ [b])).length rest) =
        some (reportedLast seg.logical rest) := by
    cases rest with
    | nil => rfl
    | cons c rest =>
      obtain ⟨second, others', hc⟩ := exists_cons_of_ne_nil
        (hserved.nonempty c (by rw [hbatches]; simp))
      have hsecond := @hanchor (before ++ [b]) rest c second
        (by rw [hbatches]; simp) (by rw [hc]; rfl)
      rw [blockRefs, lastBefore, hsecond, reportedLast, hc, head?_cons,
        Option.map_some, Option.map_some, Option.getD_some]
  rw [hlast, Option.bind_some]

variable {before : List BlockBatch}

theorem BlockSegment.Served.sendBlocks_spec (hserved : seg.Served) (hbatches : seg.batches = before ++ rest)
    (started : Bool) (budget : ℤ) :
    ∃ taken left sent, rest = taken ++ left ∧
      sendBlocks seg.logical seg.logical.lastOffset started budget
        (blockRefs (framingOf before).length rest) = some sent ∧
      sent.map SentBlock.data = taken.map (fun b => b.stored.bytes) ∧
      (started = false → rest ≠ [] → taken ≠ []) ∧
      ∀ final, sent.getLast? = some final → final.lastOffset = reportedLast seg.logical left := by
  induction rest generalizing before started budget with
  | nil => exact ⟨[], [], [], rfl, rfl, rfl, by simp, by simp⟩
  | cons b rest ih =>
    cases hbudget : started && decide (budget < b.stored.bytes.length) with
    | true =>
      refine ⟨[], b :: rest, [], rfl, ?_, rfl, ?_, by simp⟩
      · rw [blockRefs, sendBlocks, if_pos hbudget]
      · intro hstarted
        rw [hstarted] at hbudget
        cases hbudget
    | false =>
      obtain ⟨firstOffset, hsend⟩ :=
        hserved.sendBlocks_cons hbatches hbudget
      obtain ⟨taken, left, sent, hrest, hsent, hdata, -, hfinal⟩ :=
        @ih (before ++ [b]) (by rw [hbatches]; simp) true (budget - b.stored.bytes.length)
      refine ⟨b :: taken, left, _, by rw [hrest]; rfl, by rw [hsend, hsent]; rfl, ?_, by simp, ?_⟩
      · rw [map_cons, map_cons, hdata]
      · intro final hlast
        cases sent with
        | nil =>
          have hnone : taken = [] := by simpa using hdata.symm
          rw [hnone, nil_append] at hrest
          rw [getLast?_singleton, Option.some.injEq] at hlast
          rw [← hlast, hrest]
        | cons next sent =>
          rw [getLast?_cons_cons] at hlast
          exact hfinal final hlast

theorem BlockSegment.Served.sendBlocks_one (hserved : seg.Served) {b : BlockBatch}
    (hbatches : seg.batches = before ++ b :: rest) (hlong : 1 < b.stored.bytes.length) :
    ∃ firstOffset, sendBlocks seg.logical seg.logical.lastOffset false 1
        (blockRefs (framingOf before).length (b :: rest)) =
      some [⟨b.stored.bytes, firstOffset, reportedLast seg.logical rest⟩] := by
  obtain ⟨firstOffset, hsend⟩ := @BlockSegment.Served.sendBlocks_cons seg
    hserved before rest b hbatches false 1 rfl
  refine ⟨firstOffset, ?_⟩
  have hstop : sendBlocks seg.logical seg.logical.lastOffset true (1 - (b.stored.bytes.length : ℤ))
      (blockRefs (framingOf (before ++ [b])).length rest) = some [] := by
    cases rest with
    | nil => rfl
    | cons c rest =>
      rw [blockRefs, sendBlocks, if_pos]
      rw [Bool.true_and, decide_eq_true_eq]
      omega
  rw [hsend, hstop]
  rfl

end Sent

/-! ## Frames inside a block -/

section Inside

variable {headerCrc : Bytes → Fin (2 ^ 32)}

theorem framesBetween_cons {ms rest out : Bytes} (hwhole : WholeFrame ms)
    {fuel left : ℕ} (hleft : left ≠ 0) :
    framesBetween headerCrc true (fuel + 1) left (ms ++ rest) out =
      if headerCrcMatches headerCrc ms = false then none
      else if (ms ++ rest).length = msgSetHeaderLen then some out
      else framesBetween headerCrc true fuel (left - ms.length) rest (out ++ ms) := by
  rw [framesBetween, if_neg hleft, scanOne_whole hwhole]
  by_cases hheader : headerCrcMatches headerCrc ms = false
  · rw [if_pos hheader, if_pos hheader]
  · rw [if_neg hheader, if_neg hheader]
    by_cases hempty : (ms ++ rest).length = msgSetHeaderLen
    · rw [if_pos ⟨rfl, hempty⟩, if_pos hempty]
    · rw [if_neg (fun h => hempty h.2), if_neg hempty]

theorem framesBetween_spec {head : List Bytes} (hwhole : ∀ ms ∈ head, WholeFrame ms) {rest : Bytes}
    {fuel : ℕ} (hfuel : head.flatten.length ≤ fuel) (out : Bytes) :
    ((∃ ms ∈ head, headerCrcMatches headerCrc ms = false) ∧
        framesBetween headerCrc true fuel head.flatten.length (head.flatten ++ rest) out = none) ∨
      (∀ ms ∈ head, headerCrcMatches headerCrc ms = true) ∧
        ((∃ front last, rest = [] ∧ head = front ++ [last] ∧ last.length = msgSetHeaderLen ∧
            framesBetween headerCrc true fuel head.flatten.length
              (head.flatten ++ rest) out = some (out ++ front.flatten)) ∨
          (rest = [] → ∀ ms, head.getLast? = some ms → msgSetHeaderLen < ms.length) ∧
            framesBetween headerCrc true fuel head.flatten.length
              (head.flatten ++ rest) out = some (out ++ head.flatten)) := by
  induction head generalizing fuel out with
  | nil =>
    right
    refine ⟨by simp, Or.inr ⟨by simp, ?_⟩⟩
    cases fuel <;> simp [framesBetween]
  | cons ms head ih =>
    have hms := hwhole ms mem_cons_self
    have hpos := length_pos_of_ne_nil hms.ne_nil
    have hlength : (ms :: head).flatten.length - ms.length =
        head.flatten.length := by
      rw [flatten_cons, length_append]
      omega
    rw [flatten_cons, length_append] at hfuel
    obtain ⟨fuel, rfl⟩ : ∃ n, fuel = n + 1 := ⟨fuel - 1, by omega⟩
    have hleft : (ms :: head).flatten.length ≠ 0 := by
      rw [flatten_cons, length_append]
      omega
    have hcons := @framesBetween_cons headerCrc ms (head.flatten ++ rest) out hms fuel _ hleft
    rw [hlength, ← append_assoc, ← flatten_cons] at hcons
    rw [hcons]
    by_cases hheader : headerCrcMatches headerCrc ms = false
    · left
      exact ⟨⟨ms, mem_cons_self, hheader⟩, if_pos hheader⟩
    rw [if_neg hheader]
    have hgood : headerCrcMatches headerCrc ms = true := by simpa using hheader
    by_cases hempty : ((ms :: head).flatten ++ rest).length = msgSetHeaderLen
    · -- the scanner takes a lone empty frame for the end
      have hmin := hms.1
      rw [flatten_cons, length_append, length_append] at hempty
      have hnone : head = [] := by
        cases head with
        | nil => rfl
        | cons other head =>
          have hlow := (hwhole other (by simp)).1
          rw [flatten_cons, length_append] at hempty
          unfold msgSetHeaderLen at *
          omega
      have hrest : rest = [] := eq_nil_of_length_eq_zero (by omega)
      right
      refine ⟨by simpa [hnone] using hgood, Or.inl ⟨[], ms, hrest, ?_, ?_, ?_⟩⟩
      · rw [hnone]
        rfl
      · omega
      · rw [if_pos (by rw [flatten_cons, length_append, length_append]; omega)]
        simp
    · rw [if_neg hempty]
      rcases @ih (fun other hother => hwhole other (mem_cons_of_mem _ hother))
        fuel (by omega) (out ++ ms) with
        ⟨⟨bad, hbad, hwrong⟩, hnone⟩ |
        ⟨hall, ⟨front, last, hrest, hhead, hlast, hsome⟩ | ⟨hlast, hsome⟩⟩
      · left
        exact ⟨⟨bad, mem_cons_of_mem _ hbad, hwrong⟩, hnone⟩
      · right
        refine ⟨by simpa [hgood] using hall,
          Or.inl ⟨ms :: front, last, hrest, by rw [hhead]; rfl, hlast, ?_⟩⟩
        rw [hsome, flatten_cons, append_assoc]
      · right
        refine ⟨by simpa [hgood] using hall, Or.inr ⟨?_, ?_⟩⟩
        · intro hrest other hother
          cases head with
          | nil =>
            have hsame : ms = other := by simpa using hother
            rw [hrest] at hempty
            have hmin := hms.1
            rw [← hsame]
            simp at hempty
            omega
          | cons next head =>
            rw [getLast?_cons_cons] at hother
            exact hlast hrest other hother
        · rw [hsome, flatten_cons, append_assoc]

end Inside

end CommitLog
