import CommitLog.TieredReads

/-!
# Swapping an offloaded segment under its readers

`swapReplacement` makes a segment serve another object in place: the table,
the mode and the logical size change, while open readers keep their logical
position and buffer, the decode caches keep their entries, and an open scanner
keeps the object it was opened on.  Where the two objects agree up to what a
reader has taken in, no cached block conflicts with the new table and no
scanner is under way, the swap goes unnoticed.
-/

namespace CommitLog

open List

/-! ## The buffered cursor -/

def bufReadSize : ℕ := 64 * 1024

def maxPayloadChunk : ℕ := 1024 * 1024

/-- `bufReader`. -/
structure Cursor where
  pos : ℕ
  bufStart : ℕ
  buf : List Cell

structure CursorRead where
  data : List Cell
  finish : BlockSpace.ReadEnd
  cursor : Cursor
  cache : Option (ℕ × List Cell)

/-- `bufReader.Read`: served from the buffer when it holds all that is asked
for, else from a fresh fill at the position. -/
def Cursor.read (cursor : Cursor) (object : StoredObject)
    (cache : Option (ℕ × List Cell)) (want : ℕ) : CursorRead :=
  if cursor.bufStart ≤ cursor.pos ∧ cursor.pos + want ≤ cursor.bufStart + cursor.buf.length then
    let data := (cursor.buf.drop (cursor.pos - cursor.bufStart)).take want
    ⟨data, .full, { cursor with pos := cursor.pos + data.length }, cache⟩
  else
    let filled := object.readAt object cache bufReadSize cursor.pos
    let data := filled.data.take want
    ⟨data, if data.length < want then filled.finish else .full,
      ⟨cursor.pos + data.length, cursor.pos, filled.data⟩, filled.cache⟩

def Cursor.Buffers (cursor : Cursor) (object : StoredObject) : Prop :=
  cursor.buf = (object.cells.drop cursor.bufStart).take cursor.buf.length

structure CursorReads (object : StoredObject) (cursor : Cursor) (want : ℕ)
    (result : CursorRead) : Prop where
  data : result.data = (object.cells.drop cursor.pos).take result.data.length
  length : result.data.length ≤ want
  pos : result.cursor.pos = cursor.pos + result.data.length
  buffers : result.cursor.Buffers object
  sound : result.finish ≠ .failed
  eof : result.finish = .eof → object.cells.length ≤ cursor.pos + result.data.length
  fits : BlockSpace.Fits object.table result.cache

theorem take_length_take {α : Type*} (n : ℕ) (items : List α) :
    items.take (items.take n).length = items.take n := by
  rw [length_take]
  by_cases hle : n ≤ items.length
  · rw [Nat.min_eq_left hle]
  · rw [Nat.min_eq_right (by omega), take_of_length_le (by omega), take_of_length_le (by omega)]

theorem Cursor.read_spec {cursor : Cursor} {object : StoredObject} {cache : Option (ℕ × List Cell)}
    (hbuffers : cursor.Buffers object) (hfits : BlockSpace.Fits object.table cache) (want : ℕ) :
    CursorReads object cursor want (cursor.read object cache want) := by
  unfold Cursor.read
  split
  next hwindow =>
    have hwhole : (cursor.buf.drop (cursor.pos - cursor.bufStart)).take want =
        (object.cells.drop cursor.pos).take want := by
      rw [hbuffers, drop_take, drop_drop, take_take]
      congr 1
      · omega
      · congr 1
        omega
    refine ⟨?_, ?_, rfl, hbuffers, by simp, by simp, hfits⟩
    · simp only
      rw [hwhole, take_length_take]
    · simp only
      exact length_take_le _ _
  next hmiss =>
    obtain ⟨hdata, hsound, heof, hcache⟩ :=
      object.readAt_spec hfits bufReadSize cursor.pos
    refine ⟨?_, ?_, rfl, ?_, ?_, ?_, hcache⟩
    · simp only
      rw [hdata, take_take, take_length_take]
    · simp only
      exact length_take_le _ _
    · simp only [Cursor.Buffers]
      rw [hdata, take_length_take]
    · simp only
      split
      · exact hsound
      · simp
    · simp only
      intro hend
      split at hend
      next hshort =>
        have hfill := heof.mp hend
        rw [length_take] at hshort ⊢
        have hlen := congrArg length hdata
        rw [length_take, length_drop] at hlen
        omega
      · cases hend

/-! ## The sequential reader -/

inductive ReaderStatus
  | active
  | drained
  | failed
deriving DecidableEq, Repr

/-- What the reader has of the record it is reading. -/
inductive Stage
  | header (got : List Cell)
  | payload (frame : Frame) (got : List Cell)

/-- A reader on a segment.  `seen` is the object its last read went to;
`drained` says that it has moved on to the next segment. -/
structure SeqReader where
  cursor : Cursor
  stage : Stage
  out : List Frame
  seen : StoredObject
  status : ReaderStatus

/-- The frame whose header these bytes are, if the header checksum holds. -/
def headerFrame (got : List Cell) : Option Frame :=
  match got.head? with
  | none => none
  | some cell =>
    if got = (frameCells cell.frame).take msgSetHeaderLen then
      some cell.frame
    else none

def StoredObject.nextOffset (base : ℤ) (object : StoredObject) : ℤ :=
  match object.frames.getLast? with
  | none => base
  | some frame => frame.offset + 1

/-- One `bufReader.Read` on behalf of the record being read, and what
`readMessage` makes of it.  A record that breaks off at the end of the segment
would be continued in the next one. -/
def SeqReader.read (reader : SeqReader) (base : ℤ) (object : StoredObject)
    (cache : Option (ℕ × List Cell)) :
    SeqReader × Option (ℕ × List Cell) :=
  match reader.stage with
  | .header got =>
    let result := reader.cursor.read object cache (msgSetHeaderLen - got.length)
    let got := got ++ result.data
    let reader := { reader with cursor := result.cursor, seen := object }
    (if got.length = msgSetHeaderLen then
      match headerFrame got with
      | some frame => { reader with stage := .payload frame [] }
      | none => { reader with status := .failed }
    else
      match result.finish with
      | .full => { reader with stage := .header got }
      | .eof =>
        { reader with
          status := if got = [] then .drained else .failed }
      | .failed => { reader with status := .failed }, result.cache)
  | .payload frame got =>
    let result := reader.cursor.read object cache (min (frame.size - got.length) maxPayloadChunk)
    let got := got ++ result.data
    let reader := { reader with cursor := result.cursor, seen := object }
    (if got.length = frame.size then
      if got = (frameCells frame).drop msgSetHeaderLen ∧
          frame.crcMatches = true ∧ base ≤ frame.offset ∧
          frame.offset < object.nextOffset base then
        { reader with
          stage := .header []
          out := reader.out ++ [frame] }
      else { reader with status := .failed }
    else
      match result.finish with
      | .full => { reader with stage := .payload frame got }
      | _ => { reader with status := .failed }, result.cache)

/-! ## The scanner -/

/-- `segmentScanner`: the object it pinned when it was opened, its position
and the frame whose payload it reads next. -/
structure Scanner where
  pinned : StoredObject
  pos : ℕ
  pending : Option Frame
  out : List Frame
  status : ReaderStatus

def Scanner.start (object : StoredObject) : Scanner :=
  ⟨object, 0, none, [], .active⟩

/-- One read of `Scan`, against the table and the size the segment has now.  A
payload that is not the frame's own makes a record that is in no object. -/
def Scanner.read (scanner : Scanner) (object : StoredObject) (cache : Option (ℕ × List Cell)) :
    Scanner × Option (ℕ × List Cell) :=
  match scanner.pending with
  | none =>
    let result := object.readAt scanner.pinned cache msgSetHeaderLen scanner.pos
    (match result.finish with
      | .eof => { scanner with status := .drained }
      | .failed => { scanner with status := .failed }
      | .full =>
        match headerFrame result.data with
        | none => { scanner with status := .failed }
        | some frame =>
          if object.position < scanner.pos + frame.length then
            { scanner with status := .failed }
          else { scanner with pending := some frame }, result.cache)
  | some frame =>
    let result := object.readAt scanner.pinned cache frame.size (scanner.pos + msgSetHeaderLen)
    (match result.finish with
      | .eof => { scanner with status := .drained }
      | .failed => { scanner with status := .failed }
      | .full =>
        if result.data = (frameCells frame).drop msgSetHeaderLen then
          { scanner with
            pos := scanner.pos + frame.length
            pending := none
            out := scanner.out ++ [frame] }
        else { scanner with status := .failed }, result.cache)

/-! ## The segment and its readers -/

structure TierState where
  base : ℤ
  object : StoredObject
  cache : Option (ℕ × List Cell)
  passCache : Option (ℕ × List Cell)
  reader : SeqReader
  scanner : Option Scanner

/-- Reads by the reader, by others through the segment's cache, scans of a
pass, and the swap. -/
inductive TierEvent
  | read
  | peer (n off : ℕ)
  | openScan (shared : Bool)
  | scan
  | swap (new : StoredObject)

def TierState.step (s : TierState) : TierEvent → TierState
  | .read =>
    if s.reader.status = .active then
      let result := s.reader.read s.base s.object s.cache
      { s with reader := result.1, cache := result.2 }
    else s
  | .peer n off =>
    { s with cache := (s.object.readAt s.object s.cache n off).cache }
  | .openScan shared =>
    { s with
      passCache := if shared then s.passCache else none
      scanner := some (Scanner.start s.object) }
  | .scan =>
    match s.scanner with
    | none => s
    | some scanner =>
      if scanner.status = .active then
        let result := scanner.read s.object s.passCache
        { s with scanner := some result.1, passCache := result.2 }
      else s
  | .swap new => { s with object := new }

/-! ## What a reader is owed -/

structure StoredObject.Sound (base : ℤ) (object : StoredObject) : Prop where
  ordered : object.frames.Pairwise fun a b => a.offset < b.offset
  base_le : ∀ frame ∈ object.frames, base ≤ frame.offset
  undamaged : ∀ frame ∈ object.frames, frame.crcMatches = true

variable {object : StoredObject}

theorem StoredObject.Sound.offset_lt {base : ℤ} (hsound : object.Sound base) {frame : Frame}
    (hmem : frame ∈ object.frames) : frame.offset < object.nextOffset base := by
  unfold StoredObject.nextOffset
  cases hlast : object.frames.getLast? with
  | none =>
    rw [getLast?_eq_none_iff] at hlast
    simp [hlast] at hmem
  | some last =>
    rcases Runs.eq_or_rel_last hsound.ordered hlast hmem with rfl | hlt
    · simp
    · simp only
      omega

/-- The reader is inside the record that follows those it returned. -/
def StageAt (object : StoredObject) (start : ℕ) (rest : List Frame) (pos : ℕ) : Stage → Prop
  | .header got => pos = start + got.length ∧ got.length < msgSetHeaderLen ∧
      got = (object.cells.drop start).take got.length
  | .payload frame got => pos = start + msgSetHeaderLen + got.length ∧ got.length ≤ frame.size ∧
      got = ((frameCells frame).drop msgSetHeaderLen).take got.length ∧
      ∃ more, rest = frame :: more

/-- The records returned so far follow, without a gap, the ones before the
place the reader was opened at. -/
structure Tracks (before : List Frame) (object : StoredObject)
    (reader : SeqReader) : Prop where
  buffers : reader.cursor.Buffers object
  place : ∃ rest, object.frames = before ++ reader.out ++ rest ∧
    StageAt object (framingLen (before ++ reader.out)) rest reader.cursor.pos reader.stage

variable {rest : List Frame}

theorem drop_cells {front : List Frame} (hframes : object.frames = front ++ rest) :
    object.cells.drop (framingLen front) = cellsOf rest := by
  unfold StoredObject.cells
  rw [hframes, cellsOf_append, ← length_cellsOf, drop_left]

theorem headerLen_le (frame : Frame) : msgSetHeaderLen ≤ (frameCells frame).length := by
  rw [length_frameCells, Frame.length]
  omega

theorem headerFrame_frameCells (frame : Frame) :
    headerFrame ((frameCells frame).take msgSetHeaderLen) = some frame := by
  unfold headerFrame
  have hhead : ((frameCells frame).take msgSetHeaderLen).head? = some ⟨frame, 0⟩ := by
    rw [head?_take, if_neg (by simp [msgSetHeaderLen]), head?_frameCells]
  rw [hhead]
  simp

theorem headerFrame_cellsOf
    (hlen : ((cellsOf rest).take msgSetHeaderLen).length = msgSetHeaderLen) :
    ∃ frame more, rest = frame :: more ∧
      headerFrame ((cellsOf rest).take msgSetHeaderLen) = some frame := by
  cases rest with
  | nil => simp [msgSetHeaderLen] at hlen
  | cons frame more =>
    refine ⟨frame, more, rfl, ?_⟩
    rw [cellsOf_cons, take_append_of_le_length (headerLen_le frame), headerFrame_frameCells]

theorem eq_nil_of_length_cellsOf_lt
    (hlen : (cellsOf rest).length < msgSetHeaderLen) : rest = [] := by
  cases rest with
  | nil => rfl
  | cons frame more =>
    have hle := headerLen_le frame
    rw [cellsOf_cons, length_append] at hlen
    omega

theorem append_take {α : Type*} {items got data : List α} {start : ℕ}
    (hgot : got = (items.drop start).take got.length)
    (hdata : data = (items.drop (start + got.length)).take data.length) :
    got ++ data = (items.drop start).take (got.length + data.length) := by
  rw [take_add, ← hgot, drop_drop, ← hdata]

/-- What holds of the reader between its reads. -/
structure ReaderOk (before : List Frame) (object : StoredObject)
    (reader : SeqReader) : Prop where
  sound : reader.status ≠ .failed
  tracks : reader.status = .active → Tracks before object reader
  drained : reader.status = .drained → reader.seen.frames = before ++ reader.out
  rising : reader.out.Pairwise fun a b => a.offset < b.offset

section ReaderSteps

variable {base : ℤ} {before : List Frame} {object : StoredObject}
  {reader : SeqReader} {cache : Option (ℕ × List Cell)}

theorem Tracks.read_header (hok : ReaderOk before object reader) (hactive : reader.status = .active)
    (hfits : BlockSpace.Fits object.table cache) {got : List Cell}
    (hstage : reader.stage = .header got) :
    ReaderOk before object (reader.read base object cache).1 ∧
      BlockSpace.Fits object.table (reader.read base object cache).2 := by
  have htracks := hok.tracks hactive
  rcases htracks.place with ⟨rest, hframes, hplace⟩
  rw [hstage] at hplace
  rcases hplace with ⟨hpos, hshort, hgot⟩
  have hspec := Cursor.read_spec htracks.buffers hfits (msgSetHeaderLen - got.length)
  unfold SeqReader.read
  rw [hstage]
  simp only
  generalize reader.cursor.read object cache (msgSetHeaderLen - got.length) = result at hspec ⊢
  have hdata := hspec.data
  have hlength := hspec.length
  rw [hpos] at hdata
  have hall := append_take hgot hdata
  rw [drop_cells hframes] at hall
  have hmoved := hspec.pos
  refine ⟨?_, hspec.fits⟩
  by_cases hwhole : (got ++ result.data).length = msgSetHeaderLen
  · rw [if_pos hwhole]
    rw [length_append] at hwhole
    rw [hwhole] at hall
    have htake : ((cellsOf rest).take msgSetHeaderLen).length =
        msgSetHeaderLen := by
      rw [← hall, length_append, hwhole]
    rcases headerFrame_cellsOf htake with ⟨frame, more, hrest, hhead⟩
    rw [hall, hhead]
    refine ⟨by simp [hactive], fun _ => ⟨hspec.buffers, rest, hframes, ?_⟩,
      by simp [hactive], hok.rising⟩
    exact ⟨by simp only [length_nil]; omega, Nat.zero_le _, rfl, more, hrest⟩
  · rw [if_neg hwhole]
    rw [length_append] at hwhole
    cases hend : result.finish with
    | failed => exact absurd hend hspec.sound
    | full =>
      refine ⟨by simp [hactive], fun _ => ⟨hspec.buffers, rest, hframes, ?_⟩, by simp [hactive],
        hok.rising⟩
      refine ⟨?_, ?_, ?_⟩
      · simp only [length_append]
        omega
      · rw [length_append]
        omega
      · rw [length_append, drop_cells hframes]
        exact hall
    | eof =>
      -- fewer cells than a header are left: the reader is at the end
      have hcells := hspec.eof hend
      have hleft := congrArg length (drop_cells hframes)
      rw [length_drop] at hleft
      have hnil : rest = [] :=
        eq_nil_of_length_cellsOf_lt (by omega)
      rw [hnil, cellsOf_nil, take_nil] at hall
      rw [hnil, append_nil] at hframes
      simp only [hall, if_true]
      exact ⟨by simp, by simp, fun _ => hframes, hok.rising⟩

theorem Tracks.read_payload (hsound : object.Sound base) (hok : ReaderOk before object reader)
    (hactive : reader.status = .active) (hfits : BlockSpace.Fits object.table cache) {frame : Frame}
    {got : List Cell} (hstage : reader.stage = .payload frame got) :
    ReaderOk before object (reader.read base object cache).1 ∧
      BlockSpace.Fits object.table (reader.read base object cache).2 := by
  have htracks := hok.tracks hactive
  rcases htracks.place with ⟨rest, hframes, hplace⟩
  rw [hstage] at hplace
  rcases hplace with ⟨hpos, hshort, hgot, more, hrest⟩
  have hspec := Cursor.read_spec htracks.buffers hfits
    (min (frame.size - got.length) maxPayloadChunk)
  unfold SeqReader.read
  rw [hstage]
  simp only
  generalize reader.cursor.read object cache
    (min (frame.size - got.length) maxPayloadChunk) = result at hspec ⊢
  have hlength := hspec.length
  have hmoved := hspec.pos
  have hsize : ((frameCells frame).drop msgSetHeaderLen).length =
      frame.size := by
    rw [length_drop, length_frameCells, Frame.length]
    omega
  -- the cells from the payload on are the frame's own, then the next frames'
  have hpayload : object.cells.drop (framingLen (before ++ reader.out) + msgSetHeaderLen) =
      (frameCells frame).drop msgSetHeaderLen ++ cellsOf more := by
    rw [← drop_drop, drop_cells hframes, hrest, cellsOf_cons,
      drop_append_of_le_length (headerLen_le frame)]
  have hdata : result.data = (((frameCells frame).drop msgSetHeaderLen).drop
      got.length).take result.data.length := by
    have hread := hspec.data
    rw [hpos, ← drop_drop, hpayload, drop_append_of_le_length (by omega),
      take_append_of_le_length (by rw [length_drop]; omega)]
      at hread
    exact hread
  have hall : got ++ result.data = ((frameCells frame).drop msgSetHeaderLen).take
        (got.length + result.data.length) := by
    rw [take_add, ← hgot, ← hdata]
  refine ⟨?_, hspec.fits⟩
  by_cases hwhole : (got ++ result.data).length = frame.size
  · rw [if_pos hwhole]
    rw [length_append] at hwhole
    rw [hwhole, take_of_length_le (by omega)] at hall
    have hmem : frame ∈ object.frames := by
      rw [hframes, hrest]
      simp
    have hnext : object.frames = before ++ (reader.out ++ [frame]) ++ more := by
      rw [hframes, hrest]
      simp
    rw [if_pos ⟨hall, hsound.undamaged frame hmem, hsound.base_le frame hmem,
      hsound.offset_lt hmem⟩]
    refine ⟨by simp [hactive], fun _ => ⟨hspec.buffers, more, hnext, ?_⟩, by simp [hactive], ?_⟩
    · refine ⟨?_, by simp [msgSetHeaderLen], by simp⟩
      simp only [framingLen_append, framingLen_cons, framingLen_nil,
        Frame.length, length_nil] at hpos hmoved ⊢
      omega
    · have hordered := hsound.ordered
      rw [hnext] at hordered
      exact (pairwise_append.mp (pairwise_append.mp hordered).1).2.1
  · rw [if_neg hwhole]
    rw [length_append] at hwhole
    cases hend : result.finish with
    | failed => exact absurd hend hspec.sound
    | full =>
      refine ⟨by simp [hactive], fun _ => ⟨hspec.buffers, rest, hframes, ?_⟩, by simp [hactive],
        hok.rising⟩
      refine ⟨?_, ?_, ?_, more, hrest⟩
      · simp only [length_append]
        omega
      · rw [length_append]
        omega
      · rw [length_append]
        exact hall
    | eof =>
      -- the payload is whole in the object, so a read inside it goes on
      have hcells := hspec.eof hend
      have hleft := congrArg length hpayload
      rw [length_drop, length_append, hsize] at hleft
      omega

theorem ReaderOk.read (hsound : object.Sound base) (hok : ReaderOk before object reader)
    (hactive : reader.status = .active) (hfits : BlockSpace.Fits object.table cache) :
    ReaderOk before object (reader.read base object cache).1 ∧
      BlockSpace.Fits object.table (reader.read base object cache).2 := by
  cases hstage : reader.stage with
  | header got => exact Tracks.read_header hok hactive hfits hstage
  | payload frame got =>
    exact Tracks.read_payload hsound hok hactive hfits hstage

end ReaderSteps

/-- What holds of a scanner between its reads: it goes through the records of
the object it pinned. -/
structure ScannerOk (base : ℤ) (object : StoredObject)
    (scanner : Scanner) : Prop where
  sound : scanner.status ≠ .failed
  pinned : scanner.pinned.Sound base
  scanned : scanner.out <+: scanner.pinned.frames
  active : scanner.status = .active → scanner.pinned = object ∧
    scanner.pos = framingLen scanner.out ∧
    ∀ frame, scanner.pending = some frame → scanner.out ++ [frame] <+: scanner.pinned.frames
  drained : scanner.status = .drained → scanner.out = scanner.pinned.frames

theorem ScannerOk.start {base : ℤ} (hsound : object.Sound base) :
    ScannerOk base object (Scanner.start object) :=
  ⟨by simp [Scanner.start], hsound, nil_prefix,
    fun _ => ⟨rfl, rfl, by simp [Scanner.start]⟩, by simp [Scanner.start]⟩

section ScannerSteps

variable {base : ℤ} {object : StoredObject} {scanner : Scanner} {cache : Option (ℕ × List Cell)}

theorem ScannerOk.read_header (hok : ScannerOk base object scanner)
    (hactive : scanner.status = .active) (hfits : BlockSpace.Fits object.table cache)
    (hpending : scanner.pending = none) :
    ScannerOk base object (scanner.read object cache).1 ∧
      BlockSpace.Fits object.table (scanner.read object cache).2 := by
  rcases hok.active hactive with ⟨hpinned, hpos, -⟩
  rcases hok.scanned with ⟨rest, hrest⟩
  have hframes : object.frames = scanner.out ++ rest := by
    rw [← hpinned, hrest]
  rcases object.readAt_spec hfits msgSetHeaderLen scanner.pos with
    ⟨hdata, hsound, heof, hcache⟩
  unfold Scanner.read
  rw [hpending]
  simp only
  rw [show object.readAt scanner.pinned = object.readAt object by
    rw [hpinned]]
  generalize object.readAt object cache msgSetHeaderLen scanner.pos =
    result at hdata hsound heof hcache ⊢
  rw [hpos, drop_cells hframes] at hdata
  refine ⟨?_, hcache⟩
  cases hend : result.finish with
  | failed => exact absurd hend hsound
  | eof =>
    have hshort := heof.mp hend
    rw [hdata, length_take] at hshort
    have hnil : rest = [] := eq_nil_of_length_cellsOf_lt (by omega)
    have hout : scanner.out = scanner.pinned.frames := by
      rw [← hrest, hnil, append_nil]
    exact ⟨by simp, hok.pinned, hok.scanned, by simp, fun _ => hout⟩
  | full =>
    have hwhole : ¬ result.data.length < msgSetHeaderLen := by
      intro hshort
      have habsurd := heof.mpr hshort
      simp [hend] at habsurd
    have htake : ((cellsOf rest).take msgSetHeaderLen).length =
        msgSetHeaderLen := by
      rw [hdata, length_take] at hwhole
      rw [length_take]
      omega
    rcases headerFrame_cellsOf htake with ⟨frame, more, hcons, hhead⟩
    have hfit : ¬ object.position < scanner.pos + frame.length := by
      unfold StoredObject.position
      rw [hframes, hcons, hpos]
      simp only [framingLen_append, framingLen_cons]
      omega
    have hnext : scanner.out ++ [frame] <+: scanner.pinned.frames := by
      refine ⟨more, ?_⟩
      rw [← hrest, hcons]
      simp
    rw [hdata, hhead]
    simp only
    rw [if_neg hfit]
    refine ⟨by simp [hactive], hok.pinned, hok.scanned,
      fun _ => ⟨hpinned, hpos, ?_⟩, by simp [hactive]⟩
    intro frame' hframe'
    cases hframe'
    exact hnext

theorem ScannerOk.read_payload (hok : ScannerOk base object scanner)
    (hactive : scanner.status = .active) (hfits : BlockSpace.Fits object.table cache)
    {frame : Frame} (hpending : scanner.pending = some frame) :
    ScannerOk base object (scanner.read object cache).1 ∧
      BlockSpace.Fits object.table (scanner.read object cache).2 := by
  rcases hok.active hactive with ⟨hpinned, hpos, hnext⟩
  rcases hnext frame hpending with ⟨more, hmore⟩
  have hframes : object.frames = scanner.out ++ frame :: more := by
    rw [← hpinned, ← hmore]
    simp
  rcases object.readAt_spec hfits frame.size (scanner.pos + msgSetHeaderLen)
    with ⟨hdata, hsound, heof, hcache⟩
  unfold Scanner.read
  rw [hpending]
  simp only
  rw [show object.readAt scanner.pinned = object.readAt object by
    rw [hpinned]]
  generalize object.readAt object cache frame.size
    (scanner.pos + msgSetHeaderLen) = result at hdata hsound heof hcache ⊢
  have hsize : ((frameCells frame).drop msgSetHeaderLen).length =
      frame.size := by
    rw [length_drop, length_frameCells, Frame.length]
    omega
  have hpayload : result.data = (frameCells frame).drop msgSetHeaderLen := by
    rw [hdata, hpos, ← drop_drop, drop_cells hframes, cellsOf_cons,
      drop_append_of_le_length (headerLen_le frame), take_append_of_le_length (by omega),
      take_of_length_le (by omega)]
  refine ⟨?_, hcache⟩
  cases hend : result.finish with
  | failed => exact absurd hend hsound
  | eof =>
    have hshort := heof.mp hend
    rw [hpayload] at hshort
    omega
  | full =>
    simp only
    rw [if_pos hpayload]
    refine ⟨by simp [hactive], hok.pinned, ⟨more, hmore⟩,
      fun _ => ⟨hpinned, ?_, by simp⟩, by simp [hactive]⟩
    simp only [framingLen_append, framingLen_cons, framingLen_nil]
    omega

theorem ScannerOk.read (hok : ScannerOk base object scanner) (hactive : scanner.status = .active)
    (hfits : BlockSpace.Fits object.table cache) :
    ScannerOk base object (scanner.read object cache).1 ∧
      BlockSpace.Fits object.table (scanner.read object cache).2 := by
  cases hpending : scanner.pending with
  | none => exact hok.read_header hactive hfits hpending
  | some frame => exact hok.read_payload hactive hfits hpending

end ScannerSteps

/-! ## The swap -/

/-- The farthest place of the object the reader has taken bytes from. -/
def SeqReader.reach (reader : SeqReader) : ℕ :=
  max reader.cursor.pos (reader.cursor.bufStart + reader.cursor.buf.length)

/-- A swap that its readers cannot tell from none: the objects agree as far as
the reader has reached, the caches hold no block of another content at a place
of the new table, and no scanner is under way. -/
structure SwapSafe (s : TierState) (new : StoredObject) : Prop where
  sound : new.Sound s.base
  agree : s.reader.status = .active →
    new.cells.take s.reader.reach = s.object.cells.take s.reader.reach
  fits : BlockSpace.Fits new.table s.cache
  passFits : BlockSpace.Fits new.table s.passCache
  idle : ∀ scanner, s.scanner = some scanner → scanner.status ≠ .active

theorem take_drop_of_take_eq {α : Type*} {items items' : List α} {reach start n : ℕ}
    (hagree : items.take reach = items'.take reach) (hle : start + n ≤ reach) :
    (items.drop start).take n = (items'.drop start).take n := by
  have hcut : ∀ list : List α, (list.drop start).take n =
      ((list.take reach).drop start).take n := by
    intro list
    rw [drop_take, take_take, Nat.min_eq_left (by omega)]
  rw [hcut items, hcut items', hagree]

section Swaps

variable {before : List Frame} {object new : StoredObject} {reader : SeqReader}

theorem prefix_of_agree {front rest : List Frame} {reach : ℕ}
    (hframes : object.frames = front ++ rest)
    (hagree : new.cells.take reach = object.cells.take reach)
    (hle : framingLen front ≤ reach) : front <+: new.frames := by
  apply prefix_of_cellsOf_prefix
  have hcells : object.cells = cellsOf front ++ cellsOf rest := by
    unfold StoredObject.cells
    rw [hframes, cellsOf_append]
  have hfront : new.cells.take (framingLen front) = cellsOf front := by
    have htake : (new.cells.drop 0).take (framingLen front) =
        (object.cells.drop 0).take (framingLen front) :=
      take_drop_of_take_eq hagree (by omega)
    rw [drop_zero, drop_zero] at htake
    rw [htake, hcells, ← length_cellsOf, take_left]
  rw [← hfront]
  exact take_prefix _ _

theorem StageAt.swap {start pos : ℕ} {rest rest' : List Frame} {stage : Stage}
    (hstage : StageAt object start rest pos stage) {reach : ℕ}
    (hagree : new.cells.take reach = object.cells.take reach) (hpos : pos ≤ reach)
    (hold : object.cells.drop start = cellsOf rest) (hnew : new.cells.drop start = cellsOf rest') :
    StageAt new start rest' pos stage := by
  cases stage with
  | header got =>
    rcases hstage with ⟨hat, hshort, hgot⟩
    refine ⟨hat, hshort, ?_⟩
    rw [take_drop_of_take_eq hagree (by omega)]
    exact hgot
  | payload frame got =>
    rcases hstage with ⟨hat, hshort, hgot, more, hrest⟩
    refine ⟨hat, hshort, hgot, ?_⟩
    -- the header was read, so the new object has the same one there
    have hheader : (new.cells.drop start).take 1 = (object.cells.drop start).take 1 :=
      take_drop_of_take_eq hagree (by simp only [msgSetHeaderLen] at hat; omega)
    rw [hold, hnew, hrest] at hheader
    apply @eq_cons_of_head?_cellsOf rest' ⟨frame, 0⟩
    have hhead := congrArg head? hheader
    rw [head?_take, head?_take, if_neg (by simp), if_neg (by simp), cellsOf_cons, head?_append,
      head?_frameCells] at hhead
    exact hhead

theorem ReaderOk.swap (hok : ReaderOk before object reader) (hagree : reader.status = .active →
      new.cells.take reader.reach = object.cells.take reader.reach) :
    ReaderOk before new reader := by
  refine ⟨hok.sound, ?_, hok.drained, hok.rising⟩
  intro hactive
  have htracks := hok.tracks hactive
  have hagree := hagree hactive
  rcases htracks.place with ⟨rest, hframes, hstage⟩
  have hpos : reader.cursor.pos ≤ reader.reach := Nat.le_max_left _ _
  have hstart : framingLen (before ++ reader.out) ≤ reader.cursor.pos := by
    cases hkind : reader.stage with
    | header got =>
      rw [hkind] at hstage
      have hat := hstage.1
      omega
    | payload frame got =>
      rw [hkind] at hstage
      have hat := hstage.1
      omega
  rcases prefix_of_agree hframes hagree (by omega) with ⟨rest', hrest'⟩
  refine ⟨?_, rest', hrest'.symm, ?_⟩
  · unfold Cursor.Buffers
    rw [take_drop_of_take_eq hagree (Nat.le_max_right _ _)]
    exact htracks.buffers
  · exact hstage.swap hagree hpos (drop_cells hframes) (drop_cells hrest'.symm)

end Swaps

/-! ## Whole runs -/

/-- What holds of a segment and of all that reads it. -/
structure TierOk (before : List Frame) (s : TierState) : Prop where
  sound : s.object.Sound s.base
  fits : BlockSpace.Fits s.object.table s.cache
  passFits : BlockSpace.Fits s.object.table s.passCache
  reader : ReaderOk before s.object s.reader
  scanner : ∀ scanner, s.scanner = some scanner → ScannerOk s.base s.object scanner

def TierStep (s : TierState) (event : TierEvent) (s' : TierState) : Prop :=
  s' = s.step event ∧ ∀ new, event = .swap new → SwapSafe s new

theorem TierOk.step {before : List Frame} {s s' : TierState} {event : TierEvent}
    (hok : TierOk before s) (hstep : TierStep s event s') : TierOk before s' := by
  rcases hstep with ⟨hnext, hswap⟩
  rw [hnext]
  cases event with
  | read =>
    by_cases hactive : s.reader.status = .active
    · have hread := hok.reader.read hok.sound hactive hok.fits
      simp only [TierState.step, if_pos hactive]
      exact ⟨hok.sound, hread.2, hok.passFits, hread.1, hok.scanner⟩
    · simp only [TierState.step, if_neg hactive]
      exact hok
  | peer n off =>
    have hread := s.object.readAt_spec hok.fits n off
    exact ⟨hok.sound, hread.2.2.2, hok.passFits, hok.reader, hok.scanner⟩
  | openScan shared =>
    refine ⟨hok.sound, hok.fits, ?_, hok.reader, ?_⟩
    · cases shared with
      | true => exact hok.passFits
      | false => exact BlockSpace.fits_none _
    · intro scanner hscanner
      cases hscanner
      exact ScannerOk.start hok.sound
  | scan =>
    cases hscanner : s.scanner with
    | none =>
      simp only [TierState.step, hscanner]
      exact hok
    | some scanner =>
      by_cases hactive : scanner.status = .active
      · have hread := (hok.scanner scanner hscanner).read hactive hok.passFits
        simp only [TierState.step, hscanner, if_pos hactive]
        refine ⟨hok.sound, hok.fits, hread.2, hok.reader, ?_⟩
        intro scanner' hscanner'
        cases hscanner'
        exact hread.1
      · simp only [TierState.step, hscanner, if_neg hactive]
        exact hok
  | swap new =>
    have hsafe := hswap new rfl
    refine ⟨hsafe.sound, hsafe.fits, hsafe.passFits, hok.reader.swap hsafe.agree, ?_⟩
    intro scanner hscanner
    have hold := hok.scanner scanner hscanner
    exact ⟨hold.sound, hold.pinned, hold.scanned,
      fun hactive => absurd hactive (hsafe.idle scanner hscanner),
      hold.drained⟩

/-- A reader opened after the given records, on a segment whose caches are
its own. -/
structure Opened (before : List Frame) (s : TierState) : Prop where
  sound : s.object.Sound s.base
  fits : BlockSpace.Fits s.object.table s.cache
  passFits : BlockSpace.Fits s.object.table s.passCache
  records : before <+: s.object.frames
  reader : s.reader = ⟨⟨framingLen before, 0, []⟩, .header [], [], s.object, .active⟩
  scanner : s.scanner = none

theorem Opened.tierOk {before : List Frame} {s : TierState}
    (hopened : Opened before s) : TierOk before s := by
  refine ⟨hopened.sound, hopened.fits, hopened.passFits, ?_, ?_⟩
  · rw [hopened.reader]
    rcases hopened.records with ⟨rest, hrest⟩
    refine ⟨by simp, fun _ => ⟨by simp [Cursor.Buffers], rest, ?_, ?_⟩, by simp, by simp⟩
    · rw [← hrest, append_nil]
    · simp [StageAt, msgSetHeaderLen]
  · intro scanner hscanner
    rw [hopened.scanner] at hscanner
    cases hscanner

/-- Swaps that keep to `SwapSafe` are transparent: no reader or scanner fails,
each returns rising offsets, the reader has returned exactly the records of
the object from its start on, up to its place or, once it has moved on, to the
end, and a finished scan has returned the whole object it was opened on. -/
theorem swaps_transparent {before : List Frame} {s s' : TierState} {events : List TierEvent}
    (hopened : Opened before s) (hrun : Runs.Run TierStep s events s') :
    s'.reader.status ≠ .failed ∧ s'.reader.out.Pairwise (fun a b => a.offset < b.offset) ∧
      (s'.reader.status = .active → before ++ s'.reader.out <+: s'.object.frames) ∧
      (s'.reader.status = .drained → s'.reader.seen.frames = before ++ s'.reader.out) ∧
      ∀ scanner, s'.scanner = some scanner → scanner.status ≠ .failed ∧
        scanner.out.Pairwise (fun a b => a.offset < b.offset) ∧
        scanner.out <+: scanner.pinned.frames ∧
        (scanner.status = .drained → scanner.out = scanner.pinned.frames) := by
  have hok : TierOk before s' :=
    hrun.invariant (fun _ _ _ hs hstep => hs.step hstep) hopened.tierOk
  refine ⟨hok.reader.sound, hok.reader.rising, ?_, hok.reader.drained, ?_⟩
  · intro hactive
    rcases (hok.reader.tracks hactive).place with ⟨rest, hframes, -⟩
    exact ⟨rest, hframes.symm⟩
  · intro scanner hscanner
    have hscan := hok.scanner scanner hscanner
    exact ⟨hscan.sound, hscan.pinned.ordered.sublist hscan.scanned.sublist,
      hscan.scanned, hscan.drained⟩

/-! ## Swaps that show -/

def rawObject (offsets : List ℤ) : StoredObject :=
  .raw (offsets.map storedFrame)

def blockObject (groups : List (List ℤ)) : StoredObject :=
  .blocks (groups.map fun offsets =>
    ⟨100, offsets.map storedFrame, Nat.succ_pos (nat_lit 99)⟩)

/-- A reader opened behind the given records, with nothing cached. -/
def openedState (before : List Frame) (object : StoredObject) : TierState where
  base := 0
  object := object
  cache := none
  passCache := none
  reader := ⟨⟨framingLen before, 0, []⟩, .header [], [], object, .active⟩
  scanner := none

def TierState.after (s : TierState) (events : List TierEvent) : TierState :=
  events.foldl TierState.step s

def TierState.returned (s : TierState) : List ℤ :=
  s.reader.out.map Frame.offset

/-- Record 0 with a header that a later pass strips. -/
def headeredFrame : Frame :=
  Frame.ofMessage 0 1 0 ⟨1, 0, some [5], some [7], ⟨[([1], [2])], nodup_singleton _⟩⟩

def cachedReads : TierState :=
  (openedState [] (blockObject [[0, 1], [2]])).after
    [.peer 1 0, .swap (blockObject [[1, 2]]), .read, .read, .read, .read, .read]

/-- Four swaps that are noticed.  Dropping a record before the reader's place
moves the reader past a record it still owes; a rewrite that shortens one
leaves it inside a frame; a block cached from the old object is read as the
new object's block at the same place; and an open scanner compares the old
object's frames with the new object's size. -/
theorem swaps_show : (((openedState [storedFrame 0] (rawObject [0, 1, 2])).after
        [.swap (rawObject [1, 2]), .read, .read]).returned = [2] ∧
      storedFrame 1 ∈ (rawObject [1, 2]).frames) ∧
    ((openedState [headeredFrame] (.raw [headeredFrame, storedFrame 1])).after
        [.swap (rawObject [0, 1]), .read]).reader.status = .failed ∧
    (cachedReads.returned = [0, 1] ∧ cachedReads.reader.status = .drained ∧
      storedFrame 2 ∈ (blockObject [[1, 2]]).frames) ∧
    ((openedState [] (rawObject [0, 1])).after
        [.openScan false, .scan, .scan, .swap (rawObject [1]),
          .scan]).scanner.map Scanner.status = some .failed := by
  decide +kernel

theorem rawObject_sound {offsets : List ℤ} (hrising : offsets.Pairwise (· < ·))
    (hbase : ∀ offset ∈ offsets, 0 ≤ offset) : (rawObject offsets).Sound 0 := by
  refine ⟨pairwise_map.mpr hrising, ?_, ?_⟩
  · intro frame hframe
    rcases mem_map.mp hframe with ⟨offset, hoffset, rfl⟩
    exact hbase offset hoffset
  · intro frame hframe
    rcases mem_map.mp hframe with ⟨offset, -, rfl⟩
    rfl

/-- A swap that drops the last record, under a reader behind the first. -/
def tailDropped : List TierEvent := [.swap (rawObject [0, 1]), .read, .read]

theorem swaps_transparent_tailDropped : ((openedState [storedFrame 0] (rawObject [0, 1, 2])).after
        tailDropped).returned = [1] ∧
      ((openedState [storedFrame 0] (rawObject [0, 1, 2])).after
        tailDropped).reader.status ≠ .failed := by
  have hopened : Opened [storedFrame 0] (openedState [storedFrame 0] (rawObject [0, 1, 2])) :=
    ⟨rawObject_sound (by decide) (by decide), BlockSpace.fits_none _,
      BlockSpace.fits_none _, ⟨[storedFrame 1, storedFrame 2], rfl⟩, rfl,
      rfl⟩
  have hsafe : SwapSafe (openedState [storedFrame 0] (rawObject [0, 1, 2])) (rawObject [0, 1]) :=
    ⟨rawObject_sound (by decide) (by decide), fun _ => by decide +kernel,
      BlockSpace.fits_none _, BlockSpace.fits_none _,
      fun scanner hscanner => by cases hscanner⟩
  have hread : ∀ s : TierState, TierStep s .read (s.step .read) :=
    fun s => ⟨rfl, fun new hnew => by cases hnew⟩
  have hswap : TierStep (openedState [storedFrame 0] (rawObject [0, 1, 2]))
      (.swap (rawObject [0, 1])) _ :=
    ⟨rfl, fun new hnew => by cases hnew; exact hsafe⟩
  have hrun := Runs.Run.cons hswap (.cons (hread _) (.single (hread _)))
  exact ⟨by decide +kernel, (swaps_transparent hopened hrun).1⟩

end CommitLog
