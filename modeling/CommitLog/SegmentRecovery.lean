import CommitLog.SegmentOpen

/-!
# What an opened segment describes

A segment opens as its log file exactly when the index it found is empty, is
recognised as foreign and rebuilt, or is a front part of the entries the file
calls for, when every entry fits the index's 32-bit fields, and when a block
table that is believed is the file's own.
-/

namespace CommitLog

open List LogFile

/-! ## Entries -/

@[simp] theorem Entry.stored_stored (base : ℤ) (e : Entry) :
    (e.stored base).stored base = e.stored base := by
  simp only [Entry.stored, int32, add_sub_cancel_left, Int.bmod_bmod]

/-- The entry survives the index's 32-bit fields. -/
def Entry.Fits (base : ℤ) (e : Entry) : Prop := e.stored base = e

instance (base : ℤ) (e : Entry) : Decidable (e.Fits base) :=
  inferInstanceAs (Decidable (_ = _))

theorem Entry.fits_stored (base : ℤ) (e : Entry) : (e.stored base).Fits base :=
  e.stored_stored base

def framesOf (bs : List DiskBlock) : List Frame :=
  bs.flatMap DiskBlock.frames

@[simp] theorem framesOf_nil : framesOf [] = [] := rfl

@[simp] theorem framesOf_cons (block : DiskBlock) (bs : List DiskBlock) :
    framesOf (block :: bs) = block.frames ++ framesOf bs := rfl

@[simp] theorem framesOf_append (bs bs' : List DiskBlock) :
    framesOf (bs ++ bs') = framesOf bs ++ framesOf bs' := by
  simp [framesOf]

@[simp] theorem LogFile.physLen_nil : physLen [] = 0 := rfl

@[simp] theorem LogFile.physLen_cons (block : DiskBlock) (bs : List DiskBlock) :
    physLen (block :: bs) = block.physLen + physLen bs := by
  simp [physLen]

@[simp] theorem LogFile.physLen_append (bs bs' : List DiskBlock) :
    physLen (bs ++ bs') = physLen bs + physLen bs' := by
  simp [physLen]

theorem denseEntries_append (pos : ℕ) (front rest : List Frame) : denseEntries pos (front ++ rest) =
      denseEntries pos front ++ denseEntries (pos + framingLen front) rest := by
  induction front generalizing pos with
  | nil => simp [denseEntries]
  | cons frame front ih =>
    simp only [cons_append, denseEntries, framingLen_cons, ih]
    rw [Nat.add_assoc]

theorem anchorEntries_append (pos : ℕ) (front rest : List DiskBlock) :
    anchorEntries pos (front ++ rest) = anchorEntries pos front ++
        anchorEntries (pos + framingLen (framesOf front)) rest := by
  induction front generalizing pos with
  | nil => simp [anchorEntries]
  | cons block front ih =>
    simp only [cons_append, anchorEntries, framesOf_cons, framingLen_append, ih]
    rw [Nat.add_assoc]

@[simp] theorem length_anchorEntries (pos : ℕ) (bs : List DiskBlock) :
    (anchorEntries pos bs).length = bs.length := by
  induction bs generalizing pos with
  | nil => rfl
  | cons block bs ih => simp [anchorEntries, ih]

variable {pos : ℕ} {e : Entry}

theorem mem_denseEntries {frames : List Frame} :
    e ∈ denseEntries pos frames ↔ ∃ front frame rest, frames = front ++ frame :: rest ∧
        e = entryAt (pos + framingLen front) frame := by
  constructor
  · intro hmem
    induction frames generalizing pos with
    | nil => cases hmem
    | cons first frames ih =>
      rcases mem_cons.mp hmem with heq | hmem
      · exact ⟨[], first, frames, rfl, by simpa using heq⟩
      · rcases ih hmem with ⟨front, frame, rest, hsplit, heq⟩
        refine ⟨first :: front, frame, rest, by rw [hsplit]; rfl, ?_⟩
        rw [framingLen_cons, ← Nat.add_assoc]
        exact heq
  · rintro ⟨front, frame, rest, rfl, rfl⟩
    rw [denseEntries_append, denseEntries]
    simp

variable {bs : List DiskBlock}

theorem mem_anchorEntries :
    e ∈ anchorEntries pos bs ↔ ∃ front block rest, bs = front ++ block :: rest ∧
        e = entryAt (pos + framingLen (framesOf front)) block.first := by
  constructor
  · intro hmem
    induction bs generalizing pos with
    | nil => cases hmem
    | cons first bs ih =>
      rcases mem_cons.mp hmem with heq | hmem
      · exact ⟨[], first, bs, rfl, by simpa using heq⟩
      · rcases ih hmem with ⟨front, block, rest, hsplit, heq⟩
        refine ⟨first :: front, block, rest, by rw [hsplit]; rfl, ?_⟩
        rw [framesOf_cons, framingLen_append, ← Nat.add_assoc]
        exact heq
  · rintro ⟨front, block, rest, rfl, rfl⟩
    rw [anchorEntries_append, anchorEntries]
    simp

/-! ## The block table -/

theorem tableOf_append (logical phys : ℕ) (front rest : List DiskBlock) :
    tableOf logical phys (front ++ rest) = tableOf logical phys front ++
        tableOf (logical + framingLen (framesOf front)) (phys + physLen front) rest := by
  induction front generalizing logical phys with
  | nil => simp [tableOf]
  | cons block front ih =>
    simp only [cons_append, tableOf, framesOf_cons, framingLen_append, physLen_cons, ih]
    rw [Nat.add_assoc, Nat.add_assoc]

@[simp] theorem length_tableOf (logical phys : ℕ) (bs : List DiskBlock) :
    (tableOf logical phys bs).length = bs.length := by
  induction bs generalizing logical phys with
  | nil => rfl
  | cons block bs ih => simp [tableOf, ih]

theorem framingLen_block_pos (block : DiskBlock) : 0 < framingLen block.frames := by
  have hpos := block.first.length_pos
  simp only [DiskBlock.frames, framingLen_cons]
  omega

theorem mem_tableOf {logical phys : ℕ} {ref : BlockRef} (hmem : ref ∈ tableOf logical phys bs) :
    logical ≤ ref.logicalStart ∧ 0 < ref.logicalLen ∧ ref.logicalStart + ref.logicalLen ≤
        logical + framingLen (framesOf bs) ∧
      phys ≤ ref.physStart ∧
      ref.physStart < phys + physLen bs := by
  induction bs generalizing logical phys with
  | nil => simp [tableOf] at hmem
  | cons block bs ih =>
    have hblock := framingLen_block_pos block
    have hphys := block.physLen_pos
    simp only [tableOf, mem_cons] at hmem
    simp only [framesOf_cons, framingLen_append, physLen_cons]
    rcases hmem with rfl | hmem
    · simp only [refOf]
      omega
    · have hrest := ih hmem
      omega

section Blocks

variable {front rest : List DiskBlock} {block : DiskBlock}

/-- The reference of a block behind others. -/
abbrev refAfter (front : List DiskBlock) (block : DiskBlock) : BlockRef :=
  refOf (framingLen (framesOf front)) (physLen front) block

theorem tableOf_split (front : List DiskBlock) (block : DiskBlock) (rest : List DiskBlock) :
    tableOf 0 0 (front ++ block :: rest) = tableOf 0 0 front ++ refAfter front block ::
        tableOf (framingLen (framesOf front) + framingLen block.frames)
          (physLen front + block.physLen) rest := by
  rw [tableOf_append]
  simp [tableOf]

theorem findBlock_tableOf {pos : ℕ} (hlow : framingLen (framesOf front) ≤ pos)
    (hhigh : pos < framingLen (framesOf front) + framingLen block.frames) :
    findBlock (tableOf 0 0 (front ++ block :: rest)) pos = some (refAfter front block) := by
  unfold findBlock
  rw [tableOf_split, SortSearch.search_append]
  · rw [getElem?_append_right le_rfl, Nat.sub_self]
    simp only [getElem?_cons_zero, refAfter, refOf]
    exact if_neg (by omega)
  · intro ref hmem
    have hend := (mem_tableOf hmem).2.2.1
    simp only [decide_eq_false_iff_not]
    omega
  · intro ref hmem
    rw [decide_eq_true_eq]
    rcases mem_cons.mp hmem with rfl | hmem
    · exact hhigh
    · have hstart := (mem_tableOf hmem).1
      omega

theorem findBlock_end {bs : List DiskBlock} {pos : ℕ} (hpos : framingLen (framesOf bs) ≤ pos) :
    findBlock (tableOf 0 0 bs) pos = none := by
  unfold findBlock
  have hsearch := @SortSearch.search_append _ (tableOf 0 0 bs) []
    (fun ref => decide (pos < ref.logicalStart + ref.logicalLen))
  rw [append_nil] at hsearch
  rw [hsearch, getElem?_eq_none le_rfl]
  · intro ref hmem
    have hend := (mem_tableOf hmem).2.2.1
    simp only [decide_eq_false_iff_not]
    omega
  · simp

theorem decodeBlock_tableOf (torn : ℕ) : (blocks (front ++ block :: rest) torn).decodeBlock
        (refAfter front block) = some (cellsOf block.frames) := by
  simp only [decodeBlock]
  rw [tableOf_split, zip_append (by simp), find?_append]
  have hnone : ((tableOf 0 0 front).zip front).find?
      (fun pair => decide (pair.1 = refAfter front block)) = none := by
    rw [find?_eq_none]
    intro pair hpair
    have hmem := (mem_tableOf (of_mem_zip hpair).1).2.2.2.2
    simp only [decide_eq_true_eq]
    intro heq
    rw [heq] at hmem
    simp only [refAfter, refOf] at hmem
    omega
  rw [hnone]
  simp

end Blocks

theorem blockTableExtent_tableOf (bs : List DiskBlock) : blockTableExtent (tableOf 0 0 bs) =
      (framingLen (framesOf bs), physLen bs) := by
  rcases eq_nil_or_concat bs with rfl | ⟨front, block, rfl⟩
  · rfl
  · rw [concat_eq_append, tableOf_split]
    simp [blockTableExtent, tableOf, refOf]

/-! ## Headers -/

theorem getElem?_cellsOf_start (front : List Frame) (frame : Frame) (cells : List Cell) :
    (cellsOf front ++ (frameCells frame ++ cells))[framingLen front]? = some ⟨frame, 0⟩ := by
  rw [getElem?_append_right (by simp), length_cellsOf, Nat.sub_self,
    ← head?_eq_getElem?, head?_append, head?_frameCells]
  rfl

theorem headerIn_start (stray : ℕ → Header) (start : ℕ) (front : List Frame)
    (frame : Frame) (cells : List Cell) :
    headerIn stray start (cellsOf front ++ (frameCells frame ++ cells))
      (framingLen front) = frame.header := by
  unfold headerIn
  rw [getElem?_cellsOf_start]
  rfl

theorem header_entry (frame : Frame) (pos : ℕ) :
    OpenSegment.Header.entry frame.header pos = entryAt pos frame := by
  simp [OpenSegment.Header.entry, Frame.header, entryAt, Frame.length]

theorem length_le_framingLen (frames : List Frame) : frames.length ≤ framingLen frames := by
  induction frames with
  | nil => exact le_rfl
  | cons frame frames ih =>
    have hpos := frame.length_pos
    simp only [length_cons, framingLen_cons]
    omega

/-! ## Filling up the index -/

namespace OpenSegment

variable (stray : ℕ → Header)

def noteEntry (seg : OpenSegment) (e : Entry) : OpenSegment :=
  { seg.writeEntry e with lastOffset := e.offset }

def firstFrom : ℤ → List Entry → ℤ
  | first, [] => first
  | first, e :: es => firstFrom (if first = -1 then e.offset else first) es

theorem firstFrom_of_ne {first : ℤ} (hfirst : first ≠ -1) (es : List Entry) :
    firstFrom first es = first := by
  induction es with
  | nil => rfl
  | cons e es ih =>
    rw [firstFrom, if_neg hfirst]
    exact ih

theorem firstFrom_cons {e : Entry} (he : e.offset ≠ -1) (es : List Entry) :
    firstFrom (-1) (e :: es) = e.offset := by
  rw [firstFrom, if_pos rfl]
  exact firstFrom_of_ne he es

theorem foldl_writeEntry (es : List Entry) (seg : OpenSegment) : es.foldl writeEntry seg =
      { seg with
        index := seg.index ++ es.map (Entry.stored seg.baseOffset)
        firstOffset := firstFrom seg.firstOffset es } := by
  induction es generalizing seg with
  | nil => simp [firstFrom]
  | cons e es ih =>
    rw [foldl_cons, ih]
    simp [writeEntry, firstFrom]

theorem foldl_noteEntry (es : List Entry) (seg : OpenSegment) : es.foldl noteEntry seg = { seg with
        index := seg.index ++ es.map (Entry.stored seg.baseOffset)
        firstOffset := firstFrom seg.firstOffset es
        lastOffset := (es.getLast?.map Entry.offset).getD seg.lastOffset } := by
  induction es generalizing seg with
  | nil => simp [firstFrom]
  | cons e es ih =>
    rw [foldl_cons, ih]
    simp only [noteEntry, writeEntry, firstFrom, getLast?_cons,
      map_cons, append_assoc, singleton_append]
    cases es.getLast? <;> rfl

structure RawReady (base : ℤ) (frames : List Frame) (tail : List Cell)
    (seg : OpenSegment) : Prop where
  baseOffset_eq : seg.baseOffset = base
  blockMode_eq : seg.blockMode = false
  cells_eq : seg.file.rawCells = cellsOf frames ++ tail
  size_eq : seg.file.size = framingLen frames + tail.length
  position_eq : seg.position = framingLen frames + tail.length
  torn_eq : tail ≠ [] → seg.file = .raw frames tail

structure BlocksReady (base : ℤ) (bs : List DiskBlock)
    (seg : OpenSegment) : Prop where
  baseOffset_eq : seg.baseOffset = base
  blockMode_eq : seg.blockMode = true
  blocks_eq : seg.blocks = tableOf 0 0 bs
  position_eq : seg.position = framingLen (framesOf bs)
  decode_eq : ∀ front block rest, bs = front ++ block :: rest →
    seg.file.decodeBlock (refAfter front block) = some (cellsOf block.frames)

end OpenSegment

/-- Nothing, or the beginning of a frame but not all of it. -/
def TailBroken (tail : List Cell) : Prop :=
  tail = [] ∨ ∃ frame, tail <+: frameCells frame ∧ tail.length < frame.length

namespace OpenSegment

variable {stray : ℕ → Header} {base : ℤ} {frames done todo : List Frame}
  {tail : List Cell} {seg : OpenSegment}

theorem RawReady.foldl (hready : RawReady base frames tail seg) (es : List Entry) :
    RawReady base frames tail (es.foldl noteEntry seg) := by
  rw [foldl_noteEntry]
  exact ⟨hready.baseOffset_eq, hready.blockMode_eq, hready.cells_eq,
    hready.size_eq, hready.position_eq, hready.torn_eq⟩

theorem walkRaw_end (hready : RawReady base frames tail seg) (htail : TailBroken tail) (fuel : ℕ) :
    walkRaw stray (fuel + 1) (framingLen frames) seg =
      ⟨seg, framingLen frames, decide (tail ≠ [])⟩ := by
  rw [walkRaw, hready.position_eq]
  rcases htail with rfl | ⟨frame, ⟨more, hmore⟩, hlt⟩
  · simp
  · by_cases hnil : tail = []
    · subst hnil
      simp
    · have hpos : 0 < tail.length := length_pos_of_ne_nil hnil
      rw [if_neg (by omega)]
      by_cases hshort : framingLen frames + tail.length < framingLen frames + msgSetHeaderLen
      · rw [if_pos hshort]
        simp [hnil]
      · rw [if_neg hshort]
        have hheader : headerIn stray 0 seg.file.rawCells (framingLen frames) = frame.header := by
          have hfirst : tail[0]? = some ⟨frame, 0⟩ := by
            have hhead := head?_frameCells frame
            rw [← hmore, head?_append] at hhead
            rw [← head?_eq_getElem?]
            cases htail : tail.head? with
            | none => simp_all
            | some cell => simpa [htail] using hhead
          rw [hready.cells_eq]
          unfold headerIn
          rw [getElem?_append_right (by simp), length_cellsOf, Nat.sub_self, hfirst]
          rfl
        have hlong : framingLen frames + tail.length <
            framingLen frames + msgSetHeaderLen + frame.header.size := by
          simp only [Frame.header, Frame.length] at hlt ⊢
          omega
        simp only [hheader]
        rw [if_pos hlong]
        simp [hnil]

theorem walkRaw_eq (hready : RawReady base (done ++ todo) tail seg) (htail : TailBroken tail)
    {fuel : ℕ} (hfuel : todo.length < fuel) :
    walkRaw stray fuel (framingLen done) seg =
      ⟨(denseEntries (framingLen done) todo).foldl noteEntry seg,
        framingLen (done ++ todo), decide (tail ≠ [])⟩ := by
  induction todo generalizing done fuel seg with
  | nil =>
    rw [append_nil] at hready ⊢
    cases fuel with
    | zero => exact absurd hfuel (by simp)
    | succ fuel => exact walkRaw_end hready htail fuel
  | cons frame todo ih =>
    cases fuel with
    | zero => exact absurd hfuel (by simp)
    | succ fuel =>
      have hheader : headerIn stray 0 seg.file.rawCells (framingLen done) = frame.header := by
        rw [hready.cells_eq, cellsOf_append, cellsOf_cons, append_assoc, append_assoc]
        exact headerIn_start stray 0 done frame _
      have hlen : frame.length = msgSetHeaderLen + frame.header.size := rfl
      have hpos := hready.position_eq
      simp only [framingLen_append, framingLen_cons] at hpos
      have hheaderLen : 0 < msgSetHeaderLen := by decide
      rw [walkRaw, if_neg (by omega), if_neg (by omega)]
      simp only [hheader]
      rw [if_neg (by omega)]
      have hnext : framingLen done + msgSetHeaderLen +
          frame.header.size = framingLen (done ++ [frame]) := by
        simp only [framingLen_append, framingLen_cons, framingLen_nil]
        omega
      have hentry : (⟨frame.header.offset, frame.header.timestamp,
          framingLen done, msgSetHeaderLen + frame.header.size⟩ : Entry) =
          entryAt (framingLen done) frame :=
        header_entry frame (framingLen done)
      have hassoc : done ++ frame :: todo = done ++ [frame] ++ todo := by
        simp
      rw [hentry, hnext]
      rw [hassoc] at hready ⊢
      have hnoted : RawReady base (done ++ [frame] ++ todo) tail
          (seg.noteEntry (entryAt (framingLen done) frame)) :=
        hready.foldl [entryAt (framingLen done) frame]
      have hwalk := ih hnoted (by simpa using hfuel)
      simp only [denseEntries, foldl_cons]
      rw [show framingLen done + frame.length = framingLen (done ++ [frame]) by simp]
      exact hwalk

variable {front rest bs : List DiskBlock} {block : DiskBlock}

theorem BlocksReady.foldl (hready : BlocksReady base bs seg)
    (es : List Entry) : BlocksReady base bs (es.foldl writeEntry seg) := by
  rw [foldl_writeEntry]
  exact ⟨hready.baseOffset_eq, hready.blockMode_eq, hready.blocks_eq,
    hready.position_eq, hready.decode_eq⟩

theorem anchorBlocks_eq (hready : BlocksReady base (front ++ rest) seg) : anchorBlocks stray
        (tableOf (framingLen (framesOf front)) (physLen front) rest)
        seg =
      .ok ((anchorEntries (framingLen (framesOf front)) rest).foldl writeEntry seg) := by
  induction rest generalizing front seg with
  | nil => rfl
  | cons block rest ih =>
    have hdecode := hready.decode_eq front block rest rfl
    have hheader : headerIn stray (framingLen (framesOf front))
        (cellsOf block.frames) 0 = block.first.header :=
      headerIn_start stray _ [] block.first (cellsOf block.others)
    have hlen : msgSetHeaderLen ≤ (cellsOf block.frames).length := by
      simp only [length_cellsOf, DiskBlock.frames, framingLen_cons, Frame.length]
      omega
    have hassoc : front ++ block :: rest = front ++ [block] ++ rest := by
      simp
    rw [hassoc] at hready
    have hnoted : BlocksReady base (front ++ [block] ++ rest)
        (seg.writeEntry (entryAt (framingLen (framesOf front)) block.first)) :=
      hready.foldl [entryAt (framingLen (framesOf front)) block.first]
    have hrest := ih hnoted
    simp only [framesOf_append, framesOf_cons, framesOf_nil, append_nil, framingLen_append,
      physLen_append, physLen_cons, physLen_nil, Nat.add_zero] at hrest
    simp only [tableOf, anchorBlocks, hdecode, anchorEntries, foldl_cons]
    rw [if_neg (by omega)]
    simp only [refOf, hheader]
    rw [show (⟨block.first.header.offset, block.first.header.timestamp, framingLen (framesOf front),
        msgSetHeaderLen + block.first.header.size⟩ : Entry) =
      entryAt (framingLen (framesOf front)) block.first from header_entry _ _]
    exact hrest

theorem lastFrameLoop_eq {start : ℕ} {fuel : ℕ} {last : Option ℤ} (hfuel : todo.length < fuel) :
    lastFrameLoop stray start (cellsOf (done ++ todo)) fuel (framingLen done) last =
      (todo.getLast?.map Frame.offset).or last := by
  induction todo generalizing done fuel last with
  | nil =>
    cases fuel with
    | zero => exact absurd hfuel (by simp)
    | succ fuel =>
      rw [lastFrameLoop, if_neg]
      · rfl
      · have hheaderLen : 0 < msgSetHeaderLen := by decide
        simp only [append_nil, length_cellsOf]
        omega
  | cons frame todo ih =>
    cases fuel with
    | zero => exact absurd hfuel (by simp)
    | succ fuel =>
      have hheader : headerIn stray start (cellsOf (done ++ frame :: todo))
          (framingLen done) = frame.header := by
        rw [cellsOf_append, cellsOf_cons]
        exact headerIn_start stray start done frame _
      have hlen : frame.length = msgSetHeaderLen + frame.header.size := rfl
      have hwhole : framingLen done + msgSetHeaderLen ≤
          (cellsOf (done ++ frame :: todo)).length := by
        simp only [length_cellsOf, framingLen_append, framingLen_cons]
        omega
      rw [lastFrameLoop, if_pos hwhole]
      simp only [hheader]
      rw [show framingLen done + msgSetHeaderLen + frame.header.size =
          framingLen (done ++ [frame]) by
        simp only [framingLen_append, framingLen_cons, framingLen_nil]
        omega]
      have hwalk := @ih (done ++ [frame]) fuel (some frame.header.offset) (by simpa using hfuel)
      rw [append_assoc, singleton_append] at hwalk
      rw [hwalk]
      cases todo with
      | nil => rfl
      | cons next todo => simp [getLast?_cons]

theorem getLast?_frames (block : DiskBlock) :
    block.frames.getLast?.map Frame.offset = some (lastOfBlock block) := by
  unfold DiskBlock.frames lastOfBlock
  cases hlast : block.others.getLast? with
  | none => simp [getLast?_eq_none_iff.mp hlast]
  | some frame => simp [getLast?_cons, hlast]

theorem lastFrameInBlock_at {before after : List Frame} {frame : Frame}
    (hready : BlocksReady base bs seg) (hsplit : bs = front ++ block :: rest)
    (hblock : block.frames = before ++ frame :: after) :
    seg.lastFrameInBlock stray (framingLen (framesOf front) + framingLen before : ℕ) =
      .ok (lastOfBlock block) := by
  have hpos := frame.length_pos
  have hfind : findBlock seg.blocks (framingLen (framesOf front) + framingLen before) =
      some (refAfter front block) := by
    rw [hready.blocks_eq, hsplit]
    apply findBlock_tableOf (Nat.le_add_right _ _)
    simp only [hblock, framingLen_append, framingLen_cons]
    omega
  have hlast : lastFrameLoop stray (framingLen (framesOf front))
      (cellsOf block.frames) ((cellsOf block.frames).length + 1)
      (framingLen before) none = some (lastOfBlock block) := by
    rw [← getLast?_frames, hblock, lastFrameLoop_eq]
    · rw [getLast?_append_of_ne_nil _ (cons_ne_nil _ _), Option.or_none]
    · have hle := length_le_framingLen (before ++ frame :: after)
      rw [length_append] at hle
      rw [length_cellsOf]
      omega
  unfold lastFrameInBlock
  rw [if_neg (by omega), Int.toNat_natCast, hfind]
  simp only [hready.decode_eq front block rest hsplit]
  simp only [refOf, Nat.add_sub_cancel_left]
  rw [hlast]

theorem lastFrameInBlock_eq (hready : BlocksReady base bs seg)
    (hsplit : bs = front ++ block :: rest) :
    seg.lastFrameInBlock stray (framingLen (framesOf front)) = .ok (lastOfBlock block) :=
  @lastFrameInBlock_at stray base seg front rest bs block [] block.others
    block.first hready hsplit rfl

end OpenSegment

/-! ## Seeking and scanning -/

theorem exists_block_split {done : List Frame} {frame : Frame} {todo : List Frame}
    (hframes : framesOf bs = done ++ frame :: todo) :
    ∃ front block rest before after, bs = front ++ block :: rest ∧
      block.frames = before ++ frame :: after ∧
      done = framesOf front ++ before ∧ todo = after ++ framesOf rest := by
  induction bs generalizing done with
  | nil => simp at hframes
  | cons block bs ih =>
    rw [framesOf_cons] at hframes
    rcases append_eq_append_iff.mp hframes with
      ⟨more, hdone, hrest⟩ | ⟨more, hblock, hrest⟩
    · rcases ih hrest with
        ⟨front, block', rest, before, after, rfl, hframe, hmore, htodo⟩
      exact ⟨block :: front, block', rest, before, after, rfl, hframe,
        by simp [hdone, hmore], htodo⟩
    · cases more with
      | nil =>
        rcases @ih [] hrest.symm with
          ⟨front, block', rest, before, after, rfl, hframe, hmore, htodo⟩
        refine ⟨block :: front, block', rest, before, after, rfl, hframe, ?_, htodo⟩
        rw [framesOf_cons, append_assoc, ← hmore, append_nil, hblock, append_nil]
      | cons first after =>
        rw [cons_append, cons.injEq] at hrest
        exact ⟨[], block, bs, done, after, rfl, by rw [hblock, hrest.1], rfl, hrest.2⟩

namespace OpenSegment

variable {stray : ℕ → Header} {base : ℤ} {frames done todo : List Frame}
  {seg : OpenSegment} {bs : List DiskBlock}

structure Holds (stray : ℕ → Header) (frames : List Frame)
    (seg : OpenSegment) : Prop where
  headerAt_eq : ∀ done frame todo, frames = done ++ frame :: todo →
    seg.headerAt stray (framingLen done) = some frame.header
  headerAt_end : seg.headerAt stray (framingLen frames) = none
  position_eq : seg.position = framingLen frames

theorem RawReady.holds (hready : RawReady base frames [] seg) : Holds stray frames seg := by
  have hsize : seg.file.size = framingLen frames := hready.size_eq
  have hcells : seg.file.rawCells = cellsOf frames := by
    rw [hready.cells_eq, append_nil]
  constructor
  · intro done frame todo hframes
    have hlen : frame.length = msgSetHeaderLen + frame.size := rfl
    have hlong : ¬ seg.file.size < framingLen done + msgSetHeaderLen := by
      rw [hsize, hframes]
      simp only [framingLen_append, framingLen_cons]
      omega
    unfold headerAt
    rw [if_neg (by simp [hready.blockMode_eq]), if_neg hlong, hcells, hframes,
      cellsOf_append, cellsOf_cons]
    exact congrArg some (headerIn_start stray 0 done frame _)
  · have hshort : seg.file.size < framingLen frames + msgSetHeaderLen := by
      have hheaderLen : 0 < msgSetHeaderLen := by decide
      omega
    unfold headerAt
    rw [if_neg (by simp [hready.blockMode_eq]), if_pos hshort]
  · exact hready.position_eq

theorem BlocksReady.holds (hready : BlocksReady base bs seg) : Holds stray (framesOf bs) seg := by
  constructor
  · intro done frame todo hframes
    rcases exists_block_split hframes with
      ⟨front, block, rest, before, after, hsplit, hblock, hdone, _⟩
    have hpos := frame.length_pos
    have hfind : findBlock seg.blocks (framingLen done) = some (refAfter front block) := by
      rw [hready.blocks_eq, hsplit, hdone]
      apply findBlock_tableOf
      · simp
      · simp only [hblock, framingLen_append, framingLen_cons]
        omega
    unfold headerAt
    rw [if_pos hready.blockMode_eq, hfind, Option.bind_some,
      hready.decode_eq front block rest hsplit, Option.map_some, hdone, hblock,
      cellsOf_append, cellsOf_cons, framingLen_append]
    simp only [refOf, Nat.add_sub_cancel_left]
    exact congrArg some (headerIn_start stray _ before frame _)
  · unfold headerAt
    rw [if_pos hready.blockMode_eq, hready.blocks_eq, findBlock_end le_rfl]
    rfl
  · exact hready.position_eq

theorem Holds.scanFrom_eq (hholds : Holds stray frames seg) (hframes : frames = done ++ todo)
    {fuel : ℕ} (hfuel : todo.length < fuel) :
    seg.scanFrom stray fuel (framingLen done) = denseEntries (framingLen done) todo := by
  induction todo generalizing done fuel with
  | nil =>
    cases fuel with
    | zero => exact absurd hfuel (by simp)
    | succ fuel =>
      rw [append_nil] at hframes
      rw [scanFrom, ← hframes, hholds.headerAt_end]
      rfl
  | cons frame todo ih =>
    cases fuel with
    | zero => exact absurd hfuel (by simp)
    | succ fuel =>
      have hnext := @ih (done ++ [frame]) (by simp [hframes]) fuel (by simpa using hfuel)
      simp only [framingLen_append, framingLen_cons, framingLen_nil, Nat.add_zero] at hnext
      rw [scanFrom, hholds.headerAt_eq done frame todo hframes]
      simp only [header_entry, denseEntries]
      rw [← hnext, Nat.add_assoc]
      rfl

theorem Holds.scanAll_eq (hholds : Holds stray frames seg) :
    seg.scanAll stray = denseEntries 0 frames := by
  have hle := length_le_framingLen frames
  apply @Holds.scanFrom_eq stray frames [] frames seg hholds rfl
  rw [hholds.position_eq]
  omega

theorem Holds.scanForward_eq (hholds : Holds stray frames seg) {offset : ℤ} {below : List Frame}
    {frame : Frame} (hframes : frames = done ++ below ++ frame :: todo)
    (hbelow : ∀ other ∈ below, other.offset < offset) (hat : offset ≤ frame.offset) {fuel : ℕ}
    (hfuel : below.length < fuel) :
    seg.scanForward stray offset fuel (framingLen done) =
      some (entryAt (framingLen (done ++ below)) frame) := by
  induction below generalizing done fuel with
  | nil =>
    cases fuel with
    | zero => exact absurd hfuel (by simp)
    | succ fuel =>
      rw [append_nil] at hframes ⊢
      rw [scanForward, hholds.headerAt_eq done frame todo hframes]
      simp only [header_entry]
      exact if_pos hat
  | cons other below ih =>
    cases fuel with
    | zero => exact absurd hfuel (by simp)
    | succ fuel =>
      have hlt := hbelow other mem_cons_self
      have hnext := @ih (done ++ [other]) (by simp [hframes])
        (fun o ho => hbelow o (mem_cons_of_mem _ ho)) fuel
        (by simpa using hfuel)
      rw [append_assoc, singleton_append] at hnext
      rw [scanForward, hholds.headerAt_eq done other (below ++ frame :: todo) (by simp [hframes])]
      simp only
      rw [if_neg (show ¬ offset ≤ other.header.offset by
        simpa [Frame.header] using hlt)]
      rw [show framingLen done + msgSetHeaderLen + other.header.size =
        framingLen (done ++ [other]) by
          simp [Frame.header, Frame.length, Nat.add_assoc]]
      exact hnext

end OpenSegment

theorem offset_of_mem_denseEntries {frames : List Frame} (hmem : e ∈ denseEntries pos frames) :
    ∃ frame ∈ frames, e.offset = frame.offset := by
  rcases mem_denseEntries.mp hmem with ⟨front, frame, rest, rfl, rfl⟩
  exact ⟨frame, by simp, rfl⟩

theorem offset_of_mem_anchorEntries (hmem : e ∈ anchorEntries pos bs) :
    ∃ block ∈ bs, e.offset = block.first.offset := by
  rcases mem_anchorEntries.mp hmem with ⟨front, block, rest, rfl, rfl⟩
  exact ⟨block, by simp, rfl⟩

theorem first_mem_framesOf {block : DiskBlock} (hmem : block ∈ bs) : block.first ∈ framesOf bs :=
  mem_flatMap.mpr ⟨block, hmem, mem_cons_self⟩

namespace OpenSegment

variable {stray : ℕ → Header} {base : ℤ} {frames done todo : List Frame}
  {seg : OpenSegment} {bs : List DiskBlock} {frame : Frame}

theorem RawReady.findEntry_eq (hready : RawReady base frames [] seg)
    (hindex : seg.index = denseEntries 0 frames)
    (hordered : frames.Pairwise fun a b => a.offset < b.offset)
    (hframes : frames = done ++ frame :: todo) :
    seg.findEntry stray frame.offset = some (entryAt (framingLen done) frame) := by
  have hsplit : seg.index = denseEntries 0 done ++
      denseEntries (framingLen done) (frame :: todo) := by
    rw [hindex, hframes, denseEntries_append, Nat.zero_add]
  rw [hframes] at hordered
  have hsides := pairwise_append.mp hordered
  unfold findEntry
  rw [if_neg (by simp [hready.blockMode_eq]), hsplit, SortSearch.search_append]
  · rw [getElem?_append_right le_rfl, Nat.sub_self]
    rfl
  · intro e hmem
    rcases offset_of_mem_denseEntries hmem with ⟨other, hother, heq⟩
    have hlt := hsides.2.2 other hother frame mem_cons_self
    simp only [decide_eq_false_iff_not]
    omega
  · intro e hmem
    rcases offset_of_mem_denseEntries hmem with ⟨other, hother, heq⟩
    rw [decide_eq_true_eq, heq]
    rcases mem_cons.mp hother with rfl | hother
    · exact le_rfl
    · exact ((pairwise_cons.mp hsides.2.1).1 other hother).le

theorem BlocksReady.findEntry_eq (hready : BlocksReady base bs seg)
    (hindex : seg.index = anchorEntries 0 bs)
    (hordered : (framesOf bs).Pairwise fun a b => a.offset < b.offset)
    (hframes : framesOf bs = done ++ frame :: todo) :
    seg.findEntry stray frame.offset = some (entryAt (framingLen done) frame) := by
  rcases exists_block_split hframes with
    ⟨front, block, rest, before, after, hsplit, hblock, hdone, htodo⟩
  have hanchors : seg.index = anchorEntries 0 (front ++ [block]) ++
      anchorEntries (framingLen (framesOf (front ++ [block]))) rest := by
    rw [hindex, hsplit, ← singleton_append, ← append_assoc, anchorEntries_append, Nat.zero_add]
  have hplaces : framesOf bs = framesOf front ++ before ++ frame :: (after ++ framesOf rest) := by
    rw [hframes, hdone, htodo]
  rw [hplaces] at hordered
  have hsides := pairwise_append.mp hordered
  -- The anchors up to the frame's own block are not above it, the later ones
  -- are.
  have hanchor : seg.anchorPosition frame.offset = framingLen (framesOf front) := by
    unfold anchorPosition
    simp only
    rw [hanchors, SortSearch.search_append]
    · rw [length_anchorEntries, length_append, length_singleton, Nat.add_sub_cancel,
        anchorEntries_append, append_assoc, getElem?_append_right (by simp), length_anchorEntries,
        Nat.sub_self, Nat.zero_add]
      rfl
    · intro e hmem
      rcases offset_of_mem_anchorEntries hmem with ⟨other, hother, heq⟩
      have hle : other.first.offset ≤ frame.offset := by
        rcases mem_append.mp hother with hfront | hown
        · exact (hsides.2.2 _ (mem_append_left _
            (first_mem_framesOf hfront)) frame mem_cons_self).le
        · rw [mem_singleton.mp hown]
          cases before with
          | nil =>
            have hfirst : block.first = frame :=
              (cons.inj hblock).1
            rw [hfirst]
          | cons first before =>
            have hfirst : block.first = first :=
              (cons.inj hblock).1
            rw [hfirst]
            exact (hsides.2.2 first (by simp) frame mem_cons_self).le
      simp only [decide_eq_false_iff_not]
      omega
    · intro e hmem
      rcases offset_of_mem_anchorEntries hmem with ⟨other, hother, heq⟩
      rw [decide_eq_true_eq, heq]
      exact (pairwise_cons.mp hsides.2.1).1 _ (mem_append_right _ (first_mem_framesOf hother))
  unfold findEntry
  rw [if_pos hready.blockMode_eq, hanchor, if_neg (by omega), Int.toNat_natCast, hdone]
  apply hready.holds.scanForward_eq hplaces
  · intro other hother
    exact hsides.2.2 other (mem_append_right _ hother) frame mem_cons_self
  · exact le_rfl
  · have hle := length_le_framingLen (framesOf bs)
    have hlen := congrArg length hplaces
    simp only [length_append, length_cons] at hlen
    rw [hready.position_eq]
    omega

end OpenSegment

end CommitLog
