import CommitLog.SegmentReopen

/-!
# Opening a log over a torn tail

The active segment's log is cut at any byte and its index keeps any number of
its entries.  The open is to serve the whole frames or blocks that are left
and to append behind them, or to refuse a raw cut below the watermark.
-/

namespace CommitLog

open List LogFile OpenSegment

/-! ## Cutting a log -/

/-- The whole blocks within the first `n` bytes, and the bytes left of the
next one. -/
def cutBlocks : ℕ → List DiskBlock → List DiskBlock × ℕ
  | _, [] => ([], 0)
  | n, block :: bs =>
    if block.physLen ≤ n then
      (block :: (cutBlocks (n - block.physLen) bs).1, (cutBlocks (n - block.physLen) bs).2)
    else ([], n)

/-- The file after a crash that kept its first `n` bytes. -/
def LogFile.cut (file : LogFile) (n : ℕ) : LogFile :=
  match file with
  | .raw frames _ => .raw (cutFrames n frames).1 (cutFrames n frames).2
  | .blocks bs _ => .blocks (cutBlocks n bs).1 (cutBlocks n bs).2

theorem cutFrames_front (n : ℕ) (frames : List Frame) : (cutFrames n frames).1 <+: frames := by
  induction frames generalizing n with
  | nil => exact prefix_rfl
  | cons frame frames ih =>
    rw [cutFrames]
    split_ifs
    · exact cons_prefix_cons.mpr ⟨rfl, ih _⟩
    · exact nil_prefix

theorem cutFrames_broken (n : ℕ) (frames : List Frame) : TailBroken (cutFrames n frames).2 := by
  induction frames generalizing n with
  | nil => exact Or.inl rfl
  | cons frame frames ih =>
    rw [cutFrames]
    split_ifs with hlen
    · exact ih _
    · right
      refine ⟨frame, take_prefix _ _, ?_⟩
      rw [length_take, length_frameCells]
      omega

theorem cutBlocks_front (n : ℕ) (bs : List DiskBlock) : (cutBlocks n bs).1 <+: bs := by
  induction bs generalizing n with
  | nil => exact prefix_rfl
  | cons block bs ih =>
    rw [cutBlocks]
    split_ifs
    · exact cons_prefix_cons.mpr ⟨rfl, ih _⟩
    · exact nil_prefix

theorem take_eq_cutBlocks {n j : ℕ} {bs : List DiskBlock}
    (hlen : physLen (bs.take j) = physLen (cutBlocks n bs).1 + (cutBlocks n bs).2) :
    bs.take j = (cutBlocks n bs).1 := by
  induction bs generalizing n j with
  | nil => simp [cutBlocks]
  | cons block bs ih =>
    have hpos := block.physLen_pos
    rw [cutBlocks] at hlen ⊢
    cases j with
    | zero =>
      rw [take_zero, physLen_nil] at hlen
      split_ifs at hlen ⊢ with hwhole
      · simp only [physLen_cons] at hlen
        omega
      · rfl
    | succ j =>
      rw [take_succ_cons, physLen_cons] at hlen
      split_ifs at hlen ⊢ with hwhole
      · simp only [physLen_cons] at hlen
        rw [take_succ_cons, ih (n := n - block.physLen) (by omega)]
      · simp only [physLen_nil] at hlen
        omega

theorem framesOf_front {bs bs' : List DiskBlock} (hbs : bs <+: bs') :
    framesOf bs <+: framesOf bs' := by
  rcases hbs with ⟨rest, rfl⟩
  exact ⟨framesOf rest, (framesOf_append bs rest).symm⟩

theorem LogFile.frames_cut_front (file : LogFile) (n : ℕ) :
    (file.cut n).frames <+: file.frames := by
  cases file with
  | raw frames tail => exact cutFrames_front n frames
  | blocks bs torn => exact framesOf_front (cutBlocks_front n bs)

theorem LogFile.Sound.cut {base : ℤ} {file : LogFile}
    (hsound : file.Sound base) (n : ℕ) : (file.cut n).Sound base := by
  have hfront := file.frames_cut_front n
  refine ⟨hsound.base_nonneg, hsound.ordered.sublist hfront.sublist,
    fun frame hmem => hsound.base_le frame (hfront.subset hmem), ?_⟩
  cases file with
  | raw frames tail => exact cutFrames_broken n frames
  | blocks bs torn => exact Or.inl rfl

/-- A sidecar an earlier open of the growing log left behind. -/
def LogFile.oldSidecar (file : LogFile) (blocks : Option ℕ) : Option (List BlockRef) :=
  match file with
  | .raw _ _ => none
  | .blocks bs _ => blocks.map fun j => tableOf 0 0 (bs.take j)

theorem tableRight_cut (file : LogFile) (n : ℕ) (blocks : Option ℕ) :
    TableRight (file.cut n) (file.oldSidecar blocks) := by
  cases file with
  | raw frames tail => trivial
  | blocks bs torn =>
    intro table hside _ hextent
    rcases Option.map_eq_some_iff.mp hside with ⟨j, _, rfl⟩
    rw [blockTableExtent_tableOf] at hextent
    rw [take_eq_cutBlocks hextent]
    rfl

/-! ## Writing behind what is left -/

theorem LogFile.size_inMode (mode : Bool) (file : LogFile) :
    (file.inMode mode).size = file.size := by
  unfold inMode
  split
  · cases mode <;> rfl
  · cases mode <;> rfl
  · rfl

theorem LogFile.table_of_inMode_raw {file : LogFile} {frames : List Frame}
    (hshape : file.whole.inMode false = .raw frames []) : file.table = [] := by
  cases file with
  | raw frames tail => rfl
  | blocks bs torn =>
    cases bs with
    | nil => rfl
    | cons block bs => cases hshape

section Writing

variable {stray : ℕ → Header} {base : ℤ} {file : LogFile} {seg : OpenSegment}

theorem first_written {frames : List Frame} (set : DiskBlock)
    (hoffsets : ∀ frame ∈ frames, 0 ≤ frame.offset) :
    (if firstOffsetOf frames = -1 then set.first.offset
      else firstOffsetOf frames) = firstOffsetOf (frames ++ set.frames) := by
  cases frames with
  | nil => rfl
  | cons frame frames =>
    have hnonneg := hoffsets frame mem_cons_self
    rw [firstOffsetOf_cons, cons_append, firstOffsetOf_cons]
    exact if_neg (by omega)

theorem last_written (frames : List Frame) (set : DiskBlock) :
    lastOfBlock set = lastOffsetOf (frames ++ set.frames) := by
  have hlast := getLast?_frames set
  unfold lastOffsetOf
  rw [getLast?_append]
  cases hframes : set.frames.getLast? with
  | none => simp [hframes] at hlast
  | some frame => simpa [hframes] using hlast.symm

theorem Described.write (hdescribed : Described base file seg)
    (set : DiskBlock) (hoffsets : ∀ frame ∈ file.frames, 0 ≤ frame.offset)
    (hfits : ∀ e ∈ (file.whole.writeSet seg.blockMode set).entries, e.Fits base) :
    Described base (file.whole.writeSet seg.blockMode set) (seg.writeMessageSet set) := by
  have hindexed := hdescribed.indexed
  rcases hdescribed.mode with
    ⟨hentries, hshape, hready⟩ | ⟨bs, hframes, hentries, hshape, hready⟩
  · have hmode := hready.blockMode_eq
    have hwritten : file.whole.writeSet seg.blockMode set =
        .raw (file.frames ++ set.frames) [] := by
      simp only [writeSet, hmode, hshape]
    rw [hwritten] at hfits ⊢
    have hfile : (seg.writeMessageSet set).file = .raw (file.frames ++ set.frames) [] := by
      rw [← hwritten, ← hdescribed.file_eq]
      rfl
    have hposition : (seg.writeMessageSet set).position =
        framingLen (file.frames ++ set.frames) := by
      simp only [writeMessageSet, hready.position_eq, framingLen_append, length_nil, Nat.add_zero]
    have hindex : (seg.writeMessageSet set).index = denseEntries 0 (file.frames ++ set.frames) := by
      have hsplit := denseEntries_append 0 file.frames set.frames
      rw [Nat.zero_add] at hsplit
      simp only [writeMessageSet, hmode, hindexed.index_eq, hentries, hready.position_eq,
        hready.baseOffset_eq, length_nil, Nat.add_zero, Bool.false_eq_true, if_false]
      rw [hsplit, map_stored_of_fits]
      intro e he
      apply hfits
      change e ∈ denseEntries 0 (file.frames ++ set.frames)
      rw [hsplit]
      exact mem_append_right _ he
    refine ⟨hfile, ?_, ⟨hindex, ?_, ?_⟩, Or.inl ⟨rfl, ?_, ?_⟩⟩
    · simp only [writeMessageSet, hmode, Bool.false_eq_true, if_false]
      rw [hdescribed.blocks_eq, table_of_inMode_raw hshape]
      rfl
    · simp only [writeMessageSet, hindexed.firstOffset_eq]
      exact first_written set hoffsets
    · exact last_written file.frames set
    · exact inMode_raw _
    · refine ⟨hready.baseOffset_eq, hmode, ?_, ?_, hposition, fun hne => absurd rfl hne⟩
      · rw [hfile]
        rfl
      · rw [hfile]
        rfl
  · have hmode := hready.blockMode_eq
    have hwritten : file.whole.writeSet seg.blockMode set = .blocks (bs ++ [set]) 0 := by
      simp only [writeSet, hmode, hshape]
    rw [hwritten] at hfits ⊢
    have hfile : (seg.writeMessageSet set).file = .blocks (bs ++ [set]) 0 := by
      rw [← hwritten, ← hdescribed.file_eq]
      rfl
    have hsize : seg.file.size = physLen bs := by
      rw [hdescribed.file_eq, ← size_inMode true, hshape]
      rfl
    have hblocks : (seg.writeMessageSet set).blocks = tableOf 0 0 (bs ++ [set]) := by
      simp only [writeMessageSet, hmode, if_true, hready.blocks_eq, hready.position_eq, hsize]
      rw [tableOf_append, Nat.zero_add, Nat.zero_add]
      rfl
    have hindex : (seg.writeMessageSet set).index = anchorEntries 0 (bs ++ [set]) := by
      have hsplit := anchorEntries_append 0 bs [set]
      rw [Nat.zero_add] at hsplit
      simp only [writeMessageSet, hmode, if_true, hindexed.index_eq, hentries,
        hready.position_eq, hready.baseOffset_eq]
      rw [hsplit, map_stored_of_fits]
      · rfl
      · intro e he
        apply hfits
        change e ∈ anchorEntries 0 (bs ++ [set])
        rw [hsplit]
        exact mem_append_right _ he
    have hall : (blocks (bs ++ [set]) 0).frames = file.frames ++ set.frames := by
      change framesOf (bs ++ [set]) = _
      simp [hframes]
    refine ⟨hfile, hblocks, ⟨hindex, ?_, ?_⟩, Or.inr ⟨bs ++ [set], rfl, rfl, inMode_blocks _, ?_⟩⟩
    · rw [hall]
      simp only [writeMessageSet, hindexed.firstOffset_eq]
      exact first_written set hoffsets
    · rw [hall]
      exact last_written file.frames set
    · refine ⟨hready.baseOffset_eq, hmode, hblocks, ?_, ?_⟩
      · simp [writeMessageSet, hready.position_eq]
      · intro front block rest hsplit
        rw [hfile, hsplit]
        exact decodeBlock_tableOf 0

end Writing

/-! ## The open -/

/-- `NewestOffset` of a segment with these frames. -/
def newestOffset (base : ℤ) (frames : List Frame) : ℤ :=
  if frames = [] then base - 1 else lastOffsetOf frames

/-- The watermark `open` ends with. -/
def openedHighWatermark (seg : OpenSegment) (checkpoint : ℤ) : ℤ :=
  if seg.nextOffset - 1 < checkpoint then seg.nextOffset - 1 else checkpoint

def LogFile.opensInBlocks (encodesBlocks : Bool) (file : LogFile) : Bool :=
  if file.size = 0 then encodesBlocks
  else match file with
    | .raw _ _ => false
    | .blocks _ _ => true

/-- The active segment's files after a crash. -/
structure TornFiles where
  base : ℤ
  encodesBlocks : Bool
  source : LogFile
  /-- The bytes of the log that reached the disk. -/
  bytes : ℕ
  /-- The index entries that reached the disk. -/
  entries : ℕ
  /-- The blocks an earlier open wrote into a sidecar. -/
  sidecar : Option ℕ

namespace TornFiles

variable (files : TornFiles)

def file : LogFile := files.source.cut files.bytes

def index : List Entry :=
  (files.source.entries.take files.entries).map (Entry.stored files.base)

def table : Option (List BlockRef) := files.source.oldSidecar files.sidecar

def openLog (stray : ℕ → Header) (checkpoint : ℤ) :
    Except OpenError OpenSegment :=
  openSegment stray files.base files.encodesBlocks files.file files.table files.index checkpoint

/-- The next message set is written behind the whole frames that are left. -/
def written (set : DiskBlock) : LogFile :=
  files.file.whole.writeSet (files.file.opensInBlocks files.encodesBlocks) set

/-- The open refuses a raw cut below the checkpoint, or serves what is left,
and the next append goes on from there. -/
def OpensRight (stray : ℕ → Header) (set : DiskBlock) (checkpoint : ℤ) : Prop :=
  files.openLog stray checkpoint = .error .tornBelowWatermark ∧
      files.file.tail ≠ [] ∧ lastOffsetOf files.file.frames < checkpoint ∨
    ∃ seg, files.openLog stray checkpoint = .ok seg ∧ OpensAs stray files.file seg ∧
      openedHighWatermark seg checkpoint =
        min checkpoint (newestOffset files.base files.file.frames) ∧
      seg.nextOffset = newestOffset files.base files.file.frames + 1 ∧
      OpensAs stray (files.written set) (seg.writeMessageSet set)

variable {files} {stray : ℕ → Header} {set : DiskBlock}

theorem index_fits {e : Entry} (he : e ∈ files.index) : e.Fits files.base := by
  rcases mem_map.mp he with ⟨e', _, rfl⟩
  exact Entry.fits_stored files.base e'

end TornFiles

section Opening

variable {stray : ℕ → Header} {base : ℤ} {file : LogFile} {seg : OpenSegment}

theorem neg_one_le_lastOffsetOf {frames : List Frame}
    (hoffsets : ∀ frame ∈ frames, 0 ≤ frame.offset) : -1 ≤ lastOffsetOf frames := by
  rcases eq_nil_or_concat frames with rfl | ⟨front, frame, rfl⟩
  · exact le_rfl
  · have hnonneg := hoffsets frame (by simp)
    rw [concat_eq_append, lastOffsetOf_concat]
    omega

theorem Described.baseOffset_eq (hdescribed : Described base file seg) : seg.baseOffset = base := by
  rcases hdescribed.mode with ⟨_, _, hready⟩ | ⟨bs, _, _, _, hready⟩
  · exact hready.baseOffset_eq
  · exact hready.baseOffset_eq

theorem nextOffset_of_lastOffset {frames : List Frame}
    (hlast : seg.lastOffset = lastOffsetOf frames) (hoffsets : ∀ frame ∈ frames, 0 ≤ frame.offset) :
    seg.nextOffset = newestOffset seg.baseOffset frames + 1 := by
  unfold nextOffset newestOffset
  rw [hlast]
  rcases eq_nil_or_concat frames with hnil | ⟨front, frame, hframes⟩
  · rw [hnil, if_pos (by rfl), if_pos rfl]
    omega
  · rw [concat_eq_append] at hframes
    have hnonneg := hoffsets frame (by simp [hframes])
    rw [hframes, lastOffsetOf_concat, if_neg (by omega), if_neg (by simp)]

theorem Described.nextOffset_eq (hdescribed : Described base file seg)
    (hoffsets : ∀ frame ∈ file.frames, 0 ≤ frame.offset) :
    seg.nextOffset = newestOffset base file.frames + 1 := by
  rw [nextOffset_of_lastOffset hdescribed.indexed.lastOffset_eq hoffsets, hdescribed.baseOffset_eq]

theorem openedHighWatermark_eq {newest checkpoint : ℤ} (hnext : seg.nextOffset = newest + 1) :
    openedHighWatermark seg checkpoint = min checkpoint newest := by
  unfold openedHighWatermark
  rw [hnext, add_sub_cancel_right]
  split_ifs with hlt
  · exact (min_eq_right hlt.le).symm
  · exact (min_eq_left (not_lt.mp hlt)).symm

theorem blockMode_openSegment {encodesBlocks : Bool} {sidecar : Option (List BlockRef)}
    {index : List Entry} {floor : ℤ}
    (hok : openSegment stray base encodesBlocks file sidecar index floor = .ok seg) :
    seg.blockMode = file.opensInBlocks encodesBlocks := by
  rw [(openSegment_keeps hok).2.1]
  unfold initPositions opensInBlocks
  split_ifs
  · rfl
  · cases file with
    | raw frames tail => rfl
    | blocks bs torn =>
      simp only
      split <;> rfl

theorem LogFile.writeSet_opened (file : LogFile) (encodesBlocks : Bool) (set : DiskBlock) :
    (file.whole.writeSet (file.opensInBlocks encodesBlocks) set).frames =
        file.frames ++ set.frames ∧
      ∃ added, (file.whole.writeSet (file.opensInBlocks encodesBlocks)
        set).entries = file.entries ++ added := by
  unfold opensInBlocks
  by_cases hsize : file.size = 0
  · rw [if_pos hsize]
    rcases eq_of_size_eq_zero hsize with rfl | rfl
    all_goals
      cases encodesBlocks with
      | false => exact ⟨rfl, _, rfl⟩
      | true => exact ⟨append_nil set.frames, _, rfl⟩
  · rw [if_neg hsize]
    cases file with
    | raw frames tail =>
      simp only [whole, writeSet, inMode_raw]
      exact ⟨rfl, _, denseEntries_append 0 frames set.frames⟩
    | blocks bs torn =>
      simp only [whole, writeSet, inMode_blocks]
      refine ⟨?_, _, anchorEntries_append 0 bs [set]⟩
      simp [frames]

theorem le_newestOffset {frames : List Frame} {frame : Frame}
    (hordered : frames.Pairwise fun a b => a.offset < b.offset)
    (hmem : frame ∈ frames) : frame.offset ≤ newestOffset base frames := by
  unfold newestOffset
  rw [if_neg (ne_nil_of_mem hmem)]
  rcases eq_nil_or_concat frames with rfl | ⟨front, last, rfl⟩
  · cases hmem
  · rw [concat_eq_append] at hordered hmem ⊢
    rw [lastOffsetOf_concat]
    rcases mem_append.mp hmem with hfront | hlast
    · exact ((pairwise_append.mp hordered).2.2 frame hfront last (by simp)).le
    · rw [mem_singleton.mp hlast]

end Opening

namespace TornFiles

variable {files : TornFiles} {stray : ℕ → Header} {set : DiskBlock}

theorem written_eq (files : TornFiles) (set : DiskBlock) :
    (files.written set).frames = files.file.frames ++ set.frames ∧
      ∃ added, (files.written set).entries = files.file.entries ++ added :=
  writeSet_opened files.file files.encodesBlocks set

theorem written_ordered (hsource : files.source.Sound files.base)
    (hfirst : set.first.offset = newestOffset files.base files.file.frames + 1)
    (hset : set.frames.Pairwise fun a b => a.offset < b.offset) :
    (files.written set).frames.Pairwise fun a b => a.offset < b.offset := by
  have hsound : files.file.Sound files.base := hsource.cut files.bytes
  rw [(written_eq files set).1]
  apply pairwise_append.mpr
  refine ⟨hsound.ordered, hset, ?_⟩
  intro frame hframe next hnext
  have hle : frame.offset ≤ newestOffset files.base files.file.frames :=
    le_newestOffset hsound.ordered hframe
  have hge : set.first.offset ≤ next.offset := by
    rcases mem_cons.mp hnext with rfl | hmem
    · exact le_rfl
    · exact ((pairwise_cons.mp hset).1 next hmem).le
  omega

/-- For every checkpoint the open of a torn log goes right exactly if the
entries fit the index, and the entries left on disk either reach past the log
in a way that is noticed or stop at what is left. -/
theorem tornTail_opensRight_iff (hsource : files.source.Sound files.base)
    (hfirst : set.first.offset = newestOffset files.base files.file.frames + 1)
    (hset : set.frames.Pairwise fun a b => a.offset < b.offset) :
    (∀ checkpoint, files.OpensRight stray set checkpoint) ↔
      (∀ e ∈ (files.written set).entries, e.Fits files.base) ∧
        (Rebuilds stray (initPositions files.base files.encodesBlocks
            files.file files.table) files.index ∨
          files.index <+: files.file.entries) := by
  have hsound : files.file.Sound files.base := hsource.cut files.bytes
  have htable : TableRight files.file files.table :=
    tableRight_cut files.source files.bytes files.sidecar
  have hoffsets : ∀ frame ∈ files.file.frames, 0 ≤ frame.offset :=
    fun frame hmem => hsound.base_nonneg.trans (hsound.base_le frame hmem)
  constructor
  · intro hright
    -- Below every offset no checkpoint can make the open refuse.
    rcases hright (-1) with ⟨_, _, hlow⟩ | ⟨seg, hok, hopens, _, _, hnext⟩
    · have hge := neg_one_le_lastOffsetOf hoffsets
      omega
    · have husable := (opensAs_iff hsound (fun e he => index_fits he)).mp ⟨seg, hok, hopens⟩
      refine ⟨?_, husable.2.2.1⟩
      intro e he
      rw [← hnext.index_eq] at he
      rcases mem_append.mp he with hold | hnew
      · rw [hopens.index_eq] at hold
        exact husable.1 e hold
      · rcases mem_map.mp hnew with ⟨e', _, rfl⟩
        rw [(openSegment_keeps hok).1]
        exact Entry.fits_stored files.base e'
  · rintro ⟨hfits, husable⟩ checkpoint
    rcases (written_eq files set).2 with ⟨added, hadded⟩
    have hfitsOld : ∀ e ∈ files.file.entries, e.Fits files.base := by
      intro e he
      apply hfits
      rw [hadded]
      exact mem_append_left _ he
    rcases @openSegment_cases stray files.base checkpoint
        files.encodesBlocks files.file files.table files.index hsound hfitsOld
        htable husable with
      ⟨_, hrefuse, herror⟩ | ⟨_, seg, hok, hdescribed⟩
    · exact Or.inl ⟨herror, hrefuse.1, hrefuse.2.2⟩
    · right
      have hnext := hdescribed.nextOffset_eq hoffsets
      have hwritten : Described files.base (files.written set) (seg.writeMessageSet set) := by
        unfold written at hfits ⊢
        rw [← blockMode_openSegment hok] at hfits ⊢
        exact hdescribed.write set hoffsets hfits
      exact ⟨seg, hok, hdescribed.opensAs hsound.ordered, openedHighWatermark_eq hnext, hnext,
        hwritten.opensAs (written_ordered hsource hfirst hset)⟩

/-- Two one-record blocks of which the first reached the disk, with both
anchors. -/
def blockBoundary : TornFiles where
  base := 0
  encodesBlocks := true
  source := blockFile [(0, []), (1, [])]
  bytes := 100
  entries := 2
  sidecar := none

/-- A cut between two blocks under an index that is ahead fails the open. -/
theorem tornTail_blockBoundary_fails :
    blockBoundary.openLog (fun _ => ⟨0, 0, 0⟩) 0 = .error .indexCorrupt ∧
      ¬ blockBoundary.OpensRight (fun _ => ⟨0, 0, 0⟩) (diskBlock 1 []) 0 := by
  have herror : blockBoundary.openLog (fun _ => ⟨0, 0, 0⟩) 0 = .error .indexCorrupt := by
    have hcode : (match blockBoundary.openLog (fun _ => ⟨0, 0, 0⟩) 0 with
        | .ok _ => none
        | .error e => some e) = some .indexCorrupt := by decide +kernel
    cases hopen : blockBoundary.openLog (fun _ => ⟨0, 0, 0⟩) 0 with
    | ok seg => simp [hopen] at hcode
    | error e => simpa [hopen] using hcode
  refine ⟨herror, ?_⟩
  rintro (⟨hrefused, _⟩ | ⟨seg, hok, _⟩)
  · rw [herror] at hrefused
    cases hrefused
  · rw [herror] at hok
    cases hok

/-- Three raw records cut inside the last one, under a complete index. -/
def rawCut : TornFiles where
  base := 0
  encodesBlocks := false
  source := rawFile [0, 1, 2]
  bytes := 2 * (storedFrame 0).length + 5
  entries := 3
  sidecar := none

theorem tornTail_opensRight_rawCut : rawCut.OpensRight (fun _ => ⟨0, 0, 0⟩) (diskBlock 2 []) 1 := by
  have hsource : rawCut.source.Sound rawCut.base := by
    refine ⟨le_rfl, ?_, ?_, Or.inl rfl⟩
    · simp [rawCut, rawFile, frames, storedFrame, Frame.ofMessage]
    · simp [rawCut, rawFile, frames, storedFrame, Frame.ofMessage]
  have hfirst : (diskBlock 2 []).first.offset =
      newestOffset rawCut.base rawCut.file.frames + 1 := by decide +kernel
  have hset : (diskBlock 2 []).frames.Pairwise fun a b => a.offset < b.offset := by
    simp [diskBlock, DiskBlock.frames]
  apply (tornTail_opensRight_iff hsource hfirst hset).mpr
  exact ⟨by decide +kernel, Or.inl
    ⟨_, rfl, by decide +kernel, by decide +kernel, by decide +kernel⟩⟩

end TornFiles

end CommitLog
