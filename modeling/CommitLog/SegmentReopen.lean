import CommitLog.SegmentRecovery

/-!
# Reopening a segment over the files a crash left

The index is compared with the log only through its last entry.  This is
enough exactly when the entries found are a front part of the ones the file
calls for; otherwise the segment opens as its file only if the last entry
gives the mismatch away and the index is rebuilt.
-/

namespace CommitLog

open List LogFile

/-! ## The file a segment should describe -/

def firstOffsetOf (frames : List Frame) : ℤ :=
  (frames.head?.map Frame.offset).getD (-1)

def lastOffsetOf (frames : List Frame) : ℤ :=
  (frames.getLast?.map Frame.offset).getD (-1)

namespace LogFile

def tail : LogFile → List Cell
  | .raw _ tail => tail
  | .blocks _ _ => []

/-- The file without what was broken off. -/
def whole : LogFile → LogFile
  | .raw frames _ => .raw frames []
  | .blocks bs _ => .blocks bs 0

/-- A log file of a segment: ascending offsets from the base on, and at most
one broken frame behind the whole ones. -/
structure Sound (base : ℤ) (file : LogFile) : Prop where
  base_nonneg : 0 ≤ base
  ordered : file.frames.Pairwise fun a b => a.offset < b.offset
  base_le : ∀ frame ∈ file.frames, base ≤ frame.offset
  tail_broken : TailBroken file.tail

end LogFile

structure OpensAs (stray : ℕ → Header) (file : LogFile)
    (seg : OpenSegment) : Prop where
  file_eq : seg.file = file.whole
  blocks_eq : seg.blocks = file.table
  position_eq : seg.position = framingLen file.frames
  index_eq : seg.index = file.entries
  firstOffset_eq : seg.firstOffset = firstOffsetOf file.frames
  lastOffset_eq : seg.lastOffset = lastOffsetOf file.frames
  seek : ∀ done frame todo, file.frames = done ++ frame :: todo → seg.findEntry stray frame.offset =
      some (entryAt (framingLen done) frame)
  scan : seg.scanAll stray = denseEntries 0 file.frames

/-! ## Reconciling from a front part of the entries -/

theorem firstOffsetOf_cons (frame : Frame) (frames : List Frame) :
    firstOffsetOf (frame :: frames) = frame.offset := rfl

theorem lastOffsetOf_concat (frames : List Frame) (frame : Frame) :
    lastOffsetOf (frames ++ [frame]) = frame.offset := by
  simp [lastOffsetOf]

theorem cutFrames_framingLen (frames : List Frame) :
    cutFrames (framingLen frames) frames = (frames, []) := by
  induction frames with
  | nil => rfl
  | cons frame frames ih =>
    simp only [cutFrames, framingLen_cons]
    rw [if_pos (by omega), Nat.add_sub_cancel_left, ih]

variable {es : List Entry}

theorem map_stored_of_fits {base : ℤ}
    (hfits : ∀ e ∈ es, e.Fits base) : es.map (Entry.stored base) = es := by
  rw [map_congr_left hfits, map_id']

theorem prefix_denseEntries {pos : ℕ} {frames : List Frame} (hes : es <+: denseEntries pos frames) :
    ∃ done todo, frames = done ++ todo ∧ es = denseEntries pos done := by
  induction frames generalizing pos es with
  | nil => exact ⟨[], [], rfl, prefix_nil.mp hes⟩
  | cons frame frames ih =>
    cases es with
    | nil => exact ⟨[], frame :: frames, rfl, rfl⟩
    | cons e es =>
      rw [denseEntries, cons_prefix_cons] at hes
      rcases ih hes.2 with ⟨done, todo, hframes, hrest⟩
      exact ⟨frame :: done, todo, by rw [hframes]; rfl, by rw [hes.1, hrest]; rfl⟩

theorem prefix_anchorEntries {pos : ℕ} {bs : List DiskBlock} (hes : es <+: anchorEntries pos bs) :
    ∃ front rest, bs = front ++ rest ∧ es = anchorEntries pos front := by
  induction bs generalizing pos es with
  | nil => exact ⟨[], [], rfl, prefix_nil.mp hes⟩
  | cons block bs ih =>
    cases es with
    | nil => exact ⟨[], block :: bs, rfl, rfl⟩
    | cons e es =>
      rw [anchorEntries, cons_prefix_cons] at hes
      rcases ih hes.2 with ⟨front, rest, hbs, hrest⟩
      exact ⟨block :: front, rest, by rw [hbs]; rfl, by rw [hes.1, hrest]; rfl⟩

theorem getLast?_denseEntries_concat (pos : ℕ) (frames : List Frame) (frame : Frame) :
    (denseEntries pos (frames ++ [frame])).getLast? =
      some (entryAt (pos + framingLen frames) frame) := by
  rw [denseEntries_append]
  simp [denseEntries]

theorem getLast?_anchorEntries_concat (pos : ℕ) (bs : List DiskBlock) (block : DiskBlock) :
    (anchorEntries pos (bs ++ [block])).getLast? =
      some (entryAt (pos + framingLen (framesOf bs)) block.first) := by
  rw [anchorEntries_append]
  simp [anchorEntries]

theorem lastOffsetOf_framesOf_concat (bs : List DiskBlock) (block : DiskBlock) :
    lastOffsetOf (framesOf (bs ++ [block])) =
      OpenSegment.lastOfBlock block := by
  have hlast := OpenSegment.getLast?_frames block
  rw [framesOf_append, framesOf_cons, framesOf_nil, append_nil]
  unfold lastOffsetOf
  rw [getLast?_append]
  cases hframes : block.frames.getLast? with
  | none => simp [hframes] at hlast
  | some frame => simpa [hframes] using hlast

namespace OpenSegment

structure Indexed (es : List Entry) (frames : List Frame)
    (seg : OpenSegment) : Prop where
  index_eq : seg.index = es
  firstOffset_eq : seg.firstOffset = firstOffsetOf frames
  lastOffset_eq : seg.lastOffset = lastOffsetOf frames

variable {stray : ℕ → Header} {base floor : ℤ}
  {frames done todo : List Frame} {tail : List Cell} {seg : OpenSegment}

theorem firstFrom_denseEntries {pos : ℕ} (hoffsets : ∀ frame ∈ done ++ todo, 0 ≤ frame.offset) :
    firstFrom (firstOffsetOf done) (denseEntries pos todo) = firstOffsetOf (done ++ todo) := by
  cases done with
  | nil =>
    cases todo with
    | nil => rfl
    | cons frame todo =>
      have hnonneg := hoffsets frame (by simp)
      apply firstFrom_cons
      simp only [entryAt]
      omega
  | cons frame done =>
    have hnonneg := hoffsets frame (by simp)
    rw [cons_append, firstOffsetOf_cons, firstOffsetOf_cons]
    apply firstFrom_of_ne
    omega

theorem lastOffsetOf_denseEntries {pos : ℕ} :
    ((denseEntries pos todo).getLast?.map Entry.offset).getD
      (lastOffsetOf done) = lastOffsetOf (done ++ todo) := by
  rcases eq_nil_or_concat todo with rfl | ⟨front, frame, rfl⟩
  · simp [denseEntries]
  · rw [concat_eq_append, getLast?_denseEntries_concat, ← append_assoc, lastOffsetOf_concat]
    rfl

theorem Indexed.walked (hindexed : Indexed (denseEntries 0 done) done seg)
    (hbase : seg.baseOffset = base) (hfits : ∀ e ∈ denseEntries 0 (done ++ todo), e.Fits base)
    (hoffsets : ∀ frame ∈ done ++ todo, 0 ≤ frame.offset) :
    Indexed (denseEntries 0 (done ++ todo)) (done ++ todo)
      ((denseEntries (framingLen done) todo).foldl noteEntry seg) := by
  have hsplit := denseEntries_append 0 done todo
  rw [Nat.zero_add] at hsplit
  rw [foldl_noteEntry]
  constructor
  · simp only
    rw [hindexed.index_eq, hsplit, hbase, map_stored_of_fits]
    intro e he
    apply hfits
    rw [hsplit]
    exact mem_append_right _ he
  · simp only
    rw [hindexed.firstOffset_eq]
    exact firstFrom_denseEntries hoffsets
  · simp only
    rw [hindexed.lastOffset_eq]
    exact lastOffsetOf_denseEntries

def Refuses (base floor : ℤ) (frames : List Frame) (tail : List Cell) : Prop :=
  tail ≠ [] ∧ base ≤ floor ∧ lastOffsetOf frames < floor

theorem walkStart_eq (hindexed : Indexed (denseEntries 0 done) done seg) :
    seg.walkStart = framingLen done := by
  unfold walkStart
  rw [hindexed.index_eq]
  rcases eq_nil_or_concat done with rfl | ⟨front, frame, rfl⟩
  · rfl
  · rw [concat_eq_append, getLast?_denseEntries_concat]
    simp [entryAt]

theorem reconcileIndexTailRaw_walks {walked : OpenSegment}
    (hready : RawReady base (done ++ todo) tail seg)
    (hstart : seg.walkStart = framingLen done) (htail : TailBroken tail)
    (hwalked : (denseEntries (framingLen done) todo).foldl noteEntry seg = walked) :
    ((tail ≠ [] ∧ base ≤ floor ∧ walked.lastOffset < floor) ∧
      seg.reconcileIndexTailRaw stray floor = .error .tornBelowWatermark) ∨
    (¬ (tail ≠ [] ∧ base ≤ floor ∧ walked.lastOffset < floor) ∧
      ∃ seg', seg.reconcileIndexTailRaw stray floor = .ok seg' ∧ seg'.index = walked.index ∧
        seg'.firstOffset = walked.firstOffset ∧
        seg'.lastOffset = walked.lastOffset ∧
        RawReady base (done ++ todo) [] seg' ∧
        seg'.blocks = seg.blocks ∧
        seg'.file = if tail = [] then seg.file
          else .raw (done ++ todo) []) := by
  have hfuel : todo.length < seg.position + 1 := by
    have hle := length_le_framingLen todo
    rw [hready.position_eq, framingLen_append]
    omega
  have hwalk : walkRaw stray (seg.position + 1) (framingLen done) seg = _ :=
    walkRaw_eq hready htail hfuel
  have hready' := hready.foldl (denseEntries (framingLen done) todo)
  have hblocks : ((denseEntries (framingLen done) todo).foldl noteEntry
      seg).blocks = seg.blocks := by
    rw [foldl_noteEntry]
  have hfile : ((denseEntries (framingLen done) todo).foldl noteEntry seg).file = seg.file := by
    rw [foldl_noteEntry]
  rw [hwalked] at hwalk hready' hblocks hfile
  unfold reconcileIndexTailRaw
  rw [hstart, if_neg (by omega), Int.toNat_natCast, hwalk]
  by_cases hnil : tail = []
  · right
    constructor
    · rintro ⟨hne, _⟩
      exact hne hnil
    · subst hnil
      exact ⟨walked, by simp, rfl, rfl, rfl, hready', hblocks, by simp [hfile]⟩
  · rw [if_neg (by simp [hnil])]
    simp only [hready.baseOffset_eq]
    by_cases hrefuse : base ≤ floor ∧ walked.lastOffset < floor
    · left
      exact ⟨⟨hnil, hrefuse⟩, if_pos hrefuse⟩
    · right
      have hcut : walked.file.truncate (framingLen (done ++ todo)) = .raw (done ++ todo) [] := by
        rw [hready'.torn_eq hnil]
        simp only [truncate]
        rw [if_pos le_rfl, cutFrames_framingLen]
      constructor
      · rintro ⟨_, hrefuse'⟩
        exact hrefuse hrefuse'
      · rw [if_neg hrefuse, hcut]
        exact ⟨_, rfl, rfl, rfl, rfl, ⟨hready'.baseOffset_eq, hready'.blockMode_eq, rfl, rfl, rfl,
            fun hne => absurd rfl hne⟩,
          hblocks, by rw [if_neg hnil]⟩

theorem reconcileIndexTailRaw_eq (hready : RawReady base (done ++ todo) tail seg)
    (hindexed : Indexed (denseEntries 0 done) done seg)
    (hfits : ∀ e ∈ denseEntries 0 (done ++ todo), e.Fits base)
    (hoffsets : ∀ frame ∈ done ++ todo, 0 ≤ frame.offset) (htail : TailBroken tail) :
    (Refuses base floor (done ++ todo) tail ∧
      seg.reconcileIndexTailRaw stray floor = .error .tornBelowWatermark) ∨
    (¬ Refuses base floor (done ++ todo) tail ∧
      ∃ seg', seg.reconcileIndexTailRaw stray floor = .ok seg' ∧
        Indexed (denseEntries 0 (done ++ todo)) (done ++ todo) seg' ∧
        RawReady base (done ++ todo) [] seg' ∧
        seg'.blocks = seg.blocks ∧
        seg'.file = if tail = [] then seg.file
          else .raw (done ++ todo) []) := by
  have hwalked := hindexed.walked hready.baseOffset_eq hfits hoffsets
  have hwalks := @reconcileIndexTailRaw_walks stray base floor done todo tail
    seg _ hready (walkStart_eq hindexed) htail rfl
  rw [hwalked.index_eq, hwalked.firstOffset_eq, hwalked.lastOffset_eq] at hwalks
  rcases hwalks with herror | ⟨hkept, seg', hok, hindex, hfirst, hlast, hrest⟩
  · exact Or.inl herror
  · exact Or.inr ⟨hkept, seg', hok, ⟨hindex, hfirst, hlast⟩, hrest⟩

variable {bs front rest : List DiskBlock}

theorem firstFrom_anchorEntries {pos : ℕ}
    (hoffsets : ∀ frame ∈ framesOf (front ++ rest), 0 ≤ frame.offset) :
    firstFrom (firstOffsetOf (framesOf front)) (anchorEntries pos rest) =
      firstOffsetOf (framesOf (front ++ rest)) := by
  cases front with
  | nil =>
    cases rest with
    | nil => rfl
    | cons block rest =>
      have hnonneg := hoffsets block.first (first_mem_framesOf mem_cons_self)
      apply firstFrom_cons
      simp only [entryAt]
      omega
  | cons block front =>
    have hnonneg := hoffsets block.first (first_mem_framesOf mem_cons_self)
    change firstFrom block.first.offset _ = block.first.offset
    apply firstFrom_of_ne
    omega

theorem reconcileIndexTailBlocks_anchors {anchored : OpenSegment}
    (hready : BlocksReady base (front ++ rest) seg)
    (hlength : seg.index.length = front.length) (hne : rest ≠ [])
    (hanchored : (anchorEntries (framingLen (framesOf front)) rest).foldl
      writeEntry seg = anchored) :
    ∃ seg', seg.reconcileIndexTailBlocks stray = .ok seg' ∧ seg'.index = anchored.index ∧
      seg'.firstOffset = anchored.firstOffset ∧
      seg'.lastOffset = lastOffsetOf (framesOf (front ++ rest)) ∧
      BlocksReady base (front ++ rest) seg' ∧ seg'.file = seg.file := by
  have hdrop : seg.blocks.drop seg.index.length =
      tableOf (framingLen (framesOf front)) (physLen front) rest := by
    rw [hready.blocks_eq, hlength, tableOf_append, Nat.zero_add, Nat.zero_add]
    exact drop_left' (by simp)
  rcases eq_nil_or_concat rest with hnil | ⟨others, block, hrest⟩
  · exact absurd hnil hne
  · rw [concat_eq_append] at hrest
    have hsplit : front ++ rest = front ++ others ++ [block] := by
      rw [hrest, append_assoc]
    have hlast : seg.blocks.getLast? = some (refAfter (front ++ others) block) := by
      rw [hready.blocks_eq, hsplit, tableOf_split]
      simp [tableOf]
    have hanchors := @anchorBlocks_eq stray base seg front rest hready
    have hready' := hready.foldl (anchorEntries (framingLen (framesOf front)) rest)
    have hfile : ((anchorEntries (framingLen (framesOf front)) rest).foldl
        writeEntry seg).file = seg.file := by
      rw [foldl_writeEntry]
    rw [hanchored] at hanchors hready' hfile
    have hlastFrame := @lastFrameInBlock_eq stray base _ (front ++ others) []
      (front ++ rest) block hready' hsplit
    unfold reconcileIndexTailBlocks
    rw [hdrop]
    cases htable : tableOf (framingLen (framesOf front)) (physLen front) rest with
    | nil =>
      have hlen := congrArg length htable
      rw [length_tableOf, hrest] at hlen
      simp at hlen
    | cons ref refs =>
      rw [htable] at hanchors
      simp only [hlast, hanchors]
      simp only [refOf]
      rw [hlastFrame]
      refine ⟨_, rfl, rfl, rfl, ?_, ?_, hfile⟩
      · rw [hsplit, lastOffsetOf_framesOf_concat]
      · exact ⟨hready'.baseOffset_eq, hready'.blockMode_eq,
          hready'.blocks_eq, hready'.position_eq, hready'.decode_eq⟩

theorem reconcileIndexTailBlocks_eq (hready : BlocksReady base (front ++ rest) seg)
    (hindexed : Indexed (anchorEntries 0 front) (framesOf front) seg)
    (hfits : ∀ e ∈ anchorEntries 0 (front ++ rest), e.Fits base)
    (hoffsets : ∀ frame ∈ framesOf (front ++ rest), 0 ≤ frame.offset) :
    ∃ seg', seg.reconcileIndexTailBlocks stray = .ok seg' ∧
      Indexed (anchorEntries 0 (front ++ rest)) (framesOf (front ++ rest)) seg' ∧
      BlocksReady base (front ++ rest) seg' ∧ seg'.file = seg.file := by
  have hlength : seg.index.length = front.length := by
    rw [hindexed.index_eq, length_anchorEntries]
  by_cases hnil : rest = []
  · have hdrop : seg.blocks.drop seg.index.length = [] := by
      rw [hready.blocks_eq, hlength, hnil, append_nil]
      exact drop_eq_nil_of_le (by simp)
    unfold reconcileIndexTailBlocks
    rw [hdrop]
    subst hnil
    rw [append_nil] at hready ⊢
    exact ⟨seg, rfl, hindexed, hready, rfl⟩
  · rcases @reconcileIndexTailBlocks_anchors stray base seg front rest _
        hready hlength hnil rfl with
      ⟨seg', hok, hindex, hfirst, hlast, hready', hfile⟩
    have hentries := anchorEntries_append 0 front rest
    rw [Nat.zero_add] at hentries
    rw [foldl_writeEntry] at hindex hfirst
    refine ⟨seg', hok, ⟨?_, ?_, hlast⟩, hready', hfile⟩
    · rw [hindex]
      simp only
      rw [hindexed.index_eq, hentries, hready.baseOffset_eq, map_stored_of_fits]
      intro e he
      apply hfits
      rw [hentries]
      exact mem_append_right _ he
    · rw [hfirst]
      simp only
      rw [hindexed.firstOffset_eq]
      exact firstFrom_anchorEntries hoffsets

/-! ## What the open keeps -/

/-- The index only grew, by entries that survive storing. -/
structure Extends (seg seg' : OpenSegment) : Prop where
  baseOffset_eq : seg'.baseOffset = seg.baseOffset
  blockMode_eq : seg'.blockMode = seg.blockMode
  blocks_eq : seg'.blocks = seg.blocks
  index_eq : ∃ added, seg'.index = seg.index ++ added ∧ ∀ e ∈ added, e.Fits seg.baseOffset

theorem Extends.refl (seg : OpenSegment) : Extends seg seg :=
  ⟨rfl, rfl, rfl, [], by simp, by simp⟩

variable {seg' : OpenSegment}

theorem Extends.trans {seg seg'' : OpenSegment}
    (h : Extends seg seg') (h' : Extends seg' seg'') : Extends seg seg'' := by
  rcases h.index_eq with ⟨added, hindex, hfits⟩
  rcases h'.index_eq with ⟨added', hindex', hfits'⟩
  refine ⟨h'.baseOffset_eq.trans h.baseOffset_eq,
    h'.blockMode_eq.trans h.blockMode_eq, h'.blocks_eq.trans h.blocks_eq,
    added ++ added', ?_, ?_⟩
  · rw [hindex', hindex, append_assoc]
  · intro e he
    rcases mem_append.mp he with hmem | hmem
    · exact hfits e hmem
    · rw [← h.baseOffset_eq]
      exact hfits' e hmem

theorem extends_writeEntry (seg : OpenSegment) (e : Entry) : Extends seg (seg.writeEntry e) :=
  ⟨rfl, rfl, rfl, [e.stored seg.baseOffset], rfl, by
    intro e' he
    rw [mem_singleton.mp he]
    exact Entry.fits_stored _ _⟩

theorem extends_walkRaw (fuel startPos : ℕ) (seg : OpenSegment) :
    Extends seg (walkRaw stray fuel startPos seg).seg := by
  induction fuel generalizing startPos seg with
  | zero => exact Extends.refl seg
  | succ fuel ih =>
    rw [walkRaw]
    split_ifs with hend hheader
    · exact Extends.refl seg
    · exact Extends.refl seg
    · simp only
      split_ifs with hpayload
      · exact Extends.refl seg
      · have hwritten := extends_writeEntry seg
          ⟨(headerIn stray 0 seg.file.rawCells startPos).offset,
            (headerIn stray 0 seg.file.rawCells startPos).timestamp,
            startPos, msgSetHeaderLen + (headerIn stray 0 seg.file.rawCells startPos).size⟩
        apply Extends.trans _ (ih _ _)
        exact ⟨hwritten.baseOffset_eq, hwritten.blockMode_eq, hwritten.blocks_eq, hwritten.index_eq⟩

theorem extends_anchorBlocks {refs : List BlockRef} {seg : OpenSegment}
    (hok : anchorBlocks stray refs seg = .ok seg') : Extends seg seg' := by
  induction refs generalizing seg with
  | nil =>
    cases hok
    exact Extends.refl _
  | cons ref refs ih =>
    rw [anchorBlocks] at hok
    cases hdecode : seg.file.decodeBlock ref with
    | none => simp [hdecode] at hok
    | some data =>
      simp only [hdecode] at hok
      split_ifs at hok with hshort
      · cases hok
        exact Extends.refl _
      · exact (extends_writeEntry seg _).trans (ih hok)

theorem extends_reconcileIndexTail (hok : seg.reconcileIndexTail stray floor = .ok seg') :
    Extends seg seg' := by
  unfold reconcileIndexTail at hok
  split_ifs at hok with hmode
  · unfold reconcileIndexTailBlocks at hok
    cases hdrop : seg.blocks.drop seg.index.length with
    | nil =>
      simp only [hdrop] at hok
      cases hok
      exact Extends.refl _
    | cons ref refs =>
      cases hlast : seg.blocks.getLast? with
      | none =>
        simp only [hdrop, hlast] at hok
        cases hok
        exact Extends.refl _
      | some last =>
        simp only [hdrop, hlast] at hok
        cases hanchor : anchorBlocks stray (ref :: refs) seg with
        | error e => simp [hanchor] at hok
        | ok anchored =>
          simp only [hanchor] at hok
          split at hok
          · cases hok
          · cases hok
            have hext := extends_anchorBlocks hanchor
            exact ⟨hext.baseOffset_eq, hext.blockMode_eq, hext.blocks_eq, hext.index_eq⟩
  · unfold reconcileIndexTailRaw at hok
    have hext := @extends_walkRaw stray (seg.position + 1) seg.walkStart.toNat seg
    split_ifs at hok with hneg
    simp only at hok
    split_ifs at hok with htorn hrefuse
    · cases hok
      exact hext
    · cases hok
      exact ⟨hext.baseOffset_eq, hext.blockMode_eq, hext.blocks_eq, hext.index_eq⟩

def Rebuilds (stray : ℕ → Header) (seg : OpenSegment) (index : List Entry) : Prop :=
  ∃ last, index.getLast? = some last ∧ seg.baseOffset ≤ last.offset ∧
    indexOvershootsLog { seg with index := index } last = true ∧
    rebuildOverIndex stray { seg with index := index } = true

variable {index : List Entry}

theorem setupIndex_eq_rebuild (hrebuild : Rebuilds stray seg index) : seg.setupIndex stray index =
      { seg with index := [], firstOffset := -1, lastOffset := -1 }.reconcileIndexTail stray
        (-1) := by
  rcases hrebuild with ⟨last, hlast, hoffset, hover⟩
  cases hhead : index.head? with
  | none => simp [head?_eq_none_iff.mp hhead] at hlast
  | some first =>
    unfold setupIndex
    simp only [hhead, hlast]
    rw [if_neg (by omega), if_pos (by simp [hover])]
    rfl

theorem extends_setupIndex (hok : seg.setupIndex stray index = .ok seg') :
    Rebuilds stray seg index ∧ Extends { seg with index := [] } seg' ∨ ¬ Rebuilds stray seg index ∧
        Extends { seg with index := index } seg' := by
  rcases eq_nil_or_concat index with rfl | ⟨front, last, hindex⟩
  · right
    cases hok
    constructor
    · rintro ⟨last, hlast, _⟩
      cases hlast
    · exact Extends.refl _
  · rw [concat_eq_append] at hindex
    have hlast : index.getLast? = some last := by simp [hindex]
    cases hhead : index.head? with
    | none => simp [head?_eq_none_iff.mp hhead] at hlast
    | some first =>
      unfold setupIndex at hok
      simp only [hhead, hlast] at hok
      split_ifs at hok with hbase hrebuild hmode
      · left
        rw [Bool.and_eq_true] at hrebuild
        have hext := extends_reconcileIndexTail hok
        exact ⟨⟨last, hlast, not_lt.mp hbase, hrebuild⟩,
          hext.baseOffset_eq, hext.blockMode_eq, hext.blocks_eq,
          hext.index_eq⟩
      all_goals
        right
        have hkept : ¬ Rebuilds stray seg index := by
          rintro ⟨last', hlast', _, hover⟩
          rw [hlast, Option.some.injEq] at hlast'
          subst hlast'
          rw [Bool.and_eq_true] at hrebuild
          exact hrebuild hover
        refine ⟨hkept, ?_⟩
      · split at hok
        · cases hok
        · cases hok
          exact ⟨rfl, rfl, rfl, [], by simp, by simp⟩
      · cases hok
        exact ⟨rfl, rfl, rfl, [], by simp, by simp⟩

/-! ## The index as it is found -/

theorem RawReady.setIndex (hready : RawReady base frames tail seg)
    (index : List Entry) (first last : ℤ) :
    RawReady base frames tail
      { seg with index := index, firstOffset := first, lastOffset := last } :=
  ⟨hready.baseOffset_eq, hready.blockMode_eq, hready.cells_eq, hready.size_eq,
    hready.position_eq, hready.torn_eq⟩

theorem BlocksReady.setIndex (hready : BlocksReady base bs seg)
    (index : List Entry) (first last : ℤ) :
    BlocksReady base bs { seg with index := index, firstOffset := first, lastOffset := last } :=
  ⟨hready.baseOffset_eq, hready.blockMode_eq, hready.blocks_eq,
    hready.position_eq, hready.decode_eq⟩

/-- The segment as `initPositions` leaves it. -/
structure Fresh (seg : OpenSegment) : Prop where
  index_eq : seg.index = []
  firstOffset_eq : seg.firstOffset = -1
  lastOffset_eq : seg.lastOffset = -1

theorem Fresh.indexed (hfresh : Fresh seg) : Indexed [] [] seg :=
  ⟨hfresh.index_eq, hfresh.firstOffset_eq, hfresh.lastOffset_eq⟩

theorem setupIndex_nil (hfresh : Fresh seg) : seg.setupIndex stray [] = .ok seg := by
  have heq : { seg with index := [] } = seg := by
    rw [← hfresh.index_eq]
  unfold setupIndex
  simp only [head?_nil, heq]

theorem overshoots_raw {last : Entry} (hmode : seg.blockMode = false) :
    indexOvershootsLog { seg with index := index } last = true ↔
      (seg.position : ℤ) < last.position + last.size := by
  simp [indexOvershootsLog, hmode]

theorem overshoots_blocks {last : Entry} (hmode : seg.blockMode = true) :
    indexOvershootsLog { seg with index := index } last = true ↔
      (seg.position : ℤ) ≤ last.position := by
  simp [indexOvershootsLog, hmode]

theorem RawReady.setupIndex_at {index : List Entry} {first : Entry} {front rest : List Frame}
    {frame : Frame} (hready : RawReady base (front ++ frame :: rest) tail seg)
    (hhead : index.head? = some first)
    (hlast : index.getLast? = some (entryAt (framingLen front) frame))
    (hoffset : base ≤ frame.offset) :
    ¬ Rebuilds stray seg index ∧ seg.setupIndex stray index = .ok { seg with
        index := index
        firstOffset := first.offset
        lastOffset := frame.offset } := by
  have hkept : indexOvershootsLog { seg with index := index }
      (entryAt (framingLen front) frame) = false := by
    have hpos := hready.position_eq
    simp only [framingLen_append, framingLen_cons] at hpos
    rw [← Bool.not_eq_true, overshoots_raw hready.blockMode_eq]
    simp only [entryAt]
    omega
  constructor
  · rintro ⟨last, hlast', _, hover, _⟩
    rw [hlast, Option.some.injEq] at hlast'
    subst hlast'
    rw [hkept] at hover
    cases hover
  · unfold setupIndex
    simp only [hhead, hlast, hkept, Bool.false_and]
    rw [if_neg (by simpa [entryAt, hready.baseOffset_eq] using hoffset),
      if_neg (by simp), if_neg (by simp [hready.blockMode_eq])]
    rfl

theorem RawReady.setupIndex_eq (hready : RawReady base (done ++ todo) tail seg)
    (hfresh : Fresh seg) (hbase : ∀ frame ∈ done, base ≤ frame.offset) :
    ¬ Rebuilds stray seg (denseEntries 0 done) ∧
      ∃ seg', seg.setupIndex stray (denseEntries 0 done) = .ok seg' ∧
        Indexed (denseEntries 0 done) done seg' ∧
        RawReady base (done ++ todo) tail seg' ∧
        seg'.blocks = seg.blocks ∧ seg'.file = seg.file := by
  rcases eq_nil_or_concat done with rfl | ⟨front, frame, hdone⟩
  · constructor
    · rintro ⟨last, hlast, _⟩
      cases hlast
    · exact ⟨seg, setupIndex_nil hfresh, hfresh.indexed, hready, rfl, rfl⟩
  · rw [concat_eq_append] at hdone
    have hlast : (denseEntries 0 done).getLast? = some (entryAt (framingLen front) frame) := by
      rw [hdone, getLast?_denseEntries_concat, Nat.zero_add]
    have hoffset : base ≤ frame.offset := hbase frame (by simp [hdone])
    cases hhead : (denseEntries 0 done).head? with
    | none => simp [head?_eq_none_iff.mp hhead] at hlast
    | some first =>
      have hfirst : first.offset = firstOffsetOf done := by
        cases done with
        | nil => cases hhead
        | cons other done =>
          cases hhead
          rfl
      have hsplit : done ++ todo = front ++ frame :: todo := by
        simp [hdone]
      have hready' := hready
      rw [hsplit] at hready'
      rcases @RawReady.setupIndex_at stray base tail seg _ first front todo
          frame hready' hhead hlast hoffset with ⟨hkept, hsetup⟩
      exact ⟨hkept, _, hsetup, ⟨rfl, hfirst, by rw [hdone, lastOffsetOf_concat]⟩,
        hready.setIndex _ _ _, rfl, rfl⟩

theorem RawReady.setupIndex_rebuilds (hready : RawReady base frames tail seg)
    (hrebuild : Rebuilds stray seg index) (hfits : ∀ e ∈ denseEntries 0 frames, e.Fits base)
    (hbase : 0 ≤ base) (hoffsets : ∀ frame ∈ frames, 0 ≤ frame.offset) (htail : TailBroken tail) :
    ∃ seg', seg.setupIndex stray index = .ok seg' ∧ Indexed (denseEntries 0 frames) frames seg' ∧
      RawReady base frames [] seg' ∧ seg'.blocks = seg.blocks ∧
      seg'.file = if tail = [] then seg.file else .raw frames [] := by
  have hwalk := @reconcileIndexTailRaw_eq stray base (-1) [] frames tail
    { seg with index := [], firstOffset := -1, lastOffset := -1 }
    (hready.setIndex _ _ _) ⟨rfl, rfl, rfl⟩ hfits hoffsets htail
  have hnot : ¬ Refuses base (-1) frames tail := by
    rintro ⟨_, hle, _⟩
    omega
  rcases hwalk with ⟨hrefuse, _⟩ | ⟨_, seg', hok, hwalked⟩
  · exact absurd hrefuse hnot
  · refine ⟨seg', ?_, hwalked⟩
    rw [setupIndex_eq_rebuild hrebuild, reconcileIndexTail, if_neg (by simp [hready.blockMode_eq])]
    exact hok

/-- A raw segment under a usable index opens as its frames, unless its torn
tail is refused. -/
theorem RawReady.open_eq (hready : RawReady base frames tail seg) (hfresh : Fresh seg)
    {index : List Entry} (hindex : Rebuilds stray seg index ∨ index <+: denseEntries 0 frames)
    (hfits : ∀ e ∈ denseEntries 0 frames, e.Fits base) (hbase : 0 ≤ base)
    (hoffsets : ∀ frame ∈ frames, base ≤ frame.offset) (htail : TailBroken tail) :
    (¬ Rebuilds stray seg index ∧ Refuses base floor frames tail ∧
      seg.setupAndReconcile stray index floor = .error .tornBelowWatermark) ∨
    (¬ (¬ Rebuilds stray seg index ∧ Refuses base floor frames tail) ∧
      ∃ seg', seg.setupAndReconcile stray index floor = .ok seg' ∧
        Indexed (denseEntries 0 frames) frames seg' ∧
        RawReady base frames [] seg' ∧ seg'.blocks = seg.blocks ∧
        seg'.file = if tail = [] then seg.file else .raw frames []) := by
  have hnonneg : ∀ frame ∈ frames, 0 ≤ frame.offset :=
    fun frame hmem => hbase.trans (hoffsets frame hmem)
  unfold setupAndReconcile reconcileIndexTail
  by_cases hrebuild : Rebuilds stray seg index
  · right
    rcases hready.setupIndex_rebuilds hrebuild hfits hbase hnonneg htail with
      ⟨seg', hsetup, hindexed, hready', hblocks, hfile⟩
    have hframes : frames ++ [] = frames := append_nil frames
    rw [← hframes] at hready'
    have hwalk := @reconcileIndexTailRaw_eq stray base floor frames [] [] seg'
      hready' hindexed (by rwa [hframes]) (by rwa [hframes]) (Or.inl rfl)
    rw [hframes] at hwalk hready'
    rcases hwalk with ⟨hrefuse, _⟩ | ⟨_, seg'', hok, hindexed', hready'', hblocks', hfile'⟩
    · exact absurd rfl hrefuse.1
    · refine ⟨fun hnot => hnot.1 hrebuild, seg'', ?_, hindexed', hready'',
        hblocks'.trans hblocks, ?_⟩
      · rw [hsetup]
        simp only [hready'.blockMode_eq]
        exact hok
      · rw [hfile', if_pos rfl, hfile]
  · rcases prefix_denseEntries (hindex.resolve_left hrebuild) with
      ⟨done, todo, rfl, rfl⟩
    rcases hready.setupIndex_eq hfresh
        (fun frame hmem => hoffsets frame (mem_append_left _ hmem)) with
      ⟨_, seg', hsetup, hindexed, hready', hblocks, hfile⟩
    have hwalk := @reconcileIndexTailRaw_eq stray base floor done todo tail
      seg' hready' hindexed hfits hnonneg htail
    rw [hsetup]
    simp only [hready'.blockMode_eq]
    rcases hwalk with ⟨hrefuse, herror⟩ | ⟨hnot, seg'', hok, hindexed', hready'', hblocks', hfile'⟩
    · exact Or.inl ⟨hrebuild, hrefuse, herror⟩
    · exact Or.inr ⟨fun h => hnot h.2, seg'', hok, hindexed', hready'',
        hblocks'.trans hblocks, by rw [hfile', hfile]⟩

theorem BlocksReady.setupIndex_at {index : List Entry} {first last : Entry} {block : DiskBlock}
    {before after : List Frame} {frame : Frame} (hready : BlocksReady base bs seg)
    (hhead : index.head? = some first) (hlast : index.getLast? = some last)
    (hoffset : base ≤ last.offset) (hsplit : bs = front ++ block :: rest)
    (hblock : block.frames = before ++ frame :: after)
    (hposition : last.position = (framingLen (framesOf front) + framingLen before : ℕ)) :
    seg.setupIndex stray index = .ok { seg with
        index := index
        firstOffset := first.offset
        lastOffset := lastOfBlock block } := by
  have hpos := frame.length_pos
  have hkept : indexOvershootsLog { seg with index := index } last =
      false := by
    rw [← Bool.not_eq_true, overshoots_blocks hready.blockMode_eq,
      hready.position_eq, hsplit, hposition]
    simp only [framesOf_append, framesOf_cons, framingLen_append, hblock, framingLen_cons]
    omega
  have hfound : lastFrameInBlock stray { seg with index := index }
      last.position = .ok (lastOfBlock block) := by
    rw [hposition]
    exact lastFrameInBlock_at (hready.setIndex _ seg.firstOffset seg.lastOffset) hsplit hblock
  unfold setupIndex
  simp only [hhead, hlast, hkept, Bool.false_and]
  rw [if_neg (by simpa [hready.baseOffset_eq] using hoffset),
    if_neg (by simp), if_pos hready.blockMode_eq]
  simp only [hfound]

theorem BlocksReady.setupIndex_eq (hready : BlocksReady base (front ++ rest) seg)
    (hfresh : Fresh seg) (hbase : ∀ frame ∈ framesOf front, base ≤ frame.offset) :
    ∃ seg', seg.setupIndex stray (anchorEntries 0 front) = .ok seg' ∧
      Indexed (anchorEntries 0 front) (framesOf front) seg' ∧
      BlocksReady base (front ++ rest) seg' ∧ seg'.file = seg.file := by
  rcases eq_nil_or_concat front with rfl | ⟨others, block, hfront⟩
  · exact ⟨seg, setupIndex_nil hfresh, hfresh.indexed, hready, rfl⟩
  · rw [concat_eq_append] at hfront
    have hlast : (anchorEntries 0 front).getLast? =
        some (entryAt (framingLen (framesOf others)) block.first) := by
      rw [hfront, getLast?_anchorEntries_concat, Nat.zero_add]
    have hoffset : base ≤ block.first.offset :=
      hbase _ (first_mem_framesOf (by simp [hfront]))
    have hsplit : front ++ rest = others ++ block :: rest := by
      simp [hfront]
    cases hhead : (anchorEntries 0 front).head? with
    | none => simp [head?_eq_none_iff.mp hhead] at hlast
    | some first =>
      have hfirst : first.offset = firstOffsetOf (framesOf front) := by
        cases front with
        | nil => cases hhead
        | cons other front =>
          cases hhead
          rfl
      have hsetup := @BlocksReady.setupIndex_at stray base seg _ others rest
        _ first _ block [] block.others block.first hready hhead hlast
        hoffset hsplit rfl rfl
      exact ⟨_, hsetup, ⟨rfl, hfirst, by rw [hfront, lastOffsetOf_framesOf_concat]⟩,
        hready.setIndex _ _ _, rfl⟩

theorem BlocksReady.open_eq (hready : BlocksReady base bs seg) (hfresh : Fresh seg)
    {index : List Entry} (hindex : Rebuilds stray seg index ∨ index <+: anchorEntries 0 bs)
    (hfits : ∀ e ∈ anchorEntries 0 bs, e.Fits base) (hbase : 0 ≤ base)
    (hoffsets : ∀ frame ∈ framesOf bs, base ≤ frame.offset) :
    ∃ seg', seg.setupAndReconcile stray index floor = .ok seg' ∧
      Indexed (anchorEntries 0 bs) (framesOf bs) seg' ∧
      BlocksReady base bs seg' ∧ seg'.file = seg.file := by
  have hnonneg : ∀ frame ∈ framesOf bs, 0 ≤ frame.offset :=
    fun frame hmem => hbase.trans (hoffsets frame hmem)
  unfold setupAndReconcile reconcileIndexTail
  by_cases hrebuild : Rebuilds stray seg index
  · rcases @reconcileIndexTailBlocks_eq stray base
        { seg with index := [], firstOffset := -1, lastOffset := -1 } [] bs
        (hready.setIndex _ _ _) ⟨rfl, rfl, rfl⟩ hfits hnonneg with
      ⟨seg', hok, hindexed, hready', hfile⟩
    have hsetup : seg.setupIndex stray index = .ok seg' := by
      rw [setupIndex_eq_rebuild hrebuild, reconcileIndexTail, if_pos hready.blockMode_eq]
      exact hok
    have hbs : bs ++ [] = bs := append_nil bs
    rw [nil_append] at hready' hindexed
    rw [← hbs] at hready'
    rcases @reconcileIndexTailBlocks_eq stray base seg' bs [] hready' hindexed
        (by rwa [hbs]) (by rwa [hbs]) with
      ⟨seg'', hok', hindexed', hready'', hfile'⟩
    rw [hbs] at hready' hindexed' hready''
    refine ⟨seg'', ?_, hindexed', hready'', hfile'.trans hfile⟩
    rw [hsetup]
    simp only [hready'.blockMode_eq]
    exact hok'
  · rcases prefix_anchorEntries (hindex.resolve_left hrebuild) with
      ⟨front, rest, rfl, rfl⟩
    rcases hready.setupIndex_eq hfresh (fun frame hmem => hoffsets frame (by
        rw [framesOf_append]
        exact mem_append_left _ hmem)) with
      ⟨seg', hsetup, hindexed, hready', hfile⟩
    rcases @reconcileIndexTailBlocks_eq stray base seg' front rest hready'
        hindexed hfits hnonneg with ⟨seg'', hok, hindexed', hready'', hfile'⟩
    refine ⟨seg'', ?_, hindexed', hready'', hfile'.trans hfile⟩
    rw [hsetup]
    simp only [hready'.blockMode_eq]
    exact hok

theorem BlocksReady.keeps_index {index : List Entry} {first last : Entry} {block : DiskBlock}
    {before after : List Frame} {frame : Frame} (hready : BlocksReady base bs seg)
    (hhead : index.head? = some first) (hlast : index.getLast? = some last)
    (hoffset : base ≤ last.offset) (hsplit : bs = front ++ block :: rest)
    (hblock : block.frames = before ++ frame :: after)
    (hposition : last.position = (framingLen (framesOf front) + framingLen before : ℕ))
    (hmany : bs.length ≤ index.length) :
    seg.setupAndReconcile stray index floor = .ok { seg with
        index := index
        firstOffset := first.offset
        lastOffset := lastOfBlock block } := by
  have hsetup := @BlocksReady.setupIndex_at stray base seg bs front rest index
    first last block before after frame hready hhead hlast hoffset hsplit
    hblock hposition
  have hlength : seg.blocks.length ≤ index.length := by
    rw [hready.blocks_eq, length_tableOf]
    exact hmany
  unfold setupAndReconcile reconcileIndexTail reconcileIndexTailBlocks
  rw [hsetup]
  simp only [hready.blockMode_eq, if_true, drop_eq_nil_of_le hlength]

end OpenSegment

/-! ## The segment is its file -/

section Opening

variable {stray : ℕ → Header} {base floor : ℤ} {encodesBlocks : Bool}
  {file : LogFile} {sidecar : Option (List BlockRef)} {index : List Entry}

open OpenSegment

/-- A block table that accounts for the file's size is the file's own. -/
def TableRight (file : LogFile) (sidecar : Option (List BlockRef)) : Prop :=
  match file with
  | .raw _ _ => True
  | .blocks _ _ => ∀ table, sidecar = some table → file.size ≠ 0 →
      (blockTableExtent table).2 = file.size → table = file.table

theorem LogFile.eq_of_size_eq_zero (hsize : file.size = 0) :
    file = .raw [] [] ∨ file = .blocks [] 0 := by
  cases file with
  | raw frames tail =>
    have hle := length_le_framingLen frames
    simp only [size] at hsize
    have hframes : frames = [] := eq_nil_of_length_eq_zero (by omega)
    have htail : tail = [] := eq_nil_of_length_eq_zero (by omega)
    left
    rw [hframes, htail]
  | blocks bs torn =>
    simp only [size] at hsize
    cases bs with
    | nil =>
      right
      rw [show torn = 0 by simpa using hsize]
    | cons block bs =>
      have hpos := block.physLen_pos
      rw [physLen_cons] at hsize
      omega

theorem LogFile.inMode_raw (frames : List Frame) :
    (raw frames []).inMode false = .raw frames [] := by
  cases frames <;> rfl

theorem LogFile.inMode_blocks (bs : List DiskBlock) : (blocks bs 0).inMode true = .blocks bs 0 := by
  cases bs <;> rfl

theorem fresh_initPositions : Fresh (initPositions base encodesBlocks file sidecar) := by
  unfold initPositions
  split_ifs
  · exact ⟨rfl, rfl, rfl⟩
  · split
    · exact ⟨rfl, rfl, rfl⟩
    · split <;> exact ⟨rfl, rfl, rfl⟩

theorem baseOffset_initPositions :
    (initPositions base encodesBlocks file sidecar).baseOffset = base := by
  unfold initPositions
  split_ifs
  · rfl
  · split
    · rfl
    · split <;> rfl

theorem initPositions_ready (htable : TableRight file sidecar) :
    let seg := initPositions base encodesBlocks file sidecar
    seg.blocks = file.table ∧ ((file.entries = denseEntries 0 file.frames ∧
          file.whole.inMode false = .raw file.frames [] ∧ seg.file = file ∧
          (file.tail = [] → file.whole = file) ∧
          RawReady base file.frames file.tail seg) ∨
        ∃ bs, file.frames = framesOf bs ∧ file.entries = anchorEntries 0 bs ∧
          file.whole.inMode true = .blocks bs 0 ∧ file.tail = [] ∧
          seg.file = file.whole ∧ BlocksReady base bs seg) := by
  intro seg
  by_cases hsize : file.size = 0
  · have hseg : seg = ⟨base, file, encodesBlocks, [], 0, false, [], -1, -1⟩ :=
      if_pos hsize
    rw [hseg]
    rcases eq_of_size_eq_zero hsize with rfl | rfl
    all_goals
      refine ⟨rfl, ?_⟩
      cases encodesBlocks with
      | false =>
        left
        exact ⟨rfl, rfl, rfl, fun _ => rfl, rfl, rfl, rfl, rfl, rfl, fun hne => absurd rfl hne⟩
      | true =>
        right
        exact ⟨[], rfl, rfl, rfl, rfl, rfl, rfl, rfl, rfl, rfl, by simp⟩
  · cases hfile : file with
    | raw frames tail =>
      rw [hfile] at hsize
      have hseg : seg = ⟨base, .raw frames tail, false, [],
          (raw frames tail).size, false, [], -1, -1⟩ := by
        simp only [seg, hfile, initPositions]
        rw [if_neg hsize]
      rw [hseg]
      refine ⟨rfl, Or.inl ⟨rfl, inMode_raw frames, rfl, ?_, rfl,
        rfl, rfl, rfl, rfl, fun _ => rfl⟩⟩
      intro htail
      simp only [LogFile.tail] at htail
      rw [htail, whole]
    | blocks bs torn =>
      rw [hfile] at hsize htable
      have hready : ∀ seg : OpenSegment, seg = ⟨base, .blocks bs 0, true, tableOf 0 0 bs,
            framingLen (framesOf bs), seg.droppedTornTail, [], -1, -1⟩ →
          BlocksReady base bs seg := by
        intro seg hseg
        rw [hseg]
        refine ⟨rfl, rfl, rfl, rfl, ?_⟩
        intro front block rest hsplit
        subst hsplit
        exact decodeBlock_tableOf 0
      have hseg : seg = ⟨base, .blocks bs 0, true, tableOf 0 0 bs,
          framingLen (framesOf bs), seg.droppedTornTail, [], -1, -1⟩ := by
        simp only [seg, hfile, initPositions]
        rw [if_neg hsize]
        cases hside : sidecar.filter (fun table =>
            decide ((blockTableExtent table).2 = (LogFile.blocks bs torn).size)) with
        | none => simp only [blockTableExtent_tableOf]
        | some table =>
          rw [Option.filter_eq_some_iff, decide_eq_true_eq] at hside
          have heq := htable table hside.1 hsize hside.2
          rw [heq] at hside
          have hextent := hside.2
          simp only [LogFile.table, LogFile.size, blockTableExtent_tableOf] at hextent
          have htorn : torn = 0 := by omega
          simp only [heq, LogFile.table, blockTableExtent_tableOf, htorn]
      constructor
      · rw [hseg]
        rfl
      · right
        refine ⟨bs, rfl, rfl, LogFile.inMode_blocks bs, rfl, ?_, hready seg hseg⟩
        rw [hseg]
        rfl

theorem blocksReady_initPositions {base : ℤ} {encodesBlocks : Bool}
    {bs : List DiskBlock} (hne : bs ≠ []) :
    BlocksReady base bs (initPositions base encodesBlocks (.blocks bs 0) none) := by
  rcases @initPositions_ready base encodesBlocks (.blocks bs 0) none (fun _ h => by cases h) with
    ⟨-, ⟨-, hshape, -⟩ | ⟨bs', -, -, hshape, -, -, hready⟩⟩
  · cases bs with
    | nil => exact absurd rfl hne
    | cons block bs => cases hshape
  · cases bs with
    | nil => exact absurd rfl hne
    | cons block bs =>
      cases hshape
      exact hready

/-- The segment describes the file: the facts that seeking and scanning rest
on. -/
structure Described (base : ℤ) (file : LogFile) (seg : OpenSegment) :
    Prop where
  file_eq : seg.file = file.whole
  blocks_eq : seg.blocks = file.table
  indexed : Indexed file.entries file.frames seg
  mode : file.entries = denseEntries 0 file.frames ∧ file.whole.inMode false = .raw file.frames [] ∧
      RawReady base file.frames [] seg ∨
    ∃ bs, file.frames = framesOf bs ∧ file.entries = anchorEntries 0 bs ∧
      file.whole.inMode true = .blocks bs 0 ∧ BlocksReady base bs seg

theorem Described.opensAs {seg : OpenSegment} (hdescribed : Described base file seg)
    (hordered : file.frames.Pairwise fun a b => a.offset < b.offset) : OpensAs stray file seg := by
  have hindexed := hdescribed.indexed
  have hholds : Holds stray file.frames seg := by
    rcases hdescribed.mode with
      ⟨_, _, hready⟩ | ⟨bs, hframes, _, _, hready⟩
    · exact hready.holds
    · rw [hframes]
      exact hready.holds
  refine ⟨hdescribed.file_eq, hdescribed.blocks_eq, hholds.position_eq,
    hindexed.index_eq, hindexed.firstOffset_eq, hindexed.lastOffset_eq, ?_,
    hholds.scanAll_eq⟩
  intro done frame todo hsplit
  rcases hdescribed.mode with
    ⟨hentries, _, hready⟩ | ⟨bs, hframes, hentries, _, hready⟩
  · exact hready.findEntry_eq (hindexed.index_eq.trans hentries) hordered hsplit
  · rw [hframes] at hordered hsplit
    exact hready.findEntry_eq (hindexed.index_eq.trans hentries) hordered hsplit

theorem openSegment_cases (hsound : file.Sound base) (hfits : ∀ e ∈ file.entries, e.Fits base)
    (htable : TableRight file sidecar)
    (husable : Rebuilds stray (initPositions base encodesBlocks file sidecar) index ∨
        index <+: file.entries) :
    (¬ Rebuilds stray (initPositions base encodesBlocks file sidecar) index ∧
      Refuses base floor file.frames file.tail ∧
      openSegment stray base encodesBlocks file sidecar index floor = .error .tornBelowWatermark) ∨
    (¬ (¬ Rebuilds stray (initPositions base encodesBlocks file sidecar)
          index ∧ Refuses base floor file.frames file.tail) ∧
      ∃ seg, openSegment stray base encodesBlocks file sidecar index floor =
        .ok seg ∧ Described base file seg) := by
  have hfresh : Fresh (initPositions base encodesBlocks file sidecar) :=
    fresh_initPositions
  rcases @initPositions_ready base encodesBlocks file sidecar htable with
    ⟨hblocks, ⟨hentries, hshape, hfile, hwhole, hready⟩ |
      ⟨bs, hframes, hentries, hshape, htail, hfile, hready⟩⟩
  · rw [hentries] at husable hfits
    rcases @RawReady.open_eq stray base floor file.frames file.tail _ hready
        hfresh index husable hfits hsound.base_nonneg hsound.base_le
        hsound.tail_broken with
      ⟨hkept, hrefuse, herror⟩ | ⟨hnot, seg, hok, hindexed, hready', hblocks', hfile'⟩
    · exact Or.inl ⟨hkept, hrefuse, herror⟩
    · right
      rw [← hentries] at hindexed
      refine ⟨hnot, seg, hok, ?_, hblocks'.trans hblocks, hindexed,
        Or.inl ⟨hentries, hshape, hready'⟩⟩
      rw [hfile', hfile]
      split_ifs with htail
      · exact (hwhole htail).symm
      · cases file with
        | raw frames tail => rfl
        | blocks bs torn => exact absurd rfl htail
  · right
    have hoffsets := hsound.base_le
    rw [hframes] at hoffsets
    rw [hentries] at husable hfits
    rcases @BlocksReady.open_eq stray base floor _ bs hready hfresh index
        husable hfits hsound.base_nonneg hoffsets with
      ⟨seg, hok, hindexed, hready', hfile'⟩
    constructor
    · rintro ⟨_, hne, _⟩
      exact hne htail
    · rw [← hentries, ← hframes] at hindexed
      refine ⟨seg, hok, hfile'.trans hfile, ?_, hindexed,
        Or.inr ⟨bs, hframes, hentries, hshape, hready'⟩⟩
      rw [hready'.blocks_eq, ← hready.blocks_eq, hblocks]

theorem openSegment_keeps {seg : OpenSegment}
    (hok : openSegment stray base encodesBlocks file sidecar index floor = .ok seg) :
    seg.baseOffset = base ∧ seg.blockMode =
        (initPositions base encodesBlocks file sidecar).blockMode ∧
      seg.blocks = (initPositions base encodesBlocks file sidecar).blocks ∧
      ∃ kept added, seg.index = kept ++ added ∧ (∀ e ∈ added, e.Fits base) ∧
        (kept = [] ∧ Rebuilds stray (initPositions base encodesBlocks file sidecar) index ∨
          kept = index) := by
  have hbase : (initPositions base encodesBlocks file sidecar).baseOffset =
      base := baseOffset_initPositions
  unfold openSegment setupAndReconcile at hok
  generalize initPositions base encodesBlocks file sidecar = start at *
  cases hsetup : start.setupIndex stray index with
  | error e => simp [hsetup] at hok
  | ok seg' =>
    simp only [hsetup] at hok
    have hrest := extends_reconcileIndexTail hok
    rcases extends_setupIndex hsetup with
      ⟨hrebuild, hext⟩ | ⟨_, hext⟩
    all_goals
      have hall := hext.trans hrest
      rcases hall.index_eq with ⟨added, hadded, hfits⟩
      rw [show ({ start with index := _ } : OpenSegment).baseOffset = base from hbase] at hfits
      refine ⟨hall.baseOffset_eq.trans hbase, hall.blockMode_eq,
        hall.blocks_eq, _, added, hadded, hfits, ?_⟩
    · exact Or.inl ⟨rfl, hrebuild⟩
    · exact Or.inr rfl

theorem opensAs_iff (hsound : file.Sound base) (hindex : ∀ e ∈ index, e.Fits base) :
    (∃ seg, openSegment stray base encodesBlocks file sidecar index floor =
        .ok seg ∧ OpensAs stray file seg) ↔
      (∀ e ∈ file.entries, e.Fits base) ∧ TableRight file sidecar ∧
        (Rebuilds stray (initPositions base encodesBlocks file sidecar)
            index ∨ index <+: file.entries) ∧
        ¬ (¬ Rebuilds stray (initPositions base encodesBlocks file sidecar)
            index ∧ Refuses base floor file.frames file.tail) := by
  constructor
  · rintro ⟨seg, hok, hopens⟩
    rcases openSegment_keeps hok with
      ⟨_, _, hblocks, kept, added, hadded, hfitsAdded, hkept⟩
    rw [hopens.index_eq] at hadded
    have hfits : ∀ e ∈ file.entries, e.Fits base := by
      intro e he
      rw [hadded] at he
      rcases mem_append.mp he with hmem | hmem
      · rcases hkept with ⟨rfl, _⟩ | rfl
        · cases hmem
        · exact hindex e hmem
      · exact hfitsAdded e hmem
    have htable : TableRight file sidecar := by
      cases file with
      | raw frames tail => trivial
      | blocks bs torn =>
        intro table hside hsize hextent
        rw [← hopens.blocks_eq, hblocks]
        simp only [initPositions]
        rw [if_neg hsize, hside, Option.filter_some_pos (by simpa using hextent)]
    have husable : Rebuilds stray (initPositions base encodesBlocks file sidecar) index ∨
          index <+: file.entries := by
      rcases hkept with ⟨_, hrebuild⟩ | rfl
      · exact Or.inl hrebuild
      · exact Or.inr ⟨added, hadded.symm⟩
    refine ⟨hfits, htable, husable, ?_⟩
    rcases @openSegment_cases stray base floor encodesBlocks file sidecar
        index hsound hfits htable husable with ⟨_, _, herror⟩ | ⟨hnot, _⟩
    · rw [herror] at hok
      cases hok
    · exact hnot
  · rintro ⟨hfits, htable, husable, hnot⟩
    rcases @openSegment_cases stray base floor encodesBlocks file sidecar
        index hsound hfits htable husable with
      ⟨hkept, hrefuse, _⟩ | ⟨_, seg, hok, hdescribed⟩
    · exact absurd ⟨hkept, hrefuse⟩ hnot
    · exact ⟨seg, hok, hdescribed.opensAs hsound.ordered⟩

end Opening

end CommitLog
