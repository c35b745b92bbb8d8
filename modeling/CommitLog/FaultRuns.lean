import CommitLog.FailedWrites

/-!
# Runs of appends that may fail

A segment is appended to with faults and opened again.  As long as no append
is made behind the remains of a failed write, every record of a successful
append stays where its index entry or its block's anchor points, through any
number of failed index writes and reopens.
-/

namespace CommitLog

open List LogFile OpenSegment Runs

/-! ## Appending -/

section Appending

variable {s : FaultLog} {set : DiskBlock} {frames rest : List Frame}
  {tail : List Cell} {bs restBlocks : List DiskBlock} {torn : ℕ}

theorem FaultLog.Kept.accepts (hkept : s.Kept frames [])
    (hcheck : checkAppendedSet (s.seg.nextOffset - 1) set.frames = true) :
    ((frames ++ set.frames).Pairwise fun a b => a.offset < b.offset) ∧
      (∀ frame ∈ frames ++ set.frames, s.seg.baseOffset ≤ frame.offset) ∧
      max s.seg.lastOffset (lastOfBlock set) = lastOffsetOf (frames ++ set.frames) := by
  have hordered := hkept.ordered
  have hbase := hkept.base_le
  rw [append_nil] at hordered hbase
  have hnonneg : ∀ frame ∈ frames, 0 ≤ frame.offset :=
    fun frame hmem => hkept.base_nonneg.trans (hbase frame hmem)
  rcases checkAppendedSet_iff.mp hcheck with ⟨hne, hset, habove⟩
  rw [nextOffset_of_lastOffset hkept.lastOffset_eq hnonneg, add_sub_cancel_right] at habove
  have hnewest : s.seg.baseOffset - 1 ≤ newestOffset s.seg.baseOffset frames := by
    unfold newestOffset
    split_ifs with hnil
    · exact le_rfl
    · rcases eq_nil_or_concat' frames with rfl | ⟨front, last, rfl⟩
      · exact absurd rfl hnil
      · have hlast := hbase last (by simp)
        rw [lastOffsetOf_concat]
        omega
  have hlast : s.seg.lastOffset ≤ newestOffset s.seg.baseOffset frames := by
    rw [hkept.lastOffset_eq]
    unfold newestOffset
    split_ifs with hnil
    · have hbase := hkept.base_nonneg
      rw [hnil]
      change -1 ≤ _
      omega
    · exact le_rfl
  refine ⟨pairwise_append.mpr ⟨hordered, hset, ?_⟩, ?_, ?_⟩
  · intro frame hframe other hother
    exact (le_newestOffset hordered hframe).trans_lt (habove other hother)
  · intro frame hframe
    rcases mem_append.mp hframe with hframe | hframe
    · exact hbase frame hframe
    · have hlt := habove frame hframe
      omega
  · rw [← last_written]
    apply max_eq_right
    have hmem : ∃ frame ∈ set.frames, frame.offset = lastOfBlock set := by
      have hgetLast := getLast?_frames set
      rcases Option.map_eq_some_iff.mp hgetLast with ⟨frame, hframe, heq⟩
      exact ⟨frame, mem_of_getLast? hframe, heq⟩
    rcases hmem with ⟨frame, hframe, heq⟩
    have hlt := habove frame hframe
    omega

theorem FaultLog.Kept.landed (hkept : s.Kept frames [])
    (hcheck : checkAppendedSet (s.seg.nextOffset - 1) set.frames = true) {seg : OpenSegment}
    {acked : List Frame} (hseg : seg.baseOffset = s.seg.baseOffset)
    (hlast : seg.lastOffset = max s.seg.lastOffset (lastOfBlock set))
    (hacked : ∀ frame ∈ acked, frame ∈ s.acked ∨ frame ∈ set.frames) :
    Kept (frames ++ set.frames) [] ⟨seg, acked, s.handed ++ set.frames⟩ := by
  rcases hkept.accepts hcheck with ⟨hordered, hbase, hmax⟩
  have hhanded := hkept.handed_mem
  rw [append_nil] at hhanded
  constructor
  · rw [hseg]
    exact hkept.base_nonneg
  · rwa [append_nil]
  · rwa [append_nil, hseg]
  · rw [hlast, hmax]
  · intro frame hframe
    apply mem_append.mpr
    exact (hacked frame hframe).imp_left (hkept.acked_mem frame)
  · intro frame hframe
    rw [append_nil] at hframe
    apply mem_append.mpr
    exact (mem_append.mp hframe).imp_left (hhanded frame)

theorem FaultLog.Kept.stranded (hkept : s.Kept frames [])
    (hcheck : checkAppendedSet (s.seg.nextOffset - 1) set.frames = true)
    (hrest : rest <+: set.frames) (file : LogFile) :
    Kept frames rest ⟨{ s.seg with file := file }, s.acked, s.handed ++ set.frames⟩ := by
  rcases hkept.accepts hcheck with ⟨hordered, hbase, _⟩
  have hsub : (frames ++ rest).Sublist (frames ++ set.frames) :=
    (Sublist.refl frames).append hrest.sublist
  have hhanded := hkept.handed_mem
  rw [append_nil] at hhanded
  refine ⟨hkept.base_nonneg, hordered.sublist hsub,
    fun frame hframe => hbase frame (hsub.subset hframe),
    hkept.lastOffset_eq, hkept.acked_mem, ?_⟩
  intro frame hframe
  apply mem_append.mpr
  exact (mem_append.mp hframe).imp (hhanded frame) fun hmem => hrest.subset hmem

/-! ### Raw segments -/

theorem FaultLog.RawKept.no_stray (hraw : s.RawKept frames rest tail)
    (hsize : s.seg.file.size = s.seg.physEnd) : rest = [] ∧ tail = [] := by
  have hend : s.seg.physEnd = framingLen frames := by
    unfold physEnd
    rw [if_neg (by simp [hraw.blockMode_eq]), hraw.position_eq]
  have hlen : s.seg.file.size = framingLen (frames ++ rest) + tail.length := by
    rw [← size_inMode false, hraw.file_eq]
    rfl
  have hle := length_le_framingLen rest
  rw [framingLen_append] at hlen
  constructor
  · apply eq_nil_of_length_eq_zero
    omega
  · apply eq_nil_of_length_eq_zero
    omega

section

variable (hraw : s.RawKept frames [] [])
include hraw

theorem FaultLog.RawKept.writeBytes_eq (bytes : ℕ) :
    s.seg.file.writeBytes s.seg.blockMode set bytes =
      .raw (frames ++ (cutFrames bytes set.frames).1) (cutFrames bytes set.frames).2 := by
  have hfile := hraw.file_eq
  rw [append_nil] at hfile
  unfold writeBytes
  rw [hraw.blockMode_eq, hfile]

theorem FaultLog.RawKept.newEntries_eq :
    s.seg.newEntries set = denseEntries (framingLen frames) set.frames := by
  unfold newEntries
  rw [if_neg (by simp [hraw.blockMode_eq]), hraw.position_eq]

theorem FaultLog.RawKept.fits_append (hfits : ∀ e ∈ s.seg.newEntries set, e.Fits s.seg.baseOffset)
    {more : List Frame} (hmore : more <+: set.frames) :
    ∀ e ∈ denseEntries 0 (frames ++ more), e.Fits s.seg.baseOffset := by
  intro e he
  rw [denseEntries_append, Nat.zero_add] at he
  rcases mem_append.mp he with he | he
  · apply hraw.fits
    rwa [append_nil]
  · apply hfits
    rcases hmore with ⟨others, hothers⟩
    rw [hraw.newEntries_eq, ← hothers, denseEntries_append]
    exact mem_append_left _ he

theorem FaultLog.RawKept.stranded (hfits : ∀ e ∈ s.seg.newEntries set, e.Fits s.seg.baseOffset)
    (bytes : ℕ) (handed : List Frame) :
    RawKept frames (cutFrames bytes set.frames).1 (cutFrames bytes set.frames).2 ⟨{ s.seg with
          file := s.seg.file.writeBytes s.seg.blockMode set bytes },
        s.acked, handed⟩ := by
  refine ⟨hraw.blockMode_eq, ?_, cutFrames_broken bytes set.frames,
    hraw.position_eq, hraw.index_rising, hraw.index_mem, hraw.index_acked,
    hraw.fits_append hfits (cutFrames_front bytes set.frames)⟩
  simp only
  rw [hraw.writeBytes_eq]
  exact inMode_false_raw _ _

theorem FaultLog.RawKept.write (hfits : ∀ e ∈ s.seg.newEntries set, e.Fits s.seg.baseOffset)
    (handed : List Frame) :
    RawKept (frames ++ set.frames) [] [] ⟨s.seg.write set, s.acked, handed⟩ := by
  have hfile : (s.seg.write set).file = .raw (frames ++ set.frames) [] := by
    change s.seg.file.writeBytes s.seg.blockMode set (s.seg.writeLen set) = _
    unfold writeLen
    rw [hraw.writeBytes_eq, if_neg (by simp [hraw.blockMode_eq]), cutFrames_framingLen]
  refine ⟨hraw.blockMode_eq, ?_, Or.inl rfl, ?_, hraw.index_rising, ?_, hraw.index_acked, ?_⟩
  · simp only
    rw [hfile, append_nil]
    exact inMode_false_raw _ _
  · change s.seg.position + framingLen set.frames = _
    rw [hraw.position_eq, framingLen_append]
  · intro e he
    rw [denseEntries_append]
    exact mem_append_left _ (hraw.index_mem e he)
  · rw [append_nil]
    exact hraw.fits_append hfits (prefix_refl _)

theorem FaultLog.RawKept.writeIndexed
    (hordered : (frames ++ set.frames).Pairwise fun a b => a.offset < b.offset)
    (hfits : ∀ e ∈ s.seg.newEntries set, e.Fits s.seg.baseOffset) (handed : List Frame) :
    RawKept (frames ++ set.frames) [] []
      ⟨s.seg.writeIndexed set, s.acked ++ set.frames, handed⟩ := by
  have hwritten := hraw.write hfits handed
  have hindex : (s.seg.writeIndexed set).index = s.seg.index ++
      denseEntries (framingLen frames) set.frames := by
    change s.seg.index ++ _ = _
    rw [map_stored_of_fits hfits, hraw.newEntries_eq]
  have hsides := pairwise_append.mp hordered
  refine ⟨hwritten.blockMode_eq, hwritten.file_eq, Or.inl rfl,
    hwritten.position_eq, ?_, ?_, ?_, hwritten.fits⟩
  · simp only
    rw [hindex]
    apply pairwise_append.mpr
    refine ⟨hraw.index_rising, denseEntries_rising hsides.2.1, ?_⟩
    intro e he other hother
    rcases offset_of_mem_denseEntries (hraw.index_mem e he) with
      ⟨frame, hframe, heq⟩
    rcases offset_of_mem_denseEntries hother with ⟨next, hnext, heq'⟩
    rw [heq, heq']
    exact hsides.2.2 frame hframe next hnext
  · intro e he
    simp only at he
    rw [hindex] at he
    rw [denseEntries_append, Nat.zero_add]
    exact mem_append.mpr ((mem_append.mp he).imp_left (hraw.index_mem e))
  · intro frame hframe
    simp only
    rw [hindex]
    rcases mem_append.mp hframe with hframe | hframe
    · rcases hraw.index_acked frame hframe with ⟨e, he, heq⟩
      exact ⟨e, mem_append_left _ he, heq⟩
    · rcases append_of_mem hframe with ⟨front, behind, hsplit⟩
      refine ⟨_, mem_append_right _ (mem_denseEntries.mpr ⟨front, frame, behind, hsplit, rfl⟩), rfl⟩

end

/-! ### Block segments -/

theorem FaultLog.BlocksKept.no_stray (hblocks : s.BlocksKept bs restBlocks torn)
    (hsize : s.seg.file.size = s.seg.physEnd) : restBlocks = [] ∧ torn = 0 := by
  have hend : s.seg.physEnd = physLen bs := by
    unfold physEnd physPosition
    rw [if_pos hblocks.ready.blockMode_eq, hblocks.ready.blocks_eq, blockTableExtent_tableOf]
  have hlen : s.seg.file.size = physLen (bs ++ restBlocks) + torn := by
    rw [← size_inMode true, hblocks.file_eq]
    rfl
  rw [physLen_append] at hlen
  constructor
  · apply eq_nil_of_physLen
    omega
  · omega

theorem FaultLog.BlocksKept.writeBytes_eq (hblocks : s.BlocksKept bs [] 0) (bytes : ℕ) :
    s.seg.file.writeBytes s.seg.blockMode set bytes =
      if set.physLen ≤ bytes then .blocks (bs ++ [set]) 0
      else .blocks bs bytes := by
  have hfile := hblocks.file_eq
  rw [append_nil] at hfile
  unfold writeBytes
  rw [hblocks.ready.blockMode_eq, hfile]

theorem FaultLog.BlocksKept.newEntries_eq (hblocks : s.BlocksKept bs [] 0) : s.seg.newEntries set =
      [entryAt (framingLen (framesOf bs)) set.first] := by
  unfold newEntries
  rw [if_pos hblocks.ready.blockMode_eq, hblocks.ready.position_eq]

theorem anchorEntries_concat (bs : List DiskBlock) (set : DiskBlock) :
    anchorEntries 0 (bs ++ [set]) = anchorEntries 0 bs ++
      [entryAt (framingLen (framesOf bs)) set.first] := by
  rw [anchorEntries_append, Nat.zero_add]
  rfl

theorem framesOf_concat (bs : List DiskBlock) (set : DiskBlock) :
    framesOf (bs ++ [set]) = framesOf bs ++ set.frames := by
  simp

theorem FaultLog.BlocksKept.fits_append (hblocks : s.BlocksKept bs [] 0)
    (hfits : ∀ e ∈ s.seg.newEntries set, e.Fits s.seg.baseOffset) :
    ∀ e ∈ anchorEntries 0 (bs ++ [set]), e.Fits s.seg.baseOffset := by
  intro e he
  rw [anchorEntries_concat] at he
  rcases mem_append.mp he with he | he
  · apply hblocks.fits
    rwa [append_nil]
  · apply hfits
    rwa [hblocks.newEntries_eq]

theorem FaultLog.BlocksKept.stranded (hblocks : s.BlocksKept bs [] 0)
    (hfits : ∀ e ∈ s.seg.newEntries set, e.Fits s.seg.baseOffset)
    (bytes : ℕ) (handed : List Frame) :
    ∃ others torn', framesOf others <+: set.frames ∧ BlocksKept bs others torn' ⟨{ s.seg with
            file := s.seg.file.writeBytes s.seg.blockMode set bytes },
          s.acked, handed⟩ := by
  have hready := hblocks.ready
  have hstored : ∀ others torn', s.seg.file.writeBytes s.seg.blockMode set bytes =
        .blocks (bs ++ others) torn' →
      (∀ e ∈ anchorEntries 0 (bs ++ others), e.Fits s.seg.baseOffset) →
      BlocksKept bs others torn' ⟨{ s.seg with
            file := s.seg.file.writeBytes s.seg.blockMode set bytes },
          s.acked, handed⟩ := by
    intro others torn' hfile hall
    refine ⟨⟨rfl, hready.blockMode_eq, hready.blocks_eq, hready.position_eq,
      ?_⟩, ?_, hblocks.index_mem, hblocks.index_length, hblocks.index_last,
      hblocks.index_acked, hall⟩
    · intro front block behind hsplit
      simp only
      rw [hfile, hsplit, append_assoc, cons_append]
      exact decodeBlock_tableOf torn'
    · simp only
      rw [hfile]
      exact inMode_true_blocks _ _
  have hwritten := @FaultLog.BlocksKept.writeBytes_eq s set bs hblocks bytes
  by_cases hwhole : set.physLen ≤ bytes
  · rw [if_pos hwhole] at hwritten
    refine ⟨[set], 0, ?_, hstored [set] 0 hwritten (hblocks.fits_append hfits)⟩
    simp
  · rw [if_neg hwhole] at hwritten
    refine ⟨[], bytes, nil_prefix, hstored [] bytes ?_ hblocks.fits⟩
    rwa [append_nil]

theorem FaultLog.BlocksKept.write (hblocks : s.BlocksKept bs [] 0)
    (hfits : ∀ e ∈ s.seg.newEntries set, e.Fits s.seg.baseOffset) (handed : List Frame) :
    BlocksKept (bs ++ [set]) [] 0 ⟨s.seg.write set, s.acked, handed⟩ := by
  have hready := hblocks.ready
  have hfile : (s.seg.write set).file = .blocks (bs ++ [set]) 0 := by
    change s.seg.file.writeBytes s.seg.blockMode set (s.seg.writeLen set) = _
    unfold writeLen
    rw [hblocks.writeBytes_eq, if_pos hready.blockMode_eq, if_pos le_rfl]
  have htable : (s.seg.write set).blocks = tableOf 0 0 (bs ++ [set]) := by
    have hphys : s.seg.physPosition = physLen bs := by
      unfold physPosition
      rw [hready.blocks_eq, blockTableExtent_tableOf]
    simp only [OpenSegment.write, hready.blockMode_eq, if_true,
      hready.blocks_eq, hready.position_eq, hphys]
    rw [tableOf_append, Nat.zero_add, Nat.zero_add]
    rfl
  refine ⟨⟨rfl, hready.blockMode_eq, htable, ?_, ?_⟩, ?_, ?_, ?_, ?_, hblocks.index_acked, ?_⟩
  · change s.seg.position + framingLen set.frames = _
    rw [hready.position_eq]
    simp
  · intro front block behind hsplit
    simp only
    rw [hfile, hsplit]
    exact decodeBlock_tableOf 0
  · simp only
    rw [hfile, append_nil]
    exact inMode_true_blocks _ _
  · intro e he
    rw [anchorEntries_concat]
    exact mem_append_left _ (hblocks.index_mem e he)
  · have hle := hblocks.index_length
    change s.seg.index.length ≤ _
    rw [length_append]
    omega
  · intro hlength
    have hle := hblocks.index_length
    change s.seg.index.length = _ at hlength
    rw [length_append, length_singleton] at hlength
    omega
  · rw [append_nil]
    exact hblocks.fits_append hfits

theorem FaultLog.BlocksKept.writeIndexed (hblocks : s.BlocksKept bs [] 0)
    (hordered : (framesOf bs ++ set.frames).Pairwise fun a b => a.offset < b.offset)
    (hfits : ∀ e ∈ s.seg.newEntries set, e.Fits s.seg.baseOffset) (handed : List Frame) :
    BlocksKept (bs ++ [set]) [] 0 ⟨s.seg.writeIndexed set, s.acked ++ set.frames, handed⟩ := by
  have hwritten := hblocks.write hfits handed
  have hindex : (s.seg.writeIndexed set).index = s.seg.index ++
      [entryAt (framingLen (framesOf bs)) set.first] := by
    change s.seg.index ++ _ = _
    rw [map_stored_of_fits hfits, hblocks.newEntries_eq]
  have hready := hwritten.ready
  have hsides := pairwise_append.mp hordered
  have hfirst : ∀ frame ∈ set.frames, set.first.offset ≤ frame.offset := by
    intro frame hframe
    rcases mem_cons.mp hframe with rfl | hframe
    · exact le_rfl
    · exact ((pairwise_cons.mp hsides.2.1).1 frame hframe).le
  refine ⟨⟨hready.baseOffset_eq, hready.blockMode_eq, hready.blocks_eq,
    hready.position_eq, hready.decode_eq⟩, hwritten.file_eq, ?_, ?_, ?_, ?_,
    hwritten.fits⟩
  · intro e he
    simp only at he
    rw [hindex] at he
    rw [anchorEntries_concat]
    exact mem_append.mpr ((mem_append.mp he).imp_left (hblocks.index_mem e))
  · have hle := hblocks.index_length
    simp only
    rw [hindex, length_append, length_append]
    exact Nat.add_le_add_right hle 1
  · intro _
    simp only
    rw [hindex, anchorEntries_concat, getLast?_append_of_ne_nil _ (by simp),
      getLast?_append_of_ne_nil _ (by simp)]
  · intro frame hframe
    simp only
    rw [hindex]
    cases hhead : s.seg.index.head? with
    | none =>
      rw [head?_eq_none_iff.mp hhead]
      refine ⟨_, rfl, ?_⟩
      rcases mem_append.mp hframe with hframe | hframe
      · rcases hblocks.index_acked frame hframe with ⟨e, he, _⟩
        rw [hhead] at he
        cases he
      · exact hfirst frame hframe
    | some first =>
      refine ⟨first, by rw [head?_append, hhead]; rfl, ?_⟩
      rcases mem_append.mp hframe with hframe | hframe
      · rcases hblocks.index_acked frame hframe with ⟨e, he, hle⟩
        rw [hhead, Option.some.injEq] at he
        rwa [he]
      · rcases offset_of_mem_anchorEntries (hblocks.index_mem first (mem_of_head? hhead)) with
          ⟨block, hblock, heq⟩
        rw [heq]
        exact (hsides.2.2 block.first (first_mem_framesOf hblock) frame hframe).le

/-! ### The step -/

theorem FaultLog.Ok.forget {seg : OpenSegment} {acked more handed : List Frame}
    (hok : Ok ⟨seg, acked ++ more, handed⟩) : Ok ⟨seg, acked, handed⟩ := by
  have hsub : ∀ frame ∈ acked, frame ∈ acked ++ more :=
    fun frame hframe => mem_append_left _ hframe
  cases hok with
  | raw hkept hraw =>
    exact .raw ⟨hkept.base_nonneg, hkept.ordered, hkept.base_le, hkept.lastOffset_eq,
        fun frame hframe => hkept.acked_mem frame (hsub frame hframe),
        hkept.handed_mem⟩
      ⟨hraw.blockMode_eq, hraw.file_eq, hraw.tail_broken, hraw.position_eq,
        hraw.index_rising, hraw.index_mem,
        fun frame hframe => hraw.index_acked frame (hsub frame hframe),
        hraw.fits⟩
  | blocks hkept hblocks =>
    exact .blocks ⟨hkept.base_nonneg, hkept.ordered, hkept.base_le, hkept.lastOffset_eq,
        fun frame hframe => hkept.acked_mem frame (hsub frame hframe),
        hkept.handed_mem⟩
      ⟨hblocks.ready, hblocks.file_eq, hblocks.index_mem, hblocks.index_length, hblocks.index_last,
        fun frame hframe => hblocks.index_acked frame (hsub frame hframe),
        hblocks.fits⟩

theorem FaultLog.Ok.handMore (hok : s.Ok) (more : List Frame) :
    Ok ⟨s.seg, s.acked, s.handed ++ more⟩ := by
  cases hok with
  | raw hkept hraw =>
    exact .raw ⟨hkept.base_nonneg, hkept.ordered, hkept.base_le, hkept.lastOffset_eq,
        hkept.acked_mem, fun frame hframe =>
          mem_append_left _ (hkept.handed_mem frame hframe)⟩
      ⟨hraw.blockMode_eq, hraw.file_eq, hraw.tail_broken, hraw.position_eq,
        hraw.index_rising, hraw.index_mem, hraw.index_acked, hraw.fits⟩
  | blocks hkept hblocks =>
    exact .blocks ⟨hkept.base_nonneg, hkept.ordered, hkept.base_le, hkept.lastOffset_eq,
        hkept.acked_mem, fun frame hframe =>
          mem_append_left _ (hkept.handed_mem frame hframe)⟩
      ⟨hblocks.ready, hblocks.file_eq, hblocks.index_mem,
        hblocks.index_length, hblocks.index_last, hblocks.index_acked,
        hblocks.fits⟩

theorem FaultLog.Ok.accepted (hok : s.Ok)
    (hcheck : checkAppendedSet (s.seg.nextOffset - 1) set.frames = true)
    (hsize : s.seg.file.size = s.seg.physEnd)
    (hfits : ∀ e ∈ s.seg.newEntries set, e.Fits s.seg.baseOffset) :
    (∀ bytes, Ok ⟨{ s.seg with
        file := s.seg.file.writeBytes s.seg.blockMode set bytes },
        s.acked, s.handed ++ set.frames⟩) ∧
      Ok ⟨s.seg.write set, s.acked, s.handed ++ set.frames⟩ ∧
      Ok ⟨s.seg.writeIndexed set, s.acked ++ set.frames, s.handed ++ set.frames⟩ := by
  cases hok with
  | raw hkept hraw =>
    rcases hraw.no_stray hsize with ⟨rfl, rfl⟩
    refine ⟨fun bytes => ?_, ?_, ?_⟩
    · exact .raw (hkept.stranded hcheck (cutFrames_front bytes set.frames) _)
        (hraw.stranded hfits bytes _)
    · exact .raw (hkept.landed hcheck rfl rfl fun frame => Or.inl) (hraw.write hfits _)
    · exact .raw (hkept.landed hcheck rfl rfl fun frame => mem_append.mp)
        (hraw.writeIndexed (hkept.accepts hcheck).1 hfits _)
  | blocks hkept hblocks =>
    rcases hblocks.no_stray hsize with ⟨rfl, rfl⟩
    refine ⟨fun bytes => ?_, ?_, ?_⟩
    · rcases hblocks.stranded hfits bytes (s.handed ++ set.frames) with
        ⟨others, torn', hothers, hstored⟩
      exact .blocks (hkept.stranded hcheck hothers _) hstored
    · have hlanded := @FaultLog.Kept.landed s set _ hkept hcheck
        (s.seg.write set) s.acked rfl rfl fun frame => Or.inl
      rw [← framesOf_concat] at hlanded
      exact .blocks hlanded (hblocks.write hfits _)
    · have hlanded := @FaultLog.Kept.landed s set _ hkept hcheck
        (s.seg.writeIndexed set) (s.acked ++ set.frames) rfl rfl
        fun frame => mem_append.mp
      rw [← framesOf_concat] at hlanded
      exact .blocks hlanded (hblocks.writeIndexed (hkept.accepts hcheck).1 hfits _)

theorem FaultLog.Ok.append (hok : s.Ok) {fault : Option WriteFault}
    (hsafe : FaultSafe s (.append set fault)) : (s.append set fault).Ok := by
  unfold FaultLog.append appendSet
  by_cases hcheck : checkAppendedSet (s.seg.nextOffset - 1) set.frames = true
  · rcases hok.accepted hcheck hsafe.1 hsafe.2 with ⟨hlog, hindex, hdone⟩
    simp only [hcheck, if_true]
    cases fault with
    | none => exact hdone
    | some fault =>
      cases fault with
      | log bytes => exact hlog bytes
      | index => exact hindex
      | epoch => exact hdone.forget
  · simp only [hcheck]
    exact hok.handMore set.frames

end Appending

/-! ## Opening again -/

section Reopening

variable {stray : ℕ → Header} {base floor : ℤ} {seg : OpenSegment}
  {index : List Entry} {frames rest : List Frame} {tail : List Cell}
  {bs : List DiskBlock} {s : FaultLog}

theorem RawReady.setupIndex_some (hready : RawReady base frames tail seg)
    (hfresh : Fresh seg) (hmem : ∀ e ∈ index, e ∈ denseEntries 0 frames)
    (hrising : index.Pairwise fun a b => a.offset < b.offset)
    (hordered : frames.Pairwise fun a b => a.offset < b.offset)
    (hbase : ∀ frame ∈ frames, base ≤ frame.offset) :
    ∃ done todo seg', frames = done ++ todo ∧ seg.setupIndex stray index = .ok seg' ∧
      RawReady base (done ++ todo) tail seg' ∧ seg'.index = index ∧
      seg'.walkStart = framingLen done ∧
      seg'.lastOffset = lastOffsetOf done ∧ seg'.file = seg.file ∧
      ∀ e ∈ index, ∀ frame ∈ todo, e.offset < frame.offset := by
  rcases eq_nil_or_concat' index with rfl | ⟨others, last, rfl⟩
  · refine ⟨[], frames, seg, rfl, setupIndex_nil hfresh, hready,
      hfresh.index_eq, ?_, hfresh.lastOffset_eq, rfl, by simp⟩
    unfold walkStart
    rw [hfresh.index_eq]
    rfl
  · rcases mem_denseEntries.mp (hmem last (by simp)) with
      ⟨front, frame, behind, hframes, hlast⟩
    rw [Nat.zero_add] at hlast
    have hgetLast : (others ++ [last]).getLast? = some (entryAt (framingLen front) frame) := by
      rw [getLast?_append_of_ne_nil _ (by simp), hlast]
      rfl
    have hready' := hready
    rw [hframes] at hready'
    have hassoc : frames = front ++ [frame] ++ behind := by
      simp [hframes]
    cases hhead : (others ++ [last]).head? with
    | none => simp at hhead
    | some first =>
      rcases @RawReady.setupIndex_at stray base tail seg _ first front
          behind frame hready' hhead hgetLast
          (hbase frame (by simp [hframes])) with ⟨_, hsetup⟩
      refine ⟨front ++ [frame], behind, _, hassoc, hsetup, ?_, rfl, ?_, ?_,
        rfl, ?_⟩
      · rw [← hassoc]
        exact hready.setIndex _ _ _
      · unfold walkStart
        simp only [hgetLast]
        simp [entryAt]
      · exact (lastOffsetOf_concat front frame).symm
      · intro e he other hother
        rw [hframes] at hordered
        have hlt : frame.offset < other.offset :=
          (pairwise_cons.mp (pairwise_append.mp hordered).2.1).1 other hother
        have hle : e.offset ≤ last.offset := by
          rcases mem_append.mp he with he | he
          · exact ((pairwise_append.mp hrising).2.2 e he last (by simp)).le
          · rw [mem_singleton.mp he]
        rw [hlast] at hle
        exact hle.trans_lt hlt

theorem RawReady.reopen_eq (hready : RawReady base frames tail seg)
    (hfresh : Fresh seg) (hmem : ∀ e ∈ index, e ∈ denseEntries 0 frames)
    (hrising : index.Pairwise fun a b => a.offset < b.offset)
    (hordered : frames.Pairwise fun a b => a.offset < b.offset)
    (hbase : ∀ frame ∈ frames, base ≤ frame.offset)
    (hfits : ∀ e ∈ denseEntries 0 frames, e.Fits base)
    (htail : TailBroken tail) (hkept : ¬ Refuses base floor frames tail) :
    ∃ seg', seg.setupAndReconcile stray index floor = .ok seg' ∧ RawReady base frames [] seg' ∧
      seg'.lastOffset = lastOffsetOf frames ∧
      (seg'.index.Pairwise fun a b => a.offset < b.offset) ∧
      (∀ e ∈ seg'.index, e ∈ denseEntries 0 frames) ∧
      (∀ e ∈ index, e ∈ seg'.index) ∧
      seg'.file = if tail = [] then seg.file else .raw frames [] := by
  rcases @RawReady.setupIndex_some stray base seg index frames tail hready
      hfresh hmem hrising hordered hbase with
    ⟨done, todo, seg', rfl, hsetup, hready', hindex, hstart, hlast, hfile, hbelow⟩
  have hwalks := @reconcileIndexTailRaw_walks stray base floor done todo tail
    seg' _ hready' hstart htail rfl
  rw [foldl_noteEntry] at hwalks
  simp only at hwalks
  rw [hlast, lastOffsetOf_denseEntries, hindex, hready'.baseOffset_eq] at hwalks
  have hadded : (denseEntries (framingLen done) todo).map
      (Entry.stored base) = denseEntries (framingLen done) todo := by
    apply map_stored_of_fits
    intro e he
    apply hfits
    rw [denseEntries_append, Nat.zero_add]
    exact mem_append_right _ he
  rcases hwalks with ⟨hrefuse, _⟩ | ⟨_, seg'', hok, hindex', _, hlast', hready'', _, hfile'⟩
  · exact absurd hrefuse hkept
  · rw [hadded] at hindex'
    refine ⟨seg'', ?_, hready'', hlast', ?_, ?_, ?_, ?_⟩
    · unfold setupAndReconcile reconcileIndexTail
      rw [hsetup]
      simp only [hready'.blockMode_eq]
      exact hok
    · rw [hindex']
      apply pairwise_append.mpr
      refine ⟨hrising, denseEntries_rising (pairwise_append.mp hordered).2.1, ?_⟩
      intro e he other hother
      rcases offset_of_mem_denseEntries hother with ⟨frame, hframe, heq⟩
      rw [heq]
      exact hbelow e he frame hframe
    · intro e he
      rw [hindex'] at he
      rcases mem_append.mp he with he | he
      · exact hmem e he
      · rw [denseEntries_append, Nat.zero_add]
        exact mem_append_right _ he
    · intro e he
      rw [hindex']
      exact mem_append_left _ he
    · rw [hfile', hfile]

theorem BlocksReady.setupIndex_some (hready : BlocksReady base bs seg)
    (hfresh : Fresh seg) (hmem : ∀ e ∈ index, e ∈ anchorEntries 0 bs)
    (hbase : ∀ frame ∈ framesOf bs, base ≤ frame.offset) :
    ∃ seg', seg.setupIndex stray index = .ok seg' ∧ BlocksReady base bs seg' ∧ seg'.index = index ∧
      seg'.file = seg.file ∧
      (index.getLast? = (anchorEntries 0 bs).getLast? →
        seg'.lastOffset = lastOffsetOf (framesOf bs)) := by
  rcases eq_nil_or_concat' index with rfl | ⟨others, last, rfl⟩
  · refine ⟨seg, setupIndex_nil hfresh, hready, hfresh.index_eq, rfl, ?_⟩
    intro hlast
    rcases eq_nil_or_concat' bs with rfl | ⟨front, block, rfl⟩
    · exact hfresh.lastOffset_eq
    · rw [getLast?_anchorEntries_concat] at hlast
      cases hlast
  · have hgetLast : (others ++ [last]).getLast? = some last := by simp
    -- An entry that is the last block's anchor is read as just that one.
    have hplace : ∃ front block behind, bs = front ++ block :: behind ∧
        last = entryAt (framingLen (framesOf front)) block.first ∧
        ((others ++ [last]).getLast? = (anchorEntries 0 bs).getLast? → behind = []) := by
      by_cases hsame : (others ++ [last]).getLast? = (anchorEntries 0 bs).getLast?
      · rcases eq_nil_or_concat' bs with rfl | ⟨front, block, rfl⟩
        · rw [hgetLast] at hsame
          cases hsame
        · rw [hgetLast, getLast?_anchorEntries_concat, Nat.zero_add, Option.some.injEq] at hsame
          exact ⟨front, block, [], rfl, hsame, fun _ => rfl⟩
      · rcases mem_anchorEntries.mp (hmem last (by simp)) with
          ⟨front, block, behind, hsplit, hlast⟩
        rw [Nat.zero_add] at hlast
        exact ⟨front, block, behind, hsplit, hlast, fun h => absurd h hsame⟩
    rcases hplace with ⟨front, block, behind, hsplit, hlast, hbehind⟩
    cases hhead : (others ++ [last]).head? with
    | none => simp at hhead
    | some first =>
      have hoffset : base ≤ last.offset := by
        rw [hlast]
        exact hbase _ (first_mem_framesOf (by simp [hsplit]))
      have hsetup := @BlocksReady.setupIndex_at stray base seg bs front
        behind _ first last block [] block.others block.first hready hhead
        hgetLast hoffset hsplit rfl (by rw [hlast]; rfl)
      refine ⟨_, hsetup, hready.setIndex _ _ _, rfl, rfl, ?_⟩
      intro hsame
      rw [hsplit, hbehind hsame, lastOffsetOf_framesOf_concat]

theorem BlocksReady.reopen_eq (hready : BlocksReady base bs seg) (hfresh : Fresh seg)
    (hmem : ∀ e ∈ index, e ∈ anchorEntries 0 bs) (hlength : index.length ≤ bs.length)
    (hlast : index.length = bs.length → index.getLast? = (anchorEntries 0 bs).getLast?)
    (hbase : ∀ frame ∈ framesOf bs, base ≤ frame.offset)
    (hfits : ∀ e ∈ anchorEntries 0 bs, e.Fits base) :
    ∃ seg', seg.setupAndReconcile stray index floor = .ok seg' ∧ BlocksReady base bs seg' ∧
      seg'.lastOffset = lastOffsetOf (framesOf bs) ∧
      seg'.index.length = bs.length ∧
      seg'.index.getLast? = (anchorEntries 0 bs).getLast? ∧
      (∀ e ∈ seg'.index, e ∈ anchorEntries 0 bs) ∧
      index <+: seg'.index ∧ seg'.file = seg.file := by
  rcases @BlocksReady.setupIndex_some stray base seg index bs hready hfresh
      hmem hbase with ⟨seg', hsetup, hready', hindex, hfile, hoffset⟩
  have hopen : ∀ seg'', seg'.reconcileIndexTailBlocks stray = .ok seg'' →
      seg.setupAndReconcile stray index floor = .ok seg'' := by
    intro seg'' hok
    unfold setupAndReconcile reconcileIndexTail
    rw [hsetup]
    simp only [hready'.blockMode_eq, if_true]
    exact hok
  rcases Nat.lt_or_eq_of_le hlength with hlt | heq
  · have hsplit := take_append_drop index.length bs
    have hne : bs.drop index.length ≠ [] := by
      intro hnil
      have hlen := congrArg length hnil
      rw [length_drop, length_nil] at hlen
      omega
    have hlen : seg'.index.length = (bs.take index.length).length := by
      rw [hindex, length_take]
      omega
    have hready'' := hready'
    rw [← hsplit] at hready''
    rcases @reconcileIndexTailBlocks_anchors stray base seg' _ _ _ hready''
        hlen hne rfl with ⟨seg'', hok, hanchors, _, hlast', hready₁, hfile'⟩
    have hentries := anchorEntries_append 0 (bs.take index.length) (bs.drop index.length)
    rw [hsplit, Nat.zero_add] at hentries
    rw [hsplit] at hready₁ hlast'
    rw [foldl_writeEntry] at hanchors
    simp only at hanchors
    rw [hindex, hready'.baseOffset_eq, map_stored_of_fits (fun e he =>
      hfits e (hentries ▸ mem_append_right _ he))] at hanchors
    refine ⟨seg'', hopen seg'' hok, hready₁, hlast', ?_, ?_, ?_, ?_, hfile'.trans hfile⟩
    · rw [hanchors, length_append, length_anchorEntries, length_drop]
      omega
    · have hnonempty : anchorEntries (framingLen (framesOf
          (bs.take index.length))) (bs.drop index.length) ≠ [] := by
        intro hnil
        have hlen := congrArg length hnil
        rw [length_anchorEntries, length_nil] at hlen
        exact hne (eq_nil_of_length_eq_zero hlen)
      rw [hanchors, hentries, getLast?_append_of_ne_nil _ hnonempty,
        getLast?_append_of_ne_nil _ hnonempty]
    · intro e he
      rw [hanchors] at he
      rcases mem_append.mp he with he | he
      · exact hmem e he
      · rw [hentries]
        exact mem_append_right _ he
    · rw [hanchors]
      exact prefix_append _ _
  · have hdrop : seg'.blocks.drop seg'.index.length = [] := by
      rw [hready'.blocks_eq, hindex]
      exact drop_eq_nil_of_le (by simp [heq])
    have hok : seg'.reconcileIndexTailBlocks stray = .ok seg' := by
      unfold reconcileIndexTailBlocks
      rw [hdrop]
    refine ⟨seg', hopen seg' hok, hready', hoffset (hlast heq), ?_, ?_, ?_, ?_, hfile⟩
    · rw [hindex, heq]
    · rw [hindex, hlast heq]
    · rwa [hindex]
    · rw [hindex]

theorem FaultLog.Kept.reopened (hkept : s.Kept frames rest)
    (hbase : seg.baseOffset = s.seg.baseOffset)
    (hlast : seg.lastOffset = lastOffsetOf (frames ++ rest)) :
    Kept (frames ++ rest) [] { s with seg := seg } := by
  constructor
  · rw [hbase]
    exact hkept.base_nonneg
  · rw [append_nil]
    exact hkept.ordered
  · rw [append_nil, hbase]
    exact hkept.base_le
  · exact hlast
  · intro frame hframe
    exact mem_append_left _ (hkept.acked_mem frame hframe)
  · rw [append_nil]
    exact hkept.handed_mem

theorem FaultLog.Kept.reopen_raw (hkept : s.Kept frames rest)
    (hready : RawReady s.seg.baseOffset (frames ++ rest) tail seg) (hfresh : Fresh seg)
    (hfile : tail = [] → seg.file.inMode false = .raw (frames ++ rest) []) (htail : TailBroken tail)
    (hrising : s.seg.index.Pairwise fun a b => a.offset < b.offset)
    (hmem : ∀ e ∈ s.seg.index, e ∈ denseEntries 0 frames)
    (hacked : ∀ frame ∈ s.acked, ∃ e ∈ s.seg.index, e.offset = frame.offset)
    (hfits : ∀ e ∈ denseEntries 0 (frames ++ rest), e.Fits s.seg.baseOffset)
    (hsafe : ¬ Refuses s.seg.baseOffset floor (frames ++ rest) tail) :
    ∃ seg', seg.setupAndReconcile stray s.seg.index floor = .ok seg' ∧
      Ok { s with seg := seg' } := by
  have hall : ∀ e ∈ s.seg.index, e ∈ denseEntries 0 (frames ++ rest) := by
    intro e he
    rw [denseEntries_append]
    exact mem_append_left _ (hmem e he)
  rcases @RawReady.reopen_eq stray _ floor seg s.seg.index _ tail hready hfresh
      hall hrising hkept.ordered hkept.base_le hfits htail hsafe with
    ⟨seg', hok, hready', hlast, hrising', hmem', hkeeps, hfile'⟩
  refine ⟨seg', hok, .raw (hkept.reopened hready'.baseOffset_eq hlast)
    ⟨hready'.blockMode_eq, ?_, Or.inl rfl, hready'.position_eq, hrising', hmem', ?_, ?_⟩⟩
  · simp only
    rw [hfile', append_nil]
    split_ifs with hnil
    · exact hfile hnil
    · exact inMode_false_raw _ _
  · intro frame hframe
    rcases hacked frame hframe with ⟨e, he, heq⟩
    exact ⟨e, hkeeps e he, heq⟩
  · simp only
    rwa [append_nil, hready'.baseOffset_eq]

theorem FaultLog.Kept.reopen_blocks {bs rest : List DiskBlock}
    (hkept : s.Kept (framesOf bs) (framesOf rest))
    (hready : BlocksReady s.seg.baseOffset (bs ++ rest) seg) (hfresh : Fresh seg)
    (hfile : seg.file.inMode true = .blocks (bs ++ rest) 0)
    (hmem : ∀ e ∈ s.seg.index, e ∈ anchorEntries 0 bs) (hlength : s.seg.index.length ≤ bs.length)
    (hlast : s.seg.index.length = bs.length → s.seg.index.getLast? = (anchorEntries 0 bs).getLast?)
    (hacked : ∀ frame ∈ s.acked, ∃ e, s.seg.index.head? = some e ∧ e.offset ≤ frame.offset)
    (hfits : ∀ e ∈ anchorEntries 0 (bs ++ rest), e.Fits s.seg.baseOffset) :
    ∃ seg', seg.setupAndReconcile stray s.seg.index floor = .ok seg' ∧
      Ok { s with seg := seg' } := by
  have hall : ∀ e ∈ s.seg.index, e ∈ anchorEntries 0 (bs ++ rest) := by
    intro e he
    rw [anchorEntries_append]
    exact mem_append_left _ (hmem e he)
  have hframes := framesOf_append bs rest
  have hlast' : s.seg.index.length = (bs ++ rest).length →
      s.seg.index.getLast? = (anchorEntries 0 (bs ++ rest)).getLast? := by
    intro heq
    rw [length_append] at heq
    have hnil : rest = [] := eq_nil_of_length_eq_zero (by omega)
    rw [hnil, append_nil]
    exact hlast (by rw [heq, hnil]; rfl)
  have hbase := hkept.base_le
  rw [← hframes] at hbase
  rcases @BlocksReady.reopen_eq stray _ floor seg s.seg.index _ hready hfresh
      hall (by rw [length_append]; omega) hlast' hbase hfits with
    ⟨seg', hok, hready', hoffset, hlength', hgetLast, hmem', hkeeps, hfile'⟩
  have hkept' := hkept.reopened hready'.baseOffset_eq (by rw [hoffset, hframes])
  rw [← hframes] at hkept'
  have hready₁ := hready'
  rw [← hready'.baseOffset_eq] at hready₁
  refine ⟨seg', hok, @FaultLog.Ok.blocks _ (bs ++ rest) [] 0 hkept'
    ⟨hready₁, ?_, hmem', hlength'.le, fun _ => hgetLast, ?_, ?_⟩⟩
  · simp only
    rwa [hfile', append_nil]
  · intro frame hframe
    rcases hacked frame hframe with ⟨e, he, hle⟩
    rcases hkeeps with ⟨added, hadded⟩
    refine ⟨e, ?_, hle⟩
    simp only
    rw [← hadded, head?_append, he]
    rfl
  · simp only
    rwa [append_nil, hready'.baseOffset_eq]

end Reopening

section Modes

variable {file : LogFile} {frames : List Frame} {tail : List Cell}
  {bs bs' : List DiskBlock} {torn : ℕ}

theorem LogFile.whole_of_inMode_true (hfile : file.inMode true = .blocks bs torn) :
    file.whole.inMode true = .blocks bs 0 := by
  cases file with
  | raw frames tail =>
    cases frames with
    | nil =>
      cases tail with
      | nil =>
        cases hfile
        rfl
      | cons cell tail => cases hfile
    | cons frame frames => cases hfile
  | blocks bs' torn' =>
    rw [inMode_true_blocks] at hfile
    cases hfile
    exact inMode_true_blocks _ _

theorem LogFile.empty_of_modes (hraw : file.inMode false = .raw frames tail)
    (hblocks : file.whole.inMode true = .blocks bs 0) : frames = [] ∧ bs = [] := by
  cases file with
  | raw frames' tail' =>
    rw [inMode_false_raw] at hraw
    cases hraw
    cases frames with
    | nil =>
      cases hblocks
      exact ⟨rfl, rfl⟩
    | cons frame frames => cases hblocks
  | blocks bs' torn' =>
    cases bs' with
    | nil =>
      cases hblocks
      cases torn' with
      | zero =>
        cases hraw
        exact ⟨rfl, rfl⟩
      | succ torn' => cases hraw
    | cons block bs' => cases hraw

end Modes

section Runs

variable {stray : ℕ → Header} {s s' : FaultLog}

theorem FaultLog.RawKept.index_nil {rest : List Frame} {tail : List Cell}
    (hraw : s.RawKept [] rest tail) : s.seg.index = [] :=
  eq_nil_iff_forall_not_mem.mpr fun e he => by
    cases hraw.index_mem e he

theorem FaultLog.BlocksKept.index_nil {rest : List DiskBlock} {torn : ℕ}
    (hblocks : s.BlocksKept [] rest torn) : s.seg.index = [] :=
  eq_nil_iff_forall_not_mem.mpr fun e he => by
    cases hblocks.index_mem e he

theorem FaultLog.Ok.reopen (hok : s.Ok) {encodesBlocks : Bool} {sidecar : Option ℕ} {floor : ℤ}
    (hsafe : FaultSafe s (.reopen encodesBlocks sidecar floor)) :
    ∃ seg, s.seg.reopen stray encodesBlocks sidecar floor = .ok seg ∧ Ok { s with seg := seg } := by
  have hfresh : Fresh (initPositions s.seg.baseOffset encodesBlocks s.seg.file
      (s.seg.file.oldSidecar sidecar)) := fresh_initPositions
  have hready := @initPositions_ready s.seg.baseOffset encodesBlocks
    s.seg.file _ (tableRight_oldSidecar s.seg.file sidecar)
  unfold OpenSegment.reopen openSegment
  generalize initPositions s.seg.baseOffset encodesBlocks s.seg.file
    (s.seg.file.oldSidecar sidecar) = start at *
  rcases hready with ⟨-, ⟨-, hshape, hfile, hwhole, hready⟩ |
    ⟨bs', hframes, -, hshape, htail, hfile, hready⟩⟩
  · cases hok with
    | @raw frames rest tail hkept hraw =>
      have hframes : s.seg.file.frames = frames ++ rest := by
        rw [← frames_inMode false, hraw.file_eq]
        rfl
      have htail : s.seg.file.tail = tail := by
        rw [← tail_inMode false, hraw.file_eq]
        rfl
      change ¬ Refuses _ _ s.seg.file.frames s.seg.file.tail at hsafe
      rw [hframes, htail] at hready hsafe
      apply hkept.reopen_raw hready hfresh _ hraw.tail_broken
        hraw.index_rising hraw.index_mem hraw.index_acked hraw.fits hsafe
      intro hnil
      rw [hfile, hraw.file_eq, hnil]
    | @blocks bs rest torn hkept hblocks =>
      have htail : s.seg.file.tail = [] := by
        rw [← tail_inMode true, hblocks.file_eq]
        rfl
      rw [hwhole htail] at hshape
      have hempty := empty_of_modes hshape (whole_of_inMode_true hblocks.file_eq)
      rcases append_eq_nil_iff.mp hempty.2 with ⟨rfl, rfl⟩
      rw [hempty.1, htail] at hready
      rw [hempty.1] at hshape
      have hnil := hblocks.index_nil
      refine @FaultLog.Kept.reopen_raw stray floor start [] [] [] s hkept
        hready hfresh (fun _ => ?_) (Or.inl rfl) ?_ ?_ ?_ ?_ ?_
      · rw [hfile, hshape]
        rfl
      · rw [hnil]
        exact Pairwise.nil
      · rw [hnil]
        exact fun e he => absurd he (by simp)
      · exact fun frame hframe =>
          absurd (hkept.acked_mem frame hframe) (by simp)
      · exact fun e he => absurd he (by simp [denseEntries])
      · exact fun hrefuse => hrefuse.1 rfl
  · cases hok with
    | @raw frames rest tail hkept hraw =>
      rcases empty_of_modes hraw.file_eq hshape with
        ⟨hempty, rfl⟩
      rcases append_eq_nil_iff.mp hempty with ⟨rfl, rfl⟩
      have hnil := hraw.index_nil
      refine @FaultLog.Kept.reopen_blocks stray floor start s [] [] hkept
        hready hfresh ?_ ?_ ?_ ?_ ?_ ?_
      · rw [hfile, hshape]
        rfl
      · rw [hnil]
        exact fun e he => absurd he (by simp)
      · rw [hnil]
        exact le_rfl
      · rw [hnil]
        exact fun _ => rfl
      · exact fun frame hframe =>
          absurd (hkept.acked_mem frame hframe) (by simp)
      · exact fun e he => absurd he (by simp [anchorEntries])
    | @blocks bs rest torn hkept hblocks =>
      have hsame : bs' = bs ++ rest := by
        have hall := whole_of_inMode_true hblocks.file_eq
        rw [hshape] at hall
        cases hall
        rfl
      rw [hsame] at hready hshape
      apply hkept.reopen_blocks hready hfresh _ hblocks.index_mem
        hblocks.index_length hblocks.index_last hblocks.index_acked
        hblocks.fits
      rw [hfile, hshape]

/-- A segment that describes its whole file: a new one, one cut by a
truncation, or one opened after a crash. -/
def FaultLog.Opened (s : FaultLog) : Prop :=
  ∃ file, file.Sound s.seg.baseOffset ∧ Described s.seg.baseOffset file s.seg ∧
    (∀ e ∈ file.entries, e.Fits s.seg.baseOffset) ∧
    s.acked = file.frames ∧ s.handed = file.frames

theorem FaultLog.Opened.ok (hopened : s.Opened) : s.Ok := by
  rcases hopened with ⟨file, hsound, hdescribed, hfits, hacked, hhanded⟩
  have hindexed := hdescribed.indexed
  have hkept : s.Kept file.frames [] := by
    constructor
    · exact hsound.base_nonneg
    · rw [append_nil]
      exact hsound.ordered
    · rw [append_nil]
      exact hsound.base_le
    · exact hindexed.lastOffset_eq
    · rw [hacked]
      exact fun frame hframe => hframe
    · rw [hhanded, append_nil]
      exact fun frame hframe => hframe
  rcases hdescribed.mode with
    ⟨hentries, hshape, hready⟩ | ⟨bs, hframes, hentries, hshape, hready⟩
  · have hindex := hindexed.index_eq.trans hentries
    rw [hentries] at hfits
    refine .raw hkept ⟨hready.blockMode_eq, ?_, Or.inl rfl, hready.position_eq, ?_, ?_, ?_, ?_⟩
    · rw [hdescribed.file_eq, hshape, append_nil]
    · rw [hindex]
      exact denseEntries_rising hsound.ordered
    · rw [hindex]
      exact fun e he => he
    · intro frame hframe
      rw [hacked] at hframe
      rcases append_of_mem hframe with ⟨front, behind, hsplit⟩
      rw [hindex]
      exact ⟨_, mem_denseEntries.mpr ⟨front, frame, behind, hsplit, rfl⟩, rfl⟩
    · rwa [append_nil]
  · have hindex := hindexed.index_eq.trans hentries
    rw [hframes] at hkept
    rw [hentries] at hfits
    refine @FaultLog.Ok.blocks s bs [] 0 hkept ⟨hready, ?_, ?_, ?_, ?_, ?_, ?_⟩
    · rw [hdescribed.file_eq, hshape, append_nil]
    · rw [hindex]
      exact fun e he => he
    · rw [hindex, length_anchorEntries]
    · rw [hindex]
      exact fun _ => rfl
    · intro frame hframe
      have hmem := hkept.acked_mem frame hframe
      cases bs with
      | nil => cases hmem
      | cons block bs =>
        rw [hindex]
        refine ⟨_, rfl, ?_⟩
        have hordered := (pairwise_append.mp hkept.ordered).1
        rcases mem_cons.mp hmem with rfl | hmem
        · exact le_rfl
        · exact ((pairwise_cons.mp hordered).1 frame hmem).le
    · rwa [append_nil]

end Runs

/-! ## A write behind the remains of another -/

def newRawSegment : OpenSegment :=
  ⟨0, .raw [] [], false, [], 0, false, [], -1, -1⟩

/-- A record at offset 0, stamped with a time. -/
def stampedSet (timestamp : ℤ) : DiskBlock :=
  ⟨⟨.v2, 0, 0⟩, 100, Frame.ofMessage 0 timestamp 0 ⟨1, 0, some [5], some [7], Headers.empty⟩,
    [], Nat.succ_pos (nat_lit 99)⟩

/-- The log after a write that failed behind its header, and after another
one that went through. -/
def shiftedLog : FaultLog :=
  (FaultLog.append ⟨newRawSegment, [], []⟩ (stampedSet 1)
    (some (.log msgSetHeaderLen))).append (stampedSet 2) none

end CommitLog
