import CommitLog.BlockReplication

/-!
# Block copies are exact

A round of the follower takes the frames up to the end of a block and whole
blocks behind them.  What it takes is a run of the source's frames, so by
their number the loop ends with all of them; a frame or a block that is not
carried stops it before.
-/

namespace CommitLog

open List Runs

/-! ## Where a read starts -/

/-- The block and the frame a read from an offset on starts at. -/
structure BlockLog.Cursor (source : BlockLog) (next : ℤ) where
  seg : BlockSegment
  ahead : List BlockBatch
  before : List BlockBatch
  block : BlockBatch
  after : List BlockBatch
  behind : List BlockBatch
  inner : List Bytes
  ms : Bytes
  outer : List Bytes
  mem : seg ∈ source.segments
  segBatches : seg.batches = before ++ block :: after
  allBatches : source.batches = ahead ++ (before ++ block :: after) ++ behind
  frames : block.frames = inner ++ ms :: outer
  below : ∀ other ∈ (ahead ++ before).flatMap BlockBatch.frames ++ inner,
    (setFrame other).offset < next
  reached : next ≤ (setFrame ms).offset
  found : ∀ headerCrc maxBytes, source.readBlocks headerCrc next maxBytes =
    seg.readBlocksFrom headerCrc (decide (seg.base ≤ next)) next maxBytes

section Source

variable {env : BlockEnv} {source : BlockLog} {next : ℤ}

theorem BlockBatch.Held.ne_nil {b : BlockBatch} (hheld : b.Held env) : b.frames ≠ [] := by
  intro hnil
  have hsize := hheld.size
  rw [hnil] at hsize
  simp at hsize

namespace BlockLog.Source

variable (hsource : source.Source env)
include hsource

theorem served {seg : BlockSegment} (hseg : seg ∈ source.segments) : seg.Served := by
  have hlogical : seg.logical ∈ source.logical.segments := by
    rw [BlockLog.segments_logical]
    exact mem_map_of_mem hseg
  have hheld : ∀ b ∈ seg.batches, b.Held env := fun b hb =>
    hsource.held b (mem_flatMap.mpr ⟨seg, hseg, hb⟩)
  exact ⟨hsource.logical.ok.wellFormed.segs _ hlogical,
    hsource.logical.ok.indexed _ hlogical, hsource.blocks seg hseg,
    fun b hb => (hheld b hb).ne_nil, fun b hb => (hheld b hb).length⟩

theorem passed {seg : BlockSegment} (hseg : seg ∈ source.sealedSegs)
    (hbelow : ∀ ms ∈ seg.logical.frames, (setFrame ms).offset < next) :
    seg.logical.nextOffset ≤ next :=
  hsource.logical.nextOffset_le (mem_map_of_mem hseg) hbelow

theorem cursor (hne : source.logical.framesFrom next ≠ []) : Nonempty (source.Cursor next) := by
  obtain ⟨below, hsplit, hbelow⟩ :=
    hsource.logical.ok.wellFormed.split_framesFrom next
  obtain ⟨ms, rest, hframes⟩ := exists_cons_of_ne_nil hne
  have hat : next ≤ (setFrame ms).offset := by
    apply (hsource.logical.ok.wellFormed.of_mem_framesFrom _).2.1
    rw [hframes]
    exact mem_cons_self
  have hsegs : source.segments.flatMap (fun seg => seg.logical.frames) = below ++ ms :: rest := by
    rw [← hframes, ← hsplit, ByteLog.frames, BlockLog.segments_logical, flatMap_map]
  obtain ⟨segsBefore, seg, segsAfter, segInner, segOuter, hsegments, hseg,
    hfront, -⟩ := flatMap_split hsegs
  rw [BlockSegment.frames_logical] at hseg
  obtain ⟨before, block, after, inner, outer, hbatches, hblock, hinner, -⟩ :=
    flatMap_split hseg
  have hmem : seg ∈ source.segments := by
    rw [hsegments]
    simp
  have hlow : ∀ other ∈ segsBefore,
      ∀ frame ∈ other.logical.frames, (setFrame frame).offset < next := by
    intro other hother frame hframe
    apply hbelow
    rw [hfront]
    exact mem_append_left _ (mem_flatMap.mpr ⟨other, hother, hframe⟩)
  have hpassed : ∀ other ∈ segsBefore,
      decide (other.logical.nextOffset ≤ next) = true := by
    intro other hother
    have hsealed : other ∈ source.sealedSegs := by
      have hlast := congrArg dropLast hsegments
      rw [BlockLog.segments, dropLast_concat, dropLast_append_of_ne_nil (cons_ne_nil _ _)] at hlast
      rw [hlast]
      exact mem_append_left _ hother
    rw [decide_eq_true_eq]
    exact hsource.passed hsealed (hlow other hother)
  have hstop : ¬ seg.logical.nextOffset ≤ next := by
    have hlt := (hsource.served hmem).wellFormed.lt_nextOffset (show ms ∈ seg.logical.frames by
        rw [BlockSegment.frames_logical, hseg]
        simp)
    omega
  refine ⟨⟨seg, segsBefore.flatMap BlockSegment.batches, before, block, after,
    segsAfter.flatMap BlockSegment.batches, inner, ms, outer, hmem, hbatches,
    ?_, hblock, ?_, hat, ?_⟩⟩
  · rw [BlockLog.batches, hsegments, flatMap_append, flatMap_cons, hbatches]
    simp
  · intro other hother
    rcases mem_append.mp hother with hother | hother
    · rw [flatMap_append, mem_append] at hother
      rcases hother with hother | hother
      · obtain ⟨b, hb, hframe⟩ := mem_flatMap.mp hother
        obtain ⟨early, hearly, hin⟩ := mem_flatMap.mp hb
        apply hlow early hearly
        rw [BlockSegment.frames_logical]
        exact mem_flatMap.mpr ⟨b, hin, hframe⟩
      · apply hbelow
        rw [hfront, hinner]
        exact mem_append_right _ (mem_append_left _ hother)
    · apply hbelow
      rw [hfront, hinner]
      exact mem_append_right _ (mem_append_right _ hother)
  · intro headerCrc maxBytes
    rw [BlockLog.readBlocks, hsegments, dropWhile_append_of_pos hpassed,
      dropWhile_cons_of_neg (by simpa using hstop)]

theorem readBlocks_nil (hnone : source.logical.framesFrom next = [])
    (headerCrc : Bytes → Fin (2 ^ 32)) (maxBytes : ℕ) :
    source.readBlocks headerCrc next maxBytes = .notFound ∨
      source.readBlocks headerCrc next maxBytes = .read [] [] := by
  obtain ⟨below, hframes, hbelow⟩ :=
    hsource.logical.ok.wellFormed.split_framesFrom next
  rw [hnone, append_nil] at hframes
  have hall : ∀ seg ∈ source.segments, ∀ ms ∈ seg.logical.frames, (setFrame ms).offset < next := by
    intro seg hseg ms hms
    apply hbelow
    rw [← hframes]
    refine ByteLog.mem_frames ?_ hms
    rw [BlockLog.segments_logical]
    exact mem_map_of_mem hseg
  have hactive : source.active ∈ source.segments := by simp [BlockLog.segments]
  have hsealed : ∀ seg ∈ source.sealedSegs,
      decide (seg.logical.nextOffset ≤ next) = true := by
    intro seg hseg
    rw [decide_eq_true_eq]
    exact hsource.passed hseg (hall seg (mem_append_left _ hseg))
  have hserved := hsource.served hactive
  unfold BlockLog.readBlocks BlockLog.segments
  rw [dropWhile_append_of_pos hsealed]
  by_cases hend : source.active.logical.nextOffset ≤ next
  · left
    rw [dropWhile_cons_of_pos (by simpa using hend), dropWhile_nil]
  · right
    rw [dropWhile_cons_of_neg (by simpa using hend)]
    have hbase : ¬ source.active.base ≤ next := by
      intro hle
      exact hend (hserved.wellFormed.nextOffset_le hle (hall source.active hactive))
    have hempty : source.active.batches = [] := by
      by_contra hne
      obtain ⟨b, hb⟩ := exists_mem_of_ne_nil _ hne
      obtain ⟨ms, hms⟩ := exists_mem_of_ne_nil _ (hserved.nonempty b hb)
      have hin : ms ∈ source.active.logical.frames := by
        rw [BlockSegment.frames_logical]
        exact mem_flatMap.mpr ⟨b, hb, hms⟩
      have hlt := hall source.active hactive ms hin
      have hle : source.active.base ≤ _ := hserved.wellFormed.base_le ms hin
      omega
    simp only
    rw [BlockSegment.readBlocksFrom, if_pos hserved.blocks,
      ByteSegment.blockStart, if_neg (by simpa using hbase), hempty]
    rfl

end BlockLog.Source

end Source

/-! ## Reading at a place -/

namespace BlockLog.Cursor

variable {env : BlockEnv} {source : BlockLog} {next : ℤ}
  (cursor : source.Cursor next) (hsource : source.Source env)

/-- The frames of the block from the place on. -/
def head : List Bytes := cursor.ms :: cursor.outer

include hsource

theorem head_whole : ∀ ms ∈ cursor.head, WholeFrame ms := by
  intro ms hms
  apply (hsource.held cursor.block _).whole
  · rw [cursor.frames]
    exact mem_append_right _ hms
  · rw [cursor.allBatches]
    simp

theorem start_eq : cursor.seg.logical.blockStart (decide (cursor.seg.base ≤ next)) next =
      some (((framingOf cursor.before).length +
        cursor.inner.flatten.length : ℕ) : ℤ) := by
  have hserved := hsource.served cursor.mem
  have hsplit : cursor.seg.logical.frames =
      (cursor.before.flatMap BlockBatch.frames ++ cursor.inner) ++ cursor.ms :: (cursor.outer ++
          cursor.after.flatMap BlockBatch.frames) := by
    rw [BlockSegment.frames_logical, cursor.segBatches, flatMap_append, flatMap_cons, cursor.frames]
    simp
  have hbelow : ∀ other ∈ cursor.before.flatMap BlockBatch.frames ++
      cursor.inner, (setFrame other).offset < next := by
    intro other hother
    apply cursor.below
    rw [flatMap_append]
    rcases mem_append.mp hother with hother | hother
    · exact mem_append_left _ (mem_append_right _ hother)
    · exact mem_append_right _ hother
  have hne : ∀ batch ∈ cursor.seg.logical.batches, batch ≠ [] := by
    intro batch hbatch
    obtain ⟨b, hb, rfl⟩ := mem_map.mp hbatch
    exact hserved.nonempty b hb
  have hstart := hserved.wellFormed.blockStart_eq hserved.blocks
    hserved.indexed hsplit hbelow cursor.reached hne
  have hlength : (cursor.before.flatMap BlockBatch.frames ++
      cursor.inner).flatten.length = (framingOf cursor.before).length +
        cursor.inner.flatten.length := by
    rw [flatten_append, length_append]
    rfl
  rw [hlength] at hstart
  exact hstart

theorem tail_eq : blockTail (blockRefs 0 cursor.seg.batches) (((framingOf cursor.before).length +
      cursor.inner.flatten.length : ℕ) : ℤ) =
      blockRefs (framingOf cursor.before).length (cursor.block :: cursor.after) := by
  have hlength := (hsource.served cursor.mem).length
  have hpos := length_pos_of_ne_nil (cursor.head_whole hsource cursor.ms mem_cons_self).ne_nil
  rw [cursor.segBatches] at hlength ⊢
  apply blockTail_eq hlength
  rw [cursor.frames, flatten_append, flatten_cons, length_append, length_append]
  omega

theorem readBlocks_whole (hinner : cursor.inner = [])
    (headerCrc : Bytes → Fin (2 ^ 32)) (maxBytes : ℕ) :
    source.readBlocks headerCrc next maxBytes =
      match sendBlocks cursor.seg.logical cursor.seg.logical.lastOffset false
          maxBytes (blockRefs (framingOf cursor.before).length (cursor.block :: cursor.after)) with
      | none => .failed
      | some blocks => .read [] blocks := by
  have hstart := cursor.start_eq hsource
  have htail := cursor.tail_eq hsource
  rw [hinner, flatten_nil, length_nil, Nat.add_zero] at hstart htail
  rw [cursor.found, BlockSegment.readBlocksFrom, if_pos (hsource.blocks _ cursor.mem), hstart]
  simp only
  rw [htail, blockRefs]
  simp only [lt_irrefl, if_false, length_nil, Int.sub_zero,
    Nat.cast_zero, ne_eq, not_true, decide_false] <;> rfl

theorem readBlocks_inside (hinner : cursor.inner ≠ [])
    (headerCrc : Bytes → Fin (2 ^ 32)) (maxBytes : ℕ) :
    ∃ fuel, cursor.head.flatten.length ≤ fuel ∧ source.readBlocks headerCrc next maxBytes =
        match framesBetween headerCrc true fuel cursor.head.flatten.length
            (cursor.head.flatten ++ framingOf cursor.after) [] with
        | none => .failed
        | some head =>
          match sendBlocks cursor.seg.logical cursor.seg.logical.lastOffset
              (decide (head ≠ [])) ((maxBytes : ℤ) - head.length)
              (blockRefs (framingOf (cursor.before ++ [cursor.block])).length cursor.after) with
          | none => .failed
          | some blocks => .read head blocks := by
  have hserved := hsource.served cursor.mem
  have hblock : cursor.block.stored.logicalLen =
      cursor.inner.flatten.length + cursor.head.flatten.length := by
    rw [hserved.length cursor.block (by rw [cursor.segBatches]; simp),
      cursor.frames, flatten_append, length_append]
    rfl
  have hbytes : cursor.seg.logical.bytes = (framingOf cursor.before ++
      cursor.inner.flatten) ++ (cursor.head.flatten ++ framingOf cursor.after) := by
    rw [ByteSegment.bytes, BlockSegment.frames_logical, cursor.segBatches,
      flatMap_append, flatMap_cons, cursor.frames]
    simp [framingOf, BlockLog.Cursor.head]
  have hpos : 0 < cursor.inner.flatten.length := by
    obtain ⟨other, hother⟩ := exists_mem_of_ne_nil _ hinner
    have hwhole := (hsource.held cursor.block (by
      rw [cursor.allBatches]
      simp)).whole
    rw [cursor.frames] at hwhole
    have hle := length_le_flatten fun frame hframe =>
      hwhole frame (mem_append_left _ hframe)
    have hcount := length_pos_of_mem hother
    omega
  have hstart : (framingOf (cursor.before ++ [cursor.block])).length =
      (framingOf cursor.before).length + cursor.block.stored.logicalLen := by
    rw [hserved.length cursor.block (by rw [cursor.segBatches]; simp),
      framingOf_append, length_append]
    simp [framingOf]
  have hdrop : cursor.seg.logical.bytes.drop
      ((framingOf cursor.before).length + cursor.inner.flatten.length) =
        cursor.head.flatten ++ framingOf cursor.after := by
    rw [hbytes, ← length_append, drop_left]
  refine ⟨cursor.seg.logical.bytes.length, ?_, ?_⟩
  · rw [hbytes]
    simp only [length_append]
    omega
  · rw [cursor.found, BlockSegment.readBlocksFrom,
      if_pos (hsource.blocks _ cursor.mem), cursor.start_eq hsource]
    simp only
    rw [cursor.tail_eq hsource, blockRefs]
    simp only [Int.toNat_natCast, hdrop]
    rw [if_pos (by omega), if_pos (by omega), hstart,
      show (framingOf cursor.before).length + cursor.block.stored.logicalLen -
        ((framingOf cursor.before).length + cursor.inner.flatten.length) =
          cursor.head.flatten.length by omega] <;> rfl

end BlockLog.Cursor

/-! ## What a block decodes to -/

section Decode

variable {env : BlockEnv} {b : BlockBatch}

theorem BlockBatch.IsV2.parse (hv2 : b.IsV2 env) (hne : b.frames ≠ [])
    (hcount : b.frames.length ≤ b.frames.flatten.length) :
    ∃ payload, b.stored.bytes.drop 15 = payload ∧ b.stored.bytes.length = 15 + payload.length ∧
      uintIn b.stored.bytes 1 1 = 2 ∧
      env.comp.decompress b.stored.codec payload = some b.frames.flatten ∧
      parseBlockHeader b.stored.bytes = some (b.stored.codec,
        b.frames.flatten.length, payload.length, b.frames.length) := by
  obtain ⟨payload, hbytes, hvalid, hdecompress, hsize, hpayload⟩ := hv2
  have hpos := length_pos_of_ne_nil hne
  have hword : ∀ i place width v, [(1, 0xC1), (1, 2), (1, b.stored.codec.val),
        (4, b.frames.flatten.length), (4, payload.length),
        (4, b.frames.length)][i]? = some (width, v) →
      wordOffset [(1, 0xC1), (1, 2), (1, b.stored.codec.val),
        (4, b.frames.flatten.length), (4, payload.length),
        (4, b.frames.length)] i = place →
      uintIn b.stored.bytes place width = v % 256 ^ width := by
    intro i place width v hget hat
    rw [hbytes]
    exact uintIn_putWords hget hat _
  have hlength : b.stored.bytes.length = 15 + payload.length := by
    rw [hbytes, length_append, length_putWords]
    rfl
  have hdrop : b.stored.bytes.drop 15 = payload := by
    rw [hbytes]
    apply drop_left'
    rw [length_putWords]
    rfl
  have hcodec := hword 2 2 1 b.stored.codec.val rfl rfl
  have hlt := b.stored.codec.isLt
  rw [Nat.mod_eq_of_lt (by omega)] at hcodec
  have hulen := hword 3 3 4 b.frames.flatten.length rfl rfl
  rw [Nat.mod_eq_of_lt (by omega)] at hulen
  have hclen := hword 4 7 4 payload.length rfl rfl
  rw [Nat.mod_eq_of_lt (by omega)] at hclen
  have hrecords := hword 5 11 4 b.frames.length rfl rfl
  rw [Nat.mod_eq_of_lt (by omega)] at hrecords
  have hfin : (Fin.ofNat 256 b.stored.codec.val : CodecByte) =
      b.stored.codec := by
    apply Fin.ext
    rw [Fin.val_ofNat, Nat.mod_eq_of_lt hlt]
  refine ⟨payload, hdrop, hlength, hword 1 1 1 2 rfl rfl, hdecompress, ?_⟩
  rw [parseBlockHeader, hlength, hcodec, hulen, hclen, hrecords, hfin,
    hword 0 0 1 0xC1 rfl rfl, hword 1 1 1 2 rfl rfl, if_neg]
  simp [hvalid]
  omega

theorem decodeBlock_prelude {data : Bytes} {h : BlockHeader} {recs : List BlockRecord}
    (hdecode : decodeBlock env.blockCrc env.comp data = .ok (h, recs)) :
    76 ≤ data.length ∧ uintIn data 0 1 = 0xC1 ∧ uintIn data 1 1 = 3 := by
  cases hverify : verifyPayload env.blockCrc data with
  | error e => simp [decodeBlock, hverify] at hdecode
  | ok h' =>
    cases hheader : decodeHeader env.blockCrc data with
    | error e => simp [verifyPayload, hheader] at hverify
    | ok found =>
      unfold decodeHeader at hheader
      split_ifs at hheader with hlong hmagic hversion
      exact ⟨by omega, not_not.mp hmagic, not_not.mp hversion⟩

theorem BlockBatch.Held.decodes (hheld : b.Held env) : 1 < b.stored.bytes.length ∧
      env.readStored b.stored = some b.frames.flatten ∧
      ∃ records, env.decodeForAppend b.stored.bytes =
          some ⟨b.frames.flatten, b.stored.codec, records⟩ ∧
        ∀ n, records = some n → n = b.frames.length := by
  rcases hheld.form with hv2 | ⟨h, recs, hdecode, hconsistent, hcodec, hframing⟩
  · obtain ⟨payload, hdrop, hlength, hversion, hdecompress, hparse⟩ :=
      hv2.parse hheld.ne_nil (length_le_flatten hheld.whole)
    refine ⟨by omega, ?_, some b.frames.length, ?_, ?_⟩
    · rw [BlockEnv.readStored, if_neg (by omega), BlockEnv.readBlock, hdrop,
        hdecompress, hheld.length]
      simp
    · rw [BlockEnv.decodeForAppend, if_neg (by omega), hparse, Option.bind_some]
      simp only
      rw [if_neg (by omega), hdrop, hdecompress, Option.bind_some, if_neg (by omega)]
    · intro n hn
      exact (Option.some.inj hn).symm
  · obtain ⟨hlong, hmagic, hversion⟩ := decodeBlock_prelude hdecode
    refine ⟨by omega, ?_, none, ?_, by simp⟩
    · rw [BlockEnv.readStored, if_pos hversion, BlockEnv.readV3Block,
        BlockEnv.decodeV3Block, hdecode]
      simp only
      rw [hframing, hheld.length]
      simp
    · rw [BlockEnv.decodeForAppend, if_pos ⟨by omega, hmagic, hversion⟩,
        BlockEnv.decodeV3ForAppend, hdecode]
      simp only
      rw [if_pos hconsistent, Option.bind_some, hframing, hcodec]
      rfl

theorem held_appendBlock {frames : List Bytes} (hwhole : ∀ ms ∈ frames, WholeFrame ms)
    (hsize : msgSetHeaderLen < frames.flatten.length) (hshort : frames.flatten.length < 2 ^ 32) :
    BlockBatch.Held env ⟨frames, env.appendBlock frames.flatten frames.length⟩ := by
  have hpack := env.comp.length_pack_le (env.codecFor frames.flatten) frames.flatten
  refine ⟨hwhole, hsize, rfl, Or.inl ⟨_, rfl, env.comp.valid_pack _ _,
    env.comp.decompress_pack _ _, hshort, ?_⟩⟩
  exact hpack.trans_lt hshort

end Decode

/-! ## What a follower takes -/

section Follower

variable {env : BlockEnv} {s : BlockLog} {opts : ByteEnv}

theorem BlockLog.logical_split (opts : ByteEnv) (s : BlockLog) :
    (s.checkAndPerformSplit opts).logical =
      s.logical.checkAndPerformSplit opts := by
  unfold BlockLog.checkAndPerformSplit ByteLog.checkAndPerformSplit
  have hactive : s.logical.active = s.active.logical := rfl
  rw [hactive]
  split_ifs
  · simp [BlockLog.logical, BlockSegment.logical]
  · rfl

theorem BlockLog.logical_write (s : BlockLog) (framing : Bytes) (block : BlockBytes) :
    (s.write framing block).logical = ⟨s.logical.sealedSegs,
      s.logical.active.write (splitFrames framing)⟩ := by
  simp [BlockLog.logical, BlockLog.write, BlockSegment.logical, ByteSegment.write]

theorem BlockLog.batches_split (opts : ByteEnv) (s : BlockLog) :
    (s.checkAndPerformSplit opts).batches = s.batches := by
  unfold BlockLog.checkAndPerformSplit
  split_ifs <;> simp [BlockLog.batches, BlockLog.segments]

theorem BlockLog.batches_write (s : BlockLog) (framing : Bytes) (block : BlockBytes) :
    (s.write framing block).batches = s.batches ++ [⟨splitFrames framing,
      if s.active.blockMode then block
      else ⟨framing, 0, framing.length⟩⟩] := by
  simp [BlockLog.batches, BlockLog.segments, BlockLog.write]

theorem BlockLog.Reads.split (hreads : s.Reads env) (opts : ByteEnv) :
    (s.checkAndPerformSplit opts).Reads env := by
  unfold BlockLog.checkAndPerformSplit
  split_ifs
  · intro seg hseg hmode b hb
    rcases mem_append.mp hseg with hseg | hseg
    · exact hreads seg hseg hmode b hb
    · rw [mem_singleton.mp hseg] at hb
      cases hb
  · exact hreads

theorem BlockLog.Reads.write (hreads : s.Reads env) {framing : Bytes} {block : BlockBytes}
    (hframes : (splitFrames framing).flatten = framing)
    (hblock : env.readStored block = some framing) : (s.write framing block).Reads env := by
  intro seg hseg hmode b hb
  rcases mem_append.mp hseg with hseg | hseg
  · exact hreads seg (mem_append_left _ hseg) hmode b hb
  · rw [mem_singleton.mp hseg] at hmode hb
    have hactive : s.active.blockMode = true := hmode
    rcases mem_append.mp hb with hb | hb
    · exact hreads s.active (by simp [BlockLog.segments]) hactive b hb
    · rw [mem_singleton.mp hb]
      simp only [hactive, if_true]
      rw [hblock, hframes]

theorem BlockLog.blockMode_split (hmode : s.active.blockMode = true)
    (hopts : opts.encodesBlocks = true) :
    (s.checkAndPerformSplit opts).active.blockMode = true := by
  unfold BlockLog.checkAndPerformSplit
  split_ifs
  · exact hopts
  · exact hmode

/-- What a follower is like, whatever it holds. -/
structure BlockLog.Follows (env : BlockEnv) (s : BlockLog) : Prop where
  wellFormed : s.logical.WellFormed
  reads : s.Reads env

theorem BlockLog.Follows.split (hfollows : s.Follows env) (opts : ByteEnv) :
    (s.checkAndPerformSplit opts).Follows env := by
  refine ⟨?_, hfollows.reads.split opts⟩
  rw [BlockLog.logical_split]
  exact (hfollows.wellFormed.split opts).1

theorem BlockLog.nextOffset_split (opts : ByteEnv) (s : BlockLog) :
    (s.checkAndPerformSplit opts).active.logical.nextOffset =
      s.active.logical.nextOffset := by
  have hsplit := ByteLog.nextOffset_split s.logical opts
  rw [← BlockLog.logical_split] at hsplit
  exact hsplit

theorem BlockLog.accepts_iff (hwf : s.logical.WellFormed) {first : Bytes}
    {rest : List Bytes} (hwhole : ∀ ms ∈ first :: rest, WholeFrame ms) :
    s.accepts (first :: rest).flatten = true ↔ Admissible (first :: rest) ∧
      s.active.logical.nextOffset ≤ (setFrame first).offset ∧ (first :: rest).Pairwise fun a b =>
          (setFrame a).offset < (setFrame b).offset := by
  have hbounds : 0 ≤ s.active.logical.nextOffset ∧
      s.active.logical.nextOffset ≤ maxInt64 := hwf.next_bounds
  rw [BlockLog.accepts, wrapInt64_eq_self (by unfold maxInt64; omega)
    (by omega), checkAppended_iff hwhole]
  simp only [Int.sub_one_lt_iff]

structure Fitting (s : BlockLog) (frames : List Bytes) : Prop where
  nonempty : frames ≠ []
  whole : ∀ ms ∈ frames, WholeFrame ms
  rising : frames.Pairwise fun a b => (setFrame a).offset < (setFrame b).offset
  above : ∀ ms ∈ frames, s.active.logical.nextOffset ≤ (setFrame ms).offset
  below : ∀ ms ∈ frames, (setFrame ms).offset < maxInt64

theorem Fitting.accepts_iff {frames : List Bytes} (hfits : Fitting s frames)
    (hfollows : s.Follows env) (opts : ByteEnv) :
    (s.checkAndPerformSplit opts).accepts frames.flatten = true ↔
      Admissible frames := by
  obtain ⟨first, rest, rfl⟩ := exists_cons_of_ne_nil hfits.nonempty
  rw [BlockLog.accepts_iff (hfollows.split opts).wellFormed hfits.whole, BlockLog.nextOffset_split]
  have habove := hfits.above first mem_cons_self
  exact and_iff_left ⟨habove, hfits.rising⟩

theorem Fitting.write {frames : List Bytes} (hfits : Fitting s frames)
    (hfollows : s.Follows env) (hadmissible : Admissible frames)
    {block : BlockBytes} (hblock : env.readStored block = some frames.flatten)
    (opts : ByteEnv) {last : Bytes} (hlast : frames.getLast? = some last) :
    ((s.checkAndPerformSplit opts).write frames.flatten block).Follows env ∧
      ((s.checkAndPerformSplit opts).write frames.flatten block).batches = s.batches ++ [⟨frames,
          if (s.checkAndPerformSplit opts).active.blockMode then block
          else ⟨frames.flatten, 0, frames.flatten.length⟩⟩] ∧
      ((s.checkAndPerformSplit opts).write frames.flatten
        block).active.logical.nextOffset = (setFrame last).offset + 1 := by
  have hframes := splitFrames_flatten hfits.whole hadmissible.size
  have hsplit := hfollows.split opts
  have habove := hfits.above
  rw [← BlockLog.nextOffset_split opts] at habove
  have hwf : ((s.checkAndPerformSplit opts).write frames.flatten block).logical.WellFormed := by
    rw [BlockLog.logical_write, hframes]
    exact hsplit.wellFormed.write hfits.whole hfits.rising habove hfits.below
  refine ⟨⟨hwf, hsplit.reads.write (by rw [hframes]) hblock⟩, ?_, ?_⟩
  · rw [BlockLog.batches_write, BlockLog.batches_split, hframes]
  · have hactive : ((s.checkAndPerformSplit opts).write frames.flatten
        block).logical.active ∈ ((s.checkAndPerformSplit opts).write
          frames.flatten block).logical.segments := by
      simp [ByteLog.segments]
    apply (hwf.segs _ hactive).next_of_last
    rw [BlockLog.logical_write, hframes, ByteSegment.frames_write, getLast?_append, hlast]
    rfl

structure BlockLog.Grown (env : BlockEnv) (encodesBlocks : Bool)
    (s s' : BlockLog) (added : List BlockBatch) : Prop where
  follows : s'.Follows env
  batches : s'.batches = s.batches ++ added
  mode : encodesBlocks = true → s.active.blockMode = true → s'.active.blockMode = true

theorem BlockLog.Grown.trans {encodesBlocks : Bool} {s t u : BlockLog}
    {added added' : List BlockBatch} (hgrown : s.Grown env encodesBlocks t added)
    (hgrown' : t.Grown env encodesBlocks u added') :
    s.Grown env encodesBlocks u (added ++ added') := by
  constructor
  · exact hgrown'.follows
  · rw [hgrown'.batches, hgrown.batches, append_assoc]
  · intro hencodes hmode
    exact hgrown'.mode hencodes (hgrown.mode hencodes hmode)

theorem readStored_appendBlock (ms : Bytes) (records : ℕ) :
    env.readStored (env.appendBlock ms records) = some ms := by
  have hversion : uintIn (env.appendBlock ms records).bytes 1 1 = 2 := by
    have hword : ([(1, 0xC1), (1, 2),
        (1, (env.comp.pack (env.codecFor ms) ms).1.val), (4, ms.length),
        (4, (env.comp.pack (env.codecFor ms) ms).2.length),
        (4, records)] : List (ℕ × ℕ))[1]? = some (1, 2) := rfl
    exact uintIn_putWords hword rfl _
  rw [BlockEnv.readStored, if_neg (by omega), BlockEnv.readBlock_appendBlock]

variable {frames : List Bytes}

theorem Fitting.appendMessageSet (hfits : Fitting s frames)
    (hfollows : s.Follows env) (hadmissible : Admissible frames)
    (opts : ByteEnv) {last : Bytes} (hlast : frames.getLast? = some last) :
    ∃ s' b, s.appendMessageSet env opts frames.flatten = some s' ∧
      s.Grown env opts.encodesBlocks s' [b] ∧ b.frames = frames ∧
      s'.active.logical.nextOffset = (setFrame last).offset + 1 := by
  obtain ⟨hfollows', hbatches, hnext⟩ := hfits.write hfollows hadmissible
    (readStored_appendBlock frames.flatten (entriesForMessageSet frames.flatten).length) opts hlast
  refine ⟨_, _, ?_, ⟨hfollows', hbatches, ?_⟩, rfl, hnext⟩
  · rw [BlockLog.appendMessageSet, if_pos ((hfits.accepts_iff hfollows opts).mpr hadmissible)]
  · intro hencodes hmode
    exact BlockLog.blockMode_split hmode hencodes

theorem Fitting.admissible_of_appendMessageSet (hfits : Fitting s frames) (hfollows : s.Follows env)
    {s' : BlockLog} (happend : s.appendMessageSet env opts frames.flatten = some s') :
    Admissible frames := by
  rw [BlockLog.appendMessageSet] at happend
  exact (hfits.accepts_iff hfollows opts).mp (Option.ite_none_right_eq_some.mp happend).1

theorem Fitting.appendBlock {b : BlockBatch} (hfits : Fitting s b.frames) (hfollows : s.Follows env)
    (hheld : b.Held env) (hadmissible : Admissible b.frames) (opts : ByteEnv) {last : Bytes}
    (hlast : b.frames.getLast? = some last) :
    ∃ s' b', s.appendBlock env opts b.stored.bytes = some s' ∧
      s.Grown env opts.encodesBlocks s' [b'] ∧ b'.frames = b.frames ∧
      (opts.encodesBlocks = true → s.active.blockMode = true → b' = b) ∧
      s'.active.logical.nextOffset = (setFrame last).offset + 1 := by
  obtain ⟨-, hread, records, hdecode, hrecords⟩ := hheld.decodes
  have hstored : (⟨b.stored.bytes, b.stored.codec, b.frames.flatten.length⟩ :
      BlockBytes) = b.stored := by
    rw [← hheld.length]
  obtain ⟨hfollows', hbatches, hnext⟩ := hfits.write hfollows hadmissible hread opts hlast
  have hcount : (entriesForMessageSet b.frames.flatten).length =
      b.frames.length := by
    rw [entriesForMessageSet_flatten hfits.whole hadmissible.size, length_map]
  refine ⟨_, _, ?_, ⟨hfollows', hbatches, ?_⟩, rfl, ?_, hnext⟩
  · rw [BlockLog.appendBlock, hdecode, Option.bind_some, hstored]
    simp only
    rw [(hfits.accepts_iff hfollows opts).mpr hadmissible, hcount, Bool.true_and, if_pos]
    rw [Option.all_eq_true]
    intro n hn
    rw [decide_eq_true_eq, hrecords n hn]
  · intro hencodes hmode
    exact BlockLog.blockMode_split hmode hencodes
  · intro hencodes hmode
    rw [BlockLog.blockMode_split hmode hencodes]
    rfl

theorem Fitting.admissible_of_appendBlock {b : BlockBatch} (hfits : Fitting s b.frames)
    (hfollows : s.Follows env) (hheld : b.Held env) {s' : BlockLog}
    (happend : s.appendBlock env opts b.stored.bytes = some s') : Admissible b.frames := by
  obtain ⟨-, -, records, hdecode, -⟩ := hheld.decodes
  rw [BlockLog.appendBlock, hdecode, Option.bind_some] at happend
  have hchecks := (Option.ite_none_right_eq_some.mp happend).1
  rw [Bool.and_eq_true] at hchecks
  exact (hfits.accepts_iff hfollows opts).mp hchecks.1

theorem Fitting.appendBlocks {taken : List BlockBatch} (hheld : ∀ b ∈ taken, b.Held env)
    (hadmissible : ∀ b ∈ taken, Admissible b.frames) {sent : List SentBlock}
    (hdata : sent.map SentBlock.data = taken.map fun b => b.stored.bytes) {s : BlockLog}
    (hfollows : s.Follows env) (hfits : taken ≠ [] → Fitting s (taken.flatMap BlockBatch.frames))
    {encodesBlocks : Bool} {opts : ℤ → ByteEnv}
    (hopts : ∀ offset, (opts offset).encodesBlocks = encodesBlocks) :
    ∃ s' added, sent.foldlM (fun follower b =>
        BlockLog.appendBlock env (opts b.firstOffset) follower b.data) s = some s' ∧
      s.Grown env encodesBlocks s' added ∧
      added.flatMap BlockBatch.frames = taken.flatMap BlockBatch.frames ∧
      (encodesBlocks = true → s.active.blockMode = true → added = taken) ∧
      ∀ bound, s.active.logical.nextOffset ≤ bound → (∀ ms ∈ taken.flatMap BlockBatch.frames,
          (setFrame ms).offset < bound) →
        s'.active.logical.nextOffset ≤ bound := by
  induction taken generalizing sent s with
  | nil =>
    have hnone : sent = [] := by simpa using hdata
    rw [hnone]
    exact ⟨s, [], rfl, ⟨hfollows, by simp, fun _ hmode => hmode⟩, rfl,
      fun _ _ => rfl, fun bound hbound _ => hbound⟩
  | cons b taken ih =>
    cases sent with
    | nil => cases hdata
    | cons first sent =>
      rw [map_cons, map_cons, cons.injEq] at hdata
      have hall := hfits (cons_ne_nil _ _)
      rw [flatMap_cons] at hall
      have hparts := pairwise_append.mp hall.rising
      have hb := hheld b mem_cons_self
      have hfirst : Fitting s b.frames := by
        refine ⟨hb.ne_nil, hb.whole, hparts.1, ?_, ?_⟩
        · exact fun ms hms => hall.above ms (mem_append_left _ hms)
        · exact fun ms hms => hall.below ms (mem_append_left _ hms)
      obtain ⟨last, hlast⟩ : ∃ last, b.frames.getLast? = some last :=
        ⟨_, getLast?_eq_some_getLast hb.ne_nil⟩
      obtain ⟨t, b', happend, hgrown, hframes, hsame, hnext⟩ :=
        hfirst.appendBlock hfollows hb (hadmissible b mem_cons_self) (opts first.firstOffset) hlast
      rw [hopts] at hgrown hsame
      have hrest : taken ≠ [] → Fitting t (taken.flatMap BlockBatch.frames) := by
        intro hne
        obtain ⟨c, others, rfl⟩ := exists_cons_of_ne_nil hne
        refine ⟨?_, ?_, hparts.2.1, ?_, ?_⟩
        · have hc := (hheld c (by simp)).ne_nil
          simp [hc]
        · exact fun ms hms => hall.whole ms (mem_append_right _ hms)
        · intro ms hms
          rw [hnext]
          exact hparts.2.2 last (mem_of_getLast? hlast) ms hms
        · exact fun ms hms => hall.below ms (mem_append_right _ hms)
      obtain ⟨u, added, hfold, hgrown', hframes', hsame', hbound⟩ := @ih
        (fun other hother => hheld other (mem_cons_of_mem _ hother))
        (fun other hother =>
          hadmissible other (mem_cons_of_mem _ hother))
        sent hdata.2 t hgrown.follows hrest
      refine ⟨u, b' :: added, ?_, hgrown.trans hgrown', ?_, ?_, ?_⟩
      · rw [foldlM_cons, hdata.1, happend]
        exact hfold
      · rw [flatMap_cons, flatMap_cons, hframes, hframes']
      · intro hencodes hmode
        rw [hsame hencodes hmode, hsame' hencodes (hgrown.mode hencodes hmode)]
      · intro bound hle hlt
        apply hbound bound
        · rw [hnext]
          apply hlt
          rw [flatMap_cons]
          exact mem_append_left _ (mem_of_getLast? hlast)
        · intro ms hms
          apply hlt
          rw [flatMap_cons]
          exact mem_append_right _ hms

end Follower

end CommitLog
