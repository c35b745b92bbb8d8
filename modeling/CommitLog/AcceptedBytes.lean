import CommitLog.ByteSegments

/-!
# Accepted bytes read back

A log as the bytes of its segments and the entries of their indexes.  An
append takes a set of frames as it comes; readers, scans, seeks, digests and
rewrites then work on the bytes alone.  They all succeed, and give back the
frames that were appended, exactly as long as every frame that was accepted
meets what they ask of it.
-/

namespace CommitLog

open List hiding set

variable {seg : ByteSegment} {ms : Bytes} {env : ByteEnv} {input : ByteInput}

open Runs

/-! ## Logs of bytes -/

structure ByteLog where
  sealedSegs : List ByteSegment
  active : ByteSegment

namespace ByteLog

def segments (s : ByteLog) : List ByteSegment := s.sealedSegs ++ [s.active]

def frames (s : ByteLog) : List Bytes :=
  s.segments.flatMap ByteSegment.frames

end ByteLog

section Reads

variable (crc headerCrc : Bytes → Fin (2 ^ 32))

/-- What a reader takes from a segment, from a position on.  A record must lie
between the base and the end of its segment. -/
def ByteSegment.readFrom (seg : ByteSegment) (position : ℕ) : Option (List SetFrame) :=
  (readMessages crc headerCrc seg.bytes.length (seg.bytes.drop position)).filter fun records =>
    records.all fun record => decide (seg.base ≤ record.offset) &&
      decide (record.offset < seg.nextOffset)

def ByteLog.read (s : ByteLog) (offset : ℤ) : Option (List SetFrame) :=
  match s.segments.dropWhile fun seg => decide (seg.nextOffset ≤ offset) with
  | [] => none
  | seg :: later =>
    (if seg.base ≤ offset then (seg.findEntry offset).map Entry.position
      else some 0).bind fun position =>
      if position < 0 then none
      else
        (seg.readFrom crc headerCrc position.toNat).bind fun records =>
          (later.mapM fun other : ByteSegment =>
              other.readFrom crc headerCrc 0).map
            fun rest => records ++ rest.flatten

/-! ## The property -/

/-- Everything in the log reads back: scans give the frames of each segment,
each offset is found at its frame, a reader gives the frames from there on,
and no digest and no rewrite fails. -/
structure ByteLog.ReadsBack (s : ByteLog) : Prop where
  scans : ∀ seg ∈ s.segments, scanFrames headerCrc seg.blockMode seg.bytes.length seg.bytes =
      some seg.frames
  seeks : ∀ seg ∈ s.segments, ∀ front ms rest, seg.frames = front ++ ms :: rest →
      (seg.findEntry (setFrame ms).offset).map (fun e => (e.offset, e.timestamp, e.position)) =
        some ((setFrame ms).offset, (setFrame ms).timestamp, (front.flatten.length : ℤ))
  reads : ∀ front ms rest, s.frames = front ++ ms :: rest →
    s.read crc headerCrc (setFrame ms).offset = some ((ms :: rest).map setFrame)
  digests : ∀ seg ∈ s.segments, (buildDigestBytes headerCrc seg.blockMode seg.bytes).isSome = true
  cleans : ∀ seg ∈ s.segments, ∀ spec drops order,
    (cleanWalk crc headerCrc spec drops order seg.blockMode seg.bytes).isSome = true

end Reads

/-! ## Appending -/

/-- What an append depends on besides its input. -/
structure ByteEnv where
  limits : RollLimits
  now : ℤ
  encodesBlocks : Bool
  formatV3 : Bool
  lastLeaderEpoch : ℕ

/-- `encodeV1Message`, with the headers in the order of their names. -/
def encodeV1Message (crc : Bytes → Fin (2 ^ 32)) (msg : Message) :
    Option Bytes :=
  let order := msg.produced.headers.mergeSort fun a b => decide (a.1 ≤ b.1)
  if 32767 < order.length ∨ ∃ header ∈ order, 32767 < header.1.length then
    none
  else
    some (putUint 4 (crc (msg.produced.body order)).val ++ msg.produced.body order)

/-- `synthesizeFraming` as bytes. -/
def V3Block.framingBytes (crc headerCrc : Bytes → Fin (2 ^ 32)) (block : V3Block) : Option Bytes :=
  (block.records.mapM fun record : ℕ × Message =>
    (encodeV1Message crc record.2).map
      (frameBytes headerCrc (wrapInt64 (block.baseOffset + record.1))
        block.timestamp block.leaderEpoch)).map flatten

/-- The calls that take bytes from outside, with the blocks they are handed as
far as these decode. -/
inductive ByteInput
  | appendMessageSet (set : Bytes)
  | appendBlock (decoded : Option (Bytes × ℕ))
  | appendBlockV3 (decoded : Option V3Block)
  | appendPreframed (decoded : Option V3Block)

/-- What is decided before the lock. -/
def ByteInput.decodes (env : ByteEnv) : ByteInput → Bool
  | .appendMessageSet _ => true
  | .appendBlock decoded => decoded.isSome
  | .appendBlockV3 decoded => decoded.any V3Block.appendable
  | .appendPreframed decoded =>
    env.formatV3 && decoded.any V3Block.appendable

section Appends

variable (crc headerCrc : Bytes → Fin (2 ^ 32))

/-- The framing an append checks, and the number of records a block header
promises. -/
def ByteInput.logical (env : ByteEnv) (next : ℤ) : ByteInput → Option (Bytes × Option ℕ)
  | .appendMessageSet set => some (set, none)
  | .appendBlock decoded => decoded.map fun block => (block.1, some block.2)
  | .appendBlockV3 decoded =>
    (decoded.bind (V3Block.framingBytes crc headerCrc)).map fun framing => (framing, none)
  | .appendPreframed decoded =>
    (decoded.bind fun block => (block.rewrite next env.lastLeaderEpoch
      env.now).framingBytes crc headerCrc).map
      fun framing => (framing, none)

/-- The frames of an append that is accepted behind the offset `next - 1`. -/
def ByteInput.accepted (env : ByteEnv) (next : ℤ) (input : ByteInput) : Option (List Bytes) :=
  ((input.logical crc headerCrc env next).filter fun framing =>
    checkAppendedEntries (wrapInt64 (next - 1)) (entriesForMessageSet framing.1) framing.1.length &&
      framing.2.all fun n =>
        decide ((entriesForMessageSet framing.1).length = n)).map
    fun framing => splitFrames framing.1

def ByteSegment.firstWriteTime (seg : ByteSegment) : ℤ :=
  (seg.frames.head?.map fun ms => (setFrame ms).timestamp).getD 0

/-- `CheckSplit`. -/
def ByteSegment.checkSplit (limits : RollLimits) (now : ℤ) (seg : ByteSegment) : Bool :=
  decide (limits.maxSegmentBytes ≤ seg.bytes.length) ||
    (seg.blockMode && decide (maxSegmentBlocks ≤ seg.batches.length)) ||
    (decide (limits.maxSegmentAge ≠ 0) && decide (seg.firstWriteTime ≠ 0) &&
      decide (limits.maxSegmentAge ≤ now - seg.firstWriteTime))

def ByteSegment.write (seg : ByteSegment) (frames : List Bytes) :
    ByteSegment :=
  { seg with batches := seg.batches ++ [frames] }

def ByteLog.checkAndPerformSplit (env : ByteEnv) (s : ByteLog) : ByteLog :=
  if s.active.checkSplit env.limits env.now then
    ⟨s.sealedSegs ++ [s.active], ⟨s.active.nextOffset, env.encodesBlocks, []⟩⟩
  else s

/-- The frames an append writes, behind a roll that may come first. -/
def ByteLog.writes (env : ByteEnv) (s : ByteLog) (input : ByteInput) : Option (List Bytes) :=
  if input.decodes env then
    input.accepted crc headerCrc env (s.checkAndPerformSplit env).active.nextOffset
  else none

def ByteLog.append (env : ByteEnv) (s : ByteLog) (input : ByteInput) :
    ByteLog :=
  if input.decodes env then
    match s.writes crc headerCrc env input with
    | none => s.checkAndPerformSplit env
    | some frames =>
      ⟨(s.checkAndPerformSplit env).sealedSegs, (s.checkAndPerformSplit env).active.write frames⟩
  else s

end Appends

/-! ## Logs -/

/-- Every segment lies above the ones before it. -/
structure ByteLog.WellFormed (s : ByteLog) : Prop where
  segs : ∀ seg ∈ s.segments, seg.WellFormed
  apart : s.segments.Pairwise fun seg later => seg.base ≤ later.base ∧
    ∀ ms ∈ seg.frames, (setFrame ms).offset < later.base

/-- The entries an append writes fit the index, and its offsets end below the
largest 64-bit integer. -/
structure ByteSegment.Room (seg : ByteSegment) (frames : List Bytes) :
    Prop where
  below : ∀ ms ∈ frames, (setFrame ms).offset < maxInt64
  fits : ∀ e ∈ if seg.blockMode then batchEntries seg.bytes.length [frames]
      else frameEntries seg.bytes.length frames, e.stored seg.base = e

/-! ## The condition -/

section Condition

variable (crc headerCrc : Bytes → Fin (2 ^ 32))

inductive ByteOp
  | append (env : ByteEnv) (input : ByteInput)
  | split (env : ByteEnv)
  | remove

/-- One operation.  What truncation, retention and compaction leave are some
of the frames, in any segments. -/
def ByteStep (s : ByteLog) (op : ByteOp) (s' : ByteLog) : Prop :=
  match op with
  | .append env input => s' = s.append crc headerCrc env input
  | .split env => s' = s.checkAndPerformSplit env
  | .remove => s'.frames.Sublist s.frames ∧ s'.WellFormed ∧ ∀ seg ∈ s'.segments, seg.Indexed

def ByteLog.HasRoom (s : ByteLog) (env : ByteEnv) (input : ByteInput) : Prop :=
  ∀ frames, s.writes crc headerCrc env input = some frames →
    (s.checkAndPerformSplit env).active.Room frames

def ByteLog.TakesReadable (s : ByteLog) (env : ByteEnv) (input : ByteInput) : Prop :=
  ∀ frames, s.writes crc headerCrc env input = some frames →
    ∀ ms ∈ frames, Readable crc headerCrc ms

def ByteSafe (s : ByteLog) (op : ByteOp) : Prop :=
  match op with
  | .append env input => s.HasRoom crc headerCrc env input ∧ s.TakesReadable crc headerCrc env input
  | _ => True

/-- An append that is refused leaves the frames as they are; one that is
accepted puts the frames of all its bytes behind them, and everything reads
back. -/
def ByteLog.AppendReadsBack (s : ByteLog) (env : ByteEnv) (input : ByteInput) : Prop :=
  match s.writes crc headerCrc env input with
  | none => (s.append crc headerCrc env input).frames = s.frames
  | some frames =>
    (∃ framing, input.logical crc headerCrc env
        (s.checkAndPerformSplit env).active.nextOffset = some framing ∧
      frames.flatten = framing.1) ∧
    (s.append crc headerCrc env input).frames = s.frames ++ frames ∧
    (s.append crc headerCrc env input).ReadsBack crc headerCrc

end Condition

/-! ## Reading -/

section Log

variable {crc headerCrc : Bytes → Fin (2 ^ 32)} {s : ByteLog}

theorem ByteSegment.WellFormed.nonneg (hwf : seg.WellFormed) (hms : ms ∈ seg.frames) :
    0 ≤ (setFrame ms).offset :=
  hwf.base_nonneg.trans (hwf.base_le ms hms)

theorem ByteSegment.WellFormed.next_of_last (hwf : seg.WellFormed) {last : Bytes}
    (hlast : seg.frames.getLast? = some last) : seg.nextOffset = (setFrame last).offset + 1 := by
  have hin := mem_of_getLast? hlast
  have hlow := hwf.nonneg hin
  have hhigh := hwf.below last hin
  unfold ByteSegment.nextOffset
  rw [hlast]
  exact wrapInt64_eq_self (by unfold maxInt64 at *; omega) (by omega)

theorem ByteSegment.WellFormed.lt_nextOffset (hwf : seg.WellFormed) (hms : ms ∈ seg.frames) :
    (setFrame ms).offset < seg.nextOffset := by
  rcases eq_nil_or_concat' seg.frames with hnil | ⟨front, last, hlast⟩
  · rw [hnil] at hms
    cases hms
  · have hend := hwf.next_of_last (show seg.frames.getLast? = some last by simp [hlast])
    have hrising := hwf.rising
    rw [hlast] at hms hrising
    rcases mem_append.mp hms with hms | hms
    · have hlt := (pairwise_append.mp hrising).2.2 ms hms last (mem_singleton_self _)
      omega
    · rw [mem_singleton.mp hms]
      omega

theorem ByteSegment.WellFormed.nextOffset_le (hwf : seg.WellFormed) {bound : ℤ}
    (hbase : seg.base ≤ bound) (hbelow : ∀ ms ∈ seg.frames, (setFrame ms).offset < bound) :
    seg.nextOffset ≤ bound := by
  cases hlast : seg.frames.getLast? with
  | none =>
    unfold ByteSegment.nextOffset
    rw [hlast]
    exact hbase
  | some last =>
    have hle := hbelow last (mem_of_getLast? hlast)
    rw [hwf.next_of_last hlast]
    omega

theorem ByteSegment.WellFormed.base_le_nextOffset
    (hwf : seg.WellFormed) : seg.base ≤ seg.nextOffset := by
  by_cases hnil : seg.frames = []
  · unfold ByteSegment.nextOffset
    rw [hnil]
    rfl
  · rcases exists_mem_of_ne_nil _ hnil with ⟨ms, hms⟩
    exact (hwf.base_le ms hms).trans (hwf.lt_nextOffset hms).le

theorem ByteLog.mem_frames (hseg : seg ∈ s.segments) (hms : ms ∈ seg.frames) : ms ∈ s.frames :=
  mem_flatMap.mpr ⟨seg, hseg, hms⟩

namespace ByteLog.WellFormed

variable (hwf : s.WellFormed) {seg : ByteSegment}
include hwf

theorem dropWhile_eq {before later : List ByteSegment}
    (hsegments : s.segments = before ++ seg :: later) (hms : ms ∈ seg.frames) :
    (s.segments.dropWhile fun other =>
        decide (other.nextOffset ≤ (setFrame ms).offset)) = seg :: later := by
  have hseg : seg ∈ s.segments := by simp [hsegments]
  have hapart := hwf.apart
  have hfront : ∀ other ∈ before,
      decide (other.nextOffset ≤ (setFrame ms).offset) = true := by
    intro other hother
    have hin : other ∈ s.segments := by simp [hsegments, hother]
    rw [hsegments] at hapart
    have hpair := (pairwise_append.mp hapart).2.2 other hother seg mem_cons_self
    have hbase := (hwf.segs seg hseg).base_le ms hms
    rw [decide_eq_true_eq]
    apply (hwf.segs other hin).nextOffset_le
    · exact hpair.1.trans hbase
    · exact fun frame hframe => (hpair.2 frame hframe).trans_le hbase
  have hlt := (hwf.segs seg hseg).lt_nextOffset hms
  rw [hsegments, dropWhile_append_of_pos hfront, dropWhile_cons_of_neg (by simpa using hlt)]

theorem readFrom_eq (hseg : seg ∈ s.segments) {front rest : List Bytes}
    (hsplit : seg.frames = front ++ rest) :
    seg.readFrom crc headerCrc front.flatten.length =
      if rest.all fun ms => headerCrcMatches headerCrc ms &&
          crcMatches crc (ms.drop msgSetHeaderLen) then
        some (rest.map setFrame)
      else none := by
  have hrest : ∀ ms ∈ rest, ms ∈ seg.frames := by
    intro ms hms
    rw [hsplit]
    exact mem_append_right _ hms
  have hdrop : seg.bytes.drop front.flatten.length = rest.flatten := by
    unfold ByteSegment.bytes
    rw [hsplit, flatten_append, drop_left]
  have hfuel : rest.flatten.length ≤ seg.bytes.length := by
    rw [← hdrop, length_drop]
    omega
  have hread := @readMessages_flatten crc headerCrc rest
    (fun ms hms => (hwf.segs seg hseg).whole ms (hrest ms hms)) _ hfuel
  unfold ByteSegment.readFrom
  rw [hdrop, hread]
  split_ifs with hall
  · rw [Option.filter_some, if_pos]
    rw [all_eq_true]
    intro record hrecord
    rcases mem_map.mp hrecord with ⟨ms, hms, rfl⟩
    simp only [Bool.and_eq_true, decide_eq_true_eq]
    exact ⟨(hwf.segs seg hseg).base_le ms (hrest ms hms),
      (hwf.segs seg hseg).lt_nextOffset (hrest ms hms)⟩
  · rfl

theorem read_eq (hindexed : seg.Indexed) {before later : List ByteSegment}
    (hsegments : s.segments = before ++ seg :: later) {front rest : List Bytes}
    (hsplit : seg.frames = front ++ ms :: rest) :
    s.read crc headerCrc (setFrame ms).offset =
      (seg.readFrom crc headerCrc front.flatten.length).bind fun records =>
        (later.mapM fun other : ByteSegment =>
            other.readFrom crc headerCrc 0).map
          fun rest => records ++ rest.flatten := by
  have hseg : seg ∈ s.segments := by simp [hsegments]
  have hms : ms ∈ seg.frames := by simp [hsplit]
  have hfound := (hwf.segs seg hseg).findEntry_eq hindexed hsplit
  rcases Option.map_eq_some_iff.mp hfound with ⟨e, he, hfields⟩
  have hposition : e.position = front.flatten.length :=
    congrArg (fun fields => fields.2.2) hfields
  unfold ByteLog.read
  rw [hwf.dropWhile_eq hsegments hms]
  simp only
  rw [if_pos ((hwf.segs seg hseg).base_le ms hms), he, Option.map_some,
    Option.bind_some, hposition, if_neg (by omega), Int.toNat_natCast]

theorem readsBack (hindexed : ∀ seg ∈ s.segments, seg.Indexed)
    (hreadable : ∀ ms ∈ s.frames, Readable crc headerCrc ms) : s.ReadsBack crc headerCrc := by
  have hscan : ∀ seg ∈ s.segments, scanFrames headerCrc seg.blockMode seg.bytes.length seg.bytes =
        some seg.frames := by
    intro seg hseg
    apply scanFrames_flatten
    · exact (hwf.segs seg hseg).whole
    · intro ms hms
      have hlong := length_of_crcMatches (hreadable ms (ByteLog.mem_frames hseg hms)).payload
      rw [length_drop] at hlong
      omega
    · exact fun ms hms => (hreadable ms (ByteLog.mem_frames hseg hms)).header
    · rfl
  have hall : ∀ seg ∈ s.segments, ∀ rest : List Bytes, (∀ ms ∈ rest, ms ∈ seg.frames) →
      (rest.all fun ms => headerCrcMatches headerCrc ms &&
        crcMatches crc (ms.drop msgSetHeaderLen)) = true := by
    intro seg hseg rest hrest
    rw [all_eq_true]
    intro ms hms
    have hframe := hreadable ms (ByteLog.mem_frames hseg (hrest ms hms))
    rw [hframe.header, hframe.payload]
    rfl
  constructor
  · exact hscan
  · intro seg hseg front ms rest hsplit
    exact (hwf.segs seg hseg).findEntry_eq (hindexed seg hseg) hsplit
  · intro front ms rest hsplit
    rcases flatMap_split hsplit with
      ⟨before, seg, later, inner, outer, hsegments, hframes, -, hrest⟩
    have hseg : seg ∈ s.segments := by simp [hsegments]
    have hfirst := @readFrom_eq crc headerCrc s hwf seg hseg inner (ms :: outer) hframes
    have hinner : ∀ frame ∈ ms :: outer, frame ∈ seg.frames := by
      intro frame hframe
      rw [hframes]
      exact mem_append_right _ hframe
    rw [if_pos (hall seg hseg _ hinner)] at hfirst
    have hlater : ∀ other ∈ later, other.readFrom crc headerCrc 0 =
        some (other.frames.map setFrame) := by
      intro other hother
      have hin : other ∈ s.segments := by simp [hsegments, hother]
      have hwhole := @readFrom_eq crc headerCrc s hwf other hin [] other.frames rfl
      rw [if_pos (hall other hin _ fun _ hms => hms)] at hwhole
      exact hwhole
    rw [hwf.read_eq (hindexed seg hseg) hsegments hframes, hfirst,
      Option.bind_some, mapM_eq_some_map hlater, Option.map_some, hrest]
    simp [flatMap, map_flatten, map_map, Function.comp_def]
  · intro seg hseg
    unfold buildDigestBytes
    rw [hscan seg hseg, Option.bind_some, isSome_mapM_iff]
    intro ms hms
    exact (hreadable ms (ByteLog.mem_frames hseg hms)).parses.digestRecord
  · intro seg hseg spec drops order
    unfold cleanWalk
    rw [hscan seg hseg, Option.bind_some, isSome_mapM_iff]
    intro ms hms
    have hin := ByteLog.mem_frames hseg hms
    apply (hreadable ms hin).parses.keepBytes
    intro m hm
    rw [((hwf.segs seg hseg).whole ms hms).setMessage_eq hm]
    exact (hreadable ms hin).payload

theorem readable (hindexed : ∀ seg ∈ s.segments, seg.Indexed) (hback : s.ReadsBack crc headerCrc) :
    ∀ ms ∈ s.frames, Readable crc headerCrc ms := by
  intro ms hms
  rcases mem_flatMap.mp hms with ⟨seg, hseg, hin⟩
  rcases append_of_mem hseg with ⟨before, later, hsegments⟩
  rcases append_of_mem hin with ⟨front, rest, hsplit⟩
  have hwhole := (hwf.segs seg hseg).whole ms hin
  have hframes : s.frames = (before.flatMap ByteSegment.frames ++ front) ++
      ms :: (rest ++ later.flatMap ByteSegment.frames) := by
    unfold ByteLog.frames
    rw [hsegments, flatMap_append, flatMap_cons, hsplit]
    simp
  have hread := hback.reads _ ms _ hframes
  rw [hwf.read_eq (hindexed seg hseg) hsegments hsplit, hwf.readFrom_eq hseg hsplit] at hread
  split_ifs at hread with hall
  · rw [all_cons, Bool.and_eq_true, Bool.and_eq_true] at hall
    have hscan := hback.scans seg hseg
    have hdigest := hback.digests seg hseg
    unfold buildDigestBytes at hdigest
    rw [hscan, Option.bind_some, isSome_mapM_iff] at hdigest
    refine ⟨hall.1.1, hall.1.2, @parses_of_reads crc headerCrc ms hwhole
      hall.1.2 (hdigest ms hin) ?_⟩
    intro spec drops order
    have hclean := hback.cleans seg hseg spec drops order
    unfold cleanWalk at hclean
    rw [hscan, Option.bind_some, isSome_mapM_iff] at hclean
    exact hclean ms hin
  · simp at hread

end ByteLog.WellFormed

theorem ByteLog.WellFormed.readsBack_iff (hwf : s.WellFormed)
    (hindexed : ∀ seg ∈ s.segments, seg.Indexed) :
    s.ReadsBack crc headerCrc ↔ ∀ ms ∈ s.frames, Readable crc headerCrc ms :=
  ⟨hwf.readable hindexed, hwf.readsBack hindexed⟩

/-! ## Steps -/

theorem ByteLog.WellFormed.below_next (hwf : s.WellFormed) :
    ∀ seg ∈ s.segments, seg.base ≤ s.active.nextOffset ∧
      ∀ ms ∈ seg.frames, (setFrame ms).offset < s.active.nextOffset := by
  have hactive := hwf.segs s.active (by simp [ByteLog.segments])
  intro seg hseg
  rcases mem_append.mp hseg with hseg | hseg
  · have hpair := (pairwise_append.mp hwf.apart).2.2 seg hseg s.active (mem_singleton_self _)
    have hle := hactive.base_le_nextOffset
    exact ⟨hpair.1.trans hle, fun ms hms => (hpair.2 ms hms).trans_le hle⟩
  · rw [mem_singleton.mp hseg]
    exact ⟨hactive.base_le_nextOffset, fun ms hms => hactive.lt_nextOffset hms⟩

theorem ByteLog.WellFormed.next_bounds (hwf : s.WellFormed) :
    0 ≤ s.active.nextOffset ∧ s.active.nextOffset ≤ maxInt64 := by
  have hactive := hwf.segs s.active (by simp [ByteLog.segments])
  exact ⟨hactive.base_nonneg.trans hactive.base_le_nextOffset,
    hactive.nextOffset_le hactive.base_le_max hactive.below⟩

theorem ByteLog.WellFormed.split (hwf : s.WellFormed) (env : ByteEnv) :
    (s.checkAndPerformSplit env).WellFormed ∧ (s.checkAndPerformSplit env).frames = s.frames ∧
      ∀ seg ∈ (s.checkAndPerformSplit env).segments, seg ∈ s.segments ∨ seg.batches = [] := by
  have hbounds := hwf.next_bounds
  unfold ByteLog.checkAndPerformSplit
  split_ifs
  · refine ⟨⟨?_, ?_⟩, ?_, ?_⟩
    · intro seg hseg
      rcases mem_append.mp hseg with hseg | hseg
      · exact hwf.segs seg hseg
      · rw [mem_singleton.mp hseg]
        constructor
        · simp [ByteSegment.frames]
        · exact hbounds.1
        · exact hbounds.2
        · simp [ByteSegment.frames]
        · simp [ByteSegment.frames]
        · simp [ByteSegment.frames]
    · apply pairwise_append.mpr
      refine ⟨hwf.apart, pairwise_singleton _ _, ?_⟩
      intro seg hseg later hlater
      rw [mem_singleton.mp hlater]
      exact hwf.below_next seg hseg
    · simp [ByteLog.frames, ByteLog.segments, ByteSegment.frames]
    · intro seg hseg
      rcases mem_append.mp hseg with hseg | hseg
      · exact Or.inl hseg
      · rw [mem_singleton.mp hseg]
        exact Or.inr rfl
  · exact ⟨hwf, rfl, fun seg hseg => Or.inl hseg⟩

theorem ByteSegment.frames_write (seg : ByteSegment) (frames : List Bytes) :
    (seg.write frames).frames = seg.frames ++ frames := by
  simp [ByteSegment.write, ByteSegment.frames]

theorem ByteLog.WellFormed.write (hwf : s.WellFormed) {frames : List Bytes}
    (hwhole : ∀ ms ∈ frames, WholeFrame ms)
    (hrising : frames.Pairwise fun a b => (setFrame a).offset < (setFrame b).offset)
    (habove : ∀ ms ∈ frames, s.active.nextOffset ≤ (setFrame ms).offset)
    (hbelow : ∀ ms ∈ frames, (setFrame ms).offset < maxInt64) :
    ByteLog.WellFormed ⟨s.sealedSegs, s.active.write frames⟩ := by
  have hactive := hwf.segs s.active (by simp [ByteLog.segments])
  have hle := hactive.base_le_nextOffset
  have hparts := pairwise_append.mp hwf.apart
  constructor
  · intro seg hseg
    rcases mem_append.mp hseg with hseg | hseg
    · exact hwf.segs seg (mem_append_left _ hseg)
    · rw [mem_singleton.mp hseg]
      constructor
      · intro ms hms
        rw [ByteSegment.frames_write] at hms
        rcases mem_append.mp hms with hms | hms
        · exact hactive.whole ms hms
        · exact hwhole ms hms
      · exact hactive.base_nonneg
      · exact hactive.base_le_max
      · intro ms hms
        rw [ByteSegment.frames_write] at hms
        rcases mem_append.mp hms with hms | hms
        · exact hactive.base_le ms hms
        · exact hle.trans (habove ms hms)
      · rw [ByteSegment.frames_write, pairwise_append]
        refine ⟨hactive.rising, hrising, ?_⟩
        intro old hold new hnew
        exact (hactive.lt_nextOffset hold).trans_le (habove new hnew)
      · intro ms hms
        rw [ByteSegment.frames_write] at hms
        rcases mem_append.mp hms with hms | hms
        · exact hactive.below ms hms
        · exact hbelow ms hms
  · apply pairwise_append.mpr
    refine ⟨hparts.1, pairwise_singleton _ _, ?_⟩
    intro seg hseg later hlater
    rw [mem_singleton.mp hlater]
    exact hparts.2.2 seg hseg s.active (mem_singleton_self _)

theorem ByteSegment.Indexed.write (hindexed : seg.Indexed) {frames : List Bytes}
    (hroom : seg.Room frames) : (seg.write frames).Indexed := by
  have hwritten : (seg.write frames).written = seg.written ++
      if seg.blockMode then batchEntries seg.bytes.length [frames]
      else frameEntries seg.bytes.length frames := by
    have hsame : (seg.write frames).blockMode = seg.blockMode := rfl
    have hbatches : (seg.write frames).batches = seg.batches ++ [frames] := rfl
    unfold ByteSegment.written
    rw [ByteSegment.frames_write, hsame, hbatches]
    split_ifs
    · rw [batchEntries_append, Nat.zero_add]
      rfl
    · rw [frameEntries_append, Nat.zero_add]
      rfl
  intro e he
  rw [hwritten] at he
  rcases mem_append.mp he with he | he
  · exact hindexed e he
  · exact hroom.fits e he

theorem ByteInput.accepted_spec {next : ℤ} {frames : List Bytes} (hnonneg : 0 ≤ next)
    (hnext : next ≤ maxInt64) (haccepted : input.accepted crc headerCrc env next = some frames) :
    (∃ framing, input.logical crc headerCrc env next = some framing ∧ frames.flatten = framing.1) ∧
      (∀ ms ∈ frames, WholeFrame ms) ∧
      (frames.Pairwise fun a b =>
        (setFrame a).offset < (setFrame b).offset) ∧
      ∀ ms ∈ frames, next ≤ (setFrame ms).offset := by
  unfold ByteInput.accepted at haccepted
  rcases Option.map_eq_some_iff.mp haccepted with ⟨framing, hfilter, rfl⟩
  rcases Option.filter_eq_some_iff.mp hfilter with ⟨hlogical, hcheck⟩
  rw [Bool.and_eq_true, wrapInt64_eq_self (by unfold maxInt64; omega) (by omega)] at hcheck
  rcases splitFrames_spec framing.1 with ⟨hwhole, hentries, -⟩
  refine ⟨⟨framing, hlogical, flatten_splitFrames hcheck.1⟩, ?_⟩
  have hset := hcheck.1
  rw [hentries] at hset
  cases hsplit : splitFrames framing.1 with
  | nil => simp [hsplit, checkAppendedEntries] at hset
  | cons first others =>
    rw [hsplit] at hwhole hset
    rw [map_cons] at hset
    simp only [checkAppendedEntries, Bool.and_eq_true, decide_eq_true_eq] at hset
    rw [← map_cons, pairwise_map] at hset
    refine ⟨hwhole, hset.1.2, ?_⟩
    intro ms hms
    have hfirst := hset.1.1
    rcases mem_cons.mp hms with rfl | hms
    · omega
    · have hlt := (pairwise_cons.mp hset.1.2).1 ms hms
      omega

structure ByteLog.Ok (s : ByteLog) : Prop where
  wellFormed : s.WellFormed
  indexed : ∀ seg ∈ s.segments, seg.Indexed

theorem ByteLog.Ok.split (hok : s.Ok) (env : ByteEnv) : (s.checkAndPerformSplit env).Ok := by
  rcases hok.wellFormed.split env with ⟨hwf, -, hsegs⟩
  refine ⟨hwf, ?_⟩
  intro seg hseg
  rcases hsegs seg hseg with hseg | hempty
  · exact hok.indexed seg hseg
  · intro e he
    unfold ByteSegment.written ByteSegment.frames at he
    rw [hempty] at he
    simp [batchEntries, frameEntries] at he

theorem ByteLog.writes_eq_some {frames : List Bytes}
    (hwrites : s.writes crc headerCrc env input = some frames) :
    input.accepted crc headerCrc env
      (s.checkAndPerformSplit env).active.nextOffset = some frames := by
  unfold ByteLog.writes at hwrites
  split_ifs at hwrites
  exact hwrites

theorem ByteLog.Ok.append (hok : s.Ok) (hroom : s.HasRoom crc headerCrc env input) :
    (s.append crc headerCrc env input).Ok ∧ (s.append crc headerCrc env input).frames =
        s.frames ++ (s.writes crc headerCrc env input).getD [] := by
  have hsplit := hok.split env
  have hframes := (hok.wellFormed.split env).2.1
  unfold ByteLog.append
  by_cases hdecodes : input.decodes env = true
  · rw [if_pos hdecodes]
    cases hwrites : s.writes crc headerCrc env input with
    | none => exact ⟨hsplit, by simpa using hframes⟩
    | some frames =>
      have hspec := ByteLog.writes_eq_some hwrites
      have hbounds := hsplit.wellFormed.next_bounds
      rcases ByteInput.accepted_spec hbounds.1 hbounds.2 hspec with
        ⟨-, hwhole, hrising, habove⟩
      have hfits := hroom frames hwrites
      refine ⟨⟨hsplit.wellFormed.write hwhole hrising habove hfits.below, ?_⟩, ?_⟩
      · intro seg hseg
        rcases mem_append.mp hseg with hseg | hseg
        · exact hsplit.indexed seg (mem_append_left _ hseg)
        · rw [mem_singleton.mp hseg]
          have hactive := hsplit.indexed
            (s.checkAndPerformSplit env).active (by simp [ByteLog.segments])
          exact hactive.write hfits
      · rw [← hframes]
        simp [ByteLog.frames, ByteLog.segments, ByteSegment.frames_write]
  · have hnone : s.writes crc headerCrc env input = none := if_neg hdecodes
    rw [if_neg hdecodes, hnone]
    exact ⟨hok, by simp⟩

theorem ByteLog.Ok.append_iff (hok : s.Ok) (hback : s.ReadsBack crc headerCrc)
    (hroom : s.HasRoom crc headerCrc env input) :
    s.AppendReadsBack crc headerCrc env input ↔
      s.TakesReadable crc headerCrc env input := by
  rcases hok.append hroom with ⟨hok', hframes⟩
  have hold := hok.wellFormed.readable hok.indexed hback
  have hiff := @ByteLog.WellFormed.readsBack_iff crc headerCrc _ hok'.wellFormed hok'.indexed
  unfold ByteLog.AppendReadsBack ByteLog.TakesReadable
  cases hwrites : s.writes crc headerCrc env input with
  | none =>
    rw [hwrites] at hframes
    exact iff_of_true (by simpa using hframes) (by simp)
  | some frames =>
    have hbounds := (hok.split env).wellFormed.next_bounds
    have hbytes := (ByteInput.accepted_spec hbounds.1 hbounds.2 (ByteLog.writes_eq_some hwrites)).1
    rw [hwrites, Option.getD_some] at hframes
    simp only [Option.some.injEq, forall_eq']
    rw [hiff, hframes]
    constructor
    · intro hall ms hms
      exact hall.2.2 ms (mem_append_right _ hms)
    · intro hnew
      refine ⟨hbytes, rfl, ?_⟩
      intro ms hms
      rcases mem_append.mp hms with hms | hms
      · exact hold ms hms
      · exact hnew ms hms

theorem ByteLog.Ok.step {s' : ByteLog} {op : ByteOp} (hok : s.Ok)
    (hback : s.ReadsBack crc headerCrc) (hstep : ByteStep crc headerCrc s op s')
    (hsafe : ByteSafe crc headerCrc s op) : s'.Ok ∧ s'.ReadsBack crc headerCrc := by
  have hold := hok.wellFormed.readable hok.indexed hback
  have hkeep : ∀ t : ByteLog, t.Ok → t.frames ⊆ s.frames → t.Ok ∧ t.ReadsBack crc headerCrc := by
    intro t ht hsub
    exact ⟨ht, ht.wellFormed.readsBack ht.indexed fun ms hms => hold ms (hsub hms)⟩
  cases op with
  | append env input =>
    rw [show s' = _ from hstep]
    rcases hok.append hsafe.1 with ⟨hok', hframes⟩
    refine ⟨hok', hok'.wellFormed.readsBack hok'.indexed ?_⟩
    intro ms hms
    rw [hframes] at hms
    rcases mem_append.mp hms with hms | hms
    · exact hold ms hms
    · cases hwrites : s.writes crc headerCrc env input with
      | none => simp [hwrites] at hms
      | some frames =>
        rw [hwrites, Option.getD_some] at hms
        exact hsafe.2 frames hwrites ms hms
  | split env =>
    rw [show s' = _ from hstep]
    apply hkeep _ (hok.split env)
    rw [(hok.wellFormed.split env).2.1]
    exact fun _ hms => hms
  | remove =>
    rcases hstep with ⟨hsub, hwf, hindexed⟩
    exact hkeep s' ⟨hwf, hindexed⟩ hsub.subset

end Log

/-! ## A set that is taken and cannot be read -/

def emptyBytes : ByteLog := ⟨[], ⟨0, false, []⟩⟩

def byteEnv : ByteEnv where
  limits := ⟨1000, 0, by omega⟩
  now := 1
  encodesBlocks := false
  formatV3 := false
  lastLeaderEpoch := 0

theorem emptyBytes_ok : emptyBytes.Ok := by
  refine ⟨⟨?_, pairwise_singleton _ _⟩, ?_⟩
  · intro seg hseg
    rw [mem_singleton.mp hseg]
    constructor <;> simp [emptyBytes, ByteSegment.frames, maxInt64]
  · intro seg hseg
    rw [mem_singleton.mp hseg]
    intro e he
    cases he

theorem emptyBytes_readsBack (crc headerCrc : Bytes → Fin (2 ^ 32)) :
    emptyBytes.ReadsBack crc headerCrc := by
  apply emptyBytes_ok.wellFormed.readsBack emptyBytes_ok.indexed
  intro ms hms
  cases hms

theorem emptyBytes_writes (crc headerCrc : Bytes → Fin (2 ^ 32)) (set : Bytes) :
    emptyBytes.writes crc headerCrc byteEnv (.appendMessageSet set) =
      if checkAppendedEntries (-1) (entriesForMessageSet set) set.length then
        some (splitFrames set)
      else none := by
  have hnext : wrapInt64 ((emptyBytes.checkAndPerformSplit
      byteEnv).active.nextOffset - 1) = -1 := by decide +kernel
  unfold ByteLog.writes ByteInput.accepted ByteInput.logical
  rw [hnext]
  simp only [ByteInput.decodes, if_true, Option.filter_some, Option.all_none, Bool.and_true]
  split_ifs <;> rfl

/-- One frame at offset 0 with a payload of one byte, and what it gives as the
checksum of its header. -/
def shortSet (check : Byte) : Bytes :=
  replicate 24 0 ++ [0, 0, 0, 1] ++ [0, 0, 0, check] ++ [7]

theorem shortSet_written (crc headerCrc : Bytes → Fin (2 ^ 32)) {check : Byte}
    (hcheck : check = 0 ∨ check = 1) :
    emptyBytes.writes crc headerCrc byteEnv
        (.appendMessageSet (shortSet check)) = some [shortSet check] ∧
      emptyBytes.HasRoom crc headerCrc byteEnv (.appendMessageSet (shortSet check)) := by
  have haccepted : checkAppendedEntries (-1)
      (entriesForMessageSet (shortSet check)) (shortSet check).length = true ∧
      splitFrames (shortSet check) = [shortSet check] := by
    rcases hcheck with rfl | rfl <;> decide +kernel
  have hwrites : emptyBytes.writes crc headerCrc byteEnv
      (.appendMessageSet (shortSet check)) = some [shortSet check] := by
    rw [emptyBytes_writes, if_pos haccepted.1, haccepted.2]
  refine ⟨hwrites, ?_⟩
  intro frames hframes
  rw [hwrites] at hframes
  cases hframes
  have hroom : (setFrame (shortSet check)).offset < maxInt64 ∧
      (entryOf 0 (shortSet check)).stored 0 = entryOf 0 (shortSet check) := by
    rcases hcheck with rfl | rfl <;> decide +kernel
  have hsame : emptyBytes.checkAndPerformSplit byteEnv = emptyBytes := by
    rw [ByteLog.checkAndPerformSplit, if_neg (by decide +kernel)]
  rw [hsame]
  constructor
  · intro ms hms
    rw [mem_singleton.mp hms]
    exact hroom.1
  · intro e he
    have hentry : e ∈ [entryOf 0 (shortSet check)] := he
    rw [mem_singleton.mp hentry]
    exact hroom.2

theorem headerCrcMatches_check (headerCrc : Bytes → Fin (2 ^ 32)) {fields : Bytes}
    (hlength : fields.length = 28) (check : Byte) (rest : Bytes) :
    headerCrcMatches headerCrc (fields ++ [0, 0, 0, check] ++ rest) =
      (check.val == (headerCrc fields).val) := by
  unfold headerCrcMatches
  have hdrop : (fields ++ [0, 0, 0, check] ++ rest).drop 28 = [0, 0, 0, check] ++ rest := by
    rw [append_assoc, ← hlength, drop_left]
  have htake : (fields ++ [0, 0, 0, check] ++ rest).take 28 = fields := by
    rw [append_assoc, ← hlength, take_left]
  rw [hdrop, htake]
  simp [bigEndian]

theorem exists_wrong_check (headerCrc : Bytes → Fin (2 ^ 32))
    (fields rest : Bytes) (hlength : fields.length = 28) :
    ∃ check : Byte, (check = 0 ∨ check = 1) ∧
      headerCrcMatches headerCrc (fields ++ [0, 0, 0, check] ++ rest) =
        false := by
  by_cases hzero : (headerCrc fields).val = 0
  · refine ⟨1, Or.inr rfl, ?_⟩
    rw [headerCrcMatches_check headerCrc hlength, hzero]
    rfl
  · refine ⟨0, Or.inl rfl, ?_⟩
    rw [headerCrcMatches_check headerCrc hlength, beq_eq_false_iff_ne]
    exact fun heq => hzero heq.symm

theorem exists_wrong_header (headerCrc : Bytes → Fin (2 ^ 32)) :
    ∃ check : Byte, (check = 0 ∨ check = 1) ∧ headerCrcMatches headerCrc (shortSet check) = false :=
  exists_wrong_check headerCrc (replicate 24 0 ++ [0, 0, 0, 1]) [7] rfl

/-- A record with no key, no value and no headers, for checksums that are
zero. -/
def plainSet : Bytes :=
  replicate 24 0 ++ [0, 0, 0, 16] ++ [0, 0, 0, 0] ++
    [0, 0, 0, 0, 0, 0, 255, 255, 255, 255, 255, 255, 255, 255, 0, 0]

theorem plainSet_written : emptyBytes.writes (fun _ => 0) (fun _ => 0) byteEnv
        (.appendMessageSet plainSet) = some [plainSet] ∧
      emptyBytes.HasRoom (fun _ => 0) (fun _ => 0) byteEnv (.appendMessageSet plainSet) := by
  have haccepted : checkAppendedEntries (-1)
      (entriesForMessageSet plainSet) plainSet.length = true ∧
      splitFrames plainSet = [plainSet] := by
    decide +kernel
  have hwrites : emptyBytes.writes (fun _ => 0) (fun _ => 0) byteEnv
      (.appendMessageSet plainSet) = some [plainSet] := by
    rw [emptyBytes_writes, if_pos haccepted.1, haccepted.2]
  refine ⟨hwrites, ?_⟩
  intro frames hframes
  rw [hwrites] at hframes
  cases hframes
  constructor <;> decide +kernel

end CommitLog
