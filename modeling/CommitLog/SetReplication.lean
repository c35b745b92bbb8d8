import CommitLog.AcceptedBytes

/-!
# Copying a log set by set

A follower asks for the frames from its next offset on and appends what it
gets.  A call gives whole frames of one segment, the first one whatever the
budget.  So the follower takes every frame, as long as each frame can be
scanned and appended alone.
-/

namespace CommitLog

open ByteSegment Runs
open List hiding set

/-! ## Reading a set -/

/-- What one call of a scanner gives. -/
inductive Scanned
  | eof
  | failed
  | frame (ms rest : Bytes)

inductive SetRead
  | notFound
  | failed
  | set (ms : Bytes)

section Reads

variable (headerCrc : Bytes → Fin (2 ^ 32))

/-- `segmentScanner.Scan`; see `scanFrames`. -/
def scanOne (blockMode : Bool) (bytes : Bytes) : Scanned :=
  if bytes.length < msgSetHeaderLen then .eof
  else if !headerCrcMatches headerCrc bytes then .failed
  else if setSize bytes < 0 ∨
      ((bytes.length - msgSetHeaderLen : ℕ) : ℤ) < setSize bytes then .failed
  else if blockMode && decide (bytes.length = msgSetHeaderLen) then .eof
  else
    .frame (bytes.take (msgSetHeaderLen + (setSize bytes).toNat))
      (bytes.drop (msgSetHeaderLen + (setSize bytes).toNat))

/-- The loop of `readMessageSetFrom`; none if nothing was read before a
failure. -/
def setLoop (blockMode : Bool) (maxBytes : ℕ) : ℕ → Bytes → Bytes → Option Bytes
  | 0, _, out => some out
  | fuel + 1, bytes, out =>
    match scanOne headerCrc blockMode bytes with
    | .eof => some out
    | .failed => if out = [] then none else some out
    | .frame ms rest =>
      if out ≠ [] ∧ maxBytes < out.length + ms.length then some out
      else if maxBytes ≤ (out ++ ms).length then some (out ++ ms)
      else setLoop blockMode maxBytes fuel rest (out ++ ms)

def ByteSegment.readMessageSetFrom (seg : ByteSegment) (contains : Bool)
    (offset : ℤ) (maxBytes : ℕ) : Option Bytes :=
  (if contains then (seg.findEntry offset).map Entry.position
    else some 0).bind fun start =>
      if start < 0 then none
      else setLoop headerCrc seg.blockMode maxBytes seg.bytes.length (seg.bytes.drop start.toNat) []

/-- `ReadMessageSet`. -/
def ByteLog.readMessageSet (s : ByteLog) (offset : ℤ) (maxBytes : ℕ) :
    SetRead :=
  match s.segments.dropWhile fun seg => decide (seg.nextOffset ≤ offset) with
  | [] => .notFound
  | seg :: _ =>
    match seg.readMessageSetFrom headerCrc (decide (seg.base ≤ offset)) offset maxBytes with
    | none => .failed
    | some ms => .set ms

end Reads

/-! ## The follower -/

/-- One round: the options and clock of the follower, and the budget. -/
structure FollowerCall where
  env : ByteEnv
  maxBytes : ℕ
  positive : 0 < maxBytes

section Copy

variable (crc headerCrc : Bytes → Fin (2 ^ 32)) (source : ByteLog)

/-- One round from the next offset and the follower on.  An empty answer ends
the loop with the copy, a refused append with nothing. -/
def copyRound (c : FollowerCall) (state : ℤ × ByteLog) : Round (ℤ × ByteLog) (Option ByteLog) :=
  match source.readMessageSet headerCrc state.1 c.maxBytes with
  | .notFound => .stop (some state.2)
  | .failed => .stop none
  | .set ms =>
    if ms = [] then .stop (some state.2)
    else
      match state.2.writes crc headerCrc c.env (.appendMessageSet ms) with
      | none => .stop none
      | some _ =>
        let follower := state.2.append crc headerCrc c.env (.appendMessageSet ms)
        .more (follower.active.nextOffset, follower)

def ByteLog.framesFrom (s : ByteLog) (offset : ℤ) : List Bytes :=
  s.frames.filter fun ms => decide (offset ≤ (setFrame ms).offset)

def ByteLog.Copied (start : ℤ) (follower : ByteLog) (result : Option ByteLog) : Prop :=
  ∃ copy, result = some copy ∧ copy.frames = follower.frames ++ source.framesFrom start

/-- Whatever the budgets, the loop ends with the frames from the start on
behind those of the follower, and every round but the last made progress. -/
def Replicates (start : ℤ) (follower : ByteLog) : Prop :=
  Round.Ends (copyRound crc headerCrc source)
    (fun before after => before.2.frames.length < after.2.frames.length)
    (start, follower) (source.Copied start follower)

end Copy

/-- A log to copy from: its indexes read back as they were written, and its
sealed segments hold records. -/
structure ByteLog.Source (s : ByteLog) : Prop where
  ok : s.Ok
  held : ∀ seg ∈ s.sealedSegs, seg.frames ≠ []

/-- A frame that is scanned and appended on its own. -/
structure Portable (headerCrc : Bytes → Fin (2 ^ 32)) (ms : Bytes) :
    Prop where
  header : headerCrcMatches headerCrc ms = true
  payload : msgSetHeaderLen < ms.length
  length : ms.length ≤ maxInt32

/-! ## What a call reads -/

section Scan

variable {headerCrc : Bytes → Fin (2 ^ 32)} {blockMode : Bool} {ms rest : Bytes}

theorem WholeFrame.ne_nil (hwhole : WholeFrame ms) : ms ≠ [] := by
  have hheader := hwhole.1
  rintro rfl
  simp [msgSetHeaderLen] at hheader

/-- The first frame is scanned, unless its header is wrong; an empty frame at
the end of a block segment is taken for the end. -/
theorem scanOne_whole (hwhole : WholeFrame ms) : scanOne headerCrc blockMode (ms ++ rest) =
      if headerCrcMatches headerCrc ms = false then .failed
      else if blockMode = true ∧ (ms ++ rest).length = msgSetHeaderLen then .eof
      else .frame ms rest := by
  have hheader := hwhole.1
  have hlength := hwhole.toNat_setSize
  have hfit := hwhole.2
  rw [scanOne, if_neg (by rw [length_append]; omega),
    headerCrcMatches_append hheader, setSize_append hheader, hlength,
    take_left, drop_left,
    if_neg (show ¬ (setSize ms < 0 ∨ _ < setSize ms) by
      rw [length_append, hfit]
      omega)]
  cases headerCrcMatches headerCrc ms with
  | false => simp
  | true => simp

theorem scanOne_frame (hwhole : WholeFrame ms) (hportable : Portable headerCrc ms) :
    scanOne headerCrc blockMode (ms ++ rest) = .frame ms rest := by
  have hpayload := hportable.payload
  rw [scanOne_whole hwhole, if_neg (by simp [hportable.header]), if_neg]
  rw [length_append]
  omega

theorem setLoop_flatten {maxBytes : ℕ} {frames : List Bytes} (hwhole : ∀ ms ∈ frames, WholeFrame ms)
    (hportable : ∀ ms ∈ frames, Portable headerCrc ms) {fuel : ℕ}
    (hfuel : frames.flatten.length ≤ fuel) (out : Bytes) :
    ∃ taken left, frames = taken ++ left ∧
      setLoop headerCrc blockMode maxBytes fuel frames.flatten out = some (out ++ taken.flatten) ∧
      (out = [] → frames ≠ [] → taken ≠ []) := by
  induction frames generalizing fuel out with
  | nil =>
    refine ⟨[], [], rfl, ?_, by simp⟩
    cases fuel with
    | zero => simp [setLoop]
    | succ fuel =>
      rw [setLoop, scanOne, if_pos (by decide)]
      simp
  | cons ms frames ih =>
    have hms := hwhole ms mem_cons_self
    have hheader := hms.1
    rw [flatten_cons, length_append] at hfuel
    unfold msgSetHeaderLen at hheader
    obtain ⟨fuel, rfl⟩ : ∃ n, fuel = n + 1 := ⟨fuel - 1, by omega⟩
    rw [flatten_cons, setLoop, scanOne_frame hms (hportable ms mem_cons_self)]
    simp only
    split_ifs with hbudget hfull
    · refine ⟨[], ms :: frames, rfl, by simp, ?_⟩
      intro hempty
      exact absurd hempty hbudget.1
    · exact ⟨[ms], frames, rfl, by simp, by simp⟩
    · obtain ⟨taken, left, hsplit, hloop, -⟩ := @ih
        (fun other hother => hwhole other (mem_cons_of_mem _ hother))
        (fun other hother => hportable other (mem_cons_of_mem _ hother))
        fuel (by omega) (out ++ ms)
      refine ⟨ms :: taken, left, by rw [hsplit]; rfl, ?_, by simp⟩
      rw [hloop, flatten_cons, append_assoc]

theorem setLoop_one {frames : List Bytes} {fuel : ℕ}
    (hwhole : ∀ other ∈ ms :: frames, WholeFrame other)
    (hfuel : (ms :: frames).flatten.length ≤ fuel) :
    setLoop headerCrc blockMode 1 fuel (ms :: frames).flatten [] =
      if headerCrcMatches headerCrc ms = false then none
      else if blockMode = true ∧ (ms :: frames).flatten.length = msgSetHeaderLen then some []
      else some ms := by
  have hms := hwhole ms mem_cons_self
  have hpos : 1 ≤ ms.length := length_pos_of_ne_nil hms.ne_nil
  rw [flatten_cons, length_append] at hfuel
  obtain ⟨fuel, rfl⟩ : ∃ n, fuel = n + 1 := ⟨fuel - 1, by omega⟩
  rw [flatten_cons, setLoop, scanOne_whole hms]
  by_cases hheader : headerCrcMatches headerCrc ms = false
  · rw [if_pos hheader, if_pos hheader]
    rfl
  · rw [if_neg hheader, if_neg hheader]
    by_cases hempty : blockMode = true ∧ (ms ++ frames.flatten).length = msgSetHeaderLen
    · rw [if_pos hempty, if_pos hempty]
    · rw [if_neg hempty, if_neg hempty]
      simp only
      rw [if_neg (by simp), if_pos (by simpa using hpos), nil_append]

end Scan

section Source

variable {crc headerCrc : Bytes → Fin (2 ^ 32)} {source : ByteLog}

theorem ByteLog.WellFormed.rising {s : ByteLog} (hwf : s.WellFormed) :
    s.frames.Pairwise fun a b => (setFrame a).offset < (setFrame b).offset := by
  rw [ByteLog.frames, pairwise_flatMap]
  refine ⟨fun seg hseg => (hwf.segs seg hseg).rising, ?_⟩
  apply hwf.apart.imp_of_mem
  intro seg later _ hlater hpair a ha b hb
  exact (hpair.2 a ha).trans_le ((hwf.segs later hlater).base_le b hb)

theorem ByteLog.WellFormed.split_framesFrom {s : ByteLog} (hwf : s.WellFormed) (offset : ℤ) :
    ∃ below, s.frames = below ++ s.framesFrom offset ∧
      ∀ ms ∈ below, (setFrame ms).offset < offset := by
  have hrising := hwf.rising
  unfold ByteLog.framesFrom
  generalize s.frames = frames at hrising ⊢
  induction frames with
  | nil => exact ⟨[], rfl, by simp⟩
  | cons ms frames ih =>
    rw [pairwise_cons] at hrising
    by_cases hle : offset ≤ (setFrame ms).offset
    · refine ⟨[], ?_, by simp⟩
      rw [nil_append, eq_comm, filter_eq_self]
      intro other hother
      rw [decide_eq_true_eq]
      rcases mem_cons.mp hother with rfl | hother
      · exact hle
      · exact hle.trans (hrising.1 other hother).le
    · obtain ⟨below, hbelow, hlt⟩ := ih hrising.2
      refine ⟨ms :: below, ?_, ?_⟩
      · rw [filter_cons_of_neg (by simpa using hle), cons_append, ← hbelow]
      · intro other hother
        rcases mem_cons.mp hother with rfl | hother
        · omega
        · exact hlt other hother

theorem ByteLog.Source.nextOffset_le (hsource : source.Source) {seg : ByteSegment}
    (hseg : seg ∈ source.sealedSegs) {offset : ℤ}
    (hbelow : ∀ ms ∈ seg.frames, (setFrame ms).offset < offset) : seg.nextOffset ≤ offset := by
  have hwf := hsource.ok.wellFormed.segs seg (mem_append_left _ hseg)
  obtain ⟨ms, hms⟩ := exists_mem_of_ne_nil _ (hsource.held seg hseg)
  apply hwf.nextOffset_le
  · exact (hwf.base_le ms hms).trans (hbelow ms hms).le
  · exact hbelow

theorem ByteLog.Source.readMessageSet_nil (hsource : source.Source)
    {offset : ℤ} (hnone : source.framesFrom offset = []) (maxBytes : ℕ) :
    source.readMessageSet headerCrc offset maxBytes = .notFound ∨
      source.readMessageSet headerCrc offset maxBytes = .set [] := by
  obtain ⟨below, hframes, hbelow⟩ :=
    hsource.ok.wellFormed.split_framesFrom offset
  rw [hnone, append_nil] at hframes
  have hall : ∀ seg ∈ source.segments, ∀ ms ∈ seg.frames, (setFrame ms).offset < offset := by
    intro seg hseg ms hms
    apply hbelow
    rw [← hframes]
    exact ByteLog.mem_frames hseg hms
  have hsealed : ∀ seg ∈ source.sealedSegs,
      decide (seg.nextOffset ≤ offset) = true := by
    intro seg hseg
    rw [decide_eq_true_eq]
    exact hsource.nextOffset_le hseg (hall seg (mem_append_left _ hseg))
  have hactive := hsource.ok.wellFormed.segs source.active (by simp [ByteLog.segments])
  unfold ByteLog.readMessageSet ByteLog.segments
  rw [dropWhile_append_of_pos hsealed]
  by_cases hend : source.active.nextOffset ≤ offset
  · left
    rw [dropWhile_cons_of_pos (by simpa using hend), dropWhile_nil]
  · right
    rw [dropWhile_cons_of_neg (by simpa using hend)]
    have hbase : offset < source.active.base := by
      by_contra hle
      apply hend
      exact hactive.nextOffset_le (by omega) (hall source.active (by simp [ByteLog.segments]))
    have hempty : source.active.frames = [] := by
      by_contra hne
      obtain ⟨ms, hms⟩ := exists_mem_of_ne_nil _ hne
      have hlt := hall source.active (by simp [ByteLog.segments]) ms hms
      have hle := hactive.base_le ms hms
      omega
    have hbytes : source.active.bytes = [] := by
      rw [bytes, hempty]
      rfl
    simp only
    rw [readMessageSetFrom, hbytes, if_neg (by simpa using hbase)]
    rfl

theorem ByteLog.Source.readMessageSet_cons (hsource : source.Source) {offset : ℤ} {ms : Bytes}
    {rest : List Bytes} (hframes : source.framesFrom offset = ms :: rest) :
    ∃ blockMode outer behind fuel, rest = outer ++ behind ∧
      (∀ other ∈ ms :: outer, WholeFrame other) ∧
      (ms :: outer).flatten.length ≤ fuel ∧
      ∀ maxBytes, source.readMessageSet headerCrc offset maxBytes =
        match setLoop headerCrc blockMode maxBytes fuel (ms :: outer).flatten [] with
        | none => .failed
        | some set => .set set := by
  have hwf := hsource.ok.wellFormed
  obtain ⟨below, hsplit, hbelow⟩ := hwf.split_framesFrom offset
  have hat : offset ≤ (setFrame ms).offset := by
    have hin : ms ∈ source.framesFrom offset := by
      rw [hframes]
      exact mem_cons_self
    simpa using (mem_filter.mp hin).2
  rw [hframes] at hsplit
  obtain ⟨before, seg, after, inner, outer, hsegments, hseg, hfront, hrest⟩ :=
    flatMap_split hsplit
  have hmem : seg ∈ source.segments := by
    rw [hsegments]
    simp
  have hsegwf := hwf.segs seg hmem
  have hin : ms ∈ seg.frames := by
    rw [hseg]
    simp
  have hinner : ∀ other ∈ inner, (setFrame other).offset < offset := by
    intro other hother
    apply hbelow
    rw [hfront]
    exact mem_append_right _ hother
  have hpassed : ∀ other ∈ before,
      decide (other.nextOffset ≤ offset) = true := by
    intro other hother
    have hsealed : other ∈ source.sealedSegs := by
      have hlast := congrArg dropLast hsegments
      rw [ByteLog.segments, dropLast_concat, dropLast_append_of_ne_nil (cons_ne_nil _ _)] at hlast
      rw [hlast]
      exact mem_append_left _ hother
    rw [decide_eq_true_eq]
    apply hsource.nextOffset_le hsealed
    intro frame hframe
    apply hbelow
    rw [hfront]
    exact mem_append_left _ (mem_flatMap.mpr ⟨other, hother, hframe⟩)
  have hstop : ¬ seg.nextOffset ≤ offset := by
    have hlt := hsegwf.lt_nextOffset hin
    omega
  have hbytes : seg.bytes = inner.flatten ++ (ms :: outer).flatten := by
    rw [bytes, hseg, flatten_append]
  refine ⟨seg.blockMode, outer, after.flatMap ByteSegment.frames,
    seg.bytes.length, hrest, ?_, ?_, ?_⟩
  · intro other hother
    apply hsegwf.whole
    rw [hseg]
    exact mem_append_right _ hother
  · rw [hbytes, length_append]
    omega
  · intro maxBytes
    unfold ByteLog.readMessageSet
    rw [hsegments, dropWhile_append_of_pos hpassed, dropWhile_cons_of_neg (by simpa using hstop)]
    simp only
    have hposition : (if decide (seg.base ≤ offset) = true then
        (seg.findEntry offset).map Entry.position else some 0) =
        some (inner.flatten.length : ℤ) := by
      split_ifs with hcontains
      · have hfound := hsegwf.findEntry_target (hsource.ok.indexed seg hmem) hseg hinner hat
        obtain ⟨e, he, hfields⟩ := Option.map_eq_some_iff.mp hfound
        rw [he, Option.map_some]
        exact congrArg some (congrArg (fun fields => fields.2.2) hfields)
      · have hempty : inner = [] := by
          by_contra hne
          obtain ⟨other, hother⟩ := exists_mem_of_ne_nil _ hne
          have hlt := hinner other hother
          have hle := hsegwf.base_le other (by
            rw [hseg]
            exact mem_append_left _ hother)
          rw [decide_eq_true_eq] at hcontains
          omega
        rw [hempty]
        rfl
    rw [readMessageSetFrom, hposition, Option.bind_some,
      if_neg (by omega), Int.toNat_natCast, hbytes, drop_left]

end Source

/-! ## What an append takes -/

section Follower

variable {crc headerCrc : Bytes → Fin (2 ^ 32)} {follower : ByteLog}

theorem ByteLog.nextOffset_split (s : ByteLog) (env : ByteEnv) :
    (s.checkAndPerformSplit env).active.nextOffset = s.active.nextOffset := by
  unfold ByteLog.checkAndPerformSplit
  split_ifs <;> rfl

theorem ByteLog.writes_messageSet (hwf : follower.WellFormed) (env : ByteEnv) (set : Bytes) :
    follower.writes crc headerCrc env (.appendMessageSet set) =
      if checkAppendedEntries (follower.active.nextOffset - 1)
          (entriesForMessageSet set) set.length then
        some (splitFrames set)
      else none := by
  have hbounds := hwf.next_bounds
  have hlast : wrapInt64 (follower.active.nextOffset - 1) = follower.active.nextOffset - 1 :=
    wrapInt64_eq_self (by unfold maxInt64; omega) (by omega)
  unfold ByteLog.writes ByteInput.accepted ByteInput.logical
  rw [ByteLog.nextOffset_split, hlast]
  simp only [ByteInput.decodes, if_true, Option.filter_some, Option.all_none, Bool.and_true]
  split_ifs <;> rfl

theorem ByteLog.WellFormed.append_of_writes (hwf : follower.WellFormed)
    {env : ByteEnv} {set : Bytes} {frames : List Bytes}
    (hwrites : follower.writes crc headerCrc env (.appendMessageSet set) = some frames)
    (hbelow : ∀ ms ∈ frames, (setFrame ms).offset < maxInt64) {last : Bytes}
    (hlast : frames.getLast? = some last) :
    let follower' := follower.append crc headerCrc env (.appendMessageSet set)
    follower'.WellFormed ∧ follower'.frames = follower.frames ++ frames ∧
      follower'.active.nextOffset = (setFrame last).offset + 1 := by
  have hsplit := hwf.split env
  have hbounds := hsplit.1.next_bounds
  obtain ⟨-, hwhole, hrising, habove⟩ := ByteInput.accepted_spec hbounds.1
    hbounds.2 (ByteLog.writes_eq_some hwrites)
  have happend : follower.append crc headerCrc env (.appendMessageSet set) =
      ⟨(follower.checkAndPerformSplit env).sealedSegs,
        (follower.checkAndPerformSplit env).active.write frames⟩ := by
    have hdecodes : (ByteInput.appendMessageSet set).decodes env = true := rfl
    rw [ByteLog.append, if_pos hdecodes, hwrites]
  have hwf' := hsplit.1.write hwhole hrising habove hbelow
  rw [happend]
  refine ⟨hwf', ?_, ?_⟩
  · rw [← hsplit.2.1]
    simp [ByteLog.frames, ByteLog.segments, frames_write]
  · apply (hwf'.segs _ (mem_append_right _ (mem_singleton_self _))).next_of_last
    rw [frames_write, getLast?_append, hlast]
    rfl

theorem ByteLog.WellFormed.writes_portable (hwf : follower.WellFormed) {frames : List Bytes}
    (hne : frames ≠ []) (hwhole : ∀ ms ∈ frames, WholeFrame ms)
    (hportable : ∀ ms ∈ frames, Portable headerCrc ms)
    (hrising : frames.Pairwise fun a b => (setFrame a).offset < (setFrame b).offset)
    (habove : ∀ ms ∈ frames, follower.active.nextOffset ≤ (setFrame ms).offset) (env : ByteEnv) :
    follower.writes crc headerCrc env (.appendMessageSet frames.flatten) =
      some frames := by
  cases frames with
  | nil => exact absurd rfl hne
  | cons ms frames =>
    have hms := habove ms mem_cons_self
    have hadmissible : Admissible (ms :: frames) := by
      constructor
      · have hpayload := (hportable ms mem_cons_self).payload
        rw [flatten_cons, length_append]
        omega
      · intro last hlast
        exact (hportable last (mem_of_getLast? hlast)).length
    rw [ByteLog.writes_messageSet hwf, if_pos, splitFrames_flatten hwhole hadmissible.size]
    exact (checkAppended_iff hwhole _).mpr ⟨hadmissible, by omega, hrising⟩

theorem ByteLog.WellFormed.portable_of_writes (hwf : follower.WellFormed) {ms : Bytes}
    (hwhole : WholeFrame ms) (hheader : headerCrcMatches headerCrc ms = true) {env : ByteEnv}
    {frames : List Bytes}
    (hwrites : follower.writes crc headerCrc env (.appendMessageSet ms) = some frames) :
    Portable headerCrc ms ∧ frames = [ms] := by
  rw [ByteLog.writes_messageSet hwf, Option.ite_none_right_eq_some] at hwrites
  obtain ⟨hcheck, hframes⟩ := hwrites
  have hall : ∀ other ∈ [ms], WholeFrame other := by simpa using hwhole
  have hset : [ms].flatten = ms := flatten_singleton
  rw [← hset] at hcheck hframes
  have hadmissible := ((checkAppended_iff hall _).mp hcheck).1
  have hsize := hadmissible.size
  rw [splitFrames_flatten hall hsize] at hframes
  rw [hset] at hsize
  exact ⟨⟨hheader, hsize, hadmissible.last ms rfl⟩, (Option.some.inj hframes).symm⟩

end Follower

/-! ## Whole copies -/

section Whole

variable {crc headerCrc : Bytes → Fin (2 ^ 32)} {source : ByteLog}

theorem ByteLog.WellFormed.of_mem_framesFrom {s : ByteLog} (hwf : s.WellFormed)
    {offset : ℤ} {ms : Bytes} (hms : ms ∈ s.framesFrom offset) :
    WholeFrame ms ∧ offset ≤ (setFrame ms).offset ∧ (setFrame ms).offset < maxInt64 := by
  obtain ⟨hin, hle⟩ := mem_filter.mp hms
  obtain ⟨seg, hseg, hframe⟩ := mem_flatMap.mp hin
  exact ⟨(hwf.segs seg hseg).whole ms hframe, by simpa using hle,
    (hwf.segs seg hseg).below ms hframe⟩

theorem ByteLog.WellFormed.framesFrom_rising {s : ByteLog} (hwf : s.WellFormed) (offset : ℤ) :
    (s.framesFrom offset).Pairwise fun a b =>
      (setFrame a).offset < (setFrame b).offset :=
  hwf.rising.sublist filter_sublist

theorem ByteLog.framesFrom_eq {s : ByteLog} {offset : ℤ} {below above : List Bytes}
    (hframes : s.frames = below ++ above) (hbelow : ∀ ms ∈ below, (setFrame ms).offset < offset)
    (habove : ∀ ms ∈ above, offset ≤ (setFrame ms).offset) : s.framesFrom offset = above := by
  have hnone : ∀ ms ∈ below, ¬ decide (offset ≤ (setFrame ms).offset) = true := by
    intro ms hms
    have hlt := hbelow ms hms
    rw [decide_eq_true_eq]
    omega
  have hall : ∀ ms ∈ above, decide (offset ≤ (setFrame ms).offset) = true := by
    intro ms hms
    rw [decide_eq_true_eq]
    exact habove ms hms
  rw [ByteLog.framesFrom, hframes, filter_append, filter_eq_nil_iff.mpr hnone,
    filter_eq_self.mpr hall, nil_append]

theorem le_last_of_rising {frames : List Bytes}
    (hrising : frames.Pairwise fun a b => (setFrame a).offset < (setFrame b).offset) {last : Bytes}
    (hlast : frames.getLast? = some last) :
    ∀ ms ∈ frames, (setFrame ms).offset ≤ (setFrame last).offset := by
  intro ms hms
  rcases Runs.eq_or_rel_last hrising hlast hms with rfl | hlt
  · rfl
  · exact hlt.le

theorem ByteLog.WellFormed.framesFrom_next {s : ByteLog} (hwf : s.WellFormed) {offset : ℤ}
    {taken left : List Bytes} {last : Bytes} (hframes : s.framesFrom offset = taken ++ left)
    (hlast : taken.getLast? = some last) : s.framesFrom ((setFrame last).offset + 1) = left := by
  obtain ⟨below, hsplit, hbelow⟩ := hwf.split_framesFrom offset
  have hrising := hwf.framesFrom_rising offset
  have hin : last ∈ s.framesFrom offset := by
    rw [hframes]
    exact mem_append_left _ (mem_of_getLast? hlast)
  have hlow := (hwf.of_mem_framesFrom hin).2.1
  rw [hframes, pairwise_append] at hrising
  rw [hframes, ← append_assoc] at hsplit
  apply ByteLog.framesFrom_eq hsplit
  · intro ms hms
    rcases mem_append.mp hms with hms | hms
    · have hlt := hbelow ms hms
      omega
    · have hle := le_last_of_rising hrising.1 hlast ms hms
      omega
  · intro ms hms
    exact hrising.2.2 last (mem_of_getLast? hlast) ms hms

theorem ByteLog.Source.copyRound_cons (hsource : source.Source) {offset : ℤ}
    (hne : source.framesFrom offset ≠ [])
    (hportable : ∀ ms ∈ source.framesFrom offset, Portable headerCrc ms) {follower : ByteLog}
    (hwf : follower.WellFormed) (hbehind : follower.active.nextOffset ≤ offset) (c : FollowerCall) :
    ∃ taken left follower', source.framesFrom offset = taken ++ left ∧ taken ≠ [] ∧
      copyRound crc headerCrc source c (offset, follower) =
        .more (follower'.active.nextOffset, follower') ∧
      follower'.WellFormed ∧ follower'.frames = follower.frames ++ taken ∧
      source.framesFrom follower'.active.nextOffset = left := by
  have hsourceWf := hsource.ok.wellFormed
  obtain ⟨ms, rest, hframes⟩ := exists_cons_of_ne_nil hne
  obtain ⟨blockMode, outer, behind, fuel, hrest, hwhole, hfuel, hread⟩ :=
    @ByteLog.Source.readMessageSet_cons headerCrc source hsource offset ms rest hframes
  have hmem : ∀ other ∈ ms :: outer, other ∈ source.framesFrom offset := by
    intro other hother
    rw [hframes, hrest, ← cons_append]
    exact mem_append_left _ hother
  obtain ⟨taken, left, hsplit, hloop, htaken⟩ := @setLoop_flatten headerCrc
    blockMode c.maxBytes (ms :: outer) hwhole
    (fun other hother => hportable other (hmem other hother)) fuel hfuel []
  have hnonempty := htaken rfl (cons_ne_nil _ _)
  have hin : ∀ other ∈ taken, other ∈ source.framesFrom offset := by
    intro other hother
    apply hmem
    rw [hsplit]
    exact mem_append_left _ hother
  have hcut : source.framesFrom offset = taken ++ (left ++ behind) := by
    rw [hframes, hrest, ← cons_append, hsplit, append_assoc]
  have hrising := hsourceWf.framesFrom_rising offset
  rw [hcut, pairwise_append] at hrising
  have hwrites := @ByteLog.WellFormed.writes_portable crc headerCrc follower hwf
    taken hnonempty (fun other hother =>
      (hsourceWf.of_mem_framesFrom (hin other hother)).1)
    (fun other hother => hportable other (hin other hother)) hrising.1
    (fun other hother => hbehind.trans (hsourceWf.of_mem_framesFrom (hin other hother)).2.1) c.env
  obtain ⟨last, hlast⟩ : ∃ last, taken.getLast? = some last :=
    ⟨_, getLast?_eq_some_getLast hnonempty⟩
  obtain ⟨hwf', hframes', hnext'⟩ := hwf.append_of_writes hwrites (fun other hother =>
      (hsourceWf.of_mem_framesFrom (hin other hother)).2.2) hlast
  refine ⟨taken, left ++ behind, _, hcut, hnonempty, ?_, hwf', hframes', ?_⟩
  · have hbytes : taken.flatten ≠ [] := by
      intro hnil
      have hlastIn := mem_of_getLast? hlast
      exact (hsourceWf.of_mem_framesFrom (hin last hlastIn)).1.ne_nil
        (flatten_eq_nil_iff.mp hnil last hlastIn)
    rw [copyRound, hread, hloop, nil_append]
    simp only
    rw [if_neg hbytes, hwrites]
  · rw [hnext']
    exact hsourceWf.framesFrom_next hcut hlast

/-- What every round starts from. -/
structure ByteLog.CopyInv (headerCrc : Bytes → Fin (2 ^ 32)) (source : ByteLog)
    (state : ℤ × ByteLog) : Prop where
  portable : ∀ ms ∈ source.framesFrom state.1, Portable headerCrc ms
  wellFormed : state.2.WellFormed
  behind : state.2.active.nextOffset ≤ state.1

theorem ByteLog.Source.copyRound_step (hsource : source.Source) (state : ℤ × ByteLog)
    (hinv : source.CopyInv headerCrc state) (c : FollowerCall) :
    (∃ r, copyRound crc headerCrc source c state = .stop r ∧ source.Copied state.1 state.2 r) ∨
      ∃ state', copyRound crc headerCrc source c state = .more state' ∧
        source.CopyInv headerCrc state' ∧
        (source.framesFrom state'.1).length < (source.framesFrom state.1).length ∧
        state.2.frames.length < state'.2.frames.length ∧
        ∀ r, source.Copied state'.1 state'.2 r → source.Copied state.1 state.2 r := by
  obtain ⟨offset, follower⟩ := state
  by_cases hnone : source.framesFrom offset = []
  · left
    refine ⟨some follower, ?_, follower, rfl, by simp [hnone]⟩
    rw [copyRound]
    rcases @ByteLog.Source.readMessageSet_nil headerCrc source hsource offset
      hnone c.maxBytes with hread | hread
    · rw [hread]
    · rw [hread]
      rfl
  · right
    obtain ⟨taken, left, follower', hcut, hne, hround, hwf', hframes', hleft⟩ :=
      @ByteLog.Source.copyRound_cons crc headerCrc source hsource offset hnone
        hinv.portable follower hinv.wellFormed hinv.behind c
    have hpos := length_pos_of_ne_nil hne
    refine ⟨_, hround, ⟨?_, hwf', le_rfl⟩, ?_, ?_, ?_⟩
    · intro ms hms
      apply hinv.portable
      rw [hleft] at hms
      rw [hcut]
      exact mem_append_right _ hms
    · simp only [hleft, hcut, length_append]
      omega
    · simp only [hframes', length_append]
      omega
    · rintro r ⟨copy, rfl, hcopy⟩
      refine ⟨copy, rfl, ?_⟩
      rw [hcopy, hframes', hleft, hcut, append_assoc]

theorem ByteLog.Source.portable (hsource : source.Source) {env : ByteEnv}
    {remaining : List Bytes} {offset : ℤ}
    (hframes : source.framesFrom offset = remaining) {follower : ByteLog}
    (hwf : follower.WellFormed) {n : ℕ} {result : Option ByteLog}
    (hstop : Round.after (copyRound crc headerCrc source)
      (fun _ => ⟨env, 1, Nat.one_pos⟩) n (.more (offset, follower)) =
        .stop result) (hcopied : source.Copied offset follower result) :
    ∀ ms ∈ remaining, Portable headerCrc ms := by
  induction remaining generalizing offset follower n with
  | nil => simp
  | cons ms rest ih =>
    obtain ⟨copy, rfl, hcopy⟩ := hcopied
    obtain ⟨blockMode, outer, behind, fuel, hrest, hwhole, hfuel, hread⟩ :=
      @ByteLog.Source.readMessageSet_cons headerCrc source hsource offset ms rest hframes
    have hms := hwhole ms mem_cons_self
    have hin : ms ∈ source.framesFrom offset := by
      rw [hframes]
      exact mem_cons_self
    cases n with
    | zero => cases hstop
    | succ n =>
      have hone := hread 1
      rw [setLoop_one hwhole hfuel] at hone
      rw [Round.after, copyRound] at hstop
      by_cases hheader : headerCrcMatches headerCrc ms = false
      · rw [if_pos hheader] at hone
        rw [hone, Round.after_stop] at hstop
        cases hstop
      rw [if_neg hheader] at hone
      by_cases hlone : blockMode = true ∧ (ms :: outer).flatten.length = msgSetHeaderLen
      · rw [if_pos hlone] at hone
        simp only at hone
        rw [hone] at hstop
        simp only [if_true, Round.after_stop] at hstop
        cases hstop
        rw [hframes] at hcopy
        simp at hcopy
      rw [if_neg hlone] at hone
      simp only at hone
      rw [hone] at hstop
      simp only [if_neg hms.ne_nil] at hstop
      cases hwrites : follower.writes crc headerCrc env (.appendMessageSet ms) with
      | none =>
        rw [hwrites, Round.after_stop] at hstop
        cases hstop
      | some frames =>
        rw [hwrites] at hstop
        obtain ⟨hportable, rfl⟩ := hwf.portable_of_writes hms (by simpa using hheader) hwrites
        obtain ⟨hwf', hframes', hnext'⟩ :=
          @ByteLog.WellFormed.append_of_writes crc headerCrc follower hwf
            env ms [ms] hwrites (by simpa using
              (hsource.ok.wellFormed.of_mem_framesFrom hin).2.2) ms rfl
        have hleft := @ByteLog.WellFormed.framesFrom_next source
          hsource.ok.wellFormed offset [ms] rest ms hframes rfl
        rw [← hnext'] at hleft
        intro other hother
        rcases mem_cons.mp hother with rfl | hother
        · exact hportable
        · apply ih hleft hwf' hstop _ other hother
          refine ⟨copy, rfl, ?_⟩
          rw [hcopy, hframes', hleft, hframes, append_assoc]
          rfl

end Whole

/-! ## Logs of one record -/

section Single

variable {crc headerCrc : Bytes → Fin (2 ^ 32)} {set : Bytes}

theorem single_source
    (hwrites : emptyBytes.writes crc headerCrc byteEnv (.appendMessageSet set) = some [set])
    (hroom : emptyBytes.HasRoom crc headerCrc byteEnv (.appendMessageSet set)) :
    (emptyBytes.append crc headerCrc byteEnv (.appendMessageSet set)).Source ∧
      (emptyBytes.append crc headerCrc byteEnv (.appendMessageSet set)).frames = [set] := by
  obtain ⟨hok, hframes⟩ := emptyBytes_ok.append hroom
  have hsame : emptyBytes.checkAndPerformSplit byteEnv = emptyBytes := by
    rw [ByteLog.checkAndPerformSplit, if_neg (by decide +kernel)]
  have hdecodes : (ByteInput.appendMessageSet set).decodes byteEnv = true := rfl
  refine ⟨⟨hok, ?_⟩, ?_⟩
  · intro seg hseg
    rw [ByteLog.append, if_pos hdecodes, hwrites, hsame] at hseg
    cases hseg
  · rw [hframes, hwrites]
    rfl

end Single

theorem emptyBytes_behind : emptyBytes.active.nextOffset ≤ 0 := by
  decide +kernel

end CommitLog
