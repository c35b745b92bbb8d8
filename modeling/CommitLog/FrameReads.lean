import CommitLog.MessageCodec

/-!
# Reading frames someone else wrote

An appended set is only cut at the sizes its headers declare.  A reader, a
scan, a digest and a rewrite each ask more of the bytes: a header checksum, a
payload checksum, fields that lie within the payload.
-/

namespace CommitLog

open List Option

variable {frames : List Bytes} {fuel : ℕ} {m : Bytes}

variable (crc headerCrc : Bytes → Fin (2 ^ 32))

/-! ## Cutting a set -/

def WholeFrame (ms : Bytes) : Prop :=
  msgSetHeaderLen ≤ ms.length ∧ setSize ms = ((ms.length - msgSetHeaderLen : ℕ) : ℤ)

instance (ms : Bytes) : Decidable (WholeFrame ms) :=
  inferInstanceAs (Decidable (_ ∧ _))

/-- The slices `entriesForMessageSet` walks over. -/
def splitLoop : ℕ → Bytes → List Bytes
  | 0, _ => []
  | fuel + 1, ms =>
    if ms.length < msgSetHeaderLen then []
    else if setSize ms < 0 ∨ ((ms.length - msgSetHeaderLen : ℕ) : ℤ) < setSize ms then []
    else
      ms.take (msgSetHeaderLen + (setSize ms).toNat) ::
        splitLoop fuel (ms.drop (msgSetHeaderLen + (setSize ms).toNat))

def splitFrames (ms : Bytes) : List Bytes :=
  if ms.length ≤ msgSetHeaderLen then [] else splitLoop ms.length ms

/-! ## Readers -/

/-- The checksum over the first 28 bytes of a header is the one it carries. -/
def headerCrcMatches (ms : Bytes) : Bool :=
  bigEndian ((ms.drop 28).take 4) == (headerCrc (ms.take 28)).val

/-- `segmentScanner.Scan` up to the end of the bytes; none if it fails.  In a
block segment the read of an empty payload at the end of the bytes is taken
for the end of the scan. -/
def scanFrames (blockMode : Bool) : ℕ → Bytes → Option (List Bytes)
  | 0, _ => some []
  | fuel + 1, bytes =>
    if bytes.length < msgSetHeaderLen then some []
    else if !headerCrcMatches headerCrc bytes then none
    else if setSize bytes < 0 ∨ ((bytes.length - msgSetHeaderLen : ℕ) : ℤ) < setSize bytes then none
    else if blockMode && decide (bytes.length = msgSetHeaderLen) then some []
    else
      (scanFrames blockMode fuel (bytes.drop (msgSetHeaderLen + (setSize bytes).toNat))).map
        (bytes.take (msgSetHeaderLen + (setSize bytes).toNat) :: ·)

/-- `readMessage` up to the end of the bytes; none if it fails. -/
def readMessages : ℕ → Bytes → Option (List SetFrame)
  | 0, _ => some []
  | fuel + 1, bytes =>
    if bytes.length < msgSetHeaderLen then some []
    else if !headerCrcMatches headerCrc bytes then none
    else
      let size := bigEndian ((bytes.drop 24).take 4)
      let payload := (bytes.drop msgSetHeaderLen).take size
      if bytes.length < msgSetHeaderLen + size then some []
      else if !crcMatches crc payload then none
      else
        (readMessages fuel (bytes.drop (msgSetHeaderLen + size))).map
          (⟨wrapInt64 (bigEndian (bytes.take 8)), wrapInt64 (bigEndian ((bytes.drop 8).take 8)),
            bigEndian ((bytes.drop 16).take 8), payload⟩ :: ·)

inductive DigestRecord
  | control (offset : ℤ)
  | data (offset timestamp : ℤ) (tombstone hasHeaders : Bool) (key : Option Bytes)

def hasAttribute (attributes bit : Byte) : Bool :=
  attributes.val &&& bit.val != 0

def digestRecord (ms : Bytes) : Option DigestRecord :=
  (setMessage ms).bind fun m =>
    m[5]?.bind fun attributes =>
      if hasAttribute attributes attrControl then
        some (.control (setFrame ms).offset)
      else
        (Serialized.headers m).bind fun headers =>
          (Serialized.key m).map fun key =>
            .data (setFrame ms).offset (setFrame ms).timestamp
              (hasAttribute attributes attrTombstone)
              (!headers.entries.isEmpty) key

/-- `buildKeyDigest` on bytes, up to the sorting of what was found. -/
def buildDigestBytes (blockMode : Bool) (bytes : Bytes) : Option (List DigestRecord) :=
  (scanFrames headerCrc blockMode bytes.length bytes).bind fun frames => frames.mapM digestRecord

/-! ## Rewriting -/

/-- `classify` on the bytes of a message. -/
def classifyBytes (spec : CleanSpec) (drops : Option DropSet) (offset : ℤ)
    (m : Bytes) : Option Disposition :=
  let strip := decide (offset < spec.stripBelow) && !spec.stripHeaders.isEmpty
  if spec.ceiling ≤ offset then some .retain
  else
    m[5]?.bind fun attributes =>
      if hasAttribute attributes attrControl then
        some (if strip then .remove else .retain)
      else if spec.aborted offset then some .remove
      else
        (Serialized.key m).map fun key =>
          if key.isSome && DropSet.getOf drops offset then .remove
          else if strip then .strip
          else .retain

/-- `keep` of `cleanSegment`: the bytes that go on, none inside if the record
is removed.  A record that fails its checksum goes on as it is. -/
def keepBytes (spec : CleanSpec) (drops : Option DropSet)
    (order : List (Bytes × Option Bytes)) (ms : Bytes) :
    Option (Option Bytes) :=
  (setMessage ms).bind fun m =>
    (classifyBytes spec drops (setFrame ms).offset m).bind fun
      | .remove => some none
      | .strip =>
        if m.length < 4 then none
        else if !crcMatches crc m then some (some ms)
        else
          (stripFrameBytes crc headerCrc ms spec.stripHeaders order).map
            fun stripped => some (stripped.getD ms)
      | .retain =>
        if decide (0 < spec.stripBelow) && !spec.stripHeaders.isEmpty then
          m[5]?.bind fun attributes =>
            if !hasAttribute attributes attrControl &&
                decide (spec.stripBelow ≤ (setFrame ms).offset) then
              (Serialized.headers m).map fun _ => some ms
            else some (some ms)
        else some (some ms)

/-- The walk of `cleanSegment` over a segment. -/
def cleanWalk (spec : CleanSpec) (drops : Option DropSet)
    (order : List (Bytes × Option Bytes)) (blockMode : Bool) (bytes : Bytes) :
    Option (List (Option Bytes)) :=
  (scanFrames headerCrc blockMode bytes.length bytes).bind
    fun frames => frames.mapM (keepBytes crc headerCrc spec drops order)

/-! ## What they need -/

/-- The payload of a frame holds what a digest and a rewrite look at: an
attribute byte and, unless it is a control record, its key and headers; and
what stays when headers are taken out can be encoded. -/
def Parses (ms : Bytes) : Prop :=
  ∃ m attributes, setMessage ms = some m ∧ m[5]? = some attributes ∧
    (hasAttribute attributes attrControl = false →
      ∃ headers key, Serialized.headers m = some headers ∧ Serialized.key m = some key ∧
        ∀ drop : List Bytes, (drop.any fun name => headers.names.contains name) = true →
          ∃ msg, readBack m = some msg ∧ (msg.withoutHeaders drop).produced.fits = true)

structure Readable (ms : Bytes) : Prop where
  header : headerCrcMatches headerCrc ms = true
  payload : crcMatches crc (ms.drop msgSetHeaderLen) = true
  parses : Parses ms

/-! ## Whole frames -/

section Whole

variable {crc headerCrc} {ms rest : Bytes}

theorem take_drop_append {n k : ℕ} (hlen : n + k ≤ ms.length) :
    ((ms ++ rest).drop n).take k = (ms.drop n).take k := by
  rw [drop_append_of_le_length (by omega), take_append_of_le_length (by rw [length_drop]; omega)]

theorem take_append_header {n : ℕ} (hlen : n ≤ ms.length) : (ms ++ rest).take n = ms.take n :=
  take_append_of_le_length hlen

theorem setSize_append (hheader : msgSetHeaderLen ≤ ms.length) :
    setSize (ms ++ rest) = setSize ms := by
  unfold msgSetHeaderLen at hheader
  unfold setSize
  rw [take_drop_append (by omega)]

theorem headerCrcMatches_append (hheader : msgSetHeaderLen ≤ ms.length) :
    headerCrcMatches headerCrc (ms ++ rest) = headerCrcMatches headerCrc ms := by
  unfold msgSetHeaderLen at hheader
  unfold headerCrcMatches
  rw [take_drop_append (by omega), take_append_header (by omega)]

theorem WholeFrame.size_eq (hwhole : WholeFrame ms) :
    bigEndian ((ms.drop 24).take 4) = ms.length - msgSetHeaderLen := by
  have hsize := hwhole.2
  have hlt := bigEndian_lt ((ms.drop 24).take 4)
  have hwidth : ((ms.drop 24).take 4).length = 4 := by
    have hheader := hwhole.1
    unfold msgSetHeaderLen at hheader
    rw [length_take, length_drop]
    omega
  rw [hwidth] at hlt
  unfold setSize int32 at hsize
  rw [Int.bmod_def] at hsize
  split_ifs at hsize <;> omega

theorem WholeFrame.toNat_setSize (hwhole : WholeFrame ms) :
    msgSetHeaderLen + (setSize ms).toNat = ms.length := by
  have hheader := hwhole.1
  rw [hwhole.2, Int.toNat_natCast]
  omega

theorem WholeFrame.payload_eq (hwhole : WholeFrame ms) :
    (setFrame ms).payload = ms.drop msgSetHeaderLen := by
  have hlength := hwhole.toNat_setSize
  unfold setFrame
  apply take_of_length_le
  rw [length_drop]
  omega

theorem WholeFrame.setFrame_append (hwhole : WholeFrame ms) :
    setFrame (ms ++ rest) = setFrame ms := by
  have hheader := hwhole.1
  have hlength := hwhole.toNat_setSize
  have hfields := hheader
  unfold msgSetHeaderLen at hfields
  unfold setFrame
  rw [setSize_append hheader, take_append_header (by omega), take_drop_append (by omega),
    take_drop_append (by omega), take_drop_append (by omega)]

theorem wholeFrame_take {bytes : Bytes}
    (hheader : msgSetHeaderLen ≤ bytes.length) (hsize : 0 ≤ setSize bytes)
    (hfits : setSize bytes ≤ ((bytes.length - msgSetHeaderLen : ℕ) : ℤ)) :
    WholeFrame (bytes.take (msgSetHeaderLen + (setSize bytes).toNat)) := by
  have hlength : (bytes.take (msgSetHeaderLen + (setSize bytes).toNat)).length =
      msgSetHeaderLen + (setSize bytes).toNat := by
    rw [length_take]
    omega
  have hle : msgSetHeaderLen ≤ (bytes.take
      (msgSetHeaderLen + (setSize bytes).toNat)).length := by omega
  have hsame := @setSize_append _ (bytes.drop (msgSetHeaderLen + (setSize bytes).toNat)) hle
  rw [take_append_drop] at hsame
  refine ⟨hle, ?_⟩
  rw [← hsame, hlength]
  omega

theorem splitLoop_spec (fuel : ℕ) (bytes : Bytes) : (∀ ms ∈ splitLoop fuel bytes, WholeFrame ms) ∧
      entriesLoop fuel bytes = (splitLoop fuel bytes).map setFrame ∧
      ∃ rest, bytes = (splitLoop fuel bytes).flatten ++ rest := by
  induction fuel generalizing bytes with
  | zero => exact ⟨by simp [splitLoop], rfl, bytes, rfl⟩
  | succ fuel ih =>
    rw [splitLoop, entriesLoop]
    split_ifs with hshort hsize
    · exact ⟨by simp, rfl, bytes, rfl⟩
    · exact ⟨by simp, rfl, bytes, rfl⟩
    · have hwhole := wholeFrame_take (not_lt.mp hshort) (by omega) (by omega)
      rcases ih (bytes.drop (msgSetHeaderLen + (setSize bytes).toNat)) with
        ⟨hrest, hentries, rest, hbytes⟩
      have hframe := @WholeFrame.setFrame_append _
        (bytes.drop (msgSetHeaderLen + (setSize bytes).toNat)) hwhole
      rw [take_append_drop] at hframe
      refine ⟨forall_mem_cons.mpr ⟨hwhole, hrest⟩, ?_, rest, ?_⟩
      · rw [hentries, hframe, map_cons]
      · rw [flatten_cons, append_assoc, ← hbytes, take_append_drop]

theorem splitFrames_spec (bytes : Bytes) : (∀ ms ∈ splitFrames bytes, WholeFrame ms) ∧
      entriesForMessageSet bytes = (splitFrames bytes).map setFrame ∧
      ∃ rest, bytes = (splitFrames bytes).flatten ++ rest := by
  unfold splitFrames entriesForMessageSet
  split_ifs
  · exact ⟨by simp, rfl, bytes, rfl⟩
  · exact splitLoop_spec bytes.length bytes

theorem int32_natCast_le (n : ℕ) : int32 n ≤ n := by
  unfold int32
  rw [Int.bmod_def]
  split_ifs <;> omega

theorem framed_le (hwhole : ∀ ms ∈ frames, WholeFrame ms) :
    SetFrame.framed (frames.map setFrame) ≤ frames.flatten.length := by
  have hlength : ∀ ms ∈ frames, (setFrame ms).length = ms.length := by
    intro ms hms
    have hheader := (hwhole ms hms).1
    unfold SetFrame.length
    rw [(hwhole ms hms).payload_eq, length_drop]
    omega
  induction frames with
  | nil => simp [SetFrame.framed]
  | cons ms frames ih =>
    have hms := hlength ms mem_cons_self
    have hrest := ih (fun other hother => hwhole other (mem_cons_of_mem _ hother))
      (fun other hother => hlength other (mem_cons_of_mem _ hother))
    rw [flatten_cons, length_append]
    cases frames with
    | nil =>
      have hle := int32_natCast_le (setFrame ms).length
      simp only [map_cons, map_nil, SetFrame.framed, flatten_nil, length_nil]
      omega
    | cons next frames =>
      simp only [map_cons, SetFrame.framed] at hrest ⊢
      push_cast
      omega

theorem flatten_splitFrames {tail : ℤ} {bytes : Bytes}
    (hcheck : checkAppendedEntries tail (entriesForMessageSet bytes) bytes.length = true) :
    (splitFrames bytes).flatten = bytes := by
  rcases splitFrames_spec bytes with ⟨hwhole, hentries, rest, hbytes⟩
  have hle := framed_le hwhole
  have hframed : SetFrame.framed ((splitFrames bytes).map setFrame) =
      bytes.length := by
    rw [hentries] at hcheck
    cases hmap : (splitFrames bytes).map setFrame with
    | nil => simp [hmap, checkAppendedEntries] at hcheck
    | cons first others =>
      rw [hmap] at hcheck
      simp only [checkAppendedEntries, Bool.and_eq_true, decide_eq_true_eq] at hcheck
      exact hcheck.2
  have hlength := congrArg length hbytes
  rw [length_append] at hlength
  have hnil : rest = [] := length_eq_zero_iff.mp (by omega)
  rw [hnil, append_nil] at hbytes
  exact hbytes.symm

theorem scanFrames_cons {blockMode : Bool} (hwhole : WholeFrame ms)
    (hsize : msgSetHeaderLen < ms.length) (hmatch : headerCrcMatches headerCrc ms = true) :
    scanFrames headerCrc blockMode (fuel + 1) (ms ++ rest) =
      (scanFrames headerCrc blockMode fuel rest).map (ms :: ·) := by
  have hheader := hwhole.1
  have hlength := hwhole.toNat_setSize
  have hfits : ¬(setSize (ms ++ rest) < 0 ∨ (((ms ++ rest).length - msgSetHeaderLen : ℕ) : ℤ) <
        setSize (ms ++ rest)) := by
    rw [setSize_append hheader, length_append, hwhole.2]
    omega
  have hpayload : ¬(blockMode &&
      decide ((ms ++ rest).length = msgSetHeaderLen)) = true := by
    rw [Bool.and_eq_true, decide_eq_true_eq, length_append]
    omega
  rw [scanFrames, if_neg (by rw [length_append]; omega), headerCrcMatches_append hheader,
    if_neg (by simp [hmatch]), if_neg hfits, if_neg hpayload, setSize_append hheader, hlength,
    take_left, drop_left]

theorem scanFrames_flatten {blockMode : Bool} (hwhole : ∀ ms ∈ frames, WholeFrame ms)
    (hsize : ∀ ms ∈ frames, msgSetHeaderLen < ms.length)
    (hmatch : ∀ ms ∈ frames, headerCrcMatches headerCrc ms = true)
    (hfuel : frames.flatten.length ≤ fuel) :
    scanFrames headerCrc blockMode fuel frames.flatten = some frames := by
  induction frames generalizing fuel with
  | nil => cases fuel <;> rfl
  | cons ms frames ih =>
    have hms := hsize ms mem_cons_self
    rw [flatten_cons, length_append] at hfuel
    obtain ⟨fuel, rfl⟩ : ∃ n, fuel = n + 1 := ⟨fuel - 1, by omega⟩
    rw [flatten_cons, scanFrames_cons (hwhole ms mem_cons_self) hms (hmatch ms mem_cons_self),
      ih (fun other hother => hwhole other (mem_cons_of_mem _ hother))
        (fun other hother => hsize other (mem_cons_of_mem _ hother))
        (fun other hother => hmatch other (mem_cons_of_mem _ hother))
        (by omega)]
    rfl

theorem readMessages_cons (hwhole : WholeFrame ms) :
    readMessages crc headerCrc (fuel + 1) (ms ++ rest) =
      if headerCrcMatches headerCrc ms && crcMatches crc (ms.drop msgSetHeaderLen) then
        (readMessages crc headerCrc fuel rest).map (setFrame ms :: ·)
      else none := by
  have hheader := hwhole.1
  have hfields := hheader
  unfold msgSetHeaderLen at hfields
  have hsize : bigEndian (((ms ++ rest).drop 24).take 4) = ms.length - msgSetHeaderLen := by
    rw [take_drop_append (by omega), hwhole.size_eq]
  have hend : msgSetHeaderLen + (ms.length - msgSetHeaderLen) = ms.length := by
    omega
  have hpayload : ((ms ++ rest).drop msgSetHeaderLen).take
      (ms.length - msgSetHeaderLen) = ms.drop msgSetHeaderLen := by
    rw [take_drop_append (by omega)]
    apply take_of_length_le
    rw [length_drop]
  have hframe : (⟨wrapInt64 (bigEndian ((ms ++ rest).take 8)),
      wrapInt64 (bigEndian (((ms ++ rest).drop 8).take 8)),
      bigEndian (((ms ++ rest).drop 16).take 8),
      ms.drop msgSetHeaderLen⟩ : SetFrame) = setFrame ms := by
    have hpart := hwhole.payload_eq
    unfold setFrame at hpart ⊢
    simp only at hpart
    rw [take_append_header (by omega), take_drop_append (by omega),
      take_drop_append (by omega), hpart]
  have hlong : ¬(ms ++ rest).length < ms.length := by
    rw [length_append]
    omega
  rw [readMessages, if_neg (by rw [length_append]; omega), headerCrcMatches_append hheader]
  simp only [hsize, hend, hpayload, hframe, drop_left]
  rw [if_neg hlong]
  cases headerCrcMatches headerCrc ms <;>
    cases crcMatches crc (ms.drop msgSetHeaderLen) <;> rfl

/-- The bytes of whole frames read back as their records if all checksums are
right, and not at all otherwise. -/
theorem readMessages_flatten {frames : List Bytes} (hwhole : ∀ ms ∈ frames, WholeFrame ms)
    {fuel : ℕ} (hfuel : frames.flatten.length ≤ fuel) :
    readMessages crc headerCrc fuel frames.flatten =
      if frames.all fun ms => headerCrcMatches headerCrc ms &&
          crcMatches crc (ms.drop msgSetHeaderLen) then
        some (frames.map setFrame)
      else none := by
  induction frames generalizing fuel with
  | nil => cases fuel <;> rfl
  | cons ms frames ih =>
    have hms := hwhole ms mem_cons_self
    have hheader := hms.1
    rw [flatten_cons, length_append] at hfuel
    unfold msgSetHeaderLen at hheader
    obtain ⟨fuel, rfl⟩ : ∃ n, fuel = n + 1 := ⟨fuel - 1, by omega⟩
    have hrest := @ih (fun other hother => hwhole other (mem_cons_of_mem _ hother)) fuel (by omega)
    rw [flatten_cons, readMessages_cons hms, all_cons, hrest]
    cases headerCrcMatches headerCrc ms && crcMatches crc (ms.drop msgSetHeaderLen) with
    | false => rfl
    | true =>
      rw [if_pos rfl, Bool.true_and]
      split_ifs <;> rfl

theorem splitLoop_flatten (hwhole : ∀ ms ∈ frames, WholeFrame ms)
    (hfuel : frames.flatten.length ≤ fuel) : splitLoop fuel frames.flatten = frames := by
  induction frames generalizing fuel with
  | nil => cases fuel <;> rfl
  | cons ms frames ih =>
    have hms := hwhole ms mem_cons_self
    have hheader := hms.1
    have hlength := hms.toNat_setSize
    have hfit := hms.2
    rw [flatten_cons, length_append] at hfuel
    unfold msgSetHeaderLen at hheader
    obtain ⟨fuel, rfl⟩ : ∃ n, fuel = n + 1 := ⟨fuel - 1, by omega⟩
    rw [flatten_cons, splitLoop, if_neg (by rw [length_append]; unfold msgSetHeaderLen; omega),
      setSize_append hms.1, if_neg (by rw [length_append, hfit]; omega), hlength, drop_left,
      take_left, ih (fun other hother => hwhole other (mem_cons_of_mem _ hother)) (by omega)]

theorem splitFrames_flatten (hwhole : ∀ ms ∈ frames, WholeFrame ms)
    (hsize : msgSetHeaderLen < frames.flatten.length) : splitFrames frames.flatten = frames := by
  rw [splitFrames, if_neg (by omega), splitLoop_flatten hwhole le_rfl]

theorem entriesForMessageSet_flatten (hwhole : ∀ ms ∈ frames, WholeFrame ms)
    (hsize : msgSetHeaderLen < frames.flatten.length) :
    entriesForMessageSet frames.flatten = frames.map setFrame := by
  rw [(splitFrames_spec frames.flatten).2.1, splitFrames_flatten hwhole hsize]

theorem WholeFrame.length_setFrame (hwhole : WholeFrame ms) : (setFrame ms).length = ms.length := by
  have hheader := hwhole.1
  rw [SetFrame.length, hwhole.payload_eq, length_drop]
  omega

theorem framed_concat {front : List Bytes} {last : Bytes}
    (hwhole : ∀ ms ∈ front ++ [last], WholeFrame ms) :
    SetFrame.framed ((front ++ [last]).map setFrame) =
      front.flatten.length + int32 last.length := by
  induction front with
  | nil =>
    have hlast := hwhole last (by simp)
    rw [nil_append, map_cons, map_nil, SetFrame.framed, hlast.length_setFrame]
    simp
  | cons ms front ih =>
    have hms := hwhole ms (by simp)
    have hrest := ih fun other hother =>
      hwhole other (mem_cons_of_mem _ hother)
    rw [cons_append, map_cons, SetFrame.framed, hms.length_setFrame, hrest, flatten_cons,
      length_append, Nat.cast_add, Int.add_assoc]
    simp

/-- Frames that are accepted on their own: not one empty frame, and the last
one of a length of 32 bits. -/
structure Admissible (frames : List Bytes) : Prop where
  size : msgSetHeaderLen < frames.flatten.length
  last : ∀ ms, frames.getLast? = some ms → ms.length ≤ maxInt32

theorem framed_iff (hwhole : ∀ ms ∈ frames, WholeFrame ms) :
    SetFrame.framed (frames.map setFrame) = frames.flatten.length ↔
      ∀ ms, frames.getLast? = some ms → ms.length ≤ maxInt32 := by
  rcases eq_nil_or_concat' frames with rfl | ⟨front, last, rfl⟩
  · simp [SetFrame.framed]
  · have hle := int32_le (last.length : ℤ)
    rw [framed_concat hwhole, flatten_append, length_append]
    simp only [flatten_singleton, getLast?_append,
      getLast?_singleton, some_or, some.injEq, forall_eq']
    constructor
    · intro hframed
      omega
    · intro hshort
      rw [int32_natCast hshort]
      omega

theorem checkAppended_iff {first : Bytes} {rest : List Bytes}
    (hwhole : ∀ ms ∈ first :: rest, WholeFrame ms) (tail : ℤ) :
    checkAppendedEntries tail (entriesForMessageSet (first :: rest).flatten)
        (first :: rest).flatten.length = true ↔
      Admissible (first :: rest) ∧ tail < (setFrame first).offset ∧
        (first :: rest).Pairwise fun a b =>
          (setFrame a).offset < (setFrame b).offset := by
  by_cases hsize : msgSetHeaderLen < (first :: rest).flatten.length
  · have hframed := framed_iff hwhole
    have hentries := entriesForMessageSet_flatten hwhole hsize
    rw [map_cons] at hentries hframed
    rw [hentries]
    simp only [checkAppendedEntries, Bool.and_eq_true, decide_eq_true_eq, hframed]
    rw [← map_cons, pairwise_map]
    constructor
    · intro hall
      exact ⟨⟨hsize, hall.2⟩, hall.1⟩
    · intro hall
      exact ⟨hall.2, hall.1.last⟩
  · rw [entriesForMessageSet, if_pos (by omega)]
    constructor
    · intro hfalse
      cases hfalse
    · intro hall
      exact absurd hall.1.size hsize

end Whole

/-! ## Records one by one -/

section Records

variable {crc headerCrc} {ms : Bytes}

theorem Parses.digestRecord (hparses : Parses ms) : (digestRecord ms).isSome = true := by
  rcases hparses with ⟨m, attributes, hm, hattributes, hdata⟩
  unfold CommitLog.digestRecord
  rw [hm, bind_some, hattributes, bind_some]
  cases hcontrol : hasAttribute attributes attrControl with
  | true => rfl
  | false =>
    rcases hdata hcontrol with ⟨headers, key, hheaders, hkey, -⟩
    simp [hheaders, hkey]

theorem classifyBytes_some {attributes : Byte} (hattributes : m[5]? = some attributes)
    (hkey : hasAttribute attributes attrControl = false → ∃ key, Serialized.key m = some key)
    (spec : CleanSpec) (drops : Option DropSet) (offset : ℤ) :
    ∃ disposition, classifyBytes spec drops offset m = some disposition ∧
      (disposition = .strip → hasAttribute attributes attrControl = false) := by
  unfold classifyBytes
  simp only [hattributes, bind_some]
  split_ifs with hceiling hcontrol hstrip haborted
  · exact ⟨_, rfl, by simp⟩
  · exact ⟨_, rfl, by simp⟩
  · exact ⟨_, rfl, by simp⟩
  · exact ⟨_, rfl, by simp⟩
  all_goals
    have hplain : hasAttribute attributes attrControl = false := by
      simpa using hcontrol
    rcases hkey hplain with ⟨key, hkey⟩
    exact ⟨_, by rw [hkey]; rfl, fun _ => hplain⟩

theorem Parses.strip (hparses : Parses ms) {m : Bytes} (hm : setMessage ms = some m)
    (hcrc : crcMatches crc m = true) {attributes : Byte} (hattributes : m[5]? = some attributes)
    (hplain : hasAttribute attributes attrControl = false) (drop : List Bytes)
    (order : List (Bytes × Option Bytes)) :
    (stripFrameBytes crc headerCrc ms drop order).isSome = true := by
  rcases hparses with ⟨m', attributes', hm', hattributes', hdata⟩
  rw [hm] at hm'
  cases hm'
  rw [hattributes] at hattributes'
  cases hattributes'
  rcases hdata hplain with ⟨headers, key, hheaders, -, hdrop⟩
  unfold stripFrameBytes
  rw [hm, bind_some, if_pos hcrc, hheaders, bind_some]
  split_ifs with hany
  · rcases hdrop drop hany with ⟨msg, hread, hfits⟩
    rw [hread, bind_some]
    unfold Produced.encode
    rw [if_pos hfits]
    rfl
  · rfl

theorem Parses.keepBytes (hparses : Parses ms) (spec : CleanSpec)
    (drops : Option DropSet) (order : List (Bytes × Option Bytes))
    (hcrc : ∀ m, setMessage ms = some m → crcMatches crc m = true) :
    (keepBytes crc headerCrc spec drops order ms).isSome = true := by
  have hparts := hparses
  rcases hparts with ⟨m, attributes, hm, hattributes, hdata⟩
  have hmatch := hcrc m hm
  have hlong := length_of_crcMatches hmatch
  have hkey (hplain : hasAttribute attributes attrControl = false) :
      ∃ key, Serialized.key m = some key := by
    rcases hdata hplain with ⟨_, key, _, hkey, _⟩
    exact ⟨key, hkey⟩
  rcases classifyBytes_some hattributes hkey spec drops (setFrame ms).offset with
    ⟨disposition, hclass, hstrip⟩
  unfold CommitLog.keepBytes
  rw [hm, bind_some, hclass, bind_some]
  cases disposition with
  | remove => rfl
  | strip =>
    have hstripped := @Parses.strip crc headerCrc ms hparses m hm hmatch
      attributes hattributes (hstrip rfl) spec.stripHeaders order
    simpa [hlong.not_gt, hmatch] using hstripped
  | retain =>
    simp only [hattributes, bind_some]
    split_ifs with hactive hplain
    · rw [Bool.and_eq_true] at hplain
      rcases hdata (by simpa using hplain.1) with ⟨headers, -, hheaders, -⟩
      simp [hheaders]
    · rfl
    · rfl

theorem WholeFrame.setMessage_eq (hwhole : WholeFrame ms)
    (hm : setMessage ms = some m) : m = ms.drop msgSetHeaderLen := by
  have hheader := hwhole.1
  have hfields := hheader
  unfold msgSetHeaderLen at hfields
  unfold setMessage at hm
  split_ifs at hm with hshort
  · cases hm
    symm
    rw [drop_eq_nil_iff]
    exact hshort
  · have hsize : uintAt 4 ms 24 = some (ms.length - msgSetHeaderLen) := by
      unfold uintAt
      rw [if_pos (by omega), show (24 : ℤ).toNat = 24 from rfl, hwhole.size_eq]
    have hsmall := hwhole.2
    unfold setSize at hsmall
    rw [hwhole.size_eq] at hsmall
    rw [hsize, bind_some, hsmall] at hm
    unfold slice at hm
    split_ifs at hm with hbounds
    have hle := int32_le ((ms.length - msgSetHeaderLen : ℕ) : ℤ)
    rw [hsmall] at hle
    have hsum : (msgSetHeaderLen : ℤ) +
        ((ms.length - msgSetHeaderLen : ℕ) : ℤ) = ms.length := by omega
    rw [hsum] at hbounds hm
    have hend : int32 (ms.length : ℤ) = ms.length := by
      unfold msgSetHeaderLen maxInt32 at hle
      unfold int32 msgSetHeaderLen at hbounds
      unfold int32
      rw [Int.bmod_def] at hbounds ⊢
      split_ifs at hbounds ⊢ <;> omega
    rw [hend, some.injEq] at hm
    rw [← hm, Int.toNat_natCast]
    apply take_of_length_le
    rw [length_drop]
    omega

def stripAt (offset : ℤ) (drop : List Bytes) : CleanSpec where
  ceiling := offset + 1
  stripOnly := true
  stripBelow := offset + 1
  stripHeaders := drop
  abortedFn := none
  tombstoneGCBelow := 0
  tombstoneRetention := 0
  maxRewrites := 0
  rewriteBudget := 0
  tierBudgets := fun _ => none
  skipTiers := fun _ => false

theorem parses_of_reads (hwhole : WholeFrame ms)
    (hcrc : crcMatches crc (ms.drop msgSetHeaderLen) = true)
    (hdigest : (digestRecord ms).isSome = true)
    (hkeep : ∀ spec drops order, (keepBytes crc headerCrc spec drops order ms).isSome = true) :
    Parses ms := by
  unfold digestRecord at hdigest
  cases hm : setMessage ms with
  | none => simp [hm] at hdigest
  | some m =>
    have hpayload := hwhole.setMessage_eq hm
    have hmatch : crcMatches crc m = true := by rw [hpayload]; exact hcrc
    rw [hm, bind_some] at hdigest
    cases hattributes : m[5]? with
    | none => simp [hattributes] at hdigest
    | some attributes =>
      refine ⟨m, attributes, hm, hattributes, ?_⟩
      intro hplain
      rw [hattributes, bind_some, if_neg (by simp [hplain])] at hdigest
      rcases isSome_iff_exists.mp hdigest with ⟨record, hrecord⟩
      rcases bind_eq_some_iff.mp hrecord with
        ⟨headers, hheaders, hrecord⟩
      rcases map_eq_some_iff.mp hrecord with ⟨key, hkey, -⟩
      refine ⟨headers, key, hheaders, hkey, ?_⟩
      intro drop hany
      have hkept := hkeep (stripAt (setFrame ms).offset drop) none []
      have hdrop : drop.isEmpty = false := by
        cases drop with
        | nil => cases hany
        | cons name drop => rfl
      have hclass : classifyBytes (stripAt (setFrame ms).offset drop) none
          (setFrame ms).offset m = some .strip := by
        unfold classifyBytes
        simp [stripAt, hattributes, hplain, hkey, hdrop, CleanSpec.aborted, DropSet.getOf]
      have hlong := length_of_crcMatches hmatch
      unfold keepBytes at hkept
      rw [hm, bind_some, hclass, bind_some] at hkept
      simp only [if_neg hlong.not_gt, hmatch, Bool.not_true, Bool.false_eq_true,
        if_false, isSome_map] at hkept
      unfold stripFrameBytes at hkept
      rw [hm, bind_some, if_pos hmatch, hheaders, bind_some,
        show (stripAt (setFrame ms).offset drop).stripHeaders = drop from rfl, if_pos hany] at hkept
      rcases isSome_iff_exists.mp hkept with ⟨stripped, hstripped⟩
      rcases bind_eq_some_iff.mp hstripped with
        ⟨msg, hread, hencoded⟩
      rcases map_eq_some_iff.mp hencoded with ⟨data, hencode, -⟩
      exact ⟨msg, hread, Produced.fits_of_encode hencode⟩

end Records

end CommitLog
