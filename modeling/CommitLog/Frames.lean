import Mathlib.Data.List.Lex
import Mathlib.Data.Fin.Basic
import Mathlib.Order.Fin.Basic
import Mathlib.Tactic

/-!
# Messages and frames

A message is the keyed payload a caller appends and a frame is the message
together with the offset, timestamp and leader epoch the log frames it with.
The wire layout is kept only through the lengths it gives rise to.  A frame
that was read back carries whether its payload checksum still matches, since
the cleaner treats a damaged record differently from a sound one.
-/

namespace CommitLog

open List

variable {frame : Frame} {drop : List Bytes}
variable {hdrs : List Bytes} {frame' : Frame} {msg : Message}

abbrev Byte := Fin 256

instance neZero_byte : NeZero 256 := ⟨by decide⟩

instance neZero_word : NeZero (2 ^ 32) := ⟨by decide⟩

/-- A Go byte slice or string; `bytes.Compare` is the order of lists. -/
abbrev Bytes := List Byte

/-- `Message.Headers`, a map from header names to values. -/
structure Headers where
  entries : List (Bytes × Bytes)
  nodup : (entries.map Prod.fst).Nodup
deriving DecidableEq

namespace Headers

def empty : Headers := ⟨[], nodup_nil⟩

def names (headers : Headers) : List Bytes :=
  headers.entries.map Prod.fst

/-- `delete` for each of the given names. -/
def deleteAll (headers : Headers) (drop : List Bytes) : Headers where
  entries := headers.entries.filter fun entry => !drop.contains entry.1
  nodup := headers.nodup.sublist (filter_sublist.map Prod.fst)

@[simp] theorem entries_deleteAll (headers : Headers) (drop : List Bytes) :
    (headers.deleteAll drop).entries =
      headers.entries.filter fun entry => !drop.contains entry.1 := rfl

theorem mem_names_deleteAll {headers : Headers} {name : Bytes} :
    name ∈ (headers.deleteAll drop).names ↔ name ∈ headers.names ∧ name ∉ drop := by
  simp only [names, entries_deleteAll, mem_map, mem_filter]
  constructor
  · rintro ⟨entry, ⟨hmem, hkeep⟩, rfl⟩
    exact ⟨⟨entry, hmem, rfl⟩, by simpa using hkeep⟩
  · rintro ⟨⟨entry, hmem, rfl⟩, hdrop⟩
    exact ⟨entry, ⟨hmem, by simpa using hdrop⟩, rfl⟩

/-- Bytes the header section of a message occupies after its count. -/
def encodedLen (headers : Headers) : ℕ :=
  (headers.entries.map fun entry =>
    2 + entry.1.length + (4 + entry.2.length)).sum

theorem encodedLen_deleteAll_lt {headers : Headers} {name : Bytes} (hmem : name ∈ headers.names)
    (hdrop : name ∈ drop) : (headers.deleteAll drop).encodedLen < headers.encodedLen := by
  unfold encodedLen
  rw [entries_deleteAll]
  unfold names at hmem
  have hsub : ∀ items : List (Bytes × Bytes),
      ((items.filter fun entry => !drop.contains entry.1).map fun entry =>
        2 + entry.1.length + (4 + entry.2.length)).sum ≤
      (items.map fun entry =>
        2 + entry.1.length + (4 + entry.2.length)).sum := by
    intro items
    exact (filter_sublist.map _).sum_le_sum (by simp)
  generalize headers.entries = entries at hmem ⊢
  induction entries with
  | nil => simp at hmem
  | cons entry items ih =>
    have hle := hsub items
    by_cases hin : drop.contains entry.1 = true
    · rw [filter_cons_of_neg (by simpa using hin)]
      simp only [map_cons, sum_cons]
      omega
    · have hname : name ∈ items.map Prod.fst := by
        rcases mem_cons.mp hmem with heq | htail
        · rw [heq] at hdrop
          exact absurd (by simpa using hdrop) hin
        · exact htail
      have hlt := ih hname
      rw [filter_cons_of_pos (by simpa using hin)]
      simp only [map_cons, sum_cons]
      omega

end Headers

/-- `AttrControl`. -/
def attrControl : Byte := 0x01

/-- `AttrTombstone`. -/
def attrTombstone : Byte := 0x02

/-- The message a frame carries, as the `SerializedMessage` accessors read
it: an absent key or value is `none`. -/
structure Message where
  magicByte : Byte
  attributes : Byte
  key : Option Bytes
  value : Option Bytes
  headers : Headers
deriving DecidableEq

namespace Message

def isControl (msg : Message) : Bool :=
  msg.attributes.val &&& attrControl.val != 0

def isTombstone (msg : Message) : Bool :=
  msg.attributes.val &&& attrTombstone.val != 0

/-- `hasAnyHeader`. -/
def hasAnyHeader (msg : Message) (hdrs : List Bytes) : Bool :=
  hdrs.any fun name => msg.headers.names.contains name

/-- The length of a size-prefixed byte slice; absent is the prefix alone. -/
def bytesLen : Option Bytes → ℕ
  | none => 4
  | some bytes => 4 + bytes.length

/-- What `lenEncoder` measures: checksum, magic byte, attributes, key, value,
header count and headers. -/
def encodedLen (msg : Message) : ℕ :=
  4 + 1 + 1 + bytesLen msg.key + bytesLen msg.value + 2 + msg.headers.encodedLen

/-- Whether `encode` accepts the message: `PutString` refuses a header name
longer than `math.MaxInt16`, `PutBytes` a slice longer than
`math.MaxInt32`. -/
def encodable (msg : Message) : Bool :=
  decide (bytesLen msg.key ≤ 4 + 2147483647) &&
    decide (bytesLen msg.value ≤ 4 + 2147483647) &&
    msg.headers.entries.all fun entry =>
      decide (entry.1.length ≤ 32767) &&
        decide (entry.2.length ≤ 2147483647)

/-- The message with the given headers deleted and everything else kept. -/
def withoutHeaders (msg : Message) (hdrs : List Bytes) : Message :=
  { msg with headers := msg.headers.deleteAll hdrs }

@[simp] theorem withoutHeaders_isControl (msg : Message) (hdrs : List Bytes) :
    (msg.withoutHeaders hdrs).isControl = msg.isControl := rfl

@[simp] theorem withoutHeaders_isTombstone (msg : Message) (hdrs : List Bytes) :
    (msg.withoutHeaders hdrs).isTombstone = msg.isTombstone := rfl

@[simp] theorem withoutHeaders_key (msg : Message) (hdrs : List Bytes) :
    (msg.withoutHeaders hdrs).key = msg.key := rfl

theorem hasAnyHeader_eq_true : msg.hasAnyHeader hdrs = true ↔
      ∃ name ∈ hdrs, name ∈ msg.headers.names := by
  simp [hasAnyHeader]

theorem hasAnyHeader_withoutHeaders_subset
    (hhas : (msg.withoutHeaders drop).hasAnyHeader hdrs = true) : msg.hasAnyHeader hdrs = true := by
  rw [hasAnyHeader_eq_true] at hhas ⊢
  obtain ⟨name, hname, hmem⟩ := hhas
  exact ⟨name, hname, (Headers.mem_names_deleteAll.mp hmem).1⟩

@[simp] theorem hasAnyHeader_withoutHeaders (msg : Message) (hdrs : List Bytes) :
    (msg.withoutHeaders hdrs).hasAnyHeader hdrs = false := by
  rw [Bool.eq_false_iff, Ne, hasAnyHeader_eq_true]
  rintro ⟨name, hname, hmem⟩
  exact (Headers.mem_names_deleteAll.mp hmem).2 hname

@[simp] theorem hasAnyHeader_nil (msg : Message) : msg.hasAnyHeader [] = false := rfl

theorem headers_ne_nil_of_hasAnyHeader (hhas : msg.hasAnyHeader hdrs = true) :
    msg.headers.entries ≠ [] := by
  obtain ⟨name, _, hmem⟩ := hasAnyHeader_eq_true.mp hhas
  intro hnil
  simp [Headers.names, hnil] at hmem

end Message

/-- `msgSetHeaderLen`: offset, timestamp, leader epoch, size and header
checksum. -/
def msgSetHeaderLen : ℕ := 32

/-- One framed record of a segment as a scan returns it.  `size` is the length
of the payload; the accessors only ever read inside it, so the message parsed
from it is no longer. -/
structure Frame where
  offset : ℤ
  timestamp : ℤ
  leaderEpoch : ℕ
  message : Message
  size : ℕ
  crcMatches : Bool
  encodedLen_le : message.encodedLen ≤ size
deriving DecidableEq

namespace Frame

/-- Logical bytes the frame occupies. -/
def length (frame : Frame) : ℕ := msgSetHeaderLen + frame.size

theorem length_pos (frame : Frame) : 0 < frame.length := by
  unfold length msgSetHeaderLen
  omega

def isControl (frame : Frame) : Bool := frame.message.isControl

def key (frame : Frame) : Option Bytes := frame.message.key

/-- Two frames agree on everything but their headers (and what follows from
the header section: the payload length). -/
structure SameRecord (frame frame' : Frame) : Prop where
  offset : frame'.offset = frame.offset
  timestamp : frame'.timestamp = frame.timestamp
  leaderEpoch : frame'.leaderEpoch = frame.leaderEpoch
  magicByte : frame'.message.magicByte = frame.message.magicByte
  attributes : frame'.message.attributes = frame.message.attributes
  key : frame'.message.key = frame.message.key
  value : frame'.message.value = frame.message.value
  crcMatches : frame'.crcMatches = frame.crcMatches

theorem SameRecord.refl (frame : Frame) : SameRecord frame frame :=
  ⟨rfl, rfl, rfl, rfl, rfl, rfl, rfl, rfl⟩

theorem SameRecord.symm (hsame : SameRecord frame frame') : SameRecord frame' frame :=
  ⟨hsame.offset.symm, hsame.timestamp.symm, hsame.leaderEpoch.symm,
    hsame.magicByte.symm, hsame.attributes.symm, hsame.key.symm,
    hsame.value.symm, hsame.crcMatches.symm⟩

theorem SameRecord.trans {frame'' : Frame} (hfirst : SameRecord frame frame')
    (hsecond : SameRecord frame' frame'') : SameRecord frame frame'' :=
  ⟨hsecond.offset.trans hfirst.offset, hsecond.timestamp.trans hfirst.timestamp,
    hsecond.leaderEpoch.trans hfirst.leaderEpoch,
    hsecond.magicByte.trans hfirst.magicByte,
    hsecond.attributes.trans hfirst.attributes,
    hsecond.key.trans hfirst.key,
    hsecond.value.trans hfirst.value,
    hsecond.crcMatches.trans hfirst.crcMatches⟩

theorem SameRecord.isControl (hsame : SameRecord frame frame') :
    frame'.isControl = frame.isControl := by
  simp only [Frame.isControl, Message.isControl, hsame.attributes]

end Frame

def Frame.ofMessage (offset timestamp : ℤ) (leaderEpoch : ℕ) (message : Message) : Frame where
  offset := offset
  timestamp := timestamp
  leaderEpoch := leaderEpoch
  message := message
  size := message.encodedLen
  crcMatches := true
  encodedLen_le := le_rfl

/-- A small keyed record at an offset. -/
def storedFrame (offset : ℤ) : Frame :=
  Frame.ofMessage offset 1 0 ⟨1, 0, some [5], some [7], Headers.empty⟩

/-! ## Stripping headers from one frame -/

inductive StripError
  | corruptRecord
  | encode
deriving DecidableEq, Repr

/-- The frame `stripFrame` writes: a re-encoded message with a fresh checksum
under the old offset, timestamp and leader epoch. -/
def reframe (frame : Frame) (hdrs : List Bytes) : Frame where
  offset := frame.offset
  timestamp := frame.timestamp
  leaderEpoch := frame.leaderEpoch
  message := frame.message.withoutHeaders hdrs
  size := (frame.message.withoutHeaders hdrs).encodedLen
  crcMatches := true
  encodedLen_le := le_rfl

/-- `stripFrame`: the checksum is verified before anything is re-encoded, and
`none` says that no named header was present. -/
def stripFrame (frame : Frame) (hdrs : List Bytes) : Except StripError (Option Frame) :=
  if !frame.crcMatches then .error .corruptRecord
  else if !frame.message.hasAnyHeader hdrs then .ok none
  else if !(frame.message.withoutHeaders hdrs).encodable then .error .encode
  else .ok (some (reframe frame hdrs))

theorem stripFrame_eq_some (hstrip : stripFrame frame hdrs = .ok (some frame')) :
    frame.crcMatches = true ∧ frame.message.hasAnyHeader hdrs = true ∧
      frame' = reframe frame hdrs := by
  unfold stripFrame at hstrip
  split at hstrip
  · cases hstrip
  next hcrc =>
    split at hstrip
    · cases hstrip
    next hhas =>
      split at hstrip
      · cases hstrip
      · cases hstrip
        exact ⟨by simpa using hcrc, by simpa using hhas, rfl⟩

theorem stripFrame_eq_none (hstrip : stripFrame frame hdrs = .ok none) :
    frame.message.hasAnyHeader hdrs = false := by
  unfold stripFrame at hstrip
  split at hstrip
  · cases hstrip
  next _ =>
    split at hstrip
    next hhas => simpa using hhas
    next _ =>
      split at hstrip <;> cases hstrip

theorem stripFrame_eq_corrupt :
    stripFrame frame hdrs = .error .corruptRecord ↔ frame.crcMatches = false := by
  unfold stripFrame
  cases hcrc : frame.crcMatches with
  | false => simp
  | true =>
    simp only [Bool.not_true, Bool.false_eq_true, if_false, Bool.true_eq_false, iff_false]
    split
    · simp
    · split <;> simp

theorem length_reframe_lt (hhas : frame.message.hasAnyHeader hdrs = true) :
    (reframe frame hdrs).length < frame.length := by
  obtain ⟨name, hdrop, hname⟩ := Message.hasAnyHeader_eq_true.mp hhas
  have hlt := Headers.encodedLen_deleteAll_lt hname hdrop
  have hle := frame.encodedLen_le
  simp only [Frame.length, reframe, Message.encodedLen, Message.withoutHeaders] at hle ⊢
  omega

theorem reframe_sameRecord (hcrc : frame.crcMatches = true) :
    Frame.SameRecord frame (reframe frame hdrs) :=
  ⟨rfl, rfl, rfl, rfl, rfl, rfl, rfl, hcrc.symm⟩

end CommitLog
