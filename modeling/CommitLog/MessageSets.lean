import CommitLog.Appends
import CommitLog.SegmentOpen

/-!
# What callers hand to an append

A follower appends bytes that another log framed.  They are parsed into frames
as far as these go, and refused unless the frames tile them and rise from the
end of the log.  Messages and version-3 batches are framed by the log itself,
in the arithmetic of 64-bit offsets.
-/

namespace CommitLog

open List

/-! ## Parsing a message set -/

def bigEndian (bytes : Bytes) : ℕ :=
  bytes.foldl (fun n byte => 256 * n + byte.val) 0

structure SetFrame where
  offset : ℤ
  timestamp : ℤ
  leaderEpoch : ℕ
  payload : Bytes

def setSize (ms : Bytes) : ℤ := int32 (bigEndian ((ms.drop 24).take 4))

def setFrame (ms : Bytes) : SetFrame where
  offset := wrapInt64 (bigEndian (ms.take 8))
  timestamp := wrapInt64 (bigEndian ((ms.drop 8).take 8))
  leaderEpoch := bigEndian ((ms.drop 16).take 8)
  payload := (ms.drop msgSetHeaderLen).take (setSize ms).toNat

/-- The loop of `entriesForMessageSet`: it stops at the first frame the bytes
cannot hold. -/
def entriesLoop : ℕ → Bytes → List SetFrame
  | 0, _ => []
  | fuel + 1, ms =>
    if ms.length < msgSetHeaderLen then []
    else if setSize ms < 0 ∨ ((ms.length - msgSetHeaderLen : ℕ) : ℤ) < setSize ms then []
    else
      setFrame ms :: entriesLoop fuel (ms.drop (msgSetHeaderLen + (setSize ms).toNat))

def entriesForMessageSet (ms : Bytes) : List SetFrame :=
  if ms.length ≤ msgSetHeaderLen then [] else entriesLoop ms.length ms

namespace SetFrame

def length (entry : SetFrame) : ℕ := msgSetHeaderLen + entry.payload.length

/-- The bytes from the first frame to the end of the last, with the size of an
entry in 32 bits. -/
def framed : List SetFrame → ℤ
  | [] => 0
  | [last] => int32 last.length
  | entry :: entries => entry.length + framed entries

end SetFrame

/-- `checkAppendedSet`. -/
def checkAppendedEntries (tail : ℤ) (entries : List SetFrame) (setLen : ℕ) : Bool :=
  match entries with
  | [] => false
  | first :: _ =>
    decide (tail < first.offset) &&
      decide (entries.Pairwise fun a b => a.offset < b.offset) &&
      decide (SetFrame.framed entries = setLen)

structure PayloadReader where
  message : Bytes → Message
  crcMatches : Bytes → Bool

/-- The record a frame of a set becomes.  A payload too short for a message
counts as long as the message it reads as. -/
def SetFrame.frame (reader : PayloadReader) (entry : SetFrame) : Frame where
  offset := entry.offset
  timestamp := entry.timestamp
  leaderEpoch := entry.leaderEpoch
  message := reader.message entry.payload
  size := max entry.payload.length (reader.message entry.payload).encodedLen
  crcMatches := reader.crcMatches entry.payload
  encodedLen_le := le_max_right _ _

theorem checkAppendedEntries_rising {tail : ℤ} {entries : List SetFrame} {setLen : ℕ}
    (reader : PayloadReader) (hcheck : checkAppendedEntries tail entries setLen = true) :
    checkAppendedSet tail (entries.map (SetFrame.frame reader)) = true := by
  cases entries with
  | nil => cases hcheck
  | cons first rest =>
    simp only [checkAppendedEntries, Bool.and_eq_true, decide_eq_true_eq] at hcheck
    rw [map_cons, checkAppendedSet, Bool.and_eq_true, decide_eq_true_eq, decide_eq_true_eq,
      ← map_cons, pairwise_map]
    exact hcheck.1

/-! ## Framing messages -/

structure StampedMessage where
  message : Message
  timestamp : ℤ
  leaderEpoch : ℕ

/-- `newMessageSetFromProto`. -/
def newMessageSet (next now : ℤ) : ℕ → List StampedMessage → List Frame
  | _, [] => []
  | i, m :: rest =>
    Frame.ofMessage (wrapInt64 (i + next))
        (if m.timestamp = 0 then now else m.timestamp) m.leaderEpoch
        m.message ::
      newMessageSet next now (i + 1) rest

theorem offset_of_mem_newMessageSet {next now : ℤ} {i : ℕ} {messages : List StampedMessage}
    (hnext : 0 ≤ next) (hroom : next + i + messages.length ≤ maxInt64) {frame : Frame}
    (hmem : frame ∈ newMessageSet next now i messages) :
    next + i ≤ frame.offset ∧ frame.offset < next + i + messages.length := by
  induction messages generalizing i with
  | nil => cases hmem
  | cons m rest ih =>
    rw [length_cons] at hroom ⊢
    push_cast at hroom ⊢
    rcases mem_cons.mp hmem with rfl | hmem
    · have hwrap : wrapInt64 (i + next) = i + next :=
        wrapInt64_eq_self (by unfold maxInt64; omega) (by omega)
      simp only [Frame.ofMessage, hwrap]
      omega
    · have hrest := ih (i := i + 1) (by push_cast; omega) hmem
      push_cast at hrest
      omega

theorem newMessageSet_rising {next now : ℤ} {i : ℕ} {messages : List StampedMessage}
    (hnext : 0 ≤ next) (hroom : next + i + messages.length ≤ maxInt64) :
    (newMessageSet next now i messages).Pairwise fun a b => a.offset < b.offset := by
  induction messages generalizing i with
  | nil => exact Pairwise.nil
  | cons m rest ih =>
    rw [length_cons] at hroom
    push_cast at hroom
    have hrest : next + ((i + 1 : ℕ) : ℤ) + rest.length ≤ maxInt64 := by
      push_cast
      omega
    apply pairwise_cons.mpr
    refine ⟨?_, ih hrest⟩
    intro frame hmem
    have hoffset := offset_of_mem_newMessageSet hnext hrest hmem
    have hwrap : wrapInt64 (i + next) = i + next :=
      wrapInt64_eq_self (by unfold maxInt64; omega) (by omega)
    simp only [Frame.ofMessage, hwrap]
    push_cast at hoffset
    omega

/-! ## Version-3 blocks -/

/-- A decoded version-3 block.  A record holds its offset delta and the
message it stands for, identity headers included. -/
structure V3Block where
  baseOffset : ℤ
  timestamp : ℤ
  leaderEpoch : ℕ
  stripped : Bool
  control : Bool
  transactional : Bool
  nonce : ℕ
  records : List (ℕ × Message)

namespace V3Block

/-- The checks of `decodeV3ForAppend`: while the identity stands, the records
are their indexes, and the nonce goes with its flag. -/
def appendable (block : V3Block) : Bool :=
  (block.stripped ||
    decide (block.records.map Prod.fst = range block.records.length)) &&
    decide (block.transactional = decide (block.nonce ≠ 0))

/-- `synthesizeFraming`. -/
def framing (block : V3Block) : Option (List Frame) :=
  if block.records.all fun record => record.2.encodable then
    some (block.records.map fun record =>
      Frame.ofMessage (wrapInt64 (block.baseOffset + record.1))
        block.timestamp block.leaderEpoch record.2)
  else none

/-- `Rewrite`. -/
def rewrite (block : V3Block) (baseOffset : ℤ) (leaderEpoch : ℕ) (timestamp : ℤ) : V3Block :=
  { block with
    baseOffset := baseOffset
    leaderEpoch := leaderEpoch
    timestamp := timestamp }

/-- `writeV3`, up to the write. -/
def checked (tail : ℤ) (block : V3Block) : Option Block :=
  (block.framing.filter fun frames => checkAppendedSet tail frames).map
    fun frames => ⟨.v3, block.stripped, block.control, frames⟩

end V3Block

/-- The headers a batch identity is written to: `pid`, `epoch`, `seq` and
`nonce`. -/
def identityHeaders : List Bytes :=
  [[112, 105, 100], [101, 112, 111, 99, 104], [115, 101, 113], [110, 111, 110, 99, 101]]

/-- `BatchMeta`; `stamp` is what the identity makes of the message at an
index. -/
structure BatchMeta where
  isZero : Bool
  nonce : ℕ
  stamp : ℕ → Message → Message

/-- The refusals of `AppendBatch` for either block format. -/
def batchAllowed (messages : List StampedMessage) : Bool :=
  !messages.isEmpty && messages.all fun m => !m.message.hasAnyHeader identityHeaders

/-- What one version-3 header can say of a batch: one timestamp, one epoch and
one kind. -/
def batchUniform (messages : List StampedMessage) : Bool :=
  messages.all fun a => messages.all fun b =>
    (decide (a.timestamp = 0) || decide (b.timestamp = 0) ||
      decide (a.timestamp = b.timestamp)) &&
    decide (a.leaderEpoch = b.leaderEpoch) &&
    decide (a.message.isControl = b.message.isControl)

/-- The block `AppendBatch` encodes; the base offset is set under the
lock. -/
def BatchMeta.block (batch : BatchMeta) (messages : List StampedMessage)
    (next now : ℤ) : V3Block where
  baseOffset := next
  timestamp := ((messages.map StampedMessage.timestamp).find? fun t => decide (t ≠ 0)).getD now
  leaderEpoch := (messages.head?.map StampedMessage.leaderEpoch).getD 0
  stripped := batch.isZero
  control := (messages.head?.map fun m => m.message.isControl).getD false
  transactional := decide (batch.nonce ≠ 0)
  nonce := batch.nonce
  records := messages.zipIdx.map fun m => (m.2, batch.stamp m.2 m.1.message)

end CommitLog
