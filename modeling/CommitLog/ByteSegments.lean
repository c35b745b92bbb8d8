import CommitLog.FrameReads

/-!
# Segments of bytes

A segment as the bytes of its frames and the entries of its index.  A raw
segment has an entry for each frame, a block segment one for the first frame
of each block.  A search finds the entry itself in a raw segment; in a block
segment it finds the block to start from and reads headers from there on.
-/

namespace CommitLog

open List

variable {position : ℕ} {e : Entry} {front rest : List Bytes} {ms : Bytes}

structure ByteSegment where
  base : ℤ
  blockMode : Bool
  batches : List (List Bytes)

def entryOf (position : ℕ) (ms : Bytes) : Entry :=
  ⟨(setFrame ms).offset, (setFrame ms).timestamp, position, ms.length⟩

@[simp] theorem offset_entryOf (position : ℕ) (ms : Bytes) :
    (entryOf position ms).offset = (setFrame ms).offset := by
  simp only [entryOf]

@[simp] theorem timestamp_entryOf (position : ℕ) (ms : Bytes) :
    (entryOf position ms).timestamp = (setFrame ms).timestamp := by
  simp only [entryOf]

def frameEntries : ℕ → List Bytes → List Entry
  | _, [] => []
  | position, ms :: frames =>
    entryOf position ms :: frameEntries (position + ms.length) frames

/-- One entry per block, at its first frame. -/
def batchEntries : ℕ → List (List Bytes) → List Entry
  | _, [] => []
  | position, batch :: batches =>
    (batch.head?.map (entryOf position)).toList ++
      batchEntries (position + batch.flatten.length) batches

/-- `scanForward`: the first frame from a position on at or above an offset.
Only headers are read, and no checksum. -/
def scanForward (bytes : Bytes) (target : ℤ) : ℕ → ℕ → Option Entry
  | 0, _ => none
  | fuel + 1, position =>
    if bytes.length < position + msgSetHeaderLen then none
    else
      let ms := bytes.drop position
      if target ≤ (setFrame ms).offset then
        some ⟨(setFrame ms).offset, (setFrame ms).timestamp, position,
          int32 (setSize ms + msgSetHeaderLen)⟩
      else
        scanForward bytes target fuel (position + msgSetHeaderLen + (setSize ms).toNat)

namespace ByteSegment

def frames (seg : ByteSegment) : List Bytes := seg.batches.flatten

def bytes (seg : ByteSegment) : Bytes := seg.frames.flatten

def written (seg : ByteSegment) : List Entry :=
  if seg.blockMode then batchEntries 0 seg.batches
  else frameEntries 0 seg.frames

def index (seg : ByteSegment) : List Entry :=
  seg.written.map (Entry.stored seg.base)

/-- `NextOffset`. -/
def nextOffset (seg : ByteSegment) : ℤ :=
  match seg.frames.getLast? with
  | none => seg.base
  | some ms => wrapInt64 ((setFrame ms).offset + 1)

def lastOffset (seg : ByteSegment) : ℤ :=
  (seg.frames.getLast?.map fun ms => (setFrame ms).offset).getD (-1)

/-- `anchorPositionForOffset`. -/
def anchorPosition (seg : ByteSegment) (offset : ℤ) : ℤ :=
  let i := SortSearch.search seg.index.length fun i =>
    (seg.index[i]?).any fun e => decide (offset < e.offset)
  ((seg.index[i - 1]?).map Entry.position).getD 0

/-- `findEntry`. -/
def findEntry (seg : ByteSegment) (offset : ℤ) : Option Entry :=
  if seg.blockMode then
    if seg.anchorPosition offset < 0 then none
    else
      scanForward seg.bytes offset seg.bytes.length (seg.anchorPosition offset).toNat
  else
    seg.index[SortSearch.search seg.index.length fun i =>
      (seg.index[i]?).any fun e => decide (offset ≤ e.offset)]?

end ByteSegment

structure ByteSegment.WellFormed (seg : ByteSegment) : Prop where
  whole : ∀ ms ∈ seg.frames, WholeFrame ms
  base_nonneg : 0 ≤ seg.base
  base_le_max : seg.base ≤ maxInt64
  base_le : ∀ ms ∈ seg.frames, seg.base ≤ (setFrame ms).offset
  rising : seg.frames.Pairwise fun a b =>
    (setFrame a).offset < (setFrame b).offset
  below : ∀ ms ∈ seg.frames, (setFrame ms).offset < maxInt64

def ByteSegment.Indexed (seg : ByteSegment) : Prop :=
  ∀ e ∈ seg.written, e.stored seg.base = e

/-! ## Searches -/

/-- `entrySearch`: the tests for the anchors, for the headers of frames and
for index entries. -/
structure EntrySearch where
  anchor : Entry → Bool
  message : SetFrame → Bool
  entry : Entry → Bool

/-- `scanForward` to the first frame that passes a test. -/
def scanForwardBy (bytes : Bytes) (message : SetFrame → Bool) : ℕ → ℕ → Option Entry
  | 0, _ => none
  | fuel + 1, position =>
    if bytes.length < position + msgSetHeaderLen then none
    else
      let ms := bytes.drop position
      if message (setFrame ms) then
        some ⟨(setFrame ms).offset, (setFrame ms).timestamp, position,
          int32 (setSize ms + msgSetHeaderLen)⟩
      else
        scanForwardBy bytes message fuel (position + msgSetHeaderLen + (setSize ms).toNat)

namespace ByteSegment

/-- `anchorPosition`: one step back from the first anchor that passes. -/
def anchorPositionBy (seg : ByteSegment) (anchor : Entry → Bool) : ℤ :=
  let i := SortSearch.search seg.index.length fun i =>
    (seg.index[i]?).any anchor
  ((seg.index[i - 1]?).map Entry.position).getD 0

def findEntryBy (seg : ByteSegment) (search : EntrySearch) : Option Entry :=
  if seg.blockMode then
    if seg.anchorPositionBy search.anchor < 0 then none
    else
      scanForwardBy seg.bytes search.message seg.bytes.length
        (seg.anchorPositionBy search.anchor).toNat
  else
    seg.index[SortSearch.search seg.index.length fun i =>
      (seg.index[i]?).any search.entry]?

end ByteSegment

def byOffset (offset : ℤ) : EntrySearch where
  anchor e := decide (offset < e.offset)
  message m := decide (offset ≤ m.offset)
  entry e := decide (offset ≤ e.offset)

def byTimestamp (timestamp : ℤ) : EntrySearch where
  anchor e := decide (timestamp ≤ e.timestamp)
  message m := decide (timestamp ≤ m.timestamp)
  entry e := decide (timestamp ≤ e.timestamp)

def ByteSegment.findEntryByTimestamp (seg : ByteSegment) (timestamp : ℤ) :
    Option Entry :=
  seg.findEntryBy (byTimestamp timestamp)

theorem scanForward_eq (bytes : Bytes) (offset : ℤ) (fuel position : ℕ) :
    scanForward bytes offset fuel position =
      scanForwardBy bytes (byOffset offset).message fuel position := by
  induction fuel generalizing position with
  | zero => rfl
  | succ fuel ih =>
    rw [scanForward, scanForwardBy]
    simp only [byOffset, decide_eq_true_eq] at ih ⊢
    rw [ih]

theorem ByteSegment.findEntry_eq_by (seg : ByteSegment) (offset : ℤ) :
    seg.findEntry offset = seg.findEntryBy (byOffset offset) := by
  unfold ByteSegment.findEntry ByteSegment.findEntryBy
  rw [scanForward_eq]
  rfl

/-! ## Entries -/

theorem frameEntries_append (position : ℕ) (front rest : List Bytes) :
    frameEntries position (front ++ rest) = frameEntries position front ++
        frameEntries (position + front.flatten.length) rest := by
  induction front generalizing position with
  | nil => simp [frameEntries]
  | cons ms front ih =>
    rw [cons_append, frameEntries, frameEntries, ih, flatten_cons,
      length_append, Nat.add_assoc, cons_append]

variable {frames : List Bytes}

theorem mem_frameEntries :
    e ∈ frameEntries position frames ↔ ∃ front ms rest, frames = front ++ ms :: rest ∧
        e = entryOf (position + front.flatten.length) ms := by
  constructor
  · intro hmem
    induction frames generalizing position with
    | nil => cases hmem
    | cons ms frames ih =>
      rcases mem_cons.mp hmem with rfl | hmem
      · exact ⟨[], ms, frames, rfl, rfl⟩
      · obtain ⟨front, other, rest, rfl, rfl⟩ := ih hmem
        refine ⟨ms :: front, other, rest, rfl, ?_⟩
        rw [flatten_cons, length_append, Nat.add_assoc]
  · rintro ⟨front, ms, rest, rfl, rfl⟩
    rw [frameEntries_append, frameEntries]
    simp

theorem frameEntries_pairwise {R : Entry → Entry → Prop}
    (hframes : frames.Pairwise fun a b => ∀ i j, R (entryOf i a) (entryOf j b)) (position : ℕ) :
    (frameEntries position frames).Pairwise R := by
  induction frames generalizing position with
  | nil => exact Pairwise.nil
  | cons ms frames ih =>
    have hparts := pairwise_cons.mp hframes
    rw [frameEntries, pairwise_cons]
    refine ⟨?_, ih hparts.2 _⟩
    intro e he
    obtain ⟨front, other, rest, rfl, rfl⟩ := mem_frameEntries.mp he
    exact hparts.1 other (by simp) _ _

theorem batchEntries_append (position : ℕ) (front rest : List (List Bytes)) :
    batchEntries position (front ++ rest) = batchEntries position front ++
        batchEntries (position + front.flatten.flatten.length) rest := by
  induction front generalizing position with
  | nil => simp [batchEntries]
  | cons batch front ih =>
    rw [cons_append, batchEntries, batchEntries, ih, flatten_cons, flatten_append, length_append,
      Nat.add_assoc, append_assoc]

theorem mem_batchEntries {position : ℕ} {batches : List (List Bytes)}
    {e : Entry} (hmem : e ∈ batchEntries position batches) :
    ∃ before ms batch after, batches = before ++ (ms :: batch) :: after ∧
      e = entryOf (position + before.flatten.flatten.length) ms := by
  induction batches generalizing position with
  | nil => cases hmem
  | cons batch batches ih =>
    rcases mem_append.mp hmem with hmem | hmem
    · cases batch with
      | nil => cases hmem
      | cons ms batch =>
        have heq : e = entryOf position ms := by simpa using hmem
        exact ⟨[], ms, batch, batches, rfl, by simpa using heq⟩
    · obtain ⟨before, ms, inner, after, rfl, rfl⟩ := ih hmem
      refine ⟨batch :: before, ms, inner, after, rfl, ?_⟩
      rw [flatten_cons, flatten_append, length_append, Nat.add_assoc]

theorem head_batchEntries {position : ℕ} {batches : List (List Bytes)} {e : Entry}
    (hhead : (batchEntries position batches).head? = some e) : e.position = position := by
  induction batches generalizing position with
  | nil => cases hhead
  | cons batch batches ih =>
    cases batch with
    | nil => exact ih hhead
    | cons ms batch =>
      have heq : entryOf position ms = e := by
        simpa [batchEntries] using hhead
      rw [← heq]
      rfl

theorem batchEntries_sublist (position : ℕ) (batches : List (List Bytes)) :
    (batchEntries position batches).Sublist (frameEntries position batches.flatten) := by
  induction batches generalizing position with
  | nil => exact Sublist.slnil
  | cons batch batches ih =>
    rw [batchEntries, flatten_cons, frameEntries_append]
    apply Sublist.append _ (ih _)
    cases batch with
    | nil => exact Sublist.slnil
    | cons ms batch =>
      exact Sublist.cons_cons _ (nil_sublist _)

theorem length_le_flatten (hwhole : ∀ ms ∈ frames, WholeFrame ms) :
    frames.length ≤ frames.flatten.length := by
  induction frames with
  | nil => simp
  | cons ms frames ih =>
    have hheader := (hwhole ms mem_cons_self).1
    have hrest := ih fun other hother =>
      hwhole other (mem_cons_of_mem _ hother)
    unfold msgSetHeaderLen at hheader
    rw [flatten_cons, length_append, length_cons]
    omega

theorem flatMap_split {α β : Type*} {f : β → List α} {items : List β} {front rest : List α} {a : α}
    (hsplit : items.flatMap f = front ++ a :: rest) :
    ∃ before item after inner outer,
      items = before ++ item :: after ∧ f item = inner ++ a :: outer ∧
        front = before.flatMap f ++ inner ∧
        rest = outer ++ after.flatMap f := by
  induction items generalizing front with
  | nil => simp at hsplit
  | cons item items ih =>
    rw [flatMap_cons] at hsplit
    rcases append_eq_append_iff.mp hsplit with
      ⟨middle, rfl, hrest⟩ | ⟨middle, hitem, hrest⟩
    · rcases ih hrest with
        ⟨before, found, after, inner, outer, rfl, hfound, rfl, rfl⟩
      refine ⟨item :: before, found, after, inner, outer, rfl, hfound, ?_,
        rfl⟩
      rw [flatMap_cons, append_assoc]
    · cases middle with
      | nil =>
        rcases @ih [] hrest.symm with
          ⟨before, found, after, inner, outer, rfl, hfound, hfront, rfl⟩
        refine ⟨item :: before, found, after, inner, outer, rfl, hfound, ?_, rfl⟩
        rw [flatMap_cons, hitem, append_nil, append_assoc, ← hfront, append_nil]
      | cons b middle =>
        rw [cons_append, cons.injEq] at hrest
        rcases hrest with ⟨rfl, rfl⟩
        exact ⟨[], item, items, front, middle, rfl, hitem, rfl, rfl⟩

/-! ## What a search finds -/

def Entry.narrow (e : Entry) : Entry := { e with size := int32 e.size }

/-- The tests on headers and on entries are the same. -/
def EntrySearch.Agrees (search : EntrySearch) : Prop :=
  ∀ position ms, search.message (setFrame ms) = search.entry (entryOf position ms)

theorem byOffset_agrees (offset : ℤ) : (byOffset offset).Agrees := by
  intro position ms
  simp [byOffset, entryOf]

theorem byTimestamp_agrees (timestamp : ℤ) : (byTimestamp timestamp).Agrees := by
  intro position ms
  simp [byTimestamp, entryOf]

theorem scanForwardBy_eq {search : EntrySearch} (hagrees : search.Agrees) (hwhole : ∀ ms ∈ frames, WholeFrame ms)
    {bytes before : Bytes} (hbytes : bytes = before ++ frames.flatten)
    {fuel : ℕ} (hfuel : frames.length ≤ fuel) :
    scanForwardBy bytes search.message fuel before.length =
      ((frameEntries before.length frames).find? search.entry).map
        Entry.narrow := by
  induction frames generalizing before fuel with
  | nil =>
    have hshort : bytes.length < before.length + msgSetHeaderLen := by
      rw [hbytes]
      simp [msgSetHeaderLen]
    cases fuel with
    | zero => rfl
    | succ fuel =>
      rw [scanForwardBy, if_pos hshort]
      rfl
  | cons ms frames ih =>
    have hms := hwhole ms mem_cons_self
    have hheader := hms.1
    have hsize := hms.2
    have hlength := hms.toNat_setSize
    obtain ⟨fuel, rfl⟩ : ∃ n, fuel = n + 1 :=
      ⟨fuel - 1, by rw [length_cons] at hfuel; omega⟩
    have hdrop : bytes.drop before.length = ms ++ frames.flatten := by
      rw [hbytes, drop_left, flatten_cons]
    have hlong : ¬ bytes.length < before.length + msgSetHeaderLen := by
      rw [hbytes]
      simp only [length_append, flatten_cons]
      omega
    have hnext := @ih (fun other hother => hwhole other (mem_cons_of_mem _ hother))
      (before ++ ms) (by
        rw [hbytes, flatten_cons, append_assoc])
      fuel (by simpa using hfuel)
    rw [length_append] at hnext
    rw [scanForwardBy, if_neg hlong, frameEntries, find?_cons]
    simp only [hdrop, hms.setFrame_append, setSize_append hheader, hagrees before.length ms]
    cases htest : search.entry (entryOf before.length ms) with
    | true =>
      have hwide : setSize ms + msgSetHeaderLen = (ms.length : ℤ) := by
        rw [hsize]
        omega
      rw [if_pos rfl, hwide]
      simp only [Option.map_some, Entry.narrow, entryOf]
    | false =>
      rw [if_neg Bool.false_ne_true, Nat.add_assoc, hlength, hnext]

section Seek

variable {seg : ByteSegment} {search : EntrySearch}

theorem ByteSegment.Indexed.index_eq (hindexed : seg.Indexed) : seg.index = seg.written := by
  unfold ByteSegment.index
  rw [map_congr_left hindexed, map_id']

theorem ByteSegment.Indexed.findEntryBy_raw (hindexed : seg.Indexed) (hraw : seg.blockMode = false)
    (hrising : (frameEntries 0 seg.frames).Pairwise fun a b =>
      search.entry a = true → search.entry b = true) :
    seg.findEntryBy search = (frameEntries 0 seg.frames).find? search.entry := by
  have hwritten : seg.written = frameEntries 0 seg.frames := by
    rw [ByteSegment.written, if_neg (by simp [hraw])]
  rw [ByteSegment.findEntryBy, if_neg (by simp [hraw]), hindexed.index_eq,
    hwritten, SortSearch.getElem?_search hrising]

theorem ByteSegment.Indexed.anchorPositionBy_spec (hindexed : seg.Indexed)
    (hblocks : seg.blockMode = true)
    (hrising : (frameEntries 0 seg.frames).Pairwise fun a b =>
      search.anchor a = true → search.anchor b = true)
    (hback : (frameEntries 0 seg.frames).Pairwise fun a b =>
      search.anchor b = false → search.entry a = false) :
    ∃ before after, seg.batches = before ++ after ∧
      seg.anchorPositionBy search.anchor = before.flatten.flatten.length ∧
      ∀ e ∈ frameEntries 0 before.flatten, search.entry e = false := by
  have hwritten : seg.written = batchEntries 0 seg.batches := by
    rw [ByteSegment.written, if_pos hblocks]
  obtain ⟨low, high, hentries, hlow, hhigh⟩ := SortSearch.exists_split
    (hrising.sublist (batchEntries_sublist 0 seg.batches))
  unfold ByteSegment.anchorPositionBy
  rw [hindexed.index_eq, hwritten, hentries, SortSearch.search_append hlow hhigh]
  rcases eq_nil_or_concat' low with rfl | ⟨front, e, rfl⟩
  · -- no anchor to step back to: the first one stands at the start
    refine ⟨[], seg.batches, rfl, ?_, by simp [frameEntries]⟩
    rw [nil_append] at hentries
    simp only [length_nil, Nat.zero_sub, nil_append]
    cases hhead : high with
    | nil => rfl
    | cons e high =>
      have hposition := @head_batchEntries 0 seg.batches e (by
        rw [hentries, hhead]
        rfl)
      simp [hposition]
  · obtain ⟨before, ms, batch, after, hbatches, rfl⟩ :=
      @mem_batchEntries 0 seg.batches e (by rw [hentries]; simp)
    refine ⟨before, (ms :: batch) :: after, hbatches, ?_, ?_⟩
    · simp [entryOf]
    · intro other hother
      have hframes : frameEntries 0 seg.frames = frameEntries 0 before.flatten ++
          frameEntries (0 + before.flatten.flatten.length) (ms :: (batch ++ after.flatten)) := by
        rw [← frameEntries_append, ByteSegment.frames, hbatches]
        simp
      rw [hframes] at hback
      apply (pairwise_append.mp hback).2.2 other hother _ mem_cons_self
      exact hlow _ (by simp)

theorem ByteSegment.Indexed.findEntryBy_blocks (hindexed : seg.Indexed)
    (hwhole : ∀ ms ∈ seg.frames, WholeFrame ms)
    (hblocks : seg.blockMode = true) (hagrees : search.Agrees)
    (hrising : (frameEntries 0 seg.frames).Pairwise fun a b =>
      search.anchor a = true → search.anchor b = true)
    (hback : (frameEntries 0 seg.frames).Pairwise fun a b =>
      search.anchor b = false → search.entry a = false) :
    seg.findEntryBy search = ((frameEntries 0 seg.frames).find? search.entry).map Entry.narrow := by
  obtain ⟨before, after, hbatches, hanchor, hlower⟩ :=
    hindexed.anchorPositionBy_spec hblocks hrising hback
  have hframes : seg.frames = before.flatten ++ after.flatten := by
    rw [ByteSegment.frames, hbatches, flatten_append]
  have hbytes : seg.bytes = before.flatten.flatten ++ after.flatten.flatten := by
    rw [ByteSegment.bytes, hframes, flatten_append]
  have hcount : after.flatten.length ≤ seg.bytes.length := by
    have hle := length_le_flatten hwhole
    rw [hframes, length_append, ← hframes] at hle
    rw [ByteSegment.bytes]
    omega
  have hnone : (frameEntries 0 before.flatten).find? search.entry = none := by
    rw [find?_eq_none]
    intro e he
    simp [hlower e he]
  have hscan := scanForwardBy_eq hagrees
    (fun ms hms => hwhole ms (by rw [hframes]; exact mem_append_right _ hms))
    hbytes hcount
  rw [ByteSegment.findEntryBy, if_pos hblocks, hanchor, if_neg (by omega), Int.toNat_natCast, hscan,
    hframes, frameEntries_append, find?_append, hnone, Option.none_or, Nat.zero_add]

theorem ByteSegment.WellFormed.byOffset_rising (hwf : seg.WellFormed) (target : ℤ) :
    ((frameEntries 0 seg.frames).Pairwise fun a b =>
        (byOffset target).entry a = true → (byOffset target).entry b = true) ∧
      ((frameEntries 0 seg.frames).Pairwise fun a b =>
        (byOffset target).anchor a = true → (byOffset target).anchor b = true) ∧
      (frameEntries 0 seg.frames).Pairwise fun a b =>
        (byOffset target).anchor b = false → (byOffset target).entry a = false := by
  simp only [byOffset, decide_eq_true_eq, decide_eq_false_iff_not]
  refine ⟨?_, ?_, ?_⟩ <;> refine frameEntries_pairwise ?_ 0 <;>
    refine hwf.rising.imp ?_ <;> intro a b hlt i j <;>
    simp only [offset_entryOf] <;> omega

theorem ByteSegment.WellFormed.findEntry_raw (hwf : seg.WellFormed)
    (hraw : seg.blockMode = false) (hindexed : seg.Indexed) (target : ℤ) :
    seg.findEntry target = (frameEntries 0 seg.frames).find? fun e =>
      decide (target ≤ e.offset) := by
  rw [seg.findEntry_eq_by]
  exact hindexed.findEntryBy_raw hraw (hwf.byOffset_rising target).1

theorem ByteSegment.WellFormed.findEntry_blocks (hwf : seg.WellFormed)
    (hblocks : seg.blockMode = true) (hindexed : seg.Indexed) (target : ℤ) :
    seg.findEntry target = ((frameEntries 0 seg.frames).find? fun e =>
      decide (target ≤ e.offset)).map Entry.narrow := by
  obtain ⟨-, hrising, hback⟩ := hwf.byOffset_rising target
  rw [seg.findEntry_eq_by]
  exact hindexed.findEntryBy_blocks hwf.whole hblocks (byOffset_agrees target) hrising hback

theorem find?_offset {frames : List Bytes} {target : ℤ} (hsplit : frames = front ++ ms :: rest)
    (hbelow : ∀ other ∈ front, (setFrame other).offset < target)
    (hat : target ≤ (setFrame ms).offset) :
    ((frameEntries 0 frames).find? fun e => decide (target ≤ e.offset)) =
      some (entryOf front.flatten.length ms) := by
  have hnone : (frameEntries 0 front).find? (fun e =>
      decide (target ≤ e.offset)) = none := by
    rw [find?_eq_none]
    intro e he
    obtain ⟨before, other, after, rfl, rfl⟩ := mem_frameEntries.mp he
    have hlt := hbelow other (by simp)
    rw [decide_eq_true_eq, offset_entryOf]
    omega
  rw [hsplit, frameEntries_append, find?_append, hnone, Option.none_or,
    frameEntries, find?_cons_of_pos (by simpa using hat), Nat.zero_add]

theorem ByteSegment.WellFormed.findEntry_target (hwf : seg.WellFormed)
    (hindexed : seg.Indexed) {target : ℤ} (hsplit : seg.frames = front ++ ms :: rest)
    (hbelow : ∀ other ∈ front, (setFrame other).offset < target)
    (hat : target ≤ (setFrame ms).offset) :
    (seg.findEntry target).map (fun e => (e.offset, e.timestamp, e.position)) =
      some ((setFrame ms).offset, (setFrame ms).timestamp, (front.flatten.length : ℤ)) := by
  have hfound := find?_offset hsplit hbelow hat
  cases hmode : seg.blockMode with
  | false =>
    rw [hwf.findEntry_raw hmode hindexed, hfound]
    simp only [Option.map_some, entryOf]
  | true =>
    rw [hwf.findEntry_blocks hmode hindexed, hfound]
    simp only [Option.map_some, Entry.narrow, entryOf]

theorem ByteSegment.WellFormed.findEntry_eq (hwf : seg.WellFormed) (hindexed : seg.Indexed)
    (hsplit : seg.frames = front ++ ms :: rest) :
    (seg.findEntry (setFrame ms).offset).map (fun e => (e.offset, e.timestamp, e.position)) =
      some ((setFrame ms).offset, (setFrame ms).timestamp, (front.flatten.length : ℤ)) := by
  have hrising := hwf.rising
  rw [hsplit] at hrising
  apply hwf.findEntry_target hindexed hsplit
  · intro other hother
    exact (pairwise_append.mp hrising).2.2 other hother ms mem_cons_self
  · exact le_rfl

end Seek

end CommitLog
