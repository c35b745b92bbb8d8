import CommitLog.AcceptedBytes
import CommitLog.PositionWalks

/-!
# The walks of recovery

Three loops go from header to header by the size field they read there:
`reconcileIndexTailRaw` over the tail of a raw file, `lastFrameInBlock` over a
decoded block, and `scanForward` over the logical bytes of a segment.  The
field is a signed number that none of them looks at, and the first writes an
index entry for a header without comparing its checksum.
-/

namespace CommitLog

open List Runs

/-! ## The loops -/

/-- A loop from header to header.  It goes on where the bytes hold a header,
unless it stops at what they begin with there. -/
def headerWalk {α ω : Type*} (bytes : Bytes) (goesOn : Bytes → Bool)
    (note : ℤ → Bytes → α) (ending : ℤ → ω) : Walk α ω where
  goes q := decide (0 ≤ q) && decide (q + msgSetHeaderLen ≤ bytes.length) &&
    goesOn (bytes.drop q.toNat)
  next q := q + msgSetHeaderLen + setSize (bytes.drop q.toNat)
  note q := note q (bytes.drop q.toNat)
  ending := ending

def headerEntry (position : ℤ) (ms : Bytes) : Entry :=
  ⟨(setFrame ms).offset, (setFrame ms).timestamp, position, int32 (setSize ms + msgSetHeaderLen)⟩

inductive TailEnding
  | done
  | torn (keep : ℤ)
  | readFailed
deriving DecidableEq

/-- Where `reconcileIndexTailRaw` starts: behind the last indexed frame. -/
def tailStart (index : List Entry) : ℤ :=
  (index.getLast?.map fun e => e.position + e.size).getD 0

/-- The loop of `reconcileIndexTailRaw`, with the entries it writes. -/
def tailWalk (bytes : Bytes) : Walk Entry TailEnding :=
  headerWalk bytes (fun ms => decide (msgSetHeaderLen + setSize ms ≤ ms.length)) headerEntry
    fun q =>
      if bytes.length ≤ q then .done
      else if bytes.length < q + msgSetHeaderLen then .torn q
      else if q < 0 then .readFailed
      else .torn q

inductive BlockEnding
  | done
  | panicked
deriving DecidableEq

/-- The loop of `lastFrameInBlock` over a decoded block, with the entries it
comes by.  A slice from a negative position panics. -/
def blockWalk (data : Bytes) (logicalStart : ℤ) : Walk Entry BlockEnding :=
  headerWalk data (fun _ => true) (fun q ms => headerEntry (logicalStart + q) ms)
    fun q => if data.length < q + msgSetHeaderLen then .done else .panicked

inductive ScanEnding
  | found (e : Entry)
  | notFound
  | readFailed
deriving DecidableEq

/-- The loop of `scanForward`. -/
def scanWalk (bytes : Bytes) (message : SetFrame → Bool) :
    Walk Unit ScanEnding :=
  headerWalk bytes (fun ms => !message (setFrame ms)) (fun _ _ => ()) fun q =>
    if q < 0 then .readFailed
    else if bytes.length < q + msgSetHeaderLen then .notFound
    else .found (headerEntry q (bytes.drop q.toNat))

/-! ## What is asked of them -/

/-- The walk over the tail of a raw file ends, each step is at least a header
long, and only headers with a matching checksum are indexed. -/
def TailWalkSound (headerCrc : Bytes → Fin (2 ^ 32)) (bytes : Bytes) (index : List Entry) : Prop :=
  (tailWalk bytes).EndsWith msgSetHeaderLen
    (fun e => headerCrcMatches headerCrc (bytes.drop e.position.toNat) = true)
    (tailStart index, [])

def BlockWalkEnds (data : Bytes) (logicalStart : ℤ) (start : ℕ) : Prop :=
  (blockWalk data logicalStart).EndsWith msgSetHeaderLen (fun _ => True) (start, [])

def ScanWalkEnds (bytes : Bytes) (message : SetFrame → Bool) (start : ℤ) :
    Prop :=
  (scanWalk bytes message).EndsWith msgSetHeaderLen (fun _ => True) (start, [])

/-- The bytes are whole frames that pass, and then a header cut short, a frame
longer than what is left, or one the loop stops at. -/
def CutsInto (passes stops : Bytes → Prop) (bytes : Bytes) : Prop :=
  ∃ (frames : List Bytes) (rest : Bytes), bytes = frames.flatten ++ rest ∧
    (∀ ms ∈ frames, WholeFrame ms ∧ passes ms) ∧
    (rest.length < msgSetHeaderLen ∨
      (rest.length : ℤ) < msgSetHeaderLen + setSize rest ∨ stops rest)

/-! ## One loop for the three -/

section HeaderWalk

variable {α ω : Type*} {bytes : Bytes} {goesOn : Bytes → Bool}
  {note : ℤ → Bytes → α} {ending : ℤ → ω}

theorem headerWalk_goes_iff {start : ℕ} : (headerWalk bytes goesOn note ending).goes start = true ↔
      start + msgSetHeaderLen ≤ bytes.length ∧ goesOn (bytes.drop start) = true := by
  have hfits : (start : ℤ) + msgSetHeaderLen ≤ bytes.length ↔
      start + msgSetHeaderLen ≤ bytes.length := by
    omega
  simp only [headerWalk, Bool.and_eq_true, decide_eq_true_eq,
    Int.toNat_natCast, Int.natCast_nonneg, true_and, hfits]

theorem headerWalk_next (start : ℕ) : (headerWalk bytes goesOn note ending).next start =
      start + msgSetHeaderLen + setSize (bytes.drop start) := by
  simp only [headerWalk, Int.toNat_natCast]

theorem headerWalk_note (start : ℕ) : (headerWalk bytes goesOn note ending).note start =
      note start (bytes.drop start) := by
  simp only [headerWalk, Int.toNat_natCast]

theorem headerWalk_not_goes_of_neg {start : ℤ} (hneg : start < 0) :
    (headerWalk bytes goesOn note ending).goes start = false := by
  simp [headerWalk, not_le.mpr hneg]

theorem headerWalk_not_goes_of_short {start : ℕ} (hshort : bytes.length < start + msgSetHeaderLen) :
    (headerWalk bytes goesOn note ending).goes start = false := by
  rw [Bool.eq_false_iff, ne_eq, headerWalk_goes_iff]
  omega

structure NotesPass (bytes : Bytes) (goesOn : Bytes → Bool)
    (note : ℤ → Bytes → α) (Passes : α → Prop) (passes : Bytes → Prop) :
    Prop where
  note_iff : ∀ start : ℕ, start + msgSetHeaderLen ≤ bytes.length →
    (Passes (note start (bytes.drop start)) ↔ passes (bytes.drop start))
  append_iff : ∀ ms rest, msgSetHeaderLen ≤ ms.length → (passes (ms ++ rest) ↔ passes ms)
  overrun : ∀ ms, goesOn ms = true → (ms.length : ℤ) < msgSetHeaderLen + setSize ms → passes ms

variable {Passes : α → Prop} {passes : Bytes → Prop}

section

variable (hnotes : NotesPass bytes goesOn note Passes passes)
include hnotes

theorem headerWalk_endsWith {frames : List Bytes} {rest : Bytes} {start : ℕ}
    (hbytes : bytes.drop start = frames.flatten ++ rest)
    (hframes : ∀ ms ∈ frames, WholeFrame ms ∧ passes ms)
    (hrest : rest.length < msgSetHeaderLen ∨ (rest.length : ℤ) < msgSetHeaderLen + setSize rest ∨
      goesOn rest = false)
    {noted : List α} (hnoted : ∀ a ∈ noted, Passes a) :
    (headerWalk bytes goesOn note ending).EndsWith msgSetHeaderLen Passes ((start : ℤ), noted) := by
  have hstop : ∀ {start : ℕ} {noted : List α}, (∀ a ∈ noted, Passes a) →
      (headerWalk bytes goesOn note ending).goes start = false →
      (headerWalk bytes goesOn note ending).EndsWith msgSetHeaderLen Passes
        ((start : ℤ), noted) := fun hnoted hgoes =>
    (Walk.endsWith_of_not_goes hgoes).mpr hnoted
  induction frames generalizing start noted with
  | nil =>
    rw [flatten_nil, nil_append] at hbytes
    have hlength := congrArg length hbytes
    rw [length_drop] at hlength
    cases hgoes : (headerWalk bytes goesOn note ending).goes start with
    | false => exact hstop hnoted hgoes
    | true =>
      obtain ⟨hheader, hon⟩ := headerWalk_goes_iff.mp hgoes
      rw [hbytes] at hon
      have hover : (rest.length : ℤ) < msgSetHeaderLen + setSize rest := by
        rcases hrest with hshort | hover | hoff
        · omega
        · exact hover
        · rw [hoff] at hon
          cases hon
      -- The frame reaches behind the bytes, and the walk stops there.
      have hnext : (headerWalk bytes goesOn note ending).next start =
          ((start + (msgSetHeaderLen + setSize rest).toNat : ℕ) : ℤ) := by
        rw [headerWalk_next, hbytes]
        omega
      rw [Walk.endsWith_of_goes hgoes, hnext, headerWalk_note]
      refine ⟨by dsimp only; omega, hstop ?_ ?_⟩
      · rw [forall_mem_append, forall_mem_singleton]
        refine ⟨hnoted, (hnotes.note_iff start hheader).mpr ?_⟩
        rw [hbytes]
        exact hnotes.overrun rest hon hover
      · exact headerWalk_not_goes_of_short (by omega)
  | cons ms frames ih =>
    obtain ⟨⟨hwhole, hpasses⟩, hframes⟩ := forall_mem_cons.mp hframes
    rw [flatten_cons, append_assoc] at hbytes
    cases hgoes : (headerWalk bytes goesOn note ending).goes start with
    | false => exact hstop hnoted hgoes
    | true =>
      have hheader := (headerWalk_goes_iff.mp hgoes).1
      have hnext : (headerWalk bytes goesOn note ending).next start =
          ((start + ms.length : ℕ) : ℤ) := by
        rw [headerWalk_next, hbytes, setSize_append hwhole.1, hwhole.2]
        have := hwhole.1
        omega
      rw [Walk.endsWith_of_goes hgoes, hnext, headerWalk_note]
      refine ⟨by have := hwhole.1; dsimp only; omega, ih ?_ hframes ?_⟩
      · rw [← drop_drop, hbytes, drop_left]
      · rw [forall_mem_append, forall_mem_singleton]
        refine ⟨hnoted, (hnotes.note_iff start hheader).mpr ?_⟩
        rw [hbytes, hnotes.append_iff _ _ hwhole.1]
        exact hpasses

theorem cutsInto_of_endsWith {start : ℕ} {noted : List α}
    (hends : (headerWalk bytes goesOn note ending).EndsWith msgSetHeaderLen
      Passes ((start : ℤ), noted)) :
    CutsInto passes (fun ms => goesOn ms = false) (bytes.drop start) := by
  have hpos : 0 < msgSetHeaderLen := by decide
  induction hleft : bytes.length - start using Nat.strong_induction_on generalizing start noted with
  | _ left ih =>
    by_cases hheader : start + msgSetHeaderLen ≤ bytes.length
    swap
    · refine ⟨[], bytes.drop start, rfl, by simp, Or.inl ?_⟩
      rw [length_drop]
      omega
    cases hon : goesOn (bytes.drop start) with
    | false => exact ⟨[], bytes.drop start, rfl, by simp, Or.inr (Or.inr hon)⟩
    | true =>
      rw [Walk.endsWith_of_goes (headerWalk_goes_iff.mpr ⟨hheader, hon⟩),
        headerWalk_next, headerWalk_note] at hends
      obtain ⟨hadvance, hends⟩ := hends
      obtain ⟨size, hsize⟩ :=
        Int.eq_ofNat_of_zero_le (a := setSize (bytes.drop start)) (by dsimp only at hadvance; omega)
      have hpasses := (hnotes.note_iff start hheader).mp (hends.noted _ (by simp))
      by_cases hover : bytes.length < start + (msgSetHeaderLen + size)
      · refine ⟨[], bytes.drop start, rfl, by simp, Or.inr (Or.inl ?_)⟩
        rw [length_drop, hsize]
        omega
      have hnext : (start : ℤ) + msgSetHeaderLen + setSize (bytes.drop start) =
            ((start + (msgSetHeaderLen + size) : ℕ) : ℤ) := by
        rw [hsize]
        push_cast
        ring
      rw [hnext] at hends
      obtain ⟨frames, rest, hbytes, hframes, hrest⟩ :=
        ih _ (by omega) hends rfl
      have hsplit : bytes.drop start = (bytes.drop start).take (msgSetHeaderLen + size) ++
            bytes.drop (start + (msgSetHeaderLen + size)) := by
        rw [← drop_drop, take_append_drop]
      have hlength : ((bytes.drop start).take
          (msgSetHeaderLen + size)).length = msgSetHeaderLen + size := by
        rw [length_take, length_drop]
        omega
      refine ⟨(bytes.drop start).take (msgSetHeaderLen + size) :: frames,
        rest, ?_, forall_mem_cons.mpr ⟨⟨⟨by omega, ?_⟩, ?_⟩, hframes⟩,
        hrest⟩
      · rw [flatten_cons, append_assoc, ← hbytes]
        exact hsplit
      · have hfirst := @setSize_append ((bytes.drop start).take (msgSetHeaderLen + size))
          (bytes.drop (start + (msgSetHeaderLen + size))) (by omega)
        rw [hlength, ← hfirst, ← hsplit, hsize]
        omega
      · rw [hsplit, hnotes.append_iff _ _ (by omega)] at hpasses
        exact hpasses

theorem headerWalk_endsWith_iff (start : ℕ) :
    (headerWalk bytes goesOn note ending).EndsWith msgSetHeaderLen Passes ((start : ℤ), []) ↔
      CutsInto passes (fun ms => goesOn ms = false) (bytes.drop start) := by
  constructor
  · exact cutsInto_of_endsWith hnotes
  · rintro ⟨frames, rest, hbytes, hframes, hrest⟩
    exact headerWalk_endsWith hnotes hbytes hframes hrest (by simp)

end

end HeaderWalk

/-! ## The three loops -/

theorem notesPass_true {α : Type*} (bytes : Bytes) (goesOn : Bytes → Bool) (note : ℤ → Bytes → α) :
    NotesPass bytes goesOn note (fun _ => True) fun _ => True where
  note_iff _ _ := Iff.rfl
  append_iff _ _ _ := Iff.rfl
  overrun _ _ _ := trivial

theorem tailWalk_notes (headerCrc : Bytes → Fin (2 ^ 32)) (bytes : Bytes) : NotesPass bytes
      (fun ms => decide (msgSetHeaderLen + setSize ms ≤ ms.length)) headerEntry
      (fun e =>
        headerCrcMatches headerCrc (bytes.drop e.position.toNat) = true)
      fun ms => headerCrcMatches headerCrc ms = true where
  note_iff start _ := by simp only [headerEntry, Int.toNat_natCast]
  append_iff ms rest hheader := by rw [headerCrcMatches_append hheader]
  overrun ms hon hover := by
    rw [decide_eq_true_eq] at hon
    omega

theorem cutsInto_congr {passes stops stops' : Bytes → Prop} {bytes : Bytes} (hstops : ∀ ms : Bytes,
      ((ms.length : ℤ) < msgSetHeaderLen + setSize ms ∨ stops ms) ↔
        ((ms.length : ℤ) < msgSetHeaderLen + setSize ms ∨ stops' ms)) :
    CutsInto passes stops bytes ↔ CutsInto passes stops' bytes := by
  unfold CutsInto
  simp only [hstops]

/-- The walk over the tail of a raw file is sound exactly if the bytes behind
the index are whole frames with matching headers and at most a frame cut
short; the other two walks end exactly if what they go over is whole frames
and at most one cut short, up to the frame a scan stops at. -/
theorem recoveryWalks_iff (headerCrc : Bytes → Fin (2 ^ 32)) (bytes : Bytes) :
    (∀ index, TailWalkSound headerCrc bytes index ↔ tailStart index < 0 ∨
        CutsInto (fun ms => headerCrcMatches headerCrc ms = true)
          (fun _ => False) (bytes.drop (tailStart index).toNat)) ∧
    (∀ logicalStart start, BlockWalkEnds bytes logicalStart start ↔
      CutsInto (fun _ => True) (fun _ => False) (bytes.drop start)) ∧
    (∀ message start, ScanWalkEnds bytes message start ↔ start < 0 ∨ CutsInto (fun _ => True)
        (fun ms => message (setFrame ms) = true) (bytes.drop start.toNat)) := by
  refine ⟨?_, ?_, ?_⟩
  · intro index
    rcases lt_or_ge (tailStart index) 0 with hneg | hpos
    · refine iff_of_true ?_ (Or.inl hneg)
      exact (Walk.endsWith_of_not_goes (headerWalk_not_goes_of_neg hneg)).mpr (by simp)
    · rw [or_iff_right (not_lt.mpr hpos)]
      obtain ⟨start, hstart⟩ := Int.eq_ofNat_of_zero_le hpos
      unfold TailWalkSound
      rw [hstart, Int.toNat_natCast]
      exact (headerWalk_endsWith_iff (tailWalk_notes headerCrc bytes)
        start).trans (cutsInto_congr fun ms => by simp)
  · intro logicalStart start
    exact (headerWalk_endsWith_iff (notesPass_true _ _ _) start).trans
      (cutsInto_congr fun ms => by simp)
  · intro message start
    rcases lt_or_ge start 0 with hneg | hpos
    · refine iff_of_true ?_ (Or.inl hneg)
      exact (Walk.endsWith_of_not_goes (headerWalk_not_goes_of_neg hneg)).mpr (by simp)
    · rw [or_iff_right (not_lt.mpr hpos)]
      obtain ⟨position, rfl⟩ := Int.eq_ofNat_of_zero_le hpos
      rw [Int.toNat_natCast]
      exact (headerWalk_endsWith_iff (notesPass_true _ _ _) position).trans
        (cutsInto_congr fun ms => by simp)

/-- A header whose size field takes the header's own length off. -/
def backwardHeader : Bytes :=
  replicate 24 0 ++ [255, 255, 255, 224] ++ replicate 4 0

theorem tailWalk_backwardHeader (n : ℕ) (noted : List Entry) :
    (tailWalk backwardHeader).after n (0, noted) =
      .more (0, noted ++ replicate n (headerEntry 0 backwardHeader)) := by
  have hgoes : (tailWalk backwardHeader).goes 0 = true ∧ (tailWalk backwardHeader).next 0 = 0 := by
    decide +kernel
  induction n generalizing noted with
  | zero => rw [replicate_zero, append_nil]; rfl
  | succ n ih =>
    rw [Walk.after_of_goes (s := (0, noted)) hgoes.1]
    dsimp only
    rw [hgoes.2, ih, append_assoc]
    rfl

/-- On an empty index the walk over such a file never ends and indexes it over
and over; and whatever the checksum is, a frame with a wrong one is indexed. -/
theorem backward_header_walks_on : (∀ n, (tailWalk backwardHeader).after n (tailStart [], []) =
      .more (0, replicate n (headerEntry 0 backwardHeader))) ∧
    ∀ headerCrc, ¬ TailWalkSound headerCrc backwardHeader [] ∧
    ∃ check, (tailWalk (shortSet check)).after 2 (tailStart [], []) =
        .stop (.done, [headerEntry 0 (shortSet check)]) ∧
      headerCrcMatches headerCrc (shortSet check) = false ∧
      ¬ TailWalkSound headerCrc (shortSet check) [] := by
  refine ⟨fun n => tailWalk_backwardHeader n [], fun headerCrc => ⟨?_, ?_⟩⟩
  · intro hsound
    obtain ⟨n, r, hstop, _⟩ := hsound fun _ => ()
    have hmore := tailWalk_backwardHeader (n + 1) []
    cases hmore.symm.trans hstop
  · obtain ⟨check, hcheck, hwrong⟩ := exists_wrong_header headerCrc
    have hwalk : (tailWalk (shortSet check)).goes 0 = true ∧
        (tailWalk (shortSet check)).next 0 = 33 ∧
        (tailWalk (shortSet check)).goes 33 = false ∧
        (tailWalk (shortSet check)).ending 33 = .done := by
      rcases hcheck with rfl | rfl <;> decide +kernel
    obtain ⟨hgoes, hnext, hstops, hdone⟩ := hwalk
    refine ⟨check, ?_, hwrong, ?_⟩
    · change (tailWalk (shortSet check)).after 2 (0, []) = _
      rw [Walk.after_of_goes (s := (0, [])) hgoes]
      dsimp only
      rw [hnext, Walk.after_of_not_goes hstops]
      dsimp only
      rw [hdone]
      rfl
    · intro hsound
      have hnoted := ((Walk.endsWith_of_goes (s := (0, [])) hgoes).mp hsound).2.noted
        ((tailWalk (shortSet check)).note 0) (by simp)
      change headerCrcMatches headerCrc (shortSet check) = true at hnoted
      rw [hwrong] at hnoted
      cases hnoted

end CommitLog
