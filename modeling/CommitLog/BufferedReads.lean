import CommitLog.TieredSwap

/-!
# Buffered reads

A `bufReader` keeps a window of a segment and a position that its reads, the
direct reads beside it and the seeks move.  The segment only grows, so what the
window holds stays true of it.
-/

namespace CommitLog

open List BlockSpace

/-- `segment.ReadAt` on the logical bytes of a segment. -/
def readSegmentAt (bytes : Bytes) (pos len : ℕ) : Bytes × ReadEnd :=
  let out := (bytes.drop pos).take len
  (out, if out.length < len then .eof else .full)

structure BufReader where
  data : Bytes
  pos : ℕ
  bufStart : ℕ

namespace BufReader

def reset (pos : ℕ) : BufReader := ⟨[], pos, pos⟩

def advanceTo (b : BufReader) (pos : ℕ) : BufReader := { b with pos := pos }

def fill (bytes : Bytes) (b : BufReader) : BufReader × ReadEnd :=
  let filled := readSegmentAt bytes b.pos bufReadSize
  (⟨filled.1, b.pos, b.pos⟩, filled.2)

/-- The copy out of the window that both branches of `Read` end with. -/
def serve (b : BufReader) (len : ℕ) (finish : ReadEnd) : BufReader × Bytes × ReadEnd :=
  let out := (b.data.drop (b.pos - b.bufStart)).take len
  (b.advanceTo (b.pos + out.length), out, if out.length < len then finish else .full)

def read (bytes : Bytes) (b : BufReader) (len : ℕ) : BufReader × Bytes × ReadEnd :=
  if b.bufStart ≤ b.pos ∧ b.pos + len ≤ b.bufStart + b.data.length then
    b.serve len .failed
  else
    let filled := b.fill bytes
    if filled.1.data = [] then
      -- no bytes and no reason is an error of its own
      (filled.1, [], if filled.2 = .full then .failed else filled.2)
    else filled.1.serve len filled.2

/-- The window holds what the segment holds there. -/
def Holds (bytes : Bytes) (b : BufReader) : Prop :=
  b.data = (bytes.drop b.bufStart).take b.data.length

end BufReader

/-- What happens to a reader on one segment, appends to the segment included;
`direct` is the `ReadAt` of `readLoop` with the `advanceTo` behind it. -/
inductive BufCall
  | append (more : Bytes)
  | read (len : ℕ)
  | direct (len : ℕ)
  | refill
  | seek (pos : ℕ)
  | advanceTo (pos : ℕ)

/-- The bytes at the position, and at least one of them unless the end is
reported; the end only where the bytes stop at the time of the call. -/
structure Delivered (bytes : Bytes) (pos len : ℕ) (result : Bytes × ReadEnd) : Prop where
  bytes_eq : result.1 = (bytes.drop pos).take result.1.length
  length_le : result.1.length ≤ len
  sound : result.2 ≠ .failed
  eof : result.2 = .eof → bytes.length ≤ pos + result.1.length
  progress : result.2 = .full → 0 < len → result.1 ≠ []

/-- Every read of a run delivers what is at the caller's position, which only
the bytes delivered and the caller's own moves change. -/
def Transparent : Bytes → ℕ → BufReader → List BufCall → Prop
  | _, _, _, [] => True
  | bytes, pos, b, .append more :: calls => Transparent (bytes ++ more) pos b calls
  | bytes, pos, b, .read len :: calls =>
    let next := b.read bytes len
    Delivered bytes pos len next.2 ∧ Transparent bytes (pos + next.2.1.length) next.1 calls
  | bytes, pos, b, .direct len :: calls =>
    let found := readSegmentAt bytes pos len
    Delivered bytes pos len found ∧
      Transparent bytes (pos + found.1.length) (b.advanceTo (pos + found.1.length)) calls
  | bytes, pos, _, .refill :: calls => Transparent bytes pos (.reset pos) calls
  | bytes, _, _, .seek pos :: calls => Transparent bytes pos (.reset pos) calls
  | bytes, _, b, .advanceTo pos :: calls => Transparent bytes pos (b.advanceTo pos) calls

theorem readSegmentAt_delivered (bytes : Bytes) (pos len : ℕ) :
    Delivered bytes pos len (readSegmentAt bytes pos len) := by
  unfold readSegmentAt
  constructor
  · exact (take_length_take len (bytes.drop pos)).symm
  · exact length_take_le _ _
  · dsimp only
    split_ifs <;> simp
  · simp only [length_take, length_drop]
    split_ifs with hshort
    · omega
    · simp
  · simp only [length_take, length_drop, ne_eq, ← length_eq_zero_iff]
    split_ifs with hshort
    · simp
    · omega

namespace BufReader

variable {bytes : Bytes} {b : BufReader} {len : ℕ}

theorem Holds.append (hholds : b.Holds bytes) (more : Bytes) : b.Holds (bytes ++ more) := by
  have hlength := congrArg length hholds
  rw [length_take, length_drop] at hlength
  unfold Holds
  rw [drop_append, take_append_of_le_length (by rw [length_drop]; omega)]
  exact hholds

theorem Holds.serve (hholds : b.Holds bytes) (hstart : b.bufStart ≤ b.pos) (finish : ReadEnd) :
    (b.serve len finish).2.1 = (bytes.drop b.pos).take (b.serve len finish).2.1.length := by
  unfold BufReader.serve
  conv_lhs => rw [hholds]
  rw [drop_take, drop_drop, Nat.add_sub_of_le hstart, take_take, length_take, length_drop]

theorem fill_holds (bytes : Bytes) (b : BufReader) : (b.fill bytes).1.Holds bytes :=
  (readSegmentAt_delivered bytes b.pos bufReadSize).bytes_eq

theorem window_delivered (hholds : b.Holds bytes)
    (hwindow : b.bufStart ≤ b.pos ∧ b.pos + len ≤ b.bufStart + b.data.length) :
    Delivered bytes b.pos len (b.serve len .failed).2 := by
  have hfull : ((b.data.drop (b.pos - b.bufStart)).take len).length = len := by
    rw [length_take, length_drop]
    omega
  constructor
  · exact hholds.serve hwindow.1 .failed
  · exact length_take_le _ _
  · simp [BufReader.serve, hfull]
  · simp [BufReader.serve, hfull]
  · intro _ hpos hnil
    rw [← length_eq_zero_iff] at hnil
    exact absurd (hfull.symm.trans hnil) hpos.ne'

theorem filled_delivered (hdata : (b.fill bytes).1.data ≠ []) :
    Delivered bytes b.pos len ((b.fill bytes).1.serve len (b.fill bytes).2).2 := by
  have hread := readSegmentAt_delivered bytes b.pos bufReadSize
  have hout : ((b.fill bytes).1.serve len (b.fill bytes).2).2 = ((b.fill bytes).1.data.take len,
        if ((b.fill bytes).1.data.take len).length < len then (b.fill bytes).2 else .full) := by
    simp [BufReader.serve, fill]
  constructor
  · exact (fill_holds bytes b).serve le_rfl _
  · exact length_take_le _ _
  · rw [hout]
    dsimp only
    split_ifs
    · exact hread.sound
    · simp
  · intro heof
    rw [hout] at heof ⊢
    dsimp only at heof ⊢
    split_ifs at heof with hshort
    have hend := hread.eof heof
    have htake : (b.fill bytes).1.data.take len = (b.fill bytes).1.data := by
      rw [length_take] at hshort
      exact take_of_length_le (by omega)
    rw [htake]
    exact hend
  · intro _ hpos hnil
    rw [hout] at hnil
    cases take_eq_nil_iff.mp hnil with
    | inl hzero => exact hpos.ne' hzero
    | inr hempty => exact hdata hempty

theorem Holds.read_delivered (hholds : b.Holds bytes) (len : ℕ) :
    Delivered bytes b.pos len (b.read bytes len).2 ∧ (b.read bytes len).1.Holds bytes ∧
      (b.read bytes len).1.pos = b.pos + (b.read bytes len).2.1.length := by
  unfold read
  by_cases hwindow : b.bufStart ≤ b.pos ∧ b.pos + len ≤ b.bufStart + b.data.length
  · rw [if_pos hwindow]
    exact ⟨window_delivered hholds hwindow, hholds, rfl⟩
  rw [if_neg hwindow]
  by_cases hdata : (b.fill bytes).1.data = []
  · -- the fill asked for 64 KB and got none of it
    have hread := readSegmentAt_delivered bytes b.pos bufReadSize
    have hnil : (readSegmentAt bytes b.pos bufReadSize).1 = [] := hdata
    have hfault : (b.fill bytes).2 ≠ .full := fun hfull => hread.progress hfull (by decide) hnil
    simp only [if_pos hdata, if_neg hfault]
    have heof := hread.eof
    rw [hnil] at heof
    exact ⟨⟨rfl, Nat.zero_le _, hread.sound, heof, fun hfull => absurd hfull hfault⟩,
      fill_holds bytes b, rfl⟩
  · simp only [if_neg hdata]
    exact ⟨filled_delivered hdata, fill_holds bytes b, rfl⟩

end BufReader

/-- Whatever is called on a reader, its reads deliver the segment's bytes from
where the caller has come to. -/
theorem bufReader_transparent (bytes : Bytes) (pos : ℕ) (calls : List BufCall) :
    Transparent bytes pos (.reset pos) calls := by
  have hrun : ∀ bytes (b : BufReader), b.Holds bytes → Transparent bytes b.pos b calls := by
    induction calls with
    | nil =>
      intro bytes b _
      trivial
    | cons call calls ih =>
      intro bytes b hholds
      cases call with
      | append more => exact ih (bytes ++ more) b (hholds.append more)
      | read len =>
        have hread := hholds.read_delivered len
        have hrest := ih bytes _ hread.2.1
        rw [hread.2.2] at hrest
        exact ⟨hread.1, hrest⟩
      | direct len =>
        exact ⟨readSegmentAt_delivered bytes b.pos len, ih bytes (b.advanceTo _) hholds⟩
      | refill => exact ih bytes (.reset b.pos) rfl
      | seek pos => exact ih bytes (.reset pos) rfl
      | advanceTo pos => exact ih bytes (b.advanceTo pos) hholds
  exact hrun bytes (.reset pos) rfl

end CommitLog
