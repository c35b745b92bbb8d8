import Mathlib.Tactic

/-!
# A space of cells stored in chunks

A sequence of cells is stored as a list of chunks.  A table gives for each
chunk where it starts in the store and where its cells start in the space.
Reads go chunk by chunk through a cache of one decoded chunk that is keyed by
the start in the store.  With an honest decoder and a cache that fits the
table a read returns the cells asked for.
-/

namespace BlockSpace

open List

variable {α : Type*}

structure Chunk (α : Type*) where
  stored : ℕ
  data : List α
  stored_pos : 0 < stored

structure Ref (α : Type*) where
  start : ℕ
  base : ℕ
  stored : ℕ
  data : List α

def refs (start base : ℕ) : List (Chunk α) → List (Ref α)
  | [] => []
  | chunk :: chunks =>
    ⟨start, base, chunk.stored, chunk.data⟩ ::
      refs (start + chunk.stored) (base + chunk.data.length) chunks

def content (chunks : List (Chunk α)) : List α :=
  chunks.flatMap Chunk.data

/-- The chunk whose cells contain the position. -/
def locate (table : List (Ref α)) (off : ℕ) : Option (Ref α) :=
  (table.find? fun ref => decide (off < ref.base + ref.data.length)).filter
    fun ref => decide (ref.base ≤ off)

inductive ReadEnd
  | full
  | eof
  | failed
deriving DecidableEq, Repr

structure Read (α : Type*) where
  data : List α
  finish : ReadEnd
  cache : Option (ℕ × List α)

/-- The cells of a chunk: the cached ones when the cache holds a chunk of the
same start, else what the decoder makes of the reference. -/
def fetch (decode : Ref α → Option (List α)) (cache : Option (ℕ × List α))
    (ref : Ref α) : Option (List α) :=
  match cache with
  | some (start, data) => if start = ref.start then some data else decode ref
  | none => decode ref

/-- Reading `n` cells from `off` on, in at most as many pieces as the fuel
allows. -/
def read (table : List (Ref α)) (decode : Ref α → Option (List α))
    (size : ℕ) : ℕ → Option (ℕ × List α) → ℕ → ℕ → Read α
  | 0, cache, n, _ => ⟨[], if n = 0 then .full else .eof, cache⟩
  | fuel + 1, cache, n, off =>
    if n = 0 then ⟨[], .full, cache⟩
    else if size ≤ off then ⟨[], .eof, cache⟩
    else
      match locate table off with
      | none => ⟨[], .eof, cache⟩
      | some ref =>
        match fetch decode cache ref with
        | none => ⟨[], .failed, none⟩
        | some data =>
          if data.length ≤ off - ref.base then
            ⟨[], .eof, some (ref.start, data)⟩
          else
            let piece := (data.drop (off - ref.base)).take n
            let rest := read table decode size fuel (some (ref.start, data)) (n - piece.length)
              (off + piece.length)
            ⟨piece ++ rest.data, rest.finish, rest.cache⟩

/-- The cached cells are those of the chunk that starts where they did. -/
def Fits (table : List (Ref α)) (cache : Option (ℕ × List α)) : Prop :=
  ∀ start data, cache = some (start, data) → ∀ ref ∈ table, ref.start = start → data = ref.data

theorem fits_none (table : List (Ref α)) : Fits table none := by
  intro start data hcache
  cases hcache

/-! ## The table -/

variable {chunks : List (Chunk α)} {ref : Ref α}

theorem start_le_of_mem_refs {start base : ℕ} (hmem : ref ∈ refs start base chunks) :
    start ≤ ref.start := by
  induction chunks generalizing start base with
  | nil => simp [refs] at hmem
  | cons chunk chunks ih =>
    rcases mem_cons.mp hmem with heq | hin
    · rw [heq]
    · have hle := ih hin
      omega

theorem refs_start_inj {start base : ℕ} {ref' : Ref α} (hmem : ref ∈ refs start base chunks)
    (hmem' : ref' ∈ refs start base chunks) (hstart : ref.start = ref'.start) : ref = ref' := by
  induction chunks generalizing start base with
  | nil => simp [refs] at hmem
  | cons chunk chunks ih =>
    have hpos := chunk.stored_pos
    rcases mem_cons.mp hmem with heq | hin
    · rcases mem_cons.mp hmem' with heq' | hin'
      · rw [heq, heq']
      · have hle := start_le_of_mem_refs hin'
        rw [heq] at hstart
        simp only at hstart
        omega
    · rcases mem_cons.mp hmem' with heq' | hin'
      · have hle := start_le_of_mem_refs hin
        rw [heq'] at hstart
        simp only at hstart
        omega
      · exact ih hin hin'

theorem locate_spec {chunks : List (Chunk α)} {start base off : ℕ}
    (hbase : base ≤ off) (hoff : off < base + (content chunks).length) :
    ∃ ref ∈ refs start base chunks, locate (refs start base chunks) off = some ref ∧
      ref.base ≤ off ∧ off < ref.base + ref.data.length ∧
      base ≤ ref.base ∧
      (content chunks).drop (off - base) = ref.data.drop (off - ref.base) ++
          (content chunks).drop (ref.base + ref.data.length - base) := by
  induction chunks generalizing start base with
  | nil =>
    simp [content] at hoff
    omega
  | cons chunk chunks ih =>
    have hcontent : content (chunk :: chunks) = chunk.data ++ content chunks := rfl
    rw [hcontent, length_append] at hoff
    by_cases hin : off < base + chunk.data.length
    · refine ⟨⟨start, base, chunk.stored, chunk.data⟩, mem_cons_self, ?_, hbase, hin, le_rfl, ?_⟩
      · simp [locate, refs, hin, hbase]
      · have hlen : off - base ≤ chunk.data.length := by omega
        rw [hcontent, drop_append_of_le_length hlen]
        simp
    · obtain ⟨ref, hmem, hlocate, hle, hlt, hrefBase, hdrop⟩ :=
        @ih (start + chunk.stored) (base + chunk.data.length) (by omega) (by omega)
      refine ⟨ref, mem_cons_of_mem _ hmem, ?_, hle, hlt, by omega, ?_⟩
      · have hskip : ¬off < base + chunk.data.length := hin
        unfold locate at hlocate ⊢
        rw [refs, find?_cons_of_neg (by simpa using hskip)]
        exact hlocate
      · have hfirst : off - base = chunk.data.length + (off - (base + chunk.data.length)) := by
          omega
        have hsecond : ref.base + ref.data.length - base = chunk.data.length +
              (ref.base + ref.data.length - (base + chunk.data.length)) := by
          omega
        rw [hcontent, hfirst, hsecond, ← drop_drop, drop_left, ← drop_drop, drop_left]
        exact hdrop

/-! ## Reads -/

theorem fetch_spec {decode : Ref α → Option (List α)} {cache : Option (ℕ × List α)}
    (hdecode : ∀ ref ∈ refs 0 0 chunks, decode ref = some ref.data)
    (hfits : Fits (refs 0 0 chunks) cache) (hmem : ref ∈ refs 0 0 chunks) :
    fetch decode cache ref = some ref.data := by
  unfold fetch
  cases hcache : cache with
  | none => exact hdecode ref hmem
  | some entry =>
    obtain ⟨start, data⟩ := entry
    simp only
    split
    next hstart => rw [hfits start data hcache ref hmem hstart.symm]
    · exact hdecode ref hmem

theorem fits_fetched (hmem : ref ∈ refs 0 0 chunks) :
    Fits (refs 0 0 chunks) (some (ref.start, ref.data)) := by
  intro start data hcache other hother hstart
  cases hcache
  rw [refs_start_inj hother hmem hstart]

theorem read_spec {chunks : List (Chunk α)} {decode : Ref α → Option (List α)}
    (hdecode : ∀ ref ∈ refs 0 0 chunks, decode ref = some ref.data) {fuel n off : ℕ}
    (hfuel : n ≤ fuel) {cache : Option (ℕ × List α)} (hfits : Fits (refs 0 0 chunks) cache) :
    let result := read (refs 0 0 chunks) decode (content chunks).length fuel cache n off
    result.data = ((content chunks).drop off).take n ∧ result.finish ≠ .failed ∧
      (result.finish = .eof ↔ result.data.length < n) ∧
      Fits (refs 0 0 chunks) result.cache := by
  induction fuel generalizing cache n off with
  | zero =>
    have hn : n = 0 := by omega
    simp [read, hn, hfits]
  | succ fuel ih =>
    rw [read]
    by_cases hn : n = 0
    · simp [hn, hfits]
    · rw [if_neg hn]
      by_cases hoff : (content chunks).length ≤ off
      · have hpos : 0 < n := by omega
        simp [hoff, drop_eq_nil_of_le hoff, hfits, hpos]
      · rw [if_neg hoff]
        obtain ⟨ref, hmem, hlocate, hle, hlt, _, hdrop⟩ :=
          @locate_spec α chunks 0 0 off (Nat.zero_le off) (by omega)
        rw [hlocate]
        simp only [fetch_spec hdecode hfits hmem]
        rw [if_neg (by omega)]
        generalize hpiece : (ref.data.drop (off - ref.base)).take n = piece
        have hlength : piece.length = min n (ref.data.drop (off - ref.base)).length := by
          rw [← hpiece, length_take]
        have hnonempty : 0 < (ref.data.drop (off - ref.base)).length := by
          rw [length_drop]
          omega
        have hrest := @ih (n - piece.length) (off + piece.length) (by omega)
          (some (ref.start, ref.data)) (fits_fetched hmem)
        simp only at hrest ⊢
        obtain ⟨hdata, hfailed, heof, hcache⟩ := hrest
        refine ⟨?_, hfailed, ?_, hcache⟩
        · rw [hdata]
          simp only [Nat.sub_zero] at hdrop
          rw [hdrop, take_append, hpiece]
          congr 1
          by_cases hshort : n ≤ (ref.data.drop (off - ref.base)).length
          · have hzero : n - piece.length = 0 := by omega
            have hzero' : n - (ref.data.drop (off - ref.base)).length = 0 := by
              omega
            rw [hzero, hzero', take_zero, take_zero]
          · have hwhole : piece.length = (ref.data.drop (off - ref.base)).length := by
              omega
            rw [hwhole, ← drop_drop, hdrop, drop_left]
        · rw [heof, length_append]
          omega

end BlockSpace
