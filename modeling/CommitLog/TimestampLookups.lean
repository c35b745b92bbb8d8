import CommitLog.Seeks
import CommitLog.SetReplication

/-!
# Offsets by timestamp

The lookup by timestamp picks a segment from the times the listed segments
carry, walks back over those that reach the target, and takes the first record
found from there on.  A pass of the cleaner has rewritten, removed or joined
listed segments long before the list is replaced: the times are then those of
the old segments, and the records those of what has taken their place.
-/

namespace CommitLog

open ByteSegment List

/-! ## The list of segments during a pass -/

def ByteSegment.lastWriteTime (seg : ByteSegment) : ℤ :=
  (seg.frames.getLast?.map fun ms => (setFrame ms).timestamp).getD 0

/-- A listed segment: the one whose fields are read, what is left of its
records, and the one it resolves to (`current`). -/
structure PassEntry where
  published : ByteSegment
  kept : List Bytes
  live : Option ByteSegment

def ByteLog.entries (s : ByteLog) : List PassEntry :=
  s.segments.map fun seg => ⟨seg, seg.frames, some seg⟩

/-- The records that are in the log. -/
def presentFrames (entries : List PassEntry) : List Bytes :=
  (entries.map PassEntry.kept).flatten

/-! ## The lookups -/

/-- `findSegmentIndexByTimestamp`.  An empty segment comes after every
timestamp. -/
def findSegmentIndexByTimestamp (entries : List PassEntry) (timestamp : ℤ) :
    ℕ :=
  SortSearch.search entries.length fun i => (entries[i]?).any fun e =>
    e.published.frames.isEmpty ||
      decide (timestamp < e.published.firstWriteTime)

/-- Back over the segments that end at or after the target. -/
def walkBack (entries : List PassEntry) (timestamp : ℤ) : ℕ → ℕ
  | 0 => 0
  | i + 1 =>
    if (entries[i]?).any fun e =>
        decide (timestamp ≤ e.published.lastWriteTime) then
      walkBack entries timestamp i
    else i + 1

/-- `findEntryByTimestampResolving`. -/
def PassEntry.findEntryByTimestamp (e : PassEntry) (timestamp : ℤ) :
    Option Entry :=
  e.live.bind fun seg => seg.findEntryByTimestamp timestamp

def nextAssigned (entries : List PassEntry) : ℤ :=
  (entries.getLast?.map fun e => e.published.nextOffset).getD 0

def earliestOffsetAfterTimestamp (entries : List PassEntry) (timestamp : ℤ) :
    ℤ :=
  let start := walkBack entries timestamp (findSegmentIndexByTimestamp entries timestamp - 1)
  (((entries.drop start).findSome? fun e =>
      e.findEntryByTimestamp timestamp).map Entry.offset).getD
    (nextAssigned entries)

/-! ## The property -/

def EarliestAt (frames : List Bytes) (next timestamp answer : ℤ) : Prop :=
  (∃ ms ∈ frames, timestamp ≤ (setFrame ms).timestamp ∧ answer = (setFrame ms).offset ∧
      ∀ other ∈ frames, timestamp ≤ (setFrame other).timestamp → answer ≤ (setFrame other).offset) ∨
    ((∀ ms ∈ frames, (setFrame ms).timestamp < timestamp) ∧ answer = next)

def HeadsTime (frames : List Bytes) (ms : Bytes) : Prop :=
  ∃ front rest, frames = front ++ ms :: rest ∧
    ∀ other ∈ front, (setFrame other).timestamp < (setFrame ms).timestamp

def AnchorsFit (entries : List PassEntry) : Prop :=
  ∀ e ∈ entries, ∀ seg, e.live = some seg → seg.blockMode = true → seg.Indexed

/-- In a raw segment the first record of its time is within 31 bits of the
base. -/
def HeadsFit (entries : List PassEntry) : Prop :=
  ∀ e ∈ entries, ∀ seg, e.live = some seg → seg.blockMode = false →
    ∀ ms ∈ seg.frames, HeadsTime (presentFrames entries) ms →
      (setFrame ms).offset - seg.base ≤ maxInt32

/-! ## Passes -/

/-- What a listed segment resolves to holds what is left of its records, and
of its neighbours' if they were joined. -/
def PassEntry.Resolves (kept : List (List Bytes)) (i : ℕ) (e : PassEntry) :
    Prop :=
  match e.live with
  | none => e.kept = []
  | some seg => seg.WellFormed ∧ ∃ low count, low ≤ i ∧ i < low + count ∧
      seg.frames = ((kept.drop low).take count).flatten

structure MidPass (entries : List PassEntry) : Prop where
  ordered : (presentFrames entries).Pairwise fun a b =>
    (setFrame a).offset < (setFrame b).offset ∧ (setFrame a).timestamp ≤ (setFrame b).timestamp
  held : ∀ (i : ℕ) (e : PassEntry), entries[i]? = some e → i + 1 < entries.length →
    e.published.frames ≠ []
  reaches : ∀ (i j : ℕ) (a b : PassEntry), i ≤ j → entries[i]? = some a →
    entries[j]? = some b → b.published.frames ≠ [] → ∀ ms ∈ a.kept,
      (setFrame ms).timestamp ≤ b.published.lastWriteTime
  resolves : ∀ (i : ℕ) (e : PassEntry), entries[i]? = some e →
    e.Resolves (entries.map PassEntry.kept) i

/-- No join has started. -/
def Unjoined (entries : List PassEntry) : Prop :=
  ∀ e ∈ entries, match e.live with
    | none => e.kept = []
    | some seg => seg.WellFormed ∧ seg.frames = e.kept

/-- One step of a pass: a segment is rewritten or removed, a join is installed
over its first segment, and the others are linked to it.  A segment in a store
takes the new bytes itself, a local one leaves them to its replacement. -/
inductive PassStep (entries : List PassEntry) : List PassEntry → Prop
  | rewrite {i : ℕ} {e : PassEntry} (seg : ByteSegment) (inPlace : Bool)
      (hunjoined : Unjoined entries) (hsealed : i + 1 < entries.length)
      (hentry : entries[i]? = some e) (hwf : seg.WellFormed)
      (hkept : seg.frames.Sublist e.kept) (hne : seg.frames ≠ []) :
      PassStep entries (entries.set i ⟨if inPlace then seg else e.published, seg.frames, some seg⟩)
  | remove {i : ℕ} {e : PassEntry} (hunjoined : Unjoined entries)
      (hsealed : i + 1 < entries.length) (hentry : entries[i]? = some e) :
      PassStep entries (entries.set i ⟨e.published, [], none⟩)
  | join {i count : ℕ} {e : PassEntry} (seg : ByteSegment) (inPlace : Bool)
      (hcount : 2 ≤ count) (hsealed : i + count < entries.length)
      (hentry : entries[i]? = some e) (hwf : seg.WellFormed)
      (hframes : seg.frames = (((entries.map PassEntry.kept).drop i).take count).flatten)
      (hne : seg.frames ≠ []) :
      PassStep entries (entries.set i ⟨if inPlace then seg else e.published, e.kept, some seg⟩)
  | link {i j count : ℕ} {e : PassEntry} (seg : ByteSegment) (hlow : i < j)
      (hhigh : j < i + count) (hsealed : i + count < entries.length)
      (hentry : entries[j]? = some e) (hwf : seg.WellFormed)
      (hframes : seg.frames = (((entries.map PassEntry.kept).drop i).take count).flatten) :
      PassStep entries (entries.set j { e with live := some seg })

/-! ## What a segment answers -/

def ByteSegment.readOffset (seg : ByteSegment) (ms : Bytes) : ℤ :=
  if seg.blockMode then (setFrame ms).offset
  else seg.base + int32 ((setFrame ms).offset - seg.base)

theorem map_find?_frameEntries {f : Entry → ℤ} {g : Bytes → ℤ} {test : Entry → Bool}
    {test' : Bytes → Bool} (htest : ∀ position ms, test (entryOf position ms) = test' ms)
    (hvalue : ∀ position ms, f (entryOf position ms) = g ms) (position : ℕ) (frames : List Bytes) :
    ((frameEntries position frames).find? test).map f = (frames.find? test').map g := by
  induction frames generalizing position with
  | nil => rfl
  | cons ms frames ih =>
    rw [frameEntries, find?_cons, find?_cons, htest]
    cases test' ms with
    | true => rw [Option.map_some, Option.map_some, hvalue]
    | false => exact ih _

variable {seg : ByteSegment}

theorem ByteSegment.WellFormed.findEntryByTimestamp_eq
    (hwf : seg.WellFormed) (hchronological : seg.Chronological)
    (hanchors : seg.blockMode = true → seg.Indexed) (timestamp : ℤ) :
    (seg.findEntryByTimestamp timestamp).map Entry.offset = (seg.frames.find? fun ms =>
        decide (timestamp ≤ (setFrame ms).timestamp)).map seg.readOffset := by
  obtain ⟨hrising, hback⟩ := hchronological.byTimestamp_rising timestamp
  have htest : ∀ position ms, (byTimestamp timestamp).entry
      (entryOf position ms) = decide (timestamp ≤ (setFrame ms).timestamp) := by
    intro position ms
    simp only [byTimestamp]
    rw [decide_eq_decide, timestamp_entryOf]
  cases hmode : seg.blockMode with
  | false =>
    have hstored : (byTimestamp timestamp).entry ∘ Entry.stored seg.base =
        (byTimestamp timestamp).entry := by
      funext e
      rfl
    have hindex : seg.index = (frameEntries 0 seg.frames).map (Entry.stored seg.base) := by
      rw [index, written, if_neg (by simp [hmode])]
    have hsorted : seg.index.Pairwise fun a b =>
        (byTimestamp timestamp).entry a = true → (byTimestamp timestamp).entry b = true := by
      rw [hindex, pairwise_map]
      refine hrising.imp ?_
      intro a b hab
      have ha := congrFun hstored a
      have hb := congrFun hstored b
      simp only [Function.comp_apply] at ha hb
      rwa [ha, hb]
    rw [findEntryByTimestamp, findEntryBy, if_neg (by simp [hmode]),
      SortSearch.getElem?_search hsorted, hindex, find?_map, hstored, Option.map_map]
    apply map_find?_frameEntries htest
    intro position ms
    rw [readOffset, if_neg (by simp [hmode]), Function.comp_apply, Entry.stored, offset_entryOf]
  | true =>
    rw [findEntryByTimestamp, (hanchors hmode).findEntryBy_blocks
      hwf.whole hmode (byTimestamp_agrees timestamp) hrising hback,
      Option.map_map]
    apply map_find?_frameEntries htest
    intro position ms
    rw [readOffset, if_pos hmode, Function.comp_apply, Entry.narrow, offset_entryOf]

theorem ByteSegment.readOffset_eq_iff {ms : Bytes} (hbase : seg.base ≤ (setFrame ms).offset) :
    seg.readOffset ms = (setFrame ms).offset ↔
      (seg.blockMode = false → (setFrame ms).offset - seg.base ≤ maxInt32) := by
  unfold readOffset
  cases seg.blockMode with
  | true => simp
  | false =>
    rw [if_neg Bool.false_ne_true]
    constructor
    · intro heq _
      have hle := int32_le ((setFrame ms).offset - seg.base)
      omega
    · intro hfits
      rw [int32_eq_self (by omega) (hfits rfl)]
      omega

theorem ByteSegment.Chronological.le_lastWriteTime (hchronological : seg.Chronological) {ms : Bytes}
    (hms : ms ∈ seg.frames) : (setFrame ms).timestamp ≤ seg.lastWriteTime := by
  rcases eq_nil_or_concat' seg.frames with hnil | ⟨front, last, hlast⟩
  · rw [hnil] at hms
    cases hms
  · have htime : seg.lastWriteTime = (setFrame last).timestamp := by
      rw [lastWriteTime, hlast, getLast?_concat, Option.map_some, Option.getD_some]
    unfold Chronological at hchronological
    rw [hlast] at hchronological hms
    rw [htime]
    rcases mem_append.mp hms with hfront | hown
    · exact (pairwise_append.mp hchronological).2.2 ms hfront last (mem_singleton_self last)
    · rw [mem_singleton.mp hown]

/-! ## The walk -/

section Walk

variable {entries : List PassEntry}

theorem walkBack_spec (entries : List PassEntry) (timestamp : ℤ) (i : ℕ) :
    walkBack entries timestamp i ≤ i ∧ (walkBack entries timestamp i = 0 ∨
        ∀ e, entries[walkBack entries timestamp i - 1]? = some e →
          e.published.lastWriteTime < timestamp) := by
  induction i with
  | zero => exact ⟨le_rfl, Or.inl rfl⟩
  | succ i ih =>
    rw [walkBack]
    split_ifs with hback
    · exact ⟨ih.1.trans (Nat.le_succ i), ih.2⟩
    · refine ⟨le_rfl, Or.inr ?_⟩
      intro e he
      rw [Nat.add_sub_cancel] at he
      rw [he] at hback
      simpa using hback

theorem MidPass.below_start (hpass : MidPass entries) (timestamp : ℤ) :
    ∀ e ∈ entries.take (walkBack entries timestamp
        (findSegmentIndexByTimestamp entries timestamp - 1)),
      ∀ ms ∈ e.kept, (setFrame ms).timestamp < timestamp := by
  intro a ha ms hms
  obtain ⟨hle, hstop⟩ := walkBack_spec entries timestamp
    (findSegmentIndexByTimestamp entries timestamp - 1)
  have hsearch : findSegmentIndexByTimestamp entries timestamp ≤
      entries.length := (SortSearch.search_boundary _ _).2.2
  generalize walkBack entries timestamp
    (findSegmentIndexByTimestamp entries timestamp - 1) = start at *
  obtain ⟨j, hj⟩ := mem_iff_getElem?.mp ha
  obtain ⟨hlt, hentry⟩ : j < start ∧ entries[j]? = some a := by
    rw [getElem?_take] at hj
    split_ifs at hj with hlt
    exact ⟨hlt, hj⟩
  obtain ⟨last, hlast⟩ : ∃ last, entries[start - 1]? = some last :=
    ⟨entries.get ⟨start - 1, by omega⟩, getElem?_eq_getElem _⟩
  have hearly := hstop.resolve_left (by omega) _ hlast
  have hheld := hpass.held _ _ hlast (by omega)
  exact (hpass.reaches j (start - 1) _ _ (by omega) hentry hlast hheld ms hms).trans_lt hearly

variable {frames : List Bytes} {ms : Bytes}

theorem mem_interval {kept : List (List Bytes)} {i low count : ℕ} (hentry : kept[i]? = some frames) (hlow : low ≤ i)
    (hhigh : i < low + count) (hms : ms ∈ frames) :
    ms ∈ ((kept.drop low).take count).flatten := by
  apply mem_flatten.mpr
  refine ⟨frames, mem_of_getElem? (i := i - low) ?_, hms⟩
  rw [getElem?_take, if_pos (by omega), getElem?_drop, Nat.add_sub_cancel' hlow, hentry]

theorem MidPass.chronological (hpass : MidPass entries) {seg : ByteSegment} {low count : ℕ}
    (hframes : seg.frames = (((entries.map PassEntry.kept).drop low).take count).flatten) :
    seg.Chronological := by
  unfold Chronological
  rw [hframes]
  refine (hpass.ordered.sublist ?_).imp fun h => h.2
  exact ((take_sublist _ _).trans (drop_sublist _ _)).flatten

variable {timestamp : ℤ}

theorem MidPass.findSome?_cases (hpass : MidPass entries) (hanchors : AnchorsFit entries)
    {front rest : List PassEntry} (hsplit : entries = front ++ rest)
    (hlow : ∀ e ∈ front, ∀ ms ∈ e.kept, (setFrame ms).timestamp < timestamp) :
    ((rest.findSome? fun e => e.findEntryByTimestamp timestamp) = none ∧
        ∀ ms ∈ presentFrames entries, (setFrame ms).timestamp < timestamp) ∨
      ∃ e ∈ entries, ∃ seg, e.live = some seg ∧ ∃ ms ∈ seg.frames,
        ((presentFrames entries).find? fun ms =>
            decide (timestamp ≤ (setFrame ms).timestamp)) = some ms ∧
          (rest.findSome? fun e => e.findEntryByTimestamp timestamp).map
            Entry.offset = some (seg.readOffset ms) := by
  induction rest generalizing front with
  | nil =>
    left
    refine ⟨rfl, ?_⟩
    intro ms hms
    obtain ⟨frames, hframes, hin⟩ := mem_flatten.mp hms
    obtain ⟨e, he, rfl⟩ := mem_map.mp hframes
    exact hlow e (by simpa [hsplit] using he) ms hin
  | cons e rest ih =>
    have hentry : entries[front.length]? = some e := by
      rw [hsplit, getElem?_append_right le_rfl, Nat.sub_self]
      rfl
    have hkept : (entries.map PassEntry.kept)[front.length]? = some e.kept := by
      rw [getElem?_map, hentry, Option.map_some]
    have hmem : e ∈ entries := mem_of_getElem? hentry
    have hnext := @ih (front ++ [e]) (by simp [hsplit])
    have hextend : (∀ ms ∈ e.kept, (setFrame ms).timestamp < timestamp) →
        ∀ other ∈ front ++ [e], ∀ ms ∈ other.kept, (setFrame ms).timestamp < timestamp := by
      intro hown other hother
      rcases mem_append.mp hother with hother | hother
      · exact hlow other hother
      · rw [mem_singleton.mp hother]
        exact hown
    have hresolves := hpass.resolves _ _ hentry
    unfold PassEntry.Resolves at hresolves
    cases hlive : e.live with
    | none =>
      rw [hlive] at hresolves
      have hnone : e.findEntryByTimestamp timestamp = none := by
        rw [PassEntry.findEntryByTimestamp, hlive]
        rfl
      rw [findSome?_cons, hnone]
      apply hnext (hextend _)
      intro ms hms
      rw [hresolves] at hms
      cases hms
    | some seg =>
      rw [hlive] at hresolves
      obtain ⟨hwf, low, count, hstart, hend, hframes⟩ := hresolves
      have hanswer := hwf.findEntryByTimestamp_eq
        (hpass.chronological hframes) (hanchors e hmem seg hlive) timestamp
      have hown : e.findEntryByTimestamp timestamp =
          seg.findEntryByTimestamp timestamp := by
        rw [PassEntry.findEntryByTimestamp, hlive]
        rfl
      cases hfind : seg.frames.find? fun ms =>
          decide (timestamp ≤ (setFrame ms).timestamp) with
      | none =>
        rw [hfind, Option.map_none, Option.map_eq_none_iff] at hanswer
        rw [findSome?_cons, hown, hanswer]
        apply hnext (hextend _)
        intro ms hms
        have hnot := find?_eq_none.mp hfind ms (by
          rw [hframes]
          exact mem_interval hkept hstart hend hms)
        simpa using hnot
      | some ms =>
        rw [hfind, Option.map_some] at hanswer
        right
        refine ⟨e, hmem, seg, hlive, ms, mem_of_find?_eq_some hfind, ?_, ?_⟩
        · -- the log is what lies in front of the run, the run, the rest
          have hparts : presentFrames entries = ((entries.map PassEntry.kept).take low).flatten ++
                (seg.frames ++ (((entries.map PassEntry.kept).drop low).drop count).flatten) := by
            rw [hframes, ← flatten_append, take_append_drop, ← flatten_append, take_append_drop]
            rfl
          have hnone : ((entries.map PassEntry.kept).take low).flatten.find? (fun ms =>
                decide (timestamp ≤ (setFrame ms).timestamp)) = none := by
            rw [find?_eq_none]
            intro other hother
            obtain ⟨frames, hin, hmem⟩ := mem_flatten.mp hother
            rw [hsplit, map_append, take_append_of_le_length (by simpa using hstart)] at hin
            obtain ⟨a, ha, rfl⟩ :=
              mem_map.mp (mem_of_mem_take hin)
            have hlt := hlow a ha other hmem
            simpa using hlt
          rw [hparts, find?_append, hnone, Option.none_or, find?_append, hfind, Option.some_or]
        · obtain ⟨found, hfound, hoffset⟩ :=
            Option.map_eq_some_iff.mp hanswer
          rw [findSome?_cons, hown, hfound]
          exact congrArg some hoffset

theorem headsTime_of_find?
    (hfind : (frames.find? fun ms => decide (timestamp ≤ (setFrame ms).timestamp)) = some ms) :
    HeadsTime frames ms := by
  obtain ⟨hpasses, front, rest, hparts, hbefore⟩ :=
    find?_eq_some_iff_append.mp hfind
  refine ⟨front, rest, hparts, ?_⟩
  intro other hother
  have hlate : timestamp ≤ (setFrame ms).timestamp := by simpa using hpasses
  have hearly : (setFrame other).timestamp < timestamp := by
    simpa using hbefore other hother
  exact hearly.trans_le hlate

theorem HeadsTime.find? (hheads : HeadsTime frames ms) : (frames.find? fun other =>
      decide ((setFrame ms).timestamp ≤ (setFrame other).timestamp)) =
        some ms := by
  obtain ⟨front, rest, hparts, hbefore⟩ := hheads
  apply find?_eq_some_iff_append.mpr
  refine ⟨by simp, front, rest, hparts, ?_⟩
  intro other hother
  have hlt := hbefore other hother
  simpa using hlt

theorem earliestAt_of_find?
    (hordered : frames.Pairwise fun a b => (setFrame a).offset < (setFrame b).offset)
    (hfind : (frames.find? fun ms => decide (timestamp ≤ (setFrame ms).timestamp)) = some ms)
    (next : ℤ) : EarliestAt frames next timestamp (setFrame ms).offset := by
  obtain ⟨hpasses, front, rest, hparts, hbefore⟩ :=
    find?_eq_some_iff_append.mp hfind
  left
  refine ⟨ms, mem_of_find?_eq_some hfind, by simpa using hpasses, rfl, ?_⟩
  intro other hother hlate
  rw [hparts] at hordered hother
  rcases mem_append.mp hother with hfront | hrest
  · have hnot := hbefore other hfront
    simp [hlate] at hnot
  · rcases mem_cons.mp hrest with rfl | hrest
    · exact le_rfl
    · exact ((pairwise_cons.mp (pairwise_append.mp hordered).2.1).1 other hrest).le

theorem EarliestAt.eq_of_find? {next answer : ℤ}
    (hearliest : EarliestAt frames next timestamp answer)
    (hordered : frames.Pairwise fun a b => (setFrame a).offset < (setFrame b).offset)
    (hfind : (frames.find? fun ms => decide (timestamp ≤ (setFrame ms).timestamp)) = some ms) :
    answer = (setFrame ms).offset := by
  obtain ⟨hpasses, front, rest, hparts, hbefore⟩ :=
    find?_eq_some_iff_append.mp hfind
  have hmem := mem_of_find?_eq_some hfind
  rcases hearliest with ⟨other, hother, hlate, hanswer, hleast⟩ | ⟨hnone, -⟩
  · have hle := hleast ms hmem (by simpa using hpasses)
    rw [hparts] at hordered hother
    rcases mem_append.mp hother with hfront | hrest
    · have hnot := hbefore other hfront
      simp [hlate] at hnot
    · rcases mem_cons.mp hrest with hsame | hrest
      · rw [hanswer, hsame]
      · have hlt := (pairwise_cons.mp (pairwise_append.mp hordered).2.1).1 other hrest
        omega
  · have hlt := hnone ms hmem
    have hle : timestamp ≤ (setFrame ms).timestamp := by simpa using hpasses
    omega

theorem MidPass.earliestAt (hpass : MidPass entries) (hanchors : AnchorsFit entries)
    (hheads : HeadsFit entries) (timestamp : ℤ) :
    EarliestAt (presentFrames entries) (nextAssigned entries) timestamp
      (earliestOffsetAfterTimestamp entries timestamp) := by
  unfold earliestOffsetAfterTimestamp
  rcases hpass.findSome?_cases hanchors (take_append_drop _ _).symm
      (hpass.below_start timestamp) with
    ⟨hnone, hbelow⟩ | ⟨e, he, seg, hlive, ms, hms, hfind, hanswer⟩
  · right
    simp only [hnone]
    exact ⟨hbelow, by rw [Option.map_none, Option.getD_none]⟩
  · have hwf : seg.WellFormed := by
      obtain ⟨i, hentry⟩ := mem_iff_getElem?.mp he
      have hresolves := hpass.resolves i e hentry
      rw [PassEntry.Resolves, hlive] at hresolves
      exact hresolves.1
    have hreads : seg.readOffset ms = (setFrame ms).offset :=
      (readOffset_eq_iff (hwf.base_le ms hms)).mpr fun hraw =>
        hheads e he seg hlive hraw ms hms (headsTime_of_find? hfind)
    simp only [hanswer, Option.getD_some]
    rw [hreads]
    exact earliestAt_of_find? (hpass.ordered.imp fun h => h.1) hfind _

end Walk

/-! ## A pass keeps the list in order -/

section Steps

variable {entries : List PassEntry} {i : ℕ} {e e' : PassEntry} {kept : List (List Bytes)}
  {frames : List Bytes}

theorem flatten_set_sublist {frames' : List Bytes} (hentry : kept[i]? = some frames)
    (hsub : frames'.Sublist frames) : (kept.set i frames').flatten.Sublist kept.flatten := by
  induction kept generalizing i with
  | nil => cases hentry
  | cons first kept ih =>
    cases i with
    | zero =>
      obtain rfl := Option.some.inj hentry
      exact Sublist.append hsub (Sublist.refl _)
    | succ i => exact Sublist.append (Sublist.refl _) (ih hentry)

theorem getElem?_set_cases {j : ℕ} {a : PassEntry} (hentry : (entries.set i e')[j]? = some a) :
    (j = i ∧ a = e') ∨ (j ≠ i ∧ entries[j]? = some a) := by
  rw [getElem?_set] at hentry
  split_ifs at hentry with hsame hlt
  · exact Or.inl ⟨hsame.symm, (Option.some.inj hentry).symm⟩
  · exact Or.inr ⟨fun hji => hsame hji.symm, hentry⟩

theorem le_lastWriteTime_of_run
    (hordered : kept.flatten.Pairwise fun a b => (setFrame a).timestamp ≤ (setFrame b).timestamp)
    {seg : ByteSegment} {count : ℕ} (hcount : 0 < count)
    (hframes : seg.frames = ((kept.drop i).take count).flatten) (hne : seg.frames ≠ []) {j : ℕ}
    (hle : j ≤ i) (hentry : kept[j]? = some frames) {ms : Bytes} (hms : ms ∈ frames) :
    (setFrame ms).timestamp ≤ seg.lastWriteTime := by
  have hchronological : seg.Chronological := by
    unfold Chronological
    rw [hframes]
    exact hordered.sublist ((take_sublist _ _).trans (drop_sublist _ _)).flatten
  rcases Nat.lt_or_eq_of_le hle with hlt | rfl
  · obtain ⟨last, hlast⟩ := exists_mem_of_ne_nil _ hne
    have hparts : kept.flatten = (kept.take i).flatten ++ (kept.drop i).flatten := by
      rw [← flatten_append, take_append_drop]
    rw [hparts] at hordered
    have hfront : ms ∈ (kept.take i).flatten := by
      refine mem_flatten.mpr ⟨frames, ?_, hms⟩
      apply mem_of_getElem? (i := j)
      rw [getElem?_take, if_pos hlt, hentry]
    have hback : last ∈ (kept.drop i).flatten := by
      rw [hframes] at hlast
      exact (take_sublist _ _).flatten.subset hlast
    exact ((pairwise_append.mp hordered).2.2 ms hfront last hback).trans
      (hchronological.le_lastWriteTime hlast)
  · apply hchronological.le_lastWriteTime
    rw [hframes]
    exact mem_interval hentry le_rfl (by omega) hms

theorem presentFrames_set_sublist (e' : PassEntry)
    (hentry : entries[i]? = some e) (hkept : e'.kept.Sublist e.kept) :
    (presentFrames (entries.set i e')).Sublist (presentFrames entries) := by
  rw [presentFrames, map_set]
  apply flatten_set_sublist _ hkept
  rw [getElem?_map, hentry, Option.map_some]

theorem flatten_take_one (hentry : kept[i]? = some frames) :
    ((kept.drop i).take 1).flatten = frames := by
  obtain ⟨hi, hsame⟩ := List.getElem?_eq_some_iff.mp hentry
  rw [drop_eq_getElem_cons hi, hsame, take_succ_cons, take_zero, flatten_singleton]

theorem MidPass.update (hpass : MidPass entries)
    (hentry : entries[i]? = some e) (hkept : e'.kept.Sublist e.kept)
    (hpublished : e'.published = e.published ∨ e'.published.frames ≠ [] ∧
      ∀ j frames, j ≤ i → ((entries.set i e').map PassEntry.kept)[j]? = some frames → ∀ ms ∈ frames,
          (setFrame ms).timestamp ≤ e'.published.lastWriteTime)
    (hresolves : ∀ (j : ℕ) (a : PassEntry), (entries.set i e')[j]? = some a →
      a.Resolves ((entries.set i e').map PassEntry.kept) j) :
    MidPass (entries.set i e') := by
  constructor
  · exact hpass.ordered.sublist (presentFrames_set_sublist e' hentry hkept)
  · intro j a ha hsealed
    rw [length_set] at hsealed
    rcases getElem?_set_cases ha with ⟨rfl, rfl⟩ | ⟨-, hold⟩
    · rcases hpublished with hsame | hnew
      · rw [hsame]
        exact hpass.held j e hentry hsealed
      · exact hnew.1
    · exact hpass.held j a hold hsealed
  · intro j k a b hle ha hb hne ms hms
    -- the record was kept before, and the place it came from is the same
    have hbefore : ∃ a₀, entries[j]? = some a₀ ∧ ms ∈ a₀.kept := by
      rcases getElem?_set_cases ha with ⟨rfl, rfl⟩ | ⟨-, hold⟩
      · exact ⟨e, hentry, hkept.subset hms⟩
      · exact ⟨a, hold, hms⟩
    obtain ⟨a₀, ha₀, hms₀⟩ := hbefore
    rcases getElem?_set_cases hb with ⟨rfl, rfl⟩ | ⟨-, hold⟩
    · rcases hpublished with hsame | hnew
      · rw [hsame] at hne ⊢
        exact hpass.reaches j k a₀ e hle ha₀ hentry hne ms hms₀
      · refine hnew.2 j a.kept hle ?_ ms hms
        rw [getElem?_map, ha, Option.map_some]
    · exact hpass.reaches j k a₀ b hle ha₀ hold hne ms hms₀
  · exact hresolves

theorem Unjoined.resolves (hunjoined : Unjoined entries) (hentry : entries[i]? = some e) :
    e.Resolves (entries.map PassEntry.kept) i := by
  have hown := hunjoined e (mem_of_getElem? hentry)
  unfold PassEntry.Resolves
  cases hlive : e.live with
  | none =>
    rw [hlive] at hown
    exact hown
  | some seg =>
    rw [hlive] at hown
    refine ⟨hown.1, i, 1, le_rfl, by omega, ?_⟩
    rw [hown.2]
    symm
    apply flatten_take_one
    rw [getElem?_map, hentry, Option.map_some]

theorem Unjoined.set (hunjoined : Unjoined entries) (hown : match e'.live with
      | none => e'.kept = []
      | some seg => seg.WellFormed ∧ seg.frames = e'.kept) :
    Unjoined (entries.set i e') := by
  intro a ha
  rcases mem_or_eq_of_mem_set ha with hold | rfl
  · exact hunjoined a hold
  · exact hown

theorem map_kept_set (e' : PassEntry) (hentry : entries[i]? = some e) (hsame : e'.kept = e.kept) :
    (entries.set i e').map PassEntry.kept = entries.map PassEntry.kept := by
  have hkept : (entries.map PassEntry.kept)[i]? = some e.kept := by
    rw [getElem?_map, hentry, Option.map_some]
  obtain ⟨hi, hold⟩ := List.getElem?_eq_some_iff.mp hkept
  rw [map_set, hsame, ← hold, set_getElem_self]

theorem getLast?_set (hsealed : i + 1 < entries.length) :
    (entries.set i e').getLast? = entries.getLast? := by
  rw [getLast?_eq_getElem?, getLast?_eq_getElem?, length_set, getElem?_set_ne (by omega)]

variable {entries' : List PassEntry}

theorem MidPass.step (hpass : MidPass entries) (hstep : PassStep entries entries') :
    MidPass entries' ∧ entries'.getLast? = entries.getLast? := by
  cases hstep with
  | @rewrite i e seg inPlace hunjoined hsealed hentry hwf hkept hne =>
    refine ⟨hpass.update hentry hkept ?_ ?_, getLast?_set hsealed⟩
    · cases inPlace with
      | false => exact Or.inl rfl
      | true =>
        refine Or.inr ⟨hne, ?_⟩
        intro j frames hle hframes ms hms
        have hordered := (hpass.ordered.sublist
          (presentFrames_set_sublist ⟨seg, seg.frames, some seg⟩ hentry hkept)).imp fun h => h.2
        refine le_lastWriteTime_of_run hordered Nat.one_pos ?_ hne hle hframes hms
        symm
        apply flatten_take_one
        rw [getElem?_map, getElem?_set_self (by omega), Option.map_some]
    · intro j a ha
      exact Unjoined.resolves (hunjoined.set ⟨hwf, rfl⟩) ha
  | @remove i e hunjoined hsealed hentry =>
    refine ⟨hpass.update hentry (nil_sublist _) (Or.inl rfl) ?_, getLast?_set hsealed⟩
    intro j a ha
    exact Unjoined.resolves (hunjoined.set rfl) ha
  | @join i count e seg inPlace hcount hsealed hentry hwf hframes hne =>
    have hkept := map_kept_set ⟨if inPlace then seg else e.published, e.kept, some seg⟩ hentry rfl
    refine ⟨hpass.update hentry (Sublist.refl _) ?_ ?_, getLast?_set (by omega)⟩
    · cases inPlace with
      | false => exact Or.inl rfl
      | true =>
        refine Or.inr ⟨hne, ?_⟩
        intro j frames hle hentries ms hms
        rw [hkept] at hentries
        exact le_lastWriteTime_of_run (hpass.ordered.imp fun h => h.2)
          (by omega) hframes hne hle hentries hms
    · intro j a ha
      rw [hkept]
      rcases getElem?_set_cases ha with ⟨rfl, rfl⟩ | ⟨-, hold⟩
      · exact ⟨hwf, j, count, le_rfl, by omega, hframes⟩
      · exact hpass.resolves j a hold
  | @link i k count e seg hlow hhigh hsealed hentry hwf hframes =>
    have hkept := map_kept_set { e with live := some seg } hentry rfl
    refine ⟨hpass.update hentry (Sublist.refl _) (Or.inl rfl) ?_, getLast?_set (by omega)⟩
    intro j a ha
    rw [hkept]
    rcases getElem?_set_cases ha with ⟨rfl, rfl⟩ | ⟨-, hold⟩
    · exact ⟨hwf, i, count, hlow.le, hhigh, hframes⟩
    · exact hpass.resolves j a hold

theorem MidPass.steps (hpass : MidPass entries)
    (hsteps : Relation.ReflTransGen PassStep entries entries') :
    MidPass entries' ∧ entries'.getLast? = entries.getLast? := by
  induction hsteps with
  | refl => exact ⟨hpass, rfl⟩
  | tail _ hstep ih =>
    obtain ⟨hnext, hlast⟩ := ih.1.step hstep
    exact ⟨hnext, hlast.trans ih.2⟩

end Steps

/-! ## Logs at rest -/

structure ByteLog.Timed (s : ByteLog) : Prop where
  wellFormed : s.WellFormed
  held : ∀ seg ∈ s.sealedSegs, seg.frames ≠ []
  chronological : s.frames.Pairwise fun a b =>
    (setFrame a).timestamp ≤ (setFrame b).timestamp

def ByteLog.newestOffset (s : ByteLog) : ℤ := s.active.nextOffset - 1

section Rest

variable {s : ByteLog}

theorem ByteLog.getElem?_entries {i : ℕ} {e : PassEntry} (hentry : s.entries[i]? = some e) :
    ∃ seg, s.segments[i]? = some seg ∧ e = ⟨seg, seg.frames, some seg⟩ := by
  rw [ByteLog.entries, getElem?_map] at hentry
  obtain ⟨seg, hseg, rfl⟩ := Option.map_eq_some_iff.mp hentry
  exact ⟨seg, hseg, rfl⟩

theorem ByteLog.presentFrames_entries (s : ByteLog) : presentFrames s.entries = s.frames := by
  rw [presentFrames, ByteLog.entries, ByteLog.frames, map_map, flatMap_def]
  rfl

theorem ByteLog.getLast?_entries (s : ByteLog) : s.entries.getLast? =
      some ⟨s.active, s.active.frames, some s.active⟩ := by
  rw [ByteLog.entries, ByteLog.segments, map_append, map_singleton, getLast?_concat]

theorem ByteLog.Timed.midPass (htimed : s.Timed) : MidPass s.entries := by
  have hcross := htimed.chronological
  rw [ByteLog.frames, pairwise_flatMap] at hcross
  constructor
  · rw [s.presentFrames_entries]
    exact htimed.wellFormed.rising.and htimed.chronological
  · intro i e hentry hsealed
    obtain ⟨seg, hseg, rfl⟩ := ByteLog.getElem?_entries hentry
    apply htimed.held seg
    rw [ByteLog.entries, length_map, ByteLog.segments, length_append, length_singleton] at hsealed
    rw [ByteLog.segments, getElem?_append_left (by omega)] at hseg
    exact mem_of_getElem? hseg
  · intro i j a b hle ha hb hne ms hms
    obtain ⟨seg, hseg, rfl⟩ := ByteLog.getElem?_entries ha
    obtain ⟨later, hlater, rfl⟩ := ByteLog.getElem?_entries hb
    obtain ⟨hi, rfl⟩ := List.getElem?_eq_some_iff.mp hseg
    obtain ⟨hj, rfl⟩ := List.getElem?_eq_some_iff.mp hlater
    rcases Nat.lt_or_eq_of_le hle with hlt | rfl
    · obtain ⟨front, last, hlast⟩ := (eq_nil_or_concat' _).resolve_left hne
      have hfirst := (pairwise_iff_getElem.mp hcross.2 i j hi hj hlt) ms
        hms last (by rw [hlast]; simp)
      exact hfirst.trans (Chronological.le_lastWriteTime
        (hcross.1 _ (getElem_mem hj)) (by rw [hlast]; simp))
    · exact Chronological.le_lastWriteTime (hcross.1 _ (getElem_mem hi)) hms
  · intro i e hentry
    apply Unjoined.resolves _ hentry
    intro a ha
    obtain ⟨seg, hseg, rfl⟩ := mem_map.mp ha
    exact ⟨htimed.wellFormed.segs seg hseg, rfl⟩

theorem ByteLog.WellFormed.segment_unique (hwf : s.WellFormed) {seg seg' : ByteSegment}
    (hseg : seg ∈ s.segments) (hseg' : seg' ∈ s.segments) {ms : Bytes} (hms : ms ∈ seg.frames)
    (hms' : ms ∈ seg'.frames) : seg = seg' := by
  obtain ⟨i, hi, rfl⟩ := getElem_of_mem hseg
  obtain ⟨j, hj, rfl⟩ := getElem_of_mem hseg'
  have hapart := pairwise_iff_getElem.mp hwf.apart
  rcases lt_trichotomy i j with hlt | rfl | hgt
  · have habove := (hapart i j hi hj hlt).2 ms hms
    have hbase := (hwf.segs _ hseg').base_le ms hms'
    omega
  · rfl
  · have habove := (hapart j i hj hi hgt).2 ms hms'
    have hbase := (hwf.segs _ hseg).base_le ms hms
    omega

theorem ByteLog.Timed.headsFit (htimed : s.Timed) (hanchors : AnchorsFit s.entries)
    (hexact : ∀ timestamp, EarliestAt s.frames (s.newestOffset + 1) timestamp
      (earliestOffsetAfterTimestamp s.entries timestamp)) :
    HeadsFit s.entries := by
  intro e he seg hlive hraw ms hms hheads
  have hseg : seg ∈ s.segments := by
    obtain ⟨other, hother, rfl⟩ := mem_map.mp he
    rw [← Option.some.inj hlive]
    exact hother
  rcases htimed.midPass.findSome?_cases hanchors (take_append_drop _ _).symm
      (htimed.midPass.below_start (setFrame ms).timestamp) with
    ⟨-, hbelow⟩ | ⟨e', he', seg', hlive', ms', hms', hfind, hanswer⟩
  · obtain ⟨front, rest, hparts, -⟩ := hheads
    have hlt := hbelow ms (by rw [hparts]; simp)
    omega
  · rw [hheads.find?] at hfind
    obtain rfl := Option.some.inj hfind
    have hseg' : seg' ∈ s.segments := by
      obtain ⟨other, hother, rfl⟩ := mem_map.mp he'
      rw [← Option.some.inj hlive']
      exact hother
    have hsame := htimed.wellFormed.segment_unique hseg hseg' hms hms'
    have hearliest := hexact (setFrame ms).timestamp
    rw [earliestOffsetAfterTimestamp] at hearliest
    simp only [hanswer, Option.getD_some] at hearliest
    have hfind := hheads.find?
    rw [s.presentFrames_entries] at hfind
    have hreads := hearliest.eq_of_find? htimed.wellFormed.rising hfind
    rw [← hsame] at hreads
    exact (readOffset_eq_iff ((htimed.wellFormed.segs seg hseg).base_le ms hms)).mp hreads hraw

theorem ByteLog.nextAssigned_entries (s : ByteLog) :
    nextAssigned s.entries = s.newestOffset + 1 := by
  rw [nextAssigned, s.getLast?_entries, Option.map_some, Option.getD_some,
    ByteLog.newestOffset, sub_add_cancel]

theorem ByteLog.Timed.earliestAt (htimed : s.Timed) (hanchors : AnchorsFit s.entries)
    (hheads : HeadsFit s.entries) (timestamp : ℤ) :
    EarliestAt s.frames (s.newestOffset + 1) timestamp
      (earliestOffsetAfterTimestamp s.entries timestamp) := by
  rw [← s.presentFrames_entries, ← s.nextAssigned_entries]
  exact htimed.midPass.earliestAt hanchors hheads timestamp

/-- The answer is the smallest offset present at or after the time, and the
one behind the newest if there is none: on a log at rest exactly if the first
record of each time fits the index, and at any point of a pass if it does. -/
theorem earliestOffsetAfterTimestamp_exact (htimed : s.Timed) : (AnchorsFit s.entries →
      ((∀ timestamp, EarliestAt s.frames (s.newestOffset + 1) timestamp
          (earliestOffsetAfterTimestamp s.entries timestamp)) ↔
        HeadsFit s.entries)) ∧
      ∀ entries, Relation.ReflTransGen PassStep s.entries entries →
        AnchorsFit entries → HeadsFit entries → ∀ timestamp,
          EarliestAt (presentFrames entries) (s.newestOffset + 1) timestamp
            (earliestOffsetAfterTimestamp entries timestamp) := by
  constructor
  · intro hanchors
    constructor
    · exact htimed.headsFit hanchors
    · exact htimed.earliestAt hanchors
  · intro entries hsteps hanchors hheads timestamp
    obtain ⟨hpass, hlast⟩ := htimed.midPass.steps hsteps
    have hnext : nextAssigned entries = nextAssigned s.entries := by
      rw [nextAssigned, hlast, nextAssigned]
    rw [← s.nextAssigned_entries, ← hnext]
    exact hpass.earliestAt hanchors hheads timestamp

end Rest

/-! ## Small logs -/

def timedFrame (offset time : Byte) : Bytes :=
  replicate 7 0 ++ [offset] ++ replicate 7 0 ++ [time] ++
    replicate 8 0 ++ [0, 0, 0, 1] ++ [0, 0, 0, 0] ++ [7]

/-- A raw segment that took one set. -/
def timedLog (frames : List Bytes) : ByteLog :=
  ⟨[], emptyBytes.active.write frames⟩

theorem frames_timedLog (frames : List Bytes) : (timedLog frames).frames = frames := by
  simp [timedLog, ByteLog.frames, ByteLog.segments, emptyBytes,
    ByteSegment.frames, ByteSegment.write]

theorem timedLog_timed {frames : List Bytes} (hwf : (emptyBytes.active.write frames).WellFormed)
    (hchronological : frames.Pairwise fun a b => (setFrame a).timestamp ≤ (setFrame b).timestamp) :
    (timedLog frames).Timed := by
  refine ⟨⟨?_, pairwise_singleton _ _⟩, ?_, ?_⟩
  · intro seg hseg
    rw [mem_singleton.mp hseg]
    exact hwf
  · intro seg hseg
    cases hseg
  · rwa [frames_timedLog]

theorem timedLog_anchors (frames : List Bytes) : AnchorsFit (timedLog frames).entries := by
  intro e he seg hlive hmode
  rw [mem_singleton.mp he] at hlive
  rw [← Option.some.inj hlive] at hmode
  cases hmode

theorem timedLog_heads {frames : List Bytes}
    (hnear : ∀ ms ∈ frames, (setFrame ms).offset ≤ maxInt32) :
    HeadsFit (timedLog frames).entries := by
  intro e he seg hlive _ ms hms _
  rw [mem_singleton.mp he] at hlive
  rw [← Option.some.inj hlive] at hms ⊢
  have hle := hnear ms (by
    simpa [timedLog, emptyBytes, ByteSegment.frames, ByteSegment.write] using hms)
  change (setFrame ms).offset - 0 ≤ maxInt32
  omega

/-- A record further than 31 bits from the base of its segment: the lookup
names an offset that is not there. -/
theorem distant_record_misnamed : (∀ crc headerCrc, emptyBytes.writes crc headerCrc byteEnv
        (.appendMessageSet distantSet) = some [distantSet]) ∧
      (timedLog [distantSet]).Timed ∧
      AnchorsFit (timedLog [distantSet]).entries ∧
      earliestOffsetAfterTimestamp (timedLog [distantSet]).entries 0 = 0 ∧
      ¬ EarliestAt (timedLog [distantSet]).frames ((timedLog [distantSet]).newestOffset + 1) 0
        (earliestOffsetAfterTimestamp (timedLog [distantSet]).entries 0) := by
  obtain ⟨hwritten, hwf⟩ := distantSet_written
  have hzero : earliestOffsetAfterTimestamp (timedLog [distantSet]).entries 0 =
      0 := by
    decide +kernel
  have htimed := timedLog_timed hwf (pairwise_singleton _ _)
  refine ⟨hwritten, htimed, timedLog_anchors _, hzero, ?_⟩
  intro hearliest
  have hfind : ((timedLog [distantSet]).frames.find? fun ms =>
      decide ((0 : ℤ) ≤ (setFrame ms).timestamp)) = some distantSet := by
    decide +kernel
  have hanswer := hearliest.eq_of_find? htimed.wellFormed.rising hfind
  rw [hzero] at hanswer
  revert hanswer
  decide +kernel

theorem earliestOffsetAfterTimestamp_exact_pair :
    EarliestAt (timedLog [timedFrame 0 1, timedFrame 1 2]).frames
      ((timedLog [timedFrame 0 1, timedFrame 1 2]).newestOffset + 1) 2
      (earliestOffsetAfterTimestamp (timedLog [timedFrame 0 1, timedFrame 1 2]).entries 2) := by
  have htimed : (timedLog [timedFrame 0 1, timedFrame 1 2]).Timed := by
    apply timedLog_timed
    · constructor <;> decide +kernel
    · decide +kernel
  exact ((earliestOffsetAfterTimestamp_exact htimed).1
    (timedLog_anchors _)).mpr (timedLog_heads (by decide +kernel)) 2

end CommitLog
