import CommitLog.CrashedInstall
import CommitLog.TruncatePost

/-!
# Opening a log

Every log file of the directory is opened with the index and the block table
found beside it, the offloaded segments are adopted from the manifest, and a
segment whose records the one before it already holds is dropped.
-/

namespace CommitLog

open List Segment

variable {opened : List OpenedSegment} {after : ℤ}
variable {disk front rest : List StoredSegment} {kept : List OpenedSegment}
  {last st : StoredSegment} {o : OpenedSegment} {seg : OpenSegment}

open OpenSegment

/-! ## The files of a segment -/

structure DiskEncoding where
  codec : Block → ℕ
  flags : Block → ℕ
  physLen : Block → ℕ
  physLen_pos : ∀ block, 0 < physLen block

def Block.onDisk (enc : DiskEncoding) (block : Block) : Option DiskBlock :=
  match block.frames with
  | [] => none
  | first :: others =>
    some ⟨⟨block.version, enc.codec block, enc.flags block⟩,
      enc.physLen block, first, others, enc.physLen_pos block⟩

def Segment.logFile (enc : DiskEncoding) (seg : Segment) : LogFile :=
  match seg.layout with
  | .raw frames => .raw frames []
  | .blocks bs => .blocks (bs.filterMap (Block.onDisk enc)) 0

theorem flatMap_onDisk (enc : DiskEncoding) (bs : List Block) :
    (bs.filterMap (Block.onDisk enc)).flatMap DiskBlock.frames = bs.flatMap Block.frames := by
  induction bs with
  | nil => rfl
  | cons block bs ih =>
    rw [filterMap_cons, flatMap_cons]
    cases hframes : block.frames with
    | nil =>
      have hnone : block.onDisk enc = none := by
        unfold Block.onDisk
        rw [hframes]
      rw [hnone, ih]
      rfl
    | cons first others =>
      have hsome : block.onDisk enc = some ⟨⟨block.version, enc.codec block, enc.flags block⟩,
            enc.physLen block, first, others,
            enc.physLen_pos block⟩ := by
        unfold Block.onDisk
        rw [hframes]
      rw [hsome, flatMap_cons, ih]
      rfl

section Files

variable (enc : DiskEncoding) (seg : Segment)

@[simp] theorem Segment.frames_logFile : (seg.logFile enc).frames = seg.frames := by
  unfold logFile frames
  cases seg.layout with
  | raw frames => rfl
  | blocks bs => exact flatMap_onDisk enc bs

@[simp] theorem Segment.tail_logFile : (seg.logFile enc).tail = [] := by
  unfold logFile
  cases seg.layout <;> rfl

theorem Segment.whole_logFile : (seg.logFile enc).whole = seg.logFile enc := by
  unfold logFile
  cases seg.layout <;> rfl

variable {seg}

theorem Segment.WellFormed.sound_logFile (hwf : seg.WellFormed) :
    (seg.logFile enc).Sound seg.baseOffset := by
  constructor
  · exact hwf.base_nonneg
  · rw [frames_logFile]
    exact hwf.ordered
  · rw [frames_logFile]
    exact hwf.base_le
  · rw [tail_logFile]
    exact Or.inl rfl

end Files

/-- A segment as a directory and a manifest have it.  The object of an
offloaded segment may be gone while the manifest still names it. -/
structure StoredSegment where
  seg : Segment
  index : List Entry
  sidecar : Option (List BlockRef)
  lost : Bool

structure OpenedSegment where
  stored : StoredSegment
  seg : OpenSegment

inductive LogOpenError
  | segment (e : OpenError)
  | overlap
deriving DecidableEq, Repr

/-! ## Opening -/

/-- How a log is opened: what stray bytes read as, what the codec makes of
blocks, and whether an empty segment is in block mode. -/
structure OpenOptions where
  stray : ℕ → Header
  enc : DiskEncoding
  encodesBlocks : Bool

namespace StoredSegment

variable (opts : OpenOptions) (st : StoredSegment)

def file : LogFile := st.seg.logFile opts.enc

/-- `openOffloadedSegment`: the manifest says everything about the object,
which is not read. -/
def adopt : OpenSegment :=
  ⟨st.seg.baseOffset, st.file opts, st.seg.layout.blockMode,
    (st.file opts).table, framingLen st.seg.frames, false, st.index,
    firstOffsetOf st.seg.frames, lastOffsetOf st.seg.frames⟩

def setup : Except OpenError OpenSegment :=
  if st.seg.isOffloaded then .ok (st.adopt opts)
  else
    (initPositions st.seg.baseOffset opts.encodesBlocks (st.file opts)
      st.sidecar).setupIndex opts.stray st.index

def reconcile (floor : ℤ) (seg : OpenSegment) :
    Except OpenError OpenSegment :=
  if st.seg.isOffloaded then .ok seg
  else seg.reconcileIndexTail opts.stray floor

def openWith (floor : ℤ) : Except OpenError OpenSegment :=
  match st.setup opts with
  | .error e => .error e
  | .ok seg => st.reconcile opts floor seg

end StoredSegment

/-- The sealed segments; each may lose a torn tail only above the base of the
one behind it. -/
def openSealed (opts : OpenOptions) (after : ℤ) :
    List StoredSegment → Except LogOpenError (List OpenedSegment)
  | [] => .ok []
  | st :: rest =>
    let next := (rest.head?.map fun n => n.seg.baseOffset).getD after
    match st.openWith opts (next - 1), openSealed opts after rest with
    | .error e, _ => .error (.segment e)
    | .ok _, .error e => .error e
    | .ok seg, .ok opened => .ok (⟨st, seg⟩ :: opened)

/-- The loop of `resolveSegmentOverlaps` behind the last segment kept. -/
def resolveFrom {α : Type*} (base next : α → ℤ) (prev : α) : List α → Option (List α)
  | [] => some []
  | s :: rest =>
    if next prev ≤ base s then
      (resolveFrom base next s rest).map (s :: ·)
    else if next prev < next s then none
    else resolveFrom base next prev rest

def resolveSegmentOverlaps {α : Type*} (base next : α → ℤ) : List α → Option (List α)
  | [] => some []
  | s :: rest => (resolveFrom base next s rest).map (s :: ·)

def OpenedSegment.base (o : OpenedSegment) : ℤ := o.seg.baseOffset

def OpenedSegment.next (o : OpenedSegment) : ℤ := o.seg.nextOffset

/-- The last segment on disk: dropped like any other, or reconciled against
the high watermark. -/
def openActive (opts : OpenOptions) (hw : ℤ) (kept : List OpenedSegment)
    (last : StoredSegment) : Except LogOpenError (List OpenedSegment) :=
  match last.setup opts with
  | .error e => .error (.segment e)
  | .ok seg =>
    if kept.getLast?.all fun prev => decide (prev.next ≤ seg.baseOffset) then
      match last.reconcile opts hw seg with
      | .error e => .error (.segment e)
      | .ok seg => .ok (kept ++ [⟨last, seg⟩])
    else if kept.getLast?.any fun prev =>
        decide (prev.next < seg.nextOffset) then .error .overlap
    else .ok kept

def freshOpened (opts : OpenOptions) (base : ℤ) : OpenedSegment :=
  let st : StoredSegment :=
    ⟨fresh base opts.encodesBlocks, [], none, false⟩
  ⟨st, initPositions base opts.encodesBlocks (st.file opts) none⟩

/-- A log must end in a local segment. -/
def withActive (opts : OpenOptions) (opened : List OpenedSegment) : List OpenedSegment :=
  match opened.getLast? with
  | none => [freshOpened opts 0]
  | some last =>
    if last.stored.seg.isOffloaded then
      opened ++ [freshOpened opts last.next]
    else opened

def openLog (opts : OpenOptions) (hw : ℤ) (disk : List StoredSegment) :
    Except LogOpenError (List OpenedSegment) :=
  match disk.getLast? with
  | none => .ok (withActive opts [])
  | some last =>
    match openSealed opts last.seg.baseOffset disk.dropLast with
    | .error e => .error e
    | .ok opened =>
      match resolveSegmentOverlaps OpenedSegment.base OpenedSegment.next opened with
      | none => .error .overlap
      | some kept => (openActive opts hw kept last).map (withActive opts)

/-! ## What an opened segment is -/

structure OpenedSegment.Right (opts : OpenOptions) (o : OpenedSegment) : Prop where
  base_eq : o.seg.baseOffset = o.stored.seg.baseOffset
  opens : OpensAs opts.stray (o.stored.file opts) o.seg

namespace StoredSegment

variable (opts : OpenOptions) (st : StoredSegment)

structure Sound : Prop where
  wellFormed : st.seg.WellFormed
  index_fits : ∀ e ∈ st.index, e.Fits st.seg.baseOffset
  offloaded_index : st.seg.isOffloaded = true →
    st.index = storedIndex st.seg.baseOffset (st.file opts)

/-- The entries fit the index; for a local segment, the table and the index
found beside the log can be used. -/
structure Openable : Prop where
  fits : ∀ e ∈ (st.file opts).entries, e.Fits st.seg.baseOffset
  found : st.seg.isOffloaded = false → TableRight (st.file opts) st.sidecar ∧
      (Rebuilds opts.stray (initPositions st.seg.baseOffset
          opts.encodesBlocks (st.file opts) st.sidecar) st.index ∨
        st.index <+: (st.file opts).entries)

variable {opts st}

theorem adopt_described (hfits : ∀ e ∈ (st.file opts).entries, e.Fits st.seg.baseOffset)
    (hindex : st.index = storedIndex st.seg.baseOffset (st.file opts)) :
    Described st.seg.baseOffset (st.file opts) (st.adopt opts) := by
  have hentries : st.index = (st.file opts).entries := by
    rw [hindex]
    exact map_stored_of_fits hfits
  have hframes : (st.file opts).frames = st.seg.frames :=
    frames_logFile opts.enc st.seg
  constructor
  · exact (whole_logFile opts.enc st.seg).symm
  · rfl
  · rw [hframes]
    exact ⟨hentries, rfl, rfl⟩
  · unfold adopt file logFile frames
    cases st.seg.layout with
    | raw frames =>
      left
      refine ⟨rfl, LogFile.inMode_raw frames, rfl, rfl, ?_, ?_, ?_, ?_⟩
      · simp [LogFile.rawCells, LogFile.frames]
      · simp [LogFile.size, LogFile.frames]
      · simp [LogFile.frames, Layout.frames]
      · simp
    | blocks bs =>
      right
      refine ⟨bs.filterMap (Block.onDisk opts.enc), rfl, rfl,
        LogFile.inMode_blocks _, rfl, rfl, rfl, ?_, ?_⟩
      · rw [framesOf, flatMap_onDisk]
        rfl
      · intro front block rest hsplit
        change (LogFile.blocks (bs.filterMap (Block.onDisk opts.enc)) 0).decodeBlock _ = _
        rw [hsplit]
        exact decodeBlock_tableOf 0

theorem openWith_of_local (hlocal : st.seg.isOffloaded = false) (floor : ℤ) :
    st.openWith opts floor = openSegment opts.stray st.seg.baseOffset opts.encodesBlocks
        (st.file opts) st.sidecar st.index floor := by
  have hsetup : st.setup opts = (initPositions st.seg.baseOffset
      opts.encodesBlocks (st.file opts) st.sidecar).setupIndex opts.stray
        st.index := if_neg (by simp [hlocal])
  unfold openWith openSegment setupAndReconcile
  rw [hsetup]
  cases (initPositions st.seg.baseOffset opts.encodesBlocks (st.file opts)
      st.sidecar).setupIndex opts.stray st.index with
  | error e => rfl
  | ok seg => exact if_neg (by simp [hlocal])

theorem openWith_of_offloaded (hoffloaded : st.seg.isOffloaded = true)
    (floor : ℤ) : st.openWith opts floor = .ok (st.adopt opts) := by
  unfold openWith setup reconcile
  simp only [hoffloaded, if_true]

theorem openWith_iff (hsound : st.Sound opts) (floor : ℤ) :
    (∃ seg, st.openWith opts floor = .ok seg ∧
        OpenedSegment.Right opts ⟨st, seg⟩) ↔ st.Openable opts := by
  have hfile : (st.file opts).Sound st.seg.baseOffset :=
    hsound.wellFormed.sound_logFile opts.enc
  cases hoffloaded : st.seg.isOffloaded with
  | false =>
    rw [openWith_of_local hoffloaded]
    have hiff := @opensAs_iff opts.stray st.seg.baseOffset floor
      opts.encodesBlocks (st.file opts) st.sidecar st.index hfile
      hsound.index_fits
    have htail : (st.file opts).tail = [] :=
      tail_logFile opts.enc st.seg
    constructor
    · rintro ⟨seg, hok, hright⟩
      have hopen := hiff.mp ⟨seg, hok, hright.opens⟩
      exact ⟨hopen.1, fun _ => ⟨hopen.2.1, hopen.2.2.1⟩⟩
    · intro hopen
      have hfound := hopen.found hoffloaded
      have hrefuses : ¬ Refuses st.seg.baseOffset floor
          (st.file opts).frames (st.file opts).tail := by
        rintro ⟨hne, -⟩
        exact hne htail
      rcases hiff.mpr ⟨hopen.fits, hfound.1, hfound.2,
        fun h => hrefuses h.2⟩ with ⟨seg, hok, hopens⟩
      exact ⟨seg, hok, (openSegment_keeps hok).1, hopens⟩
  | true =>
    rw [openWith_of_offloaded hoffloaded]
    have hindex := hsound.offloaded_index hoffloaded
    constructor
    · rintro ⟨seg, hok, hright⟩
      cases hok
      have hentries : st.index = (st.file opts).entries :=
        hright.opens.index_eq
      constructor
      · intro e he
        rw [← hentries] at he
        exact hsound.index_fits e he
      · intro hlocal
        rw [hlocal] at hoffloaded
        cases hoffloaded
    · intro hopen
      exact ⟨_, rfl, rfl, (adopt_described hopen.fits hindex).opensAs hfile.ordered⟩

end StoredSegment

/-! ## Overlaps -/

section Overlaps

variable {α β : Type*} {base next : α → ℤ}

theorem resolveFrom_append {prev : α} {front rest : List α}
    (hapart : (prev :: front).Pairwise fun a b => next a ≤ base b) :
    resolveFrom base next prev (front ++ rest) =
      (resolveFrom base next ((prev :: front).getLast (by simp)) rest).map (front ++ ·) := by
  induction front generalizing prev with
  | nil => simp
  | cons s front ih =>
    have hparts := pairwise_cons.mp hapart
    have hle : next prev ≤ base s := hparts.1 s mem_cons_self
    rw [cons_append, resolveFrom, if_pos hle, ih hparts.2, Option.map_map]
    rfl

variable {l : List α}

theorem resolveSegmentOverlaps_eq_self (hapart : l.Pairwise fun a b => next a ≤ base b) :
    resolveSegmentOverlaps base next l = some l := by
  cases l with
  | nil => rfl
  | cons s rest =>
    have hrest := @resolveFrom_append α base next s rest [] hapart
    rw [append_nil] at hrest
    rw [resolveSegmentOverlaps, hrest]
    simp [resolveFrom]

variable {rest : List α}

theorem resolveFrom_covered {prev : α} {covered : List α}
    (hcovered : ∀ s ∈ covered, base s < next prev ∧ next s ≤ next prev) :
    resolveFrom base next prev (covered ++ rest) =
      resolveFrom base next prev rest := by
  induction covered with
  | nil => rfl
  | cons s covered ih =>
    have hs := hcovered s mem_cons_self
    rw [cons_append, resolveFrom, if_neg (by omega), if_neg (by omega)]
    exact ih fun t ht => hcovered t (mem_cons_of_mem _ ht)

variable {kept : List α}

theorem resolveFrom_sublist {prev : α}
    (hok : resolveFrom base next prev l = some kept) : kept.Sublist l := by
  induction l generalizing prev kept with
  | nil =>
    cases hok
    exact Sublist.slnil
  | cons s l ih =>
    rw [resolveFrom] at hok
    split_ifs at hok with hle hlt
    · rcases Option.map_eq_some_iff.mp hok with ⟨rest, hrest, rfl⟩
      exact (ih hrest).cons_cons s
    · exact (ih hok).cons s

theorem resolveSegmentOverlaps_sublist (hok : resolveSegmentOverlaps base next l = some kept) :
    kept.Sublist l := by
  cases l with
  | nil =>
    cases hok
    exact Sublist.slnil
  | cons s l =>
    rw [resolveSegmentOverlaps] at hok
    rcases Option.map_eq_some_iff.mp hok with ⟨rest, hrest, rfl⟩
    exact (resolveFrom_sublist hrest).cons_cons s

theorem resolveFrom_map {base' next' : β → ℤ} {f : α → β} {prev : α} (hbase : ∀ s ∈ prev :: l, base' (f s) = base s)
    (hnext : ∀ s ∈ prev :: l, next' (f s) = next s) :
    resolveFrom base' next' (f prev) (l.map f) = (resolveFrom base next prev l).map (map f) := by
  induction l generalizing prev with
  | nil => rfl
  | cons s l ih =>
    rw [map_cons, resolveFrom, resolveFrom,
      hnext prev mem_cons_self, hbase s (by simp), hnext s (by simp)]
    split_ifs with hle hlt
    · rw [ih (fun t ht => hbase t (mem_cons_of_mem _ ht))
        (fun t ht => hnext t (mem_cons_of_mem _ ht)), Option.map_map,
        Option.map_map]
      rfl
    · rfl
    · apply ih
      · intro t ht
        apply hbase t
        rcases mem_cons.mp ht with rfl | ht
        · exact mem_cons_self
        · simp [ht]
      · intro t ht
        apply hnext t
        rcases mem_cons.mp ht with rfl | ht
        · exact mem_cons_self
        · simp [ht]

theorem resolveSegmentOverlaps_map {base' next' : β → ℤ} {f : α → β} {l : List α}
    (hbase : ∀ s ∈ l, base' (f s) = base s) (hnext : ∀ s ∈ l, next' (f s) = next s) :
    resolveSegmentOverlaps base' next' (l.map f) =
      (resolveSegmentOverlaps base next l).map (map f) := by
  cases l with
  | nil => rfl
  | cons s l =>
    rw [map_cons, resolveSegmentOverlaps, resolveSegmentOverlaps,
      resolveFrom_map hbase hnext, Option.map_map, Option.map_map]
    rfl

variable {front : List α}

theorem resolveSegmentOverlaps_append {s : α}
    (hapart : (front ++ [s]).Pairwise fun a b => next a ≤ base b) :
    resolveSegmentOverlaps base next (front ++ s :: rest) =
      (resolveFrom base next s rest).map (front ++ s :: ·) := by
  cases front with
  | nil => rfl
  | cons t front =>
    have hall := @resolveFrom_append α base next t (front ++ [s]) rest hapart
    have hlast : (t :: (front ++ [s])).getLast (by simp) = s := by simp
    rw [hlast, append_assoc] at hall
    rw [cons_append, resolveSegmentOverlaps]
    change (resolveFrom base next t (front ++ ([s] ++ rest))).map _ = _
    rw [hall, Option.map_map]
    congr 1
    funext kept
    simp

theorem resolve_covered {covered : List α} {cover : α}
    (hapart : (front ++ cover :: rest).Pairwise fun a b => next a ≤ base b)
    (hcovered : ∀ s ∈ covered, base s < next cover ∧ next s ≤ next cover) :
    resolveSegmentOverlaps base next (front ++ cover :: (covered ++ rest)) =
      some (front ++ cover :: rest) := by
  have hbehind := (pairwise_append.mp hapart).2.1
  have hall := @resolveFrom_append α base next cover rest [] hbehind
  rw [append_nil] at hall
  have hfront : (front ++ [cover]).Pairwise fun a b => next a ≤ base b := by
    have hsub : (front ++ [cover]).Sublist (front ++ cover :: rest) :=
      (Sublist.refl front).append (by simp)
    exact hapart.sublist hsub
  rw [resolveSegmentOverlaps_append hfront, resolveFrom_covered hcovered, hall]
  simp [resolveFrom]

theorem mem_of_resolve_covered {cover covered : α}
    (hapart : (front ++ [cover]).Pairwise fun a b => next a ≤ base b)
    (hcovered : base covered < next cover)
    (hok : resolveSegmentOverlaps base next (front ++ cover :: covered :: rest) = some kept) :
    kept ⊆ front ++ cover :: rest := by
  rw [resolveSegmentOverlaps_append hapart, resolveFrom, if_neg (by omega)] at hok
  split_ifs at hok
  · cases hok
  · rcases Option.map_eq_some_iff.mp hok with ⟨behind, hbehind, rfl⟩
    apply append_subset.mpr
    refine ⟨subset_append_left _ _, ?_⟩
    apply Subset.trans _ (subset_append_right front _)
    exact cons_subset_cons cover (resolveFrom_sublist hbehind).subset

end Overlaps

/-! ## What a log opens as -/

def StoredSegment.base (st : StoredSegment) : ℤ := st.seg.baseOffset

def StoredSegment.next (st : StoredSegment) : ℤ := st.seg.nextOffset

section Log

variable {opts : OpenOptions} {hw : ℤ}

theorem OpenedSegment.Right.next_eq (hright : o.Right opts)
    (hwf : o.stored.seg.WellFormed) : o.stored.next = o.next := by
  unfold StoredSegment.next OpenedSegment.next Segment.nextOffset OpenSegment.nextOffset
  have hlast := hright.opens.lastOffset_eq
  rw [StoredSegment.file, frames_logFile] at hlast
  rw [hlast, hright.base_eq]
  unfold lastOffsetOf
  cases hend : o.stored.seg.frames.getLast? with
  | none => simp
  | some frame =>
    have hnonneg := hwf.offset_nonneg (mem_of_getLast? hend)
    simp only [Option.map_some, Option.getD_some]
    rw [if_neg (by omega)]

theorem StoredSegment.base_setup (hok : st.setup opts = .ok seg) : seg.baseOffset = st.base := by
  unfold StoredSegment.setup at hok
  split_ifs at hok with hoffloaded
  · cases hok
    rfl
  · have hbase := @baseOffset_initPositions st.seg.baseOffset
      opts.encodesBlocks (st.file opts) st.sidecar
    rcases extends_setupIndex hok with ⟨-, hext⟩ | ⟨-, hext⟩
    · exact hext.baseOffset_eq.trans hbase
    · exact hext.baseOffset_eq.trans hbase

theorem StoredSegment.base_openWith {floor : ℤ} (hok : st.openWith opts floor = .ok seg) :
    seg.baseOffset = st.base := by
  cases hoffloaded : st.seg.isOffloaded with
  | false =>
    rw [st.openWith_of_local hoffloaded] at hok
    exact (openSegment_keeps hok).1
  | true =>
    rw [st.openWith_of_offloaded hoffloaded] at hok
    cases hok
    rfl

theorem openSealed_ok (hok : openSealed opts after disk = .ok opened) :
    opened.map OpenedSegment.stored = disk ∧
      ∀ o ∈ opened, ∃ floor, o.stored.openWith opts floor = .ok o.seg := by
  induction disk generalizing opened with
  | nil =>
    cases hok
    exact ⟨rfl, by simp⟩
  | cons st disk ih =>
    unfold openSealed at hok
    simp only at hok
    split at hok
    · cases hok
    · cases hok
    · next seg rest hseg hrest =>
        cases hok
        rcases ih hrest with ⟨hmap, hall⟩
        constructor
        · rw [map_cons, hmap]
        · intro o ho
          rcases mem_cons.mp ho with rfl | ho
          · exact ⟨_, hseg⟩
          · exact hall o ho

theorem openSealed_of_openable {after : ℤ} {disk : List StoredSegment}
    (hsound : ∀ st ∈ disk, st.Sound opts) (hopen : ∀ st ∈ disk, st.Openable opts) :
    ∃ opened, openSealed opts after disk = .ok opened ∧
      opened.map OpenedSegment.stored = disk ∧ ∀ o ∈ opened, o.Right opts := by
  induction disk with
  | nil => exact ⟨[], rfl, rfl, by simp⟩
  | cons st disk ih =>
    rcases ih (fun t ht => hsound t (mem_cons_of_mem _ ht))
      (fun t ht => hopen t (mem_cons_of_mem _ ht)) with
      ⟨opened, hrest, hmap, hright⟩
    have hst := hsound st mem_cons_self
    rcases (st.openWith_iff hst ((disk.head?.map fun n => n.seg.baseOffset).getD after - 1)).mpr
      (hopen st mem_cons_self) with ⟨seg, hok, hseg⟩
    refine ⟨⟨st, seg⟩ :: opened, ?_, ?_, ?_⟩
    · unfold openSealed
      simp only [hok, hrest]
    · rw [map_cons, hmap]
    · intro o ho
      rcases mem_cons.mp ho with rfl | ho
      · exact hseg
      · exact hright o ho

theorem freshOpened_right (base : ℤ) : (freshOpened opts base).Right opts := by
  constructor
  · unfold freshOpened
    exact baseOffset_initPositions
  · have hdescribed : Described base ((freshOpened opts base).stored.file opts)
        (freshOpened opts base).seg := by
      unfold freshOpened StoredSegment.file logFile fresh
      cases opts.encodesBlocks with
      | false =>
        constructor
        · rfl
        · rfl
        · exact ⟨rfl, rfl, rfl⟩
        · left
          exact ⟨rfl, rfl, rfl, rfl, rfl, rfl, rfl, fun hne => absurd rfl hne⟩
      | true =>
        constructor
        · rfl
        · rfl
        · exact ⟨rfl, rfl, rfl⟩
        · right
          exact ⟨[], rfl, rfl, rfl, rfl, rfl, rfl, rfl, by simp⟩
    apply hdescribed.opensAs
    rw [StoredSegment.file, frames_logFile]
    change (fresh base opts.encodesBlocks).frames.Pairwise _
    rw [frames_fresh]
    exact Pairwise.nil

/-- The segments of a log that lie one behind the other. -/
def Apart (disk : List StoredSegment) : Prop :=
  disk.Pairwise fun a b => a.next ≤ b.base

theorem apart_iff : Apart disk ↔ (disk.map fun st => st.seg).Pairwise
      fun a b => a.nextOffset ≤ b.baseOffset := by
  rw [pairwise_map]
  rfl

theorem openLog_of_openable {front kept : List StoredSegment} {last : StoredSegment}
    (hsound : ∀ st ∈ front ++ [last], st.Sound opts)
    (hopen : ∀ st ∈ front ++ [last], st.Openable opts)
    (hresolve : resolveSegmentOverlaps StoredSegment.base StoredSegment.next front = some kept)
    (hlast : ∀ st ∈ kept, st.next ≤ last.base) :
    ∃ opened, openLog opts hw (front ++ [last]) = .ok (withActive opts opened) ∧
      opened.map OpenedSegment.stored = kept ++ [last] ∧
      ∀ o ∈ opened, o.Right opts := by
  rcases @openSealed_of_openable opts last.seg.baseOffset front
    (fun st hst => hsound st (mem_append_left _ hst))
    (fun st hst => hopen st (mem_append_left _ hst)) with
    ⟨opened, hsealed, hmap, hright⟩
  have hmem : ∀ o ∈ opened, o.stored ∈ front := by
    intro o ho
    rw [← hmap]
    exact mem_map_of_mem ho
  have hkept : ∃ keptOpened, resolveSegmentOverlaps OpenedSegment.base OpenedSegment.next opened =
        some keptOpened ∧ keptOpened.map OpenedSegment.stored = kept := by
    have hstored := @resolveSegmentOverlaps_map OpenedSegment StoredSegment
      OpenedSegment.base OpenedSegment.next StoredSegment.base StoredSegment.next
      OpenedSegment.stored opened (fun o ho => (hright o ho).base_eq.symm)
      (fun o ho => (hright o ho).next_eq (hsound _ (mem_append_left _ (hmem o ho))).wellFormed)
    rw [hmap, hresolve] at hstored
    cases hres : resolveSegmentOverlaps OpenedSegment.base OpenedSegment.next opened with
    | none => simp [hres] at hstored
    | some keptOpened =>
      rw [hres] at hstored
      exact ⟨keptOpened, rfl, (Option.some.inj hstored).symm⟩
  rcases hkept with ⟨keptOpened, hres, hkeptMap⟩
  have hkeptRight : ∀ o ∈ keptOpened, o.Right opts := fun o ho =>
    hright o ((resolveSegmentOverlaps_sublist hres).subset ho)
  have hlastSound := hsound last (by simp)
  rcases (last.openWith_iff hlastSound hw).mpr (hopen last (by simp)) with
    ⟨seg, hok, hseg⟩
  refine ⟨keptOpened ++ [⟨last, seg⟩], ?_, ?_, ?_⟩
  · have hactive : openActive opts hw keptOpened last = .ok (keptOpened ++ [⟨last, seg⟩]) := by
      unfold StoredSegment.openWith at hok
      unfold openActive
      cases hsetup : last.setup opts with
      | error e => simp [hsetup] at hok
      | ok start =>
        rw [hsetup] at hok
        simp only at hok ⊢
        have hbase : start.baseOffset = last.base :=
          StoredSegment.base_setup hsetup
        have hall : (keptOpened.getLast?.all fun prev =>
            decide (prev.next ≤ start.baseOffset)) = true := by
          cases hprev : keptOpened.getLast? with
          | none => rfl
          | some prev =>
            have hin := mem_of_getLast? hprev
            have hstored : prev.stored ∈ kept := by
              rw [← hkeptMap]
              exact mem_map_of_mem hin
            have hwf := (hsound _ (mem_append_left _ (hmem prev
              ((resolveSegmentOverlaps_sublist hres).subset hin)))).wellFormed
            have hle := hlast prev.stored hstored
            rw [(hkeptRight prev hin).next_eq hwf] at hle
            simpa [hbase] using hle
        rw [if_pos hall, hok]
    unfold openLog
    rw [getLast?_concat, dropLast_concat]
    simp only [hsealed, hres, hactive]
    rfl
  · rw [map_append, hkeptMap]
    rfl
  · intro o ho
    rcases mem_append.mp ho with ho | ho
    · exact hkeptRight o ho
    · rw [mem_singleton.mp ho]
      exact hseg

theorem prefix_of_resolveFrom {prev : OpenedSegment} {front rest : List OpenedSegment}
    (hbase : ∀ o ∈ front, o.base = o.stored.base)
    (hwf : ∀ o ∈ prev :: front, o.stored.seg.WellFormed)
    (hapart : Apart ((prev :: front).map OpenedSegment.stored))
    (hok : resolveFrom OpenedSegment.base OpenedSegment.next prev (front ++ rest) = some kept)
    (hprev : prev.Right opts) (hright : ∀ o ∈ kept, o.Right opts) : front <+: kept := by
  induction front generalizing prev kept with
  | nil => exact nil_prefix
  | cons o front ih =>
    have hparts := pairwise_cons.mp hapart
    have hle : prev.next ≤ o.base := by
      have hle := hparts.1 o.stored (by simp)
      rwa [hprev.next_eq (hwf prev mem_cons_self), ← hbase o mem_cons_self] at hle
    rw [cons_append, resolveFrom, if_pos hle] at hok
    rcases Option.map_eq_some_iff.mp hok with ⟨tail, htail, rfl⟩
    apply cons_prefix_cons.mpr
    exact ⟨rfl, ih (fun o ho => hbase o (mem_cons_of_mem _ ho))
      (fun o ho => hwf o (mem_cons_of_mem _ ho)) hparts.2 htail
      (hright o mem_cons_self)
      (fun o ho => hright o (mem_cons_of_mem _ ho))⟩

theorem prefix_of_resolve {front rest : List OpenedSegment}
    (hbase : ∀ o ∈ front, o.base = o.stored.base) (hwf : ∀ o ∈ front, o.stored.seg.WellFormed)
    (hapart : Apart (front.map OpenedSegment.stored))
    (hok : resolveSegmentOverlaps OpenedSegment.base OpenedSegment.next (front ++ rest) = some kept)
    (hright : ∀ o ∈ kept, o.Right opts) : front <+: kept := by
  cases front with
  | nil => exact nil_prefix
  | cons o front =>
    rw [cons_append, resolveSegmentOverlaps] at hok
    rcases Option.map_eq_some_iff.mp hok with ⟨tail, htail, rfl⟩
    apply cons_prefix_cons.mpr
    exact ⟨rfl, prefix_of_resolveFrom (fun o ho => hbase o (mem_cons_of_mem _ ho)) hwf hapart htail
      (hright o mem_cons_self)
      (fun o ho => hright o (mem_cons_of_mem _ ho))⟩

theorem withActive_eq (opts : OpenOptions) (kept : List OpenedSegment) :
    withActive opts kept = kept ∨ ∃ base, withActive opts kept = kept ++ [freshOpened opts base] ∧
        ∀ last ∈ kept.getLast?, base = last.next := by
  unfold withActive
  cases hlast : kept.getLast? with
  | none =>
    right
    refine ⟨0, ?_, by simp⟩
    rw [getLast?_eq_none_iff.mp hlast, nil_append]
  | some last =>
    simp only
    split_ifs
    · right
      exact ⟨last.next, rfl, by simp⟩
    · left
      rfl

theorem subset_withActive (opts : OpenOptions) (kept : List OpenedSegment) :
    kept ⊆ withActive opts kept := by
  rcases withActive_eq opts kept with heq | ⟨base, heq, -⟩
  · rw [heq]
    exact Subset.refl _
  · rw [heq]
    exact subset_append_left _ _

theorem mem_withActive (ho : o ∈ withActive opts kept) :
    o ∈ kept ∨ ∃ base, o = freshOpened opts base := by
  rcases withActive_eq opts kept with heq | ⟨base, heq, -⟩
  · rw [heq] at ho
    exact Or.inl ho
  · rw [heq] at ho
    rcases mem_append.mp ho with ho | ho
    · exact Or.inl ho
    · exact Or.inr ⟨base, mem_singleton.mp ho⟩

theorem openLog_ok (hok : openLog opts hw (front ++ [last]) = .ok opened) :
    ∃ all kept start, openSealed opts last.base front = .ok all ∧
      resolveSegmentOverlaps OpenedSegment.base OpenedSegment.next all = some kept ∧
      kept ⊆ opened ∧ last.setup opts = .ok start ∧
      ((∀ prev ∈ kept.getLast?, prev.next ≤ start.baseOffset) →
        ∃ seg, last.openWith opts hw = .ok seg ∧ ⟨last, seg⟩ ∈ opened) ∧
      ∀ o ∈ opened, o ∈ kept ∨ o.stored = last ∨ ∃ base, o = freshOpened opts base := by
  unfold openLog at hok
  rw [getLast?_concat, dropLast_concat] at hok
  simp only at hok
  rw [StoredSegment.base]
  cases hsealed : openSealed opts last.seg.baseOffset front with
  | error e => simp [hsealed] at hok
  | ok all =>
    simp only [hsealed] at hok
    cases hres : resolveSegmentOverlaps OpenedSegment.base OpenedSegment.next all with
    | none => simp [hres] at hok
    | some kept =>
      simp only [hres] at hok
      unfold openActive at hok
      cases hsetup : last.setup opts with
      | error e =>
        rw [hsetup] at hok
        cases hok
      | ok start =>
        rw [hsetup] at hok
        simp only at hok
        split_ifs at hok with hall hany
        · cases hrec : last.reconcile opts hw start with
          | error e =>
            rw [hrec] at hok
            cases hok
          | ok seg =>
            rw [hrec] at hok
            cases hok
            have hsub := subset_withActive opts (kept ++ [⟨last, seg⟩])
            refine ⟨all, kept, start, rfl, hres, fun o ho =>
              hsub (mem_append_left _ ho), rfl, fun _ =>
              ⟨seg, ?_, hsub (by simp)⟩, ?_⟩
            · unfold StoredSegment.openWith
              rw [hsetup]
              exact hrec
            · intro o ho
              rcases mem_withActive ho with ho | hfresh
              · rcases mem_append.mp ho with ho | ho
                · exact Or.inl ho
                · rw [mem_singleton.mp ho]
                  exact Or.inr (Or.inl rfl)
              · exact Or.inr (Or.inr hfresh)
        · cases hok
        · cases hok
          refine ⟨all, kept, start, rfl, hres, subset_withActive opts kept, rfl, ?_, ?_⟩
          · intro hle
            exfalso
            apply hall
            cases hprev : kept.getLast? with
            | none => rfl
            | some prev => simpa using hle prev hprev
          · intro o ho
            rcases mem_withActive ho with ho | hfresh
            · exact Or.inl ho
            · exact Or.inr (Or.inr hfresh)

theorem openSealed_right {all : List StoredSegment} (hsound : ∀ st ∈ front, st.Sound opts)
    (hapart : Apart front) (hsplit : all = front ++ rest)
    (hsealed : openSealed opts after all = .ok opened)
    (hres : resolveSegmentOverlaps OpenedSegment.base OpenedSegment.next opened = some kept)
    (hright : ∀ o ∈ kept, o.Right opts) :
    ∃ before, before.map OpenedSegment.stored = front ∧ before <+: kept ∧
      ∀ o ∈ before, ∃ floor, o.stored.openWith opts floor = .ok o.seg := by
  rcases openSealed_ok hsealed with ⟨hmap, hopened⟩
  rw [hsplit] at hmap
  rcases map_eq_append_iff.mp hmap with
    ⟨before, behind, rfl, hbefore, -⟩
  have hopenedBefore : ∀ o ∈ before, ∃ floor, o.stored.openWith opts floor = .ok o.seg :=
    fun o ho => hopened o (mem_append_left _ ho)
  refine ⟨before, hbefore, ?_, hopenedBefore⟩
  apply prefix_of_resolve _ _ _ hres hright
  · intro o ho
    rcases hopenedBefore o ho with ⟨floor, hopen⟩
    exact StoredSegment.base_openWith hopen
  · intro o ho
    have hin : o.stored ∈ front := hbefore ▸ mem_map_of_mem ho
    exact (hsound _ hin).wellFormed
  · rw [hbefore]
    exact hapart

theorem openable_of_openLog (hsound : ∀ other ∈ front ++ [st], other.Sound opts)
    (hapart : Apart (front ++ [st])) (hok : openLog opts hw (front ++ st :: rest) = .ok opened)
    (hright : ∀ o ∈ opened, o.Right opts) : st.Openable opts := by
  have hst : st.Sound opts := hsound st (by simp)
  rcases eq_nil_or_concat rest with rfl | ⟨init, last, hrest⟩
  · rcases openLog_ok hok with
      ⟨all, kept, start, hsealed, hres, hkept, hsetup, hlast, -⟩
    have hkeptRight : ∀ o ∈ kept, o.Right opts :=
      fun o ho => hright o (hkept ho)
    have hle : ∀ prev ∈ kept.getLast?, prev.next ≤ start.baseOffset := by
      intro prev hprev
      have hin := mem_of_getLast? hprev
      have hstored : prev.stored ∈ front := by
        rw [← (openSealed_ok hsealed).1]
        exact mem_map_of_mem ((resolveSegmentOverlaps_sublist hres).subset hin)
      have hle := (pairwise_append.mp hapart).2.2 prev.stored hstored st (by simp)
      rwa [(hkeptRight prev hin).next_eq (hsound _ (mem_append_left _ hstored)).wellFormed,
        ← StoredSegment.base_setup hsetup] at hle
    rcases hlast hle with ⟨seg, hopen, hin⟩
    exact (st.openWith_iff hst hw).mp ⟨seg, hopen, hright _ hin⟩
  · rw [concat_eq_append] at hrest
    have hsplit : front ++ st :: rest = (front ++ st :: init) ++ [last] := by
      simp [hrest]
    rw [hsplit] at hok
    rcases openLog_ok hok with
      ⟨all, kept, start, hsealed, hres, hkept, -⟩
    have hkeptRight : ∀ o ∈ kept, o.Right opts :=
      fun o ho => hright o (hkept ho)
    rcases openSealed_right hsound hapart (append_cons front st init)
      hsealed hres hkeptRight with ⟨before, hbefore, hsub, hopened⟩
    have hin : st ∈ before.map OpenedSegment.stored := by simp [hbefore]
    rcases mem_map.mp hin with ⟨o, ho, rfl⟩
    rcases hopened o ho with ⟨floor, hopen⟩
    exact (o.stored.openWith_iff hst floor).mp ⟨o.seg, hopen, hkeptRight o (hsub.subset ho)⟩

theorem stored_of_covered {cover covered : StoredSegment}
    (hsound : ∀ other ∈ front ++ [cover], other.Sound opts) (hapart : Apart (front ++ [cover]))
    (hcovered : covered.base < cover.next)
    (hok : openLog opts hw (front ++ cover :: covered :: (rest ++ [last])) = .ok opened)
    (hright : ∀ o ∈ opened, o.Right opts) (ho : o ∈ opened) :
    o.stored ∈ front ++ cover :: (rest ++ [last]) ∨ ∃ base, o = freshOpened opts base := by
  have hsplit : front ++ cover :: covered :: (rest ++ [last]) =
      (front ++ cover :: covered :: rest) ++ [last] := by simp
  rw [hsplit] at hok
  rcases openLog_ok hok with
    ⟨all, kept, start, hsealed, hres, hkept, -, -, hfrom⟩
  have hkeptRight : ∀ o ∈ kept, o.Right opts :=
    fun o ho => hright o (hkept ho)
  rcases openSealed_ok hsealed with ⟨hmap, hopened⟩
  rcases map_eq_append_iff.mp hmap with
    ⟨before, behind, rfl, hbefore, hbehind⟩
  rcases map_eq_cons_iff.mp hbehind with
    ⟨c, behind, rfl, hcover, hbehind⟩
  rcases map_eq_cons_iff.mp hbehind with
    ⟨v, tail, rfl, hv, htail⟩
  have hfront : (before ++ [c]).map OpenedSegment.stored = front ++ [cover] := by
    simp [hbefore, hcover]
  have hbase : ∀ o ∈ before ++ c :: v :: tail, o.base = o.stored.base := by
    intro o ho
    rcases hopened o ho with ⟨floor, hopen⟩
    exact StoredSegment.base_openWith hopen
  have hwf : ∀ o ∈ before ++ [c], o.stored.seg.WellFormed := by
    intro o ho
    have hin : o.stored ∈ front ++ [cover] := hfront ▸ mem_map_of_mem ho
    exact (hsound _ hin).wellFormed
  have hmem : ∀ o ∈ before ++ [c], o ∈ before ++ c :: v :: tail := by
    intro o ho
    rcases mem_append.mp ho with ho | ho
    · exact mem_append_left _ ho
    · simp [mem_singleton.mp ho]
  have hfrontRight : ∀ o ∈ before ++ [c], o.Right opts := by
    have hin : before ++ [c] <+: kept := by
      apply prefix_of_resolve (fun o ho => hbase o (hmem o ho)) hwf _ _ hkeptRight
      · exact v :: tail
      · rw [hfront]
        exact hapart
      · rw [← append_cons]
        exact hres
    exact fun o ho => hkeptRight o (hin.subset ho)
  have hspread : (before ++ [c]).Pairwise fun a b => a.next ≤ b.base := by
    have hstored : (before ++ [c]).Pairwise fun a b => a.stored.next ≤ b.stored.base := by
      rw [← hfront] at hapart
      exact pairwise_map.mp hapart
    apply hstored.imp_of_mem
    intro a b ha hb hle
    rw [hbase b (hmem b hb), ← (hfrontRight a ha).next_eq (hwf a ha)]
    exact hle
  have hinside : v.base < c.next := by
    rw [hbase v (by simp), ← (hfrontRight c (by simp)).next_eq (hwf c (by simp)), hv, hcover]
    exact hcovered
  have hkeptMem := mem_of_resolve_covered hspread hinside hres
  rcases hfrom o ho with ho | hlast | hfresh
  · left
    have hin := mem_map_of_mem (f := OpenedSegment.stored) (hkeptMem ho)
    rw [map_append, map_cons, hbefore, hcover, htail] at hin
    simp only [mem_append, mem_cons] at hin ⊢
    tauto
  · left
    simp [hlast]
  · exact Or.inr hfresh

/-- The records of the segments that can still be read. -/
def StoredSegment.readable (st : StoredSegment) : List Frame :=
  if st.lost then [] else st.seg.frames

def readableOf (opened : List OpenedSegment) : List Frame :=
  opened.flatMap fun o => o.stored.readable

def openedView (opened : List OpenedSegment) : LogView where
  sealedSegs := opened.dropLast.map fun o => o.stored.seg
  active := (opened.getLast?.map fun o => o.stored.seg).getD (fresh 0 false)
  keys := fun _ => none

theorem openedView_segments (hne : opened ≠ []) :
    (openedView opened).segments = opened.map fun o => o.stored.seg := by
  rcases eq_nil_or_concat opened with hnil | ⟨init, last, rfl⟩
  · exact absurd hnil hne
  · rw [concat_eq_append]
    simp [openedView, LogView.segments]

theorem withActive_spec (hne : kept ≠ []) (hright : ∀ o ∈ kept, o.Right opts)
    (hspaced : Spaced (kept.map fun o => o.stored.seg)) :
    (∀ o ∈ withActive opts kept, o.Right opts) ∧
      readableOf (withActive opts kept) = readableOf kept ∧
      Spaced (openedView (withActive opts kept)).segments ∧
      recordsOf (openedView (withActive opts kept)).segments =
        recordsOf (kept.map fun o => o.stored.seg) := by
  rcases withActive_eq opts kept with heq | ⟨base, heq, hbase⟩
  · rw [heq, openedView_segments hne]
    exact ⟨hright, rfl, hspaced, rfl⟩
  · have hsegs : (openedView (withActive opts kept)).segments = (kept.map fun o => o.stored.seg) ++
          [fresh base opts.encodesBlocks] := by
      rw [openedView_segments (by simp [heq]), heq, map_append]
      rfl
    rw [heq] at hsegs ⊢
    refine ⟨?_, ?_, ?_, ?_⟩
    · intro o ho
      rcases mem_append.mp ho with ho | ho
      · exact hright o ho
      · rw [mem_singleton.mp ho]
        exact freshOpened_right base
    · unfold readableOf
      rw [flatMap_append]
      simp [freshOpened, StoredSegment.readable]
    · rw [hsegs]
      cases hlast : kept.getLast? with
      | none => exact absurd (getLast?_eq_none_iff.mp hlast) hne
      | some last =>
        have hin := mem_of_getLast? hlast
        have hwf := hspaced.wellFormed last.stored.seg
          (mem_map_of_mem (f := fun o => o.stored.seg) hin)
        have hend : base = last.stored.seg.nextOffset := by
          rw [hbase last hlast]
          exact ((hright last hin).next_eq hwf).symm
        have hmap : (kept.map fun o => o.stored.seg).getLast? = some last.stored.seg := by
          rw [getLast?_map, hlast]
          rfl
        apply hspaced.concat
        · apply wellFormed_fresh
          rw [hend]
          exact hwf.base_nonneg.trans hwf.base_le_nextOffset
        · intro other hother
          have hle := hspaced.nextOffset_le_last hmap other hother
          rwa [← hend] at hle
    · rw [hsegs, recordsOf_append]
      simp [recordsOf]

theorem openLog_of_kept {front kept : List StoredSegment} {last : StoredSegment}
    (hsound : ∀ st ∈ front ++ [last], st.Sound opts)
    (hopen : ∀ st ∈ front ++ [last], st.Openable opts)
    (hresolve : resolveSegmentOverlaps StoredSegment.base StoredSegment.next front = some kept)
    (hapart : Apart (kept ++ [last])) :
    ∃ opened, openLog opts hw (front ++ [last]) = .ok opened ∧ (∀ o ∈ opened, o.Right opts) ∧
      readableOf opened = (kept ++ [last]).flatMap StoredSegment.readable ∧
      Spaced (openedView opened).segments ∧
      recordsOf (openedView opened).segments =
        recordsOf ((kept ++ [last]).map fun st => st.seg) := by
  have hparts := pairwise_append.mp hapart
  rcases @openLog_of_openable opts hw front kept last hsound hopen hresolve
    (fun st hst => hparts.2.2 st hst last (by simp)) with
    ⟨opened, hok, hmap, hright⟩
  have hsegs : (opened.map fun o => o.stored.seg) = (kept ++ [last]).map fun st => st.seg := by
    rw [← hmap, map_map]
    rfl
  have hsub : (kept ++ [last]).Sublist (front ++ [last]) :=
    (resolveSegmentOverlaps_sublist hresolve).append (Sublist.refl _)
  have hspaced : Spaced (opened.map fun o => o.stored.seg) := by
    rw [hsegs]
    constructor
    · intro seg hseg
      rcases mem_map.mp hseg with ⟨st, hst, rfl⟩
      exact (hsound st (hsub.subset hst)).wellFormed
    · exact apart_iff.mp hapart
  have hopened : opened ≠ [] := by
    rintro rfl
    simp at hmap
  rcases withActive_spec hopened hright hspaced with
    ⟨hall, hread, hview, hrecords⟩
  refine ⟨_, hok, hall, ?_, hview, ?_⟩
  · rw [hread, ← hmap, flatMap_map]
    rfl
  · rw [hrecords, hsegs]

theorem openLog_of_apart {disk : List StoredSegment} (hne : disk ≠ [])
    (hsound : ∀ st ∈ disk, st.Sound opts)
    (hopen : ∀ st ∈ disk, st.Openable opts) (hapart : Apart disk) :
    ∃ opened, openLog opts hw disk = .ok opened ∧ (∀ o ∈ opened, o.Right opts) ∧
      readableOf opened = disk.flatMap StoredSegment.readable ∧
      Spaced (openedView opened).segments ∧
      recordsOf (openedView opened).segments = recordsOf (disk.map fun st => st.seg) := by
  rcases eq_nil_or_concat disk with hnil | ⟨front, last, rfl⟩
  · exact absurd hnil hne
  · rw [concat_eq_append] at hsound hopen hapart ⊢
    exact openLog_of_kept hsound hopen
      (resolveSegmentOverlaps_eq_self (pairwise_append.mp hapart).1)
      hapart

end Log

theorem openLog_three {opts : OpenOptions} {hw : ℤ} {a b c : StoredSegment}
    {seg' seg'' : OpenSegment} (ha : a.openWith opts (b.base - 1) = .ok seg)
    (hb : b.openWith opts (c.base - 1) = .ok seg') (hc : c.openWith opts hw = .ok seg'')
    (hab : seg.nextOffset ≤ b.base) (hbc : seg'.nextOffset ≤ c.base)
    (hlocal : c.seg.isOffloaded = false) :
    openLog opts hw [a, b, c] = .ok [⟨a, seg⟩, ⟨b, seg'⟩, ⟨c, seg''⟩] := by
  have hbase := StoredSegment.base_openWith hb
  have hsealed : openSealed opts c.seg.baseOffset [a, b] = .ok [⟨a, seg⟩, ⟨b, seg'⟩] := by
    have ha' : a.openWith opts (b.seg.baseOffset - 1) = .ok seg := ha
    have hb' : b.openWith opts (c.seg.baseOffset - 1) = .ok seg' := hb
    simp [openSealed, ha', hb']
  have hresolved : resolveSegmentOverlaps OpenedSegment.base
      OpenedSegment.next [⟨a, seg⟩, ⟨b, seg'⟩] =
      some [⟨a, seg⟩, ⟨b, seg'⟩] := by
    apply resolveSegmentOverlaps_eq_self
    simpa [OpenedSegment.base, OpenedSegment.next, hbase] using hab
  unfold StoredSegment.openWith at hc
  cases hsetup : c.setup opts with
  | error e =>
    rw [hsetup] at hc
    cases hc
  | ok start =>
    simp only [hsetup] at hc
    have hstart := StoredSegment.base_setup hsetup
    have hactive : openActive opts hw [⟨a, seg⟩, ⟨b, seg'⟩] c =
        .ok [⟨a, seg⟩, ⟨b, seg'⟩, ⟨c, seg''⟩] := by
      unfold openActive
      simp only [hsetup, hc]
      rw [if_pos]
      · rfl
      · simpa [OpenedSegment.next, hstart] using hbc
    unfold openLog
    simp only [getLast?_cons_cons, getLast?_singleton, dropLast_cons_cons, dropLast_singleton,
      hsealed, hresolved, hactive, Except.map]
    unfold withActive
    simp [hlocal]

end CommitLog
