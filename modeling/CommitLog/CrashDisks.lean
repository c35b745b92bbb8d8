import CommitLog.LogOpen

/-!
# What a crash leaves of a segment

The segments of a log on disk, whole, deleted, or with a rewrite under their
name.
-/

namespace CommitLog

open List OpenSegment Segment

/-- What lies beside the logs: whose block table is on disk, and which of the
offloaded segments kept their index. -/
structure DiskNotes where
  table : ℤ → Bool
  localIndex : ℤ → Bool

section Stored

variable (opts : OpenOptions) (notes : DiskNotes)

def Segment.tableLeft (seg : Segment) : Option (List BlockRef) :=
  leftSidecar (seg.logFile opts.enc) (notes.table seg.baseOffset)

def Segment.indexLeft (seg : Segment) : List Entry :=
  if seg.isOffloaded && !notes.localIndex seg.baseOffset then []
  else storedIndex seg.baseOffset (seg.logFile opts.enc)

def Segment.store (seg : Segment) : StoredSegment :=
  ⟨seg, storedIndex seg.baseOffset (seg.logFile opts.enc), seg.tableLeft opts notes, false⟩

/-- After its deletion nothing is left of a local segment; the manifest goes
on naming the object of an offloaded one. -/
def Segment.deleted (seg : Segment) : List StoredSegment :=
  if seg.isOffloaded then [{ seg.store opts notes with lost := true }]
  else []

/-- The rewrite's log with what lies beside the log it replaced. -/
def Segment.renamedOver (seg old : Segment) : StoredSegment :=
  ⟨seg, old.indexLeft opts notes, old.tableLeft opts notes, false⟩

/-- The rewrite with its own index; the old block table goes last. -/
def Segment.installedOver (seg old : Segment) (oldTable : Bool) :
    StoredSegment :=
  ⟨seg, storedIndex seg.baseOffset (seg.logFile opts.enc),
    if oldTable then old.tableLeft opts notes else none, false⟩

end Stored

def Segment.Indexable (enc : DiskEncoding) (seg : Segment) : Prop :=
  ∀ e ∈ (seg.logFile enc).entries, e.Fits seg.baseOffset

instance (enc : DiskEncoding) (seg : Segment) : Decidable (seg.Indexable enc) :=
  inferInstanceAs (Decidable (∀ e ∈ _, _))

/-! ## The segments left on disk -/

section Left

variable {opts : OpenOptions} {notes : DiskNotes} {seg old : Segment}

theorem Segment.store_sound (hwf : seg.WellFormed) : (seg.store opts notes).Sound opts :=
  ⟨hwf, fun _ he => storedIndex_fits he, fun _ => rfl⟩

theorem Segment.tableRight_own (left : Bool) : TableRight (seg.logFile opts.enc)
      (leftSidecar (seg.logFile opts.enc) left) := by
  unfold TableRight leftSidecar
  cases hfile : seg.logFile opts.enc with
  | raw frames tail => trivial
  | blocks bs torn =>
    intro table hside _ _
    cases left with
    | false => cases hside
    | true => exact (Option.some.inj hside).symm

theorem Segment.store_openable_iff :
    (seg.store opts notes).Openable opts ↔ seg.Indexable opts.enc := by
  constructor
  · exact fun hopen => hopen.fits
  · intro hfits
    refine ⟨hfits, fun _ => ⟨tableRight_own _, Or.inr ?_⟩⟩
    have heq : storedIndex seg.baseOffset (seg.logFile opts.enc) =
        (seg.logFile opts.enc).entries := map_stored_of_fits hfits
    change storedIndex seg.baseOffset (seg.logFile opts.enc) <+: _
    rw [heq]
    exact prefix_rfl

theorem Segment.mem_deleted {st : StoredSegment} (hst : st ∈ seg.deleted opts notes) :
    st = { seg.store opts notes with lost := true } := by
  unfold deleted at hst
  split_ifs at hst
  · exact mem_singleton.mp hst
  · cases hst

theorem deleted_sublist (opts : OpenOptions) (notes : DiskNotes) (segs : List Segment) :
    ((segs.flatMap (deleted opts notes)).map fun st => st.seg).Sublist segs := by
  induction segs with
  | nil => exact Sublist.slnil
  | cons seg segs ih =>
    rw [flatMap_cons, map_append]
    unfold deleted
    split_ifs
    · exact ih.cons_cons seg
    · exact ih.cons seg

theorem map_seg_store (segs : List Segment) :
    ((segs.map (store opts notes)).map fun st => st.seg) = segs := by
  rw [map_map]
  exact map_id' segs

@[simp] theorem readable_store (segs : List Segment) :
    (segs.map (store opts notes)).flatMap StoredSegment.readable =
      recordsOf segs := by
  rw [flatMap_map]
  rfl

@[simp] theorem readable_deleted (segs : List Segment) :
    (segs.flatMap (deleted opts notes)).flatMap StoredSegment.readable = [] := by
  rw [flatMap_eq_nil_iff]
  intro st hst
  rcases mem_flatMap.mp hst with ⟨seg, -, hseg⟩
  rw [mem_deleted hseg]
  rfl

theorem Segment.indexLeft_fits {e : Entry} (he : e ∈ old.indexLeft opts notes) :
    e.Fits old.baseOffset := by
  unfold indexLeft at he
  split_ifs at he
  · cases he
  · exact storedIndex_fits he

theorem Segment.renamedOver_sound (hwf : seg.WellFormed) (hbase : seg.baseOffset = old.baseOffset)
    (hlocal : seg.isOffloaded = false) : (seg.renamedOver opts notes old).Sound opts := by
  constructor
  · exact hwf
  · intro e he
    change e.Fits seg.baseOffset
    rw [hbase]
    exact indexLeft_fits he
  · intro hoffloaded
    change seg.isOffloaded = true at hoffloaded
    rw [hlocal] at hoffloaded
    cases hoffloaded

theorem Segment.installedOver_sound (hwf : seg.WellFormed) (oldTable : Bool) :
    (seg.installedOver opts notes old oldTable).Sound opts :=
  ⟨hwf, fun _ he => storedIndex_fits he, fun _ => rfl⟩

theorem Segment.installedOver_openable (hopen : (seg.renamedOver opts notes old).Openable opts)
    (hlocal : seg.isOffloaded = false) (oldTable : Bool) :
    (seg.installedOver opts notes old oldTable).Openable opts := by
  have hfound := hopen.found hlocal
  refine ⟨hopen.fits, fun _ => ⟨?_, Or.inr ?_⟩⟩
  · cases oldTable with
    | true => exact hfound.1
    | false => exact tableRight_own false
  · change storedIndex _ _ <+: _
    have heq : storedIndex seg.baseOffset (seg.logFile opts.enc) = (seg.logFile opts.enc).entries :=
      map_stored_of_fits hopen.fits
    rw [heq]
    exact prefix_rfl

theorem sound_of_listed (notes : DiskNotes) {segs : List Segment} {st : StoredSegment}
    (hspaced : Spaced segs) (hindexable : ∀ seg ∈ segs, seg.Indexable opts.enc)
    (hst : st ∈ segs.map (store opts notes) ∨ st ∈ segs.flatMap (deleted opts notes)) :
    st.Sound opts ∧ st.Openable opts := by
  rcases hst with hst | hst
  · rcases mem_map.mp hst with ⟨seg, hseg, rfl⟩
    exact ⟨store_sound (hspaced.wellFormed seg hseg), store_openable_iff.mpr (hindexable seg hseg)⟩
  · rcases mem_flatMap.mp hst with ⟨seg, hseg, hin⟩
    rw [mem_deleted hin]
    have hsound : (seg.store opts notes).Sound opts :=
      store_sound (hspaced.wellFormed seg hseg)
    have hopen : (seg.store opts notes).Openable opts :=
      store_openable_iff.mpr (hindexable seg hseg)
    exact ⟨⟨hsound.1, hsound.2, hsound.3⟩, ⟨hopen.1, hopen.2⟩⟩

theorem indexable_of_openLog {hw : ℤ} {segs : List Segment} {opened : List OpenedSegment}
    (hspaced : Spaced segs) (hok : openLog opts hw (segs.map (store opts notes)) = .ok opened)
    (hright : ∀ o ∈ opened, o.Right opts) : ∀ seg ∈ segs, seg.Indexable opts.enc := by
  intro seg hseg
  rcases append_of_mem hseg with ⟨front, rest, hsplit⟩
  rw [hsplit, map_append, map_cons] at hok
  have hsub := sublist_append_left (front ++ [seg]) rest
  rw [← append_cons, ← hsplit] at hsub
  have hfront := hspaced.sublist hsub
  have hmap : (front ++ [seg]).map (store opts notes) =
      front.map (store opts notes) ++ [seg.store opts notes] := by
    simp
  apply (@store_openable_iff opts notes seg).mp
  apply openable_of_openLog _ _ hok hright
  · intro other hother
    rw [← hmap] at hother
    rcases mem_map.mp hother with ⟨seg', hseg', rfl⟩
    exact store_sound (hfront.wellFormed seg' hseg')
  · rw [apart_iff, ← hmap, map_seg_store]
    exact hfront.apart

end Left

/-- Blocks of one size, and bytes that read as empty headers. -/
def plainOptions (encodesBlocks : Bool) : OpenOptions :=
  ⟨fun _ => ⟨0, 0, 0⟩, ⟨fun _ => 0, fun _ => 0, fun _ => 100, by simp⟩, encodesBlocks⟩

def noNotes : DiskNotes := ⟨fun _ => false, fun _ => false⟩

end CommitLog
