import CommitLog.TruncatePost

/-!
# `TruncateBefore` under appends and rolls

The boundary segment is rewritten with no lock held, so the log can grow
between the snapshot and the publication.  Segments are objects: the snapshot
and the log's list name the same ones, and an append changes the object both
of them name.
-/

namespace CommitLog

open List Segment

variable {id : ℕ} {stage : TrimCall}

open Runs

/-! ## The call -/

inductive TrimCall
  /-- The snapshot is taken; the boundary is being looked for and scanned. -/
  | scanning (old : List ℕ)
  /-- The trim, if one is needed, is written; `obsolete` goes at the end. -/
  | rewritten (old : List ℕ) (survivors obsolete : List ℕ)
  | deleting (obsolete : List ℕ)
  | done
  | failed
  /-- Published, but a file could not be removed. -/
  | leftFiles

/-- A log during a call of `TruncateBefore`, with what was appended and rolled
since the call began. -/
structure TrimState where
  heap : ℕ → Segment
  allocated : ℕ
  listed : List ℕ
  deleted : List ℕ
  call : TrimCall
  rolled : List ℕ
  appended : List Frame

namespace TrimState

def served (s : TrimState) : List Frame := recordsOf (s.listed.map s.heap)

def setHeap (s : TrimState) (id : ℕ) (seg : Segment) : TrimState :=
  { s with heap := Function.update s.heap id seg }

end TrimState

/-- The place of the first sealed segment whose last offset reaches the
minimum, or of the active segment. -/
def boundaryIdx (minOffset : ℤ) (segs : List Segment) : ℕ :=
  segs.dropLast.findIdx fun seg => seg.reaches minOffset

/-- What the scan of the boundary writes. -/
def Segment.trimmed (minOffset : ℤ) (seg : Segment) : Option Segment :=
  match seg.frames.filter fun frame => decide (minOffset ≤ frame.offset) with
  | [] => none
  | first :: rest =>
    some (writeEach first.offset seg.encodesBlocks (first :: rest))

inductive TrimEvent
  | append (frames : List Frame)
  | roll (encodesBlocks : Bool)
  | rewrite
  /-- Scanning, creating, writing or finalizing the trim fails; a working copy
  may have been made. -/
  | rewriteFails (copy : Option Segment)
  | publish
  /-- The log was closed meanwhile. -/
  | publishClosed
  | delete
  | deleteFails

/-- The boundary the snapshot has, if it is to be rewritten. -/
def TrimState.straddling (minOffset : ℤ) (s : TrimState) (old : List ℕ) :
    Option Segment :=
  let i := boundaryIdx minOffset (old.map s.heap)
  if i < old.length - 1 then
    ((old.map s.heap)[i]?).filter fun seg =>
      decide (seg.baseOffset < minOffset)
  else none

def TrimStep (minOffset : ℤ) (s : TrimState) (event : TrimEvent) (s' : TrimState) : Prop :=
  match event with
  | .append frames => ∃ id, s.listed.getLast? = some id ∧
      checkAppendedSet ((s.heap id).nextOffset - 1) frames = true ∧
      s' = { s.setHeap id ((s.heap id).append (Block.ofFrames frames)) with
        appended := s.appended ++ frames }
  | .roll encodesBlocks => ∃ id, s.listed.getLast? = some id ∧ s' = { s.setHeap s.allocated
          (fresh (s.heap id).nextOffset encodesBlocks) with
        allocated := s.allocated + 1
        listed := s.listed ++ [s.allocated]
        rolled := s.rolled ++ [s.allocated] }
  | .rewrite => ∃ old, s.call = .scanning old ∧
      let i := boundaryIdx minOffset (old.map s.heap)
      match s.straddling minOffset old with
      | none => s' = { s with
          call := .rewritten old (old.drop i) (old.take i) }
      | some boundary =>
        match boundary.trimmed minOffset with
        | none => s' = { s with
            call := .rewritten old (old.drop (i + 1)) (old.take (i + 1)) }
        | some trim => s' = { s.setHeap s.allocated trim with
            allocated := s.allocated + 1
            call := .rewritten old (s.allocated :: old.drop (i + 1)) (old.take (i + 1)) }
  | .rewriteFails copy => ∃ old, s.call = .scanning old ∧
      (s.straddling minOffset old).isSome = true ∧
      match copy with
      | none => s' = { s with call := .failed }
      | some seg => s' = { s.setHeap s.allocated seg with
          allocated := s.allocated + 1
          deleted := s.allocated :: s.deleted
          call := .failed }
  | .publish => ∃ old survivors obsolete, s.call = .rewritten old survivors obsolete ∧ s' = { s with
        listed := survivors ++ s.listed.drop old.length
        call := .deleting obsolete }
  | .publishClosed => ∃ old survivors obsolete, s.call = .rewritten old survivors obsolete ∧
      s' = { s with
        deleted := survivors.filter (fun id => decide (id ∉ old)) ++ s.deleted
        call := .failed }
  | .delete =>
    (∃ id rest, s.call = .deleting (id :: rest) ∧
      s' = { s with deleted := id :: s.deleted, call := .deleting rest }) ∨
    (s.call = .deleting [] ∧ s' = { s with call := .done })
  | .deleteFails => ∃ id rest, s.call = .deleting (id :: rest) ∧
      s' = { s with deleted := id :: s.deleted, call := .leftFiles }

structure TrimStart (minOffset : ℤ) (s : TrimState) : Prop where
  nodup : s.listed.Nodup
  allocated : ∀ id ∈ s.listed, id < s.allocated
  ordered : LogOrdered (s.listed.map s.heap)
  deleted_eq : s.deleted = []
  rolled_eq : s.rolled = []
  appended_eq : s.appended = []
  call_eq : s.call = if minOffset ≤ 0 then .done else .scanning s.listed

/-! ## What the boundary leaves -/

section Boundary

variable {minOffset : ℤ} {segs : List Segment}

theorem filter_of_not_reaches {seg : Segment} (hwf : seg.WellFormed)
    (hreaches : seg.reaches minOffset = false) :
    (seg.frames.filter fun frame => decide (minOffset ≤ frame.offset)) = [] := by
  rw [filter_eq_nil_iff]
  intro frame hmem
  simp only [decide_eq_true_eq, not_le]
  unfold reaches at hreaches
  rcases eq_nil_or_concat seg.frames with hnil | ⟨front, last, hframes⟩
  · rw [hnil] at hmem
    cases hmem
  · rw [concat_eq_append] at hframes
    have hordered := hwf.ordered
    rw [hframes] at hreaches hmem hordered
    have hlast : last.offset < minOffset := by simpa using hreaches
    rcases mem_append.mp hmem with hfront | hin
    · have hlt := (pairwise_append.mp hordered).2.2 frame hfront last (by simp)
      omega
    · rwa [mem_singleton.mp hin]

theorem filter_recordsOf_eq_self
    (habove : ∀ seg ∈ segs, ∀ frame ∈ seg.frames, minOffset ≤ frame.offset) :
    (recordsOf segs).filter (fun frame => decide (minOffset ≤ frame.offset)) =
      recordsOf segs := by
  rw [filter_eq_self]
  intro frame hmem
  rcases mem_recordsOf.mp hmem with ⟨seg, hseg, hframe⟩
  simpa using habove seg hseg frame hframe

theorem filter_recordsOf_boundary (hordered : LogOrdered segs) :
    (recordsOf segs).filter (fun frame => decide (minOffset ≤ frame.offset)) =
      match segs.drop (segs.findIdx fun seg => seg.reaches minOffset) with
      | [] => []
      | boundary :: later =>
        (boundary.frames.filter fun frame => decide (minOffset ≤ frame.offset)) ++
          recordsOf later := by
  induction segs with
  | nil => rfl
  | cons seg segs ih =>
    have hwf := hordered.wellFormed seg mem_cons_self
    rw [recordsOf_cons, filter_append, findIdx_cons]
    cases hreaches : seg.reaches minOffset with
    | false =>
      rw [filter_of_not_reaches hwf hreaches, nil_append, ih hordered.tail]
      rfl
    | true =>
      have hlater : ∀ other ∈ segs, ∀ frame ∈ other.frames, minOffset ≤ frame.offset := by
        unfold reaches at hreaches
        cases hlast : seg.frames.getLast? with
        | none => simp [hlast] at hreaches
        | some last =>
          have hlow : minOffset ≤ last.offset := by
            simpa [hlast] using hreaches
          intro other hother frame hframe
          have hlt := ((pairwise_cons.mp hordered.increasing).1
            other hother).2 last (mem_of_getLast? hlast)
          have hbase := (hordered.wellFormed other (mem_cons_of_mem _ hother)).base_le frame hframe
          omega
      rw [filter_recordsOf_eq_self hlater]
      rfl

end Boundary

/-! ## The invariant -/

/-- A log that grew behind the segments in `front`: the active segment of the
start and what was rolled since follow them, and nothing listed is deleted. -/
structure Grown (start : TrimState) (sealedIds : List ℕ) (active : ℕ)
    (front : List ℕ) (frontRecords : List Frame) (s : TrimState) : Prop where
  listed_eq : s.listed = front ++ active :: s.rolled
  nodup : s.listed.Nodup
  allocated : ∀ id ∈ s.listed, id < s.allocated
  sealed_eq : ∀ id ∈ sealedIds, s.heap id = start.heap id
  sealed_old : ∀ id ∈ sealedIds, id < s.allocated ∧ id ∉ active :: s.rolled
  active_frames : (start.heap active).frames <+: (s.heap active).frames
  front_records : recordsOf (front.map s.heap) = frontRecords
  tail_records : recordsOf ((active :: s.rolled).map s.heap) =
    (start.heap active).frames ++ s.appended
  kept : ∀ id ∈ s.listed, id ∉ s.deleted
  deleted_old : ∀ id ∈ s.deleted, id < s.allocated

namespace Grown

variable {start s s' : TrimState} {sealedIds front : List ℕ} {active : ℕ}
  {frontRecords : List Frame}

theorem map_update_of_not_mem {ids : List ℕ} {heap : ℕ → Segment}
    {seg : Segment} (hmem : id ∉ ids) :
    ids.map (Function.update heap id seg) = ids.map heap := by
  apply map_congr_left
  intro other hother
  rw [Function.update_of_ne]
  exact fun heq => hmem (heq ▸ hother)

section

variable (hgrown : Grown start sealedIds active front frontRecords s)
include hgrown

theorem served_eq : s.served = frontRecords ++ (start.heap active).frames ++ s.appended := by
  unfold TrimState.served
  rw [hgrown.listed_eq, map_append, recordsOf_append,
    hgrown.front_records, hgrown.tail_records, append_assoc]

theorem last_split (hlast : s.listed.getLast? = some id) :
    ∃ init, active :: s.rolled = init ++ [id] ∧ id ∉ front ∧ id ∉ init := by
  rcases eq_nil_or_concat (active :: s.rolled) with hnil | ⟨init, last, hsplit⟩
  · cases hnil
  · rw [concat_eq_append] at hsplit
    rw [hgrown.listed_eq, hsplit, getLast?_append] at hlast
    have heq : last = id := by simpa using hlast
    subst heq
    have hnodup := hgrown.nodup
    rw [hgrown.listed_eq, hsplit, ← append_assoc] at hnodup
    have hnot := (nodup_append.mp hnodup).2.2
    have hself : last ∈ [last] := mem_singleton_self last
    exact ⟨init, hsplit, fun hmem => hnot last (mem_append_left _ hmem) last hself rfl,
      fun hmem => hnot last (mem_append_right _ hmem) last hself rfl⟩

theorem append (hlast : s.listed.getLast? = some id) (frames : List Frame) :
    Grown start sealedIds active front frontRecords
      { s.setHeap id ((s.heap id).append (Block.ofFrames frames)) with
        appended := s.appended ++ frames } := by
  rcases hgrown.last_split hlast with ⟨init, htail, hfront, hinit⟩
  have hid : id ∈ active :: s.rolled := by simp [htail]
  constructor
  · exact hgrown.listed_eq
  · exact hgrown.nodup
  · exact hgrown.allocated
  · intro other hother
    change Function.update s.heap id _ other = _
    rw [Function.update_of_ne, hgrown.sealed_eq other hother]
    exact fun heq => (hgrown.sealed_old other hother).2 (heq ▸ hid)
  · exact hgrown.sealed_old
  · change _ <+: (Function.update s.heap id _ active).frames
    by_cases heq : active = id
    · subst heq
      rw [Function.update_self, frames_append]
      exact hgrown.active_frames.trans (prefix_append _ _)
    · rw [Function.update_of_ne heq]
      exact hgrown.active_frames
  · change recordsOf (front.map (Function.update s.heap id _)) = _
    rw [map_update_of_not_mem hfront]
    exact hgrown.front_records
  · have hrecords := hgrown.tail_records
    change recordsOf ((active :: s.rolled).map
      (Function.update s.heap id _)) = _ ++ (s.appended ++ frames)
    rw [htail, map_append, recordsOf_append] at hrecords ⊢
    rw [map_update_of_not_mem hinit, ← append_assoc, ← hrecords]
    simp
  · exact hgrown.kept
  · exact hgrown.deleted_old

theorem alloc (seg : Segment) : Grown start sealedIds active front frontRecords
      { s.setHeap s.allocated seg with allocated := s.allocated + 1 } := by
  have hnew : ∀ ids : List ℕ, (∀ id ∈ ids, id ∈ s.listed) →
      s.allocated ∉ ids := fun ids hsub hmem =>
    lt_irrefl _ (hgrown.allocated s.allocated (hsub _ hmem))
  have hfront := hnew front fun id hmem => by simp [hgrown.listed_eq, hmem]
  have htail := hnew (active :: s.rolled) fun id hmem => by
    rw [hgrown.listed_eq]
    exact mem_append_right _ hmem
  constructor
  · exact hgrown.listed_eq
  · exact hgrown.nodup
  · exact fun id hmem => (hgrown.allocated id hmem).trans (Nat.lt_succ_self _)
  · intro id hmem
    change Function.update s.heap s.allocated _ id = _
    rw [Function.update_of_ne (hgrown.sealed_old id hmem).1.ne, hgrown.sealed_eq id hmem]
  · intro id hmem
    have hold := hgrown.sealed_old id hmem
    exact ⟨hold.1.trans (Nat.lt_succ_self _), hold.2⟩
  · change _ <+: (Function.update s.heap s.allocated _ active).frames
    rw [Function.update_of_ne fun heq => htail (by simp [← heq])]
    exact hgrown.active_frames
  · change recordsOf (front.map (Function.update s.heap s.allocated _)) = _
    rw [map_update_of_not_mem hfront]
    exact hgrown.front_records
  · change recordsOf ((active :: s.rolled).map (Function.update s.heap s.allocated _)) = _
    rw [map_update_of_not_mem htail]
    exact hgrown.tail_records
  · exact hgrown.kept
  · exact fun id hmem => (hgrown.deleted_old id hmem).trans (Nat.lt_succ_self _)

theorem roll (base : ℤ) (encodesBlocks : Bool) : Grown start sealedIds active front frontRecords
      { s.setHeap s.allocated (fresh base encodesBlocks) with
        allocated := s.allocated + 1
        listed := s.listed ++ [s.allocated]
        rolled := s.rolled ++ [s.allocated] } := by
  have halloc := hgrown.alloc (fresh base encodesBlocks)
  have hnew : ∀ id ∈ s.listed, id ≠ s.allocated :=
    fun id hmem => (hgrown.allocated id hmem).ne
  constructor
  · simp [hgrown.listed_eq]
  · apply nodup_append.mpr
    exact ⟨hgrown.nodup, by simp, by simpa using hnew⟩
  · intro id hmem
    rcases mem_append.mp hmem with hin | hin
    · exact halloc.allocated id hin
    · rw [mem_singleton.mp hin]
      exact Nat.lt_succ_self _
  · exact halloc.sealed_eq
  · intro id hmem
    have hold := hgrown.sealed_old id hmem
    constructor
    · exact (halloc.sealed_old id hmem).1
    · rw [← cons_append]
      intro hin
      rcases mem_append.mp hin with hin | hin
      · exact hold.2 hin
      · exact hold.1.ne (mem_singleton.mp hin)
  · exact halloc.active_frames
  · exact halloc.front_records
  · have htail := halloc.tail_records
    change recordsOf ((active :: s.rolled).map (Function.update s.heap s.allocated _)) = _ at htail
    change recordsOf ((active :: (s.rolled ++ [s.allocated])).map
      (Function.update s.heap s.allocated _)) = _
    rw [← cons_append, map_append, recordsOf_append, htail]
    simp
  · intro id hmem hdel
    rcases mem_append.mp hmem with hin | hin
    · exact hgrown.kept id hin hdel
    · have hlt := hgrown.deleted_old id hdel
      rw [mem_singleton.mp hin] at hlt
      exact lt_irrefl _ hlt
  · exact halloc.deleted_old

theorem shrink {front' : List ℕ} (hsub : front'.Sublist front) :
    Grown start sealedIds active front' (recordsOf (front'.map s.heap))
      { s with listed := front' ++ active :: s.rolled } := by
  have hlisted : (front' ++ active :: s.rolled).Sublist s.listed := by
    rw [hgrown.listed_eq]
    exact hsub.append_right _
  constructor
  · rfl
  · exact hgrown.nodup.sublist hlisted
  · exact fun id hmem => hgrown.allocated id (hlisted.subset hmem)
  · exact hgrown.sealed_eq
  · exact hgrown.sealed_old
  · exact hgrown.active_frames
  · rfl
  · exact hgrown.tail_records
  · exact fun id hmem => hgrown.kept id (hlisted.subset hmem)
  · exact hgrown.deleted_old

theorem addFront (seg : Segment) :
    Grown start sealedIds active (s.allocated :: front) (seg.frames ++ frontRecords)
      { s.setHeap s.allocated seg with
        allocated := s.allocated + 1
        listed := s.allocated :: s.listed } := by
  have halloc := hgrown.alloc seg
  constructor
  · change s.allocated :: s.listed = s.allocated :: front ++ active :: s.rolled
    rw [hgrown.listed_eq, cons_append]
  · apply nodup_cons.mpr
    exact ⟨fun hmem => lt_irrefl _ (hgrown.allocated _ hmem), hgrown.nodup⟩
  · intro id hmem
    rcases mem_cons.mp hmem with heq | hin
    · rw [heq]
      exact Nat.lt_succ_self _
    · exact halloc.allocated id hin
  · exact halloc.sealed_eq
  · exact halloc.sealed_old
  · exact halloc.active_frames
  · have hrecords := halloc.front_records
    change recordsOf (front.map (Function.update s.heap s.allocated _)) = _ at hrecords
    change recordsOf ((s.allocated :: front).map (Function.update s.heap s.allocated _)) = _
    rw [map_cons, recordsOf_cons, hrecords, Function.update_self]
  · exact halloc.tail_records
  · intro id hmem hdel
    rcases mem_cons.mp hmem with heq | hin
    · rw [heq] at hdel
      exact lt_irrefl _ (hgrown.deleted_old _ hdel)
    · exact hgrown.kept id hin hdel
  · exact halloc.deleted_old

theorem not_listed (hid : id ∈ sealedIds ∧ id ∉ front) : id < s.allocated ∧ id ∉ s.listed := by
  have hold := hgrown.sealed_old id hid.1
  refine ⟨hold.1, ?_⟩
  rw [hgrown.listed_eq]
  intro hmem
  rcases mem_append.mp hmem with hin | hin
  · exact hid.2 hin
  · exact hold.2 hin

theorem delete {ids : List ℕ} (hids : ∀ id ∈ ids, id < s.allocated ∧ id ∉ s.listed) :
    Grown start sealedIds active front frontRecords { s with deleted := ids ++ s.deleted } := by
  constructor
  · exact hgrown.listed_eq
  · exact hgrown.nodup
  · exact hgrown.allocated
  · exact hgrown.sealed_eq
  · exact hgrown.sealed_old
  · exact hgrown.active_frames
  · exact hgrown.front_records
  · exact hgrown.tail_records
  · intro id hmem hdel
    rcases mem_append.mp hdel with hin | hin
    · exact (hids id hin).2 hmem
    · exact hgrown.kept id hmem hin
  · intro id hmem
    rcases mem_append.mp hmem with hin | hin
    · exact (hids id hin).1
    · exact hgrown.deleted_old id hin

theorem withCall (call : TrimCall) :
    Grown start sealedIds active front frontRecords { s with call := call } :=
  ⟨hgrown.listed_eq, hgrown.nodup, hgrown.allocated, hgrown.sealed_eq,
    hgrown.sealed_old, hgrown.active_frames, hgrown.front_records,
    hgrown.tail_records, hgrown.kept, hgrown.deleted_old⟩

end

end Grown

/-- What the call is to keep of the sealed segments. -/
def keptRecords (minOffset : ℤ) (start : TrimState) (sealedIds : List ℕ) :
    List Frame :=
  (recordsOf (sealedIds.map start.heap)).filter fun frame => decide (minOffset ≤ frame.offset)

def TrimOk (minOffset : ℤ) (start : TrimState) (sealedIds : List ℕ)
    (active : ℕ) (s : TrimState) (stage : TrimCall) : Prop :=
  let before := recordsOf (sealedIds.map start.heap)
  let after := keptRecords minOffset start sealedIds
  match stage with
  | .scanning old => old = sealedIds ++ [active] ∧ Grown start sealedIds active sealedIds before s
  | .rewritten old survivors obsolete => old = sealedIds ++ [active] ∧
      Grown start sealedIds active sealedIds before s ∧
      ∃ front, survivors = front ++ [active] ∧ Grown start sealedIds active front after
          { s with listed := front ++ active :: s.rolled } ∧
        ∀ id ∈ obsolete, id ∈ sealedIds ∧ id ∉ front
  | .deleting obsolete => ∃ front, Grown start sealedIds active front after s ∧
        ∀ id ∈ obsolete, id ∈ sealedIds ∧ id ∉ front
  | .done => ∃ front, Grown start sealedIds active front after s
  | .failed => Grown start sealedIds active sealedIds before s
  | .leftFiles => ∃ front, Grown start sealedIds active front after s

section Steps

variable {minOffset : ℤ} {start s s' : TrimState} {sealedIds : List ℕ} {active : ℕ}

section

variable (hok : TrimOk minOffset start sealedIds active s stage)
include hok

theorem TrimOk.grow (hgrow : ∀ front records listed,
      Grown start sealedIds active front records { s with listed := listed } →
      Grown start sealedIds active front records { s' with listed := front ++ active :: s'.rolled })
    (hlisted : ∀ front, s.listed = front ++ active :: s.rolled →
      s'.listed = front ++ active :: s'.rolled) :
    TrimOk minOffset start sealedIds active s' stage := by
  have hself : ∀ front records, Grown start sealedIds active front records s →
      Grown start sealedIds active front records s' := by
    intro front records hgrown
    have hnext := hgrow front records s.listed hgrown
    rw [← hlisted front hgrown.listed_eq] at hnext
    exact hnext
  cases stage with
  | scanning old => exact ⟨hok.1, hself _ _ hok.2⟩
  | rewritten old survivors obsolete =>
    rcases hok with ⟨hold, hgrown, front, hsurvivors, hfront, hobsolete⟩
    exact ⟨hold, hself _ _ hgrown, front, hsurvivors, hgrow front _ _ hfront, hobsolete⟩
  | deleting obsolete =>
    rcases hok with ⟨front, hgrown, hobsolete⟩
    exact ⟨front, hself _ _ hgrown, hobsolete⟩
  | done | leftFiles =>
    rcases hok with ⟨front, hgrown⟩
    exact ⟨front, hself _ _ hgrown⟩
  | failed => exact hself _ _ hok

theorem TrimOk.append (hlast : (active :: s.rolled).getLast? = some id) (frames : List Frame) :
    TrimOk minOffset start sealedIds active
      { s.setHeap id ((s.heap id).append (Block.ofFrames frames)) with
        appended := s.appended ++ frames } stage := by
  apply hok.grow
  · intro front records listed hgrown
    have hlisted : listed = front ++ active :: s.rolled := hgrown.listed_eq
    subst hlisted
    apply hgrown.append
    change (front ++ active :: s.rolled).getLast? = some id
    rw [getLast?_append, hlast]
    rfl
  · exact fun front hlisted => hlisted

theorem TrimOk.roll (base : ℤ) (encodesBlocks : Bool) :
    TrimOk minOffset start sealedIds active { s.setHeap s.allocated (fresh base encodesBlocks) with
        allocated := s.allocated + 1
        listed := s.listed ++ [s.allocated]
        rolled := s.rolled ++ [s.allocated] } stage := by
  apply hok.grow
  · intro front records listed hgrown
    have hlisted : listed = front ++ active :: s.rolled := hgrown.listed_eq
    subst hlisted
    have hnext := hgrown.roll base encodesBlocks
    rw [append_assoc, cons_append] at hnext
    exact hnext
  · intro front hlisted
    simp [hlisted]

theorem TrimOk.listed : ∃ front, s.listed = front ++ active :: s.rolled := by
  cases stage with
  | scanning old => exact ⟨_, hok.2.listed_eq⟩
  | rewritten old survivors obsolete => exact ⟨_, hok.2.1.listed_eq⟩
  | deleting obsolete | done | leftFiles =>
    rcases hok with ⟨front, hgrown⟩
    first
      | exact ⟨front, hgrown.listed_eq⟩
      | exact ⟨front, hgrown.1.listed_eq⟩
  | failed => exact ⟨_, hok.listed_eq⟩

end

theorem Grown.boundary_eq (minOffset : ℤ)
    (hgrown : Grown start sealedIds active sealedIds (recordsOf (sealedIds.map start.heap)) s) :
    boundaryIdx minOffset ((sealedIds ++ [active]).map s.heap) =
        (sealedIds.map start.heap).findIdx (fun seg => seg.reaches minOffset) ∧
      s.straddling minOffset (sealedIds ++ [active]) =
        ((sealedIds.map start.heap)[(sealedIds.map start.heap).findIdx
            fun seg => seg.reaches minOffset]?).filter
          fun seg => decide (seg.baseOffset < minOffset) := by
  have hmap : sealedIds.map s.heap = sealedIds.map start.heap :=
    map_congr_left hgrown.sealed_eq
  have hidx : boundaryIdx minOffset ((sealedIds ++ [active]).map s.heap) =
      (sealedIds.map start.heap).findIdx (fun seg => seg.reaches minOffset) := by
    unfold boundaryIdx
    rw [map_append, hmap]
    simp
  refine ⟨hidx, ?_⟩
  unfold TrimState.straddling
  simp only [hidx]
  rw [map_append, hmap, length_append, length_singleton, Nat.add_sub_cancel]
  split
  · next hlt => rw [getElem?_append_left (by simpa using hlt)]
  · next hge =>
      rw [getElem?_eq_none (by rw [length_map]; omega)]
      rfl

theorem filter_recordsOf_whole {segs : List Segment} (hordered : LogOrdered segs)
    (hnone : (segs[segs.findIdx fun seg => seg.reaches minOffset]?).filter
      (fun seg => decide (seg.baseOffset < minOffset)) = none) :
    (recordsOf segs).filter (fun frame => decide (minOffset ≤ frame.offset)) = recordsOf
        (segs.drop (segs.findIdx fun seg => seg.reaches minOffset)) := by
  rw [filter_recordsOf_boundary hordered]
  cases hdrop : segs.drop (segs.findIdx fun seg => seg.reaches minOffset) with
  | nil => rfl
  | cons boundary later =>
    have hget : segs[segs.findIdx fun seg => seg.reaches minOffset]? =
        some boundary := by
      have hhead := congrArg head? hdrop
      rwa [head?_drop] at hhead
    have hbase : minOffset ≤ boundary.baseOffset := by
      simpa [hget] using hnone
    have hwf := hordered.wellFormed boundary (mem_of_getElem? hget)
    simp only [recordsOf_cons]
    congr 1
    rw [filter_eq_self]
    intro frame hmem
    have hle := hwf.base_le frame hmem
    simp only [decide_eq_true_eq]
    omega

theorem filter_recordsOf_straddling {segs : List Segment} {boundary : Segment}
    (hordered : LogOrdered segs)
    (hget : segs[segs.findIdx fun seg => seg.reaches minOffset]? = some boundary) :
    (recordsOf segs).filter (fun frame => decide (minOffset ≤ frame.offset)) =
      (boundary.frames.filter fun frame => decide (minOffset ≤ frame.offset)) ++
      recordsOf (segs.drop ((segs.findIdx fun seg => seg.reaches minOffset) + 1)) := by
  rw [filter_recordsOf_boundary hordered]
  rcases List.getElem?_eq_some_iff.mp hget with ⟨hlt, heq⟩
  rw [drop_eq_getElem_cons hlt, heq]

theorem Grown.rewritten {front obsolete : List ℕ} (hgrown : Grown start sealedIds active sealedIds
      (recordsOf (sealedIds.map start.heap)) s)
    (hfront : Grown start sealedIds active front (keptRecords minOffset start sealedIds)
      { s with listed := front ++ active :: s.rolled })
    (hobsolete : ∀ id ∈ obsolete, id ∈ sealedIds ∧ id ∉ front) :
    TrimOk minOffset start sealedIds active { s with
        call := .rewritten (sealedIds ++ [active]) (front ++ [active]) obsolete }
      (.rewritten (sealedIds ++ [active]) (front ++ [active]) obsolete) :=
  ⟨rfl, hgrown.withCall _, front, rfl, hfront.withCall _, hobsolete⟩

theorem Grown.boundary_spec (minOffset : ℤ)
    (hgrown : Grown start sealedIds active sealedIds (recordsOf (sealedIds.map start.heap)) s)
    (hordered : LogOrdered (sealedIds.map start.heap)) :
    ∃ i, boundaryIdx minOffset ((sealedIds ++ [active]).map s.heap) = i ∧ ((i ≤ sealedIds.length ∧
          s.straddling minOffset (sealedIds ++ [active]) = none ∧
          keptRecords minOffset start sealedIds = recordsOf ((sealedIds.drop i).map s.heap)) ∨
        ∃ boundary, i + 1 ≤ sealedIds.length ∧
          s.straddling minOffset (sealedIds ++ [active]) = some boundary ∧
          keptRecords minOffset start sealedIds = (boundary.frames.filter
              fun frame => decide (minOffset ≤ frame.offset)) ++
            recordsOf ((sealedIds.drop (i + 1)).map s.heap)) := by
  have hmap : ∀ k, (sealedIds.drop k).map s.heap = (sealedIds.map start.heap).drop k := by
    intro k
    rw [map_drop, map_congr_left hgrown.sealed_eq]
  rcases hgrown.boundary_eq minOffset with ⟨hidx, hstraddling⟩
  refine ⟨_, hidx, ?_⟩
  cases hcase : s.straddling minOffset (sealedIds ++ [active]) with
  | none =>
    have hle : (sealedIds.map start.heap).findIdx
        (fun seg => seg.reaches minOffset) ≤ _ := findIdx_le_length
    rw [length_map] at hle
    refine .inl ⟨hle, rfl, ?_⟩
    rw [hmap]
    exact filter_recordsOf_whole hordered (hstraddling.symm.trans hcase)
  | some boundary =>
    have hget := (Option.filter_eq_some_iff.mp (hstraddling.symm.trans hcase)).1
    rcases List.getElem?_eq_some_iff.mp hget with ⟨hlt, -⟩
    rw [length_map] at hlt
    refine .inr ⟨boundary, hlt, rfl, ?_⟩
    rw [hmap]
    exact filter_recordsOf_straddling hordered hget

theorem TrimOk.rewrite (hordered : LogOrdered (sealedIds.map start.heap)) {old : List ℕ}
    (hok : TrimOk minOffset start sealedIds active s (.scanning old))
    (hcall : s.call = .scanning old) (hstep : TrimStep minOffset s .rewrite s') :
    TrimOk minOffset start sealedIds active s' s'.call := by
  rcases hok with ⟨hold, hgrown⟩
  rcases hstep with ⟨old', hcall', hstep⟩
  have heq : old' = old := by
    rw [hcall] at hcall'
    cases hcall'
    rfl
  subst heq
  subst hold
  have hapart : ∀ k, ∀ id ∈ sealedIds.take k, id ∈ sealedIds ∧ id ∉ sealedIds.drop k := by
    have hnodup := hgrown.nodup
    rw [hgrown.listed_eq] at hnodup
    have hsealed := (nodup_append.mp hnodup).1
    exact fun k id hmem => ⟨mem_of_mem_take hmem, fun hdrop =>
      disjoint_take_drop hsealed le_rfl hmem hdrop⟩
  rcases hgrown.boundary_spec minOffset hordered with ⟨i, hidx, hcases⟩
  simp only [hidx] at hstep
  rcases hcases with ⟨hle, hnone, hkept⟩ | ⟨boundary, hle, hsome, hkept⟩
  · simp only [hnone] at hstep
    rw [drop_append_of_le_length hle, take_append_of_le_length hle] at hstep
    subst hstep
    have hfront := hgrown.shrink (drop_sublist i sealedIds)
    rw [← hkept] at hfront
    exact hgrown.rewritten hfront (hapart i)
  · simp only [hsome] at hstep
    rw [drop_append_of_le_length hle, take_append_of_le_length hle] at hstep
    have hfront := hgrown.shrink (drop_sublist (i + 1) sealedIds)
    cases htrim : boundary.trimmed minOffset with
    | none =>
      simp only [htrim] at hstep
      subst hstep
      have hnil : (boundary.frames.filter fun frame => decide (minOffset ≤ frame.offset)) = [] := by
        unfold trimmed at htrim
        split at htrim
        · assumption
        · cases htrim
      rw [hnil, nil_append] at hkept
      rw [← hkept] at hfront
      exact hgrown.rewritten hfront (hapart (i + 1))
    | some trim =>
      simp only [htrim] at hstep
      subst hstep
      have hframes : trim.frames = boundary.frames.filter
          fun frame => decide (minOffset ≤ frame.offset) := by
        unfold trimmed at htrim
        split at htrim
        · cases htrim
        · next first rest hfilter =>
            cases htrim
            rw [frames_writeEach, hfilter]
      have hadd := hfront.addFront trim
      rw [hframes, ← hkept] at hadd
      have hobsolete : ∀ id ∈ sealedIds.take (i + 1), id ∈ sealedIds ∧
          id ∉ s.allocated :: sealedIds.drop (i + 1) := by
        intro id hmem
        have hid := hapart (i + 1) id hmem
        constructor
        · exact hid.1
        · intro hin
          rcases mem_cons.mp hin with heq | hin
          · exact (hgrown.sealed_old id hid.1).1.ne heq
          · exact hid.2 hin
      exact (hgrown.alloc trim).rewritten hadd hobsolete

theorem TrimOk.step (hordered : LogOrdered (sealedIds.map start.heap))
    (hok : TrimOk minOffset start sealedIds active s s.call)
    {event : TrimEvent} (hstep : TrimStep minOffset s event s') :
    TrimOk minOffset start sealedIds active s' s'.call := by
  cases event with
  | append frames =>
    rcases hstep with ⟨id, hlast, -, rfl⟩
    rcases hok.listed with ⟨front, hlisted⟩
    apply hok.append
    rw [hlisted, getLast?_append] at hlast
    cases hend : (active :: s.rolled).getLast? with
    | none => simp at hend
    | some last => simpa [hend] using hlast
  | roll encodesBlocks =>
    rcases hstep with ⟨id, -, rfl⟩
    exact hok.roll _ _
  | rewrite =>
    rcases hstep with ⟨old, hcall, hstep⟩
    rw [hcall] at hok
    exact hok.rewrite hordered hcall ⟨old, hcall, hstep⟩
  | rewriteFails copy =>
    rcases hstep with ⟨old, hcall, -, hstep⟩
    rw [hcall] at hok
    rcases hok with ⟨hold, hgrown⟩
    cases copy with
    | none =>
      subst hstep
      exact hgrown.withCall _
    | some seg =>
      subst hstep
      have hgone : ∀ id ∈ [s.allocated], id < s.allocated + 1 ∧ id ∉ s.listed := by
        intro id hmem
        rw [mem_singleton.mp hmem]
        exact ⟨Nat.lt_succ_self _, fun hin => lt_irrefl _ (hgrown.allocated _ hin)⟩
      exact ((hgrown.alloc seg).delete hgone).withCall _
  | publish =>
    rcases hstep with ⟨old, survivors, obsolete, hcall, rfl⟩
    rw [hcall] at hok
    rcases hok with ⟨hold, hgrown, front, hsurvivors, hfront, hobsolete⟩
    refine ⟨front, ?_, hobsolete⟩
    have hlisted : survivors ++ s.listed.drop old.length = front ++ active :: s.rolled := by
      rw [hsurvivors, hold, hgrown.listed_eq]
      simp
    rw [hlisted]
    exact hfront.withCall _
  | publishClosed =>
    rcases hstep with ⟨old, survivors, obsolete, hcall, rfl⟩
    rw [hcall] at hok
    rcases hok with ⟨hold, hgrown, front, hsurvivors, hfront, -⟩
    have hgone : ∀ id ∈ survivors.filter (fun id => decide (id ∉ old)),
        id < s.allocated ∧ id ∉ s.listed := by
      intro id hmem
      rw [hsurvivors, hold, mem_filter, decide_eq_true_eq] at hmem
      rcases hmem with ⟨hin, hnot⟩
      have hid : id ∈ front := by
        rcases mem_append.mp hin with hin | hin
        · exact hin
        · exact absurd (mem_append_right _ hin) hnot
      refine ⟨hfront.allocated id (mem_append_left _ hid), ?_⟩
      rw [hgrown.listed_eq]
      intro hlisted
      rcases mem_append.mp hlisted with hlisted | hlisted
      · exact hnot (mem_append_left _ hlisted)
      · exact (nodup_append.mp hfront.nodup).2.2 id hid id hlisted rfl
    exact (hgrown.delete hgone).withCall _
  | delete =>
    rcases hstep with ⟨id, rest, hcall, rfl⟩ | ⟨hcall, rfl⟩
    · rw [hcall] at hok
      rcases hok with ⟨front, hgrown, hobsolete⟩
      have hgone : ∀ other ∈ [id], other < s.allocated ∧ other ∉ s.listed := by
        simpa using hgrown.not_listed (hobsolete id mem_cons_self)
      exact ⟨front, (hgrown.delete hgone).withCall _,
        fun other hother => hobsolete other (mem_cons_of_mem _ hother)⟩
    · rw [hcall] at hok
      rcases hok with ⟨front, hgrown, -⟩
      exact ⟨front, hgrown.withCall _⟩
  | deleteFails =>
    rcases hstep with ⟨id, rest, hcall, rfl⟩
    rw [hcall] at hok
    rcases hok with ⟨front, hgrown, hobsolete⟩
    have hgone : ∀ other ∈ [id], other < s.allocated ∧ other ∉ s.listed := by
      simpa using hgrown.not_listed (hobsolete id mem_cons_self)
    exact ⟨front, (hgrown.delete hgone).withCall _⟩

end Steps

/-! ## Runs -/

/-- The log a successful call leaves: of the segments sealed at the start only
what lies at or above the offset, then the active segment as it grew, then the
segments rolled meanwhile. -/
structure TruncatesBefore (minOffset : ℤ) (start : TrimState)
    (sealedIds : List ℕ) (active : ℕ) (s : TrimState) : Prop where
  served_eq : s.served = keptRecords minOffset start sealedIds ++
    (start.heap active).frames ++ s.appended
  listed_eq : ∃ front, s.listed = front ++ active :: s.rolled
  active_frames : (start.heap active).frames <+: (s.heap active).frames
  not_deleted : ∀ id ∈ s.listed, id ∉ s.deleted

structure LeavesLog (start s : TrimState) : Prop where
  served_eq : s.served = start.served ++ s.appended
  listed_eq : s.listed = start.listed ++ s.rolled
  not_deleted : ∀ id ∈ s.listed, id ∉ s.deleted

theorem TrimStart.ok {minOffset : ℤ} {start : TrimState} {sealedIds : List ℕ} {active : ℕ}
    (hstart : TrimStart minOffset start) (hlisted : start.listed = sealedIds ++ [active]) :
    TrimOk minOffset start sealedIds active start start.call := by
  have hnodup := hstart.nodup
  rw [hlisted] at hnodup
  have hgrown : Grown start sealedIds active sealedIds
      (recordsOf (sealedIds.map start.heap)) start := by
    constructor
    · rw [hlisted, hstart.rolled_eq]
    · exact hstart.nodup
    · exact hstart.allocated
    · exact fun id _ => rfl
    · intro id hmem
      constructor
      · exact hstart.allocated id (by simp [hlisted, hmem])
      · rw [hstart.rolled_eq]
        exact fun hin => (nodup_append.mp hnodup).2.2 id hmem id hin rfl
    · exact prefix_rfl
    · rfl
    · simp [hstart.rolled_eq, hstart.appended_eq]
    · simp [hstart.deleted_eq]
    · simp [hstart.deleted_eq]
  rw [hstart.call_eq]
  split
  · next hle =>
      refine ⟨sealedIds, ?_⟩
      have hall : keptRecords minOffset start sealedIds = recordsOf (sealedIds.map start.heap) := by
        apply filter_recordsOf_eq_self
        intro seg hseg frame hframe
        rcases mem_map.mp hseg with ⟨id, hid, rfl⟩
        have hin : id ∈ start.listed := by simp [hlisted, hid]
        exact hle.trans (hstart.ordered.offset_nonneg
          (mem_recordsOf.mpr ⟨_, mem_map_of_mem hin, hframe⟩))
      rw [hall]
      exact hgrown
  · exact ⟨hlisted, hgrown⟩

/-- Two sealed segments and an active one. -/
def trimSample : TrimState where
  heap id := rawSegment (2 * id) [2 * id, 2 * id + 1] none
  allocated := 3
  listed := [0, 1, 2]
  deleted := []
  call := .scanning [0, 1, 2]
  rolled := []
  appended := []

end CommitLog
