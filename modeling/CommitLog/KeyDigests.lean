import CommitLog.KeyMerge
import CommitLog.Segments

/-!
# Key digests

The digest of a segment summarises what compaction needs to know about it:
the keyed data records sorted by key, the unkeyed data records and the control
offsets.  A digest also carries a strip stamp, the boundary and header list an
earlier scan of the segment verified.  The binding of a stored digest to a
segment is its base offset and logical size, nothing more.
-/

namespace CommitLog

open List

variable {entries : List (Bytes × List DigestRec)} {key : Bytes} {digest : KeyDigest}
  {frames : List Frame} {rec : DigestRec}

structure DigestRec where
  offset : ℤ
  tombstone : Bool
  hasHeaders : Bool
  ts : ℤ
deriving DecidableEq

structure KeyDigest where
  base : ℤ
  logSize : ℕ
  baseTs : ℤ
  stripVerifiedBelow : ℤ
  stripHdrs : List Bytes
  keyed : List (Bytes × List DigestRec)
  unkeyed : List DigestRec
  control : List ℤ
deriving DecidableEq

def digestRec (frame : Frame) : DigestRec where
  offset := frame.offset
  tombstone := frame.message.isTombstone
  hasHeaders := !frame.message.headers.entries.isEmpty
  ts := frame.timestamp

namespace KeyDigest

/-- `stripStampCovers`: the stamp reaches the boundary and was written for the
same header list. -/
def stripStampCovers (digest : KeyDigest) (boundary : ℤ) (hdrs : List Bytes) : Bool :=
  decide (boundary ≤ digest.stripVerifiedBelow) &&
    decide (hdrs = digest.stripHdrs)

def withStamp (digest : KeyDigest) (stamp : ℤ) (hdrs : List Bytes) :
    KeyDigest :=
  { digest with stripVerifiedBelow := stamp, stripHdrs := hdrs }

end KeyDigest

/-! ## Building a digest from a scan -/

/-- The `byKey` map of `buildKeyDigest`: records are appended to the entry of
their key in scan order. -/
def addKeyRec (key : Bytes) (rec : DigestRec) :
    List (Bytes × List DigestRec) → List (Bytes × List DigestRec)
  | [] => [(key, [rec])]
  | entry :: entries =>
    if entry.1 = key then (key, entry.2 ++ [rec]) :: entries
    else entry :: addKeyRec key rec entries

def scanKeyed (entries : List (Bytes × List DigestRec)) (frame : Frame) :
    List (Bytes × List DigestRec) :=
  if frame.isControl then entries
  else
    match frame.key with
    | none => entries
    | some key => addKeyRec key (digestRec frame) entries

def isUnkeyedData (frame : Frame) : Bool :=
  !frame.isControl && frame.key.isNone

def isKeyedData (key : Bytes) (frame : Frame) : Bool :=
  !frame.isControl && decide (frame.key = some key)

def digestOfScan (base : ℤ) (logSize : ℕ) (baseTs : ℤ) (frames : List Frame) : KeyDigest where
  base := base
  logSize := logSize
  baseTs := baseTs
  stripVerifiedBelow := -1
  stripHdrs := []
  keyed := (frames.foldl scanKeyed []).insertionSort fun a b => a.1 ≤ b.1
  unkeyed := (frames.filter isUnkeyedData).map digestRec
  control := (frames.filter Frame.isControl).map Frame.offset

def buildKeyDigest (seg : Segment) : KeyDigest :=
  digestOfScan seg.baseOffset seg.position seg.firstWriteTime seg.frames

def keyRecs (key : Bytes) (frames : List Frame) : List DigestRec :=
  (frames.filter (isKeyedData key)).map digestRec

/-! ## Specification of the keyed section -/

theorem find_addKeyRec (key other : Bytes) (rec : DigestRec)
    (entries : List (Bytes × List DigestRec)) :
    KeyMerge.find other (addKeyRec key rec entries) =
      if other = key then
        some ((KeyMerge.find key entries).getD [] ++ [rec])
      else KeyMerge.find other entries := by
  induction entries with
  | nil =>
    by_cases hother : other = key
    · simp [addKeyRec, KeyMerge.find, hother]
    · simp [addKeyRec, KeyMerge.find, hother, Ne.symm hother]
  | cons entry entries ih =>
    by_cases hentry : entry.1 = key
    · by_cases hother : other = key
      · simp [addKeyRec, KeyMerge.find, hentry, hother]
      · simp [addKeyRec, KeyMerge.find, hentry, hother, Ne.symm hother]
    · have hkey : KeyMerge.find key (entry :: entries) =
          KeyMerge.find key entries := KeyMerge.find_cons_of_ne hentry
      rw [hkey]
      simp only [addKeyRec, if_neg hentry, KeyMerge.find, ih]
      by_cases hother : other = key
      · subst hother
        simp [hentry]
      · simp [hother]

theorem keys_addKeyRec (key : Bytes) (rec : DigestRec) (entries : List (Bytes × List DigestRec)) :
    (addKeyRec key rec entries).map Prod.fst =
      if key ∈ entries.map Prod.fst then entries.map Prod.fst
      else entries.map Prod.fst ++ [key] := by
  induction entries with
  | nil => simp [addKeyRec]
  | cons entry entries ih =>
    simp only [addKeyRec]
    by_cases hentry : entry.1 = key
    · simp [hentry]
    · have hkey : key ≠ entry.1 := Ne.symm hentry
      simp only [if_neg hentry, map_cons, ih, mem_cons, hkey, false_or]
      split <;> simp

theorem nodup_keys_addKeyRec (hnodup : (entries.map Prod.fst).Nodup) :
    ((addKeyRec key rec entries).map Prod.fst).Nodup := by
  rw [keys_addKeyRec]
  by_cases hmem : key ∈ entries.map Prod.fst
  · rw [if_pos hmem]
    exact hnodup
  · have hdisjoint : ∀ other ∈ entries.map Prod.fst, ∀ last ∈ [key], other ≠ last := by
      intro other hother last hlast heq
      rw [mem_singleton] at hlast
      rw [heq, hlast] at hother
      exact hmem hother
    rw [if_neg hmem]
    exact nodup_append.mpr ⟨hnodup, nodup_singleton key, hdisjoint⟩

theorem nodup_keys_foldl_scanKeyed (frames : List Frame) (hnodup : (entries.map Prod.fst).Nodup) :
    ((frames.foldl scanKeyed entries).map Prod.fst).Nodup := by
  induction frames generalizing entries with
  | nil => exact hnodup
  | cons frame frames ih =>
    apply ih
    unfold scanKeyed
    split
    · exact hnodup
    · split
      · exact hnodup
      · exact nodup_keys_addKeyRec hnodup

def entryFor (recs : List DigestRec) : Option (List DigestRec) :=
  if recs = [] then none else some recs

theorem getD_entryFor (recs : List DigestRec) : (entryFor recs).getD [] = recs := by
  by_cases hrecs : recs = []
  · simp [entryFor, hrecs]
  · simp [entryFor, hrecs]

theorem find_scanKeyed_of_keyed {frame : Frame} (hframe : isKeyedData key frame = true) :
    KeyMerge.find key (scanKeyed entries frame) =
      some ((KeyMerge.find key entries).getD [] ++ [digestRec frame]) := by
  have hdata : frame.isControl = false ∧ frame.key = some key := by
    simpa [isKeyedData] using hframe
  simp [scanKeyed, hdata.1, hdata.2, find_addKeyRec]

theorem find_scanKeyed_of_not_keyed {frame : Frame} (hframe : isKeyedData key frame = false) :
    KeyMerge.find key (scanKeyed entries frame) =
      KeyMerge.find key entries := by
  unfold scanKeyed
  cases hcontrol : frame.isControl with
  | true => simp
  | false =>
    cases hkey : frame.key with
    | none => simp
    | some other =>
      have hne : key ≠ other := by
        intro heq
        simp [isKeyedData, hcontrol, hkey, heq] at hframe
      simp [find_addKeyRec, hne]

theorem find_foldl_scanKeyed (key : Bytes) (frames : List Frame) {recs : List DigestRec}
    (hfind : KeyMerge.find key entries = entryFor recs) :
    KeyMerge.find key (frames.foldl scanKeyed entries) = entryFor (recs ++ keyRecs key frames) := by
  induction frames generalizing entries recs with
  | nil => simpa [keyRecs] using hfind
  | cons frame frames ih =>
    cases hframe : isKeyedData key frame with
    | true =>
      have hrecs : keyRecs key (frame :: frames) = digestRec frame :: keyRecs key frames := by
        simp [keyRecs, hframe]
      have hstep : KeyMerge.find key (scanKeyed entries frame) =
          entryFor (recs ++ [digestRec frame]) := by
        rw [find_scanKeyed_of_keyed hframe, hfind, getD_entryFor]
        simp [entryFor]
      rw [foldl_cons, ih hstep, hrecs, append_assoc]
      rfl
    | false =>
      have hrecs : keyRecs key (frame :: frames) =
          keyRecs key frames := by
        simp [keyRecs, hframe]
      have hstep : KeyMerge.find key (scanKeyed entries frame) =
          entryFor recs := by
        rw [find_scanKeyed_of_not_keyed hframe, hfind]
      rw [foldl_cons, ih hstep, hrecs]

/-- The digest lists exactly the records of the given frames.  This is all the
merge and the skip test rely on; the strip stamp is not part of it. -/
structure KeyDigest.Describes (digest : KeyDigest) (frames : List Frame) :
    Prop where
  keyed_sorted : KeyMerge.Sorted digest.keyed
  find_keyed : ∀ key, KeyMerge.find key digest.keyed = entryFor (keyRecs key frames)
  unkeyed : digest.unkeyed = (frames.filter isUnkeyedData).map digestRec
  control : digest.control = (frames.filter Frame.isControl).map Frame.offset

theorem sorted_insertionSort_of_nodup (hnodup : (entries.map Prod.fst).Nodup) :
    KeyMerge.Sorted (entries.insertionSort fun a b => a.1 ≤ b.1) := by
  have htrans : IsTrans (Bytes × List DigestRec) fun a b => a.1 ≤ b.1 :=
    ⟨fun a b c hab hbc => hab.trans hbc⟩
  have htotal : Std.Total
      fun a b : Bytes × List DigestRec => a.1 ≤ b.1 :=
    ⟨fun a b => le_total a.1 b.1⟩
  have hsorted := pairwise_insertionSort (fun a b : Bytes × List DigestRec => a.1 ≤ b.1) entries
  have hperm := perm_insertionSort (fun a b : Bytes × List DigestRec => a.1 ≤ b.1) entries
  have hnodup' := (hperm.map Prod.fst).nodup_iff.mpr hnodup
  rw [Nodup, pairwise_map] at hnodup'
  refine (hsorted.and hnodup').imp ?_
  intro a b hab
  exact lt_of_le_of_ne hab.1 hab.2

theorem digestOfScan_describes (base : ℤ) (logSize : ℕ) (baseTs : ℤ) (frames : List Frame) :
    (digestOfScan base logSize baseTs frames).Describes frames := by
  have hnodup : ((frames.foldl scanKeyed []).map Prod.fst).Nodup :=
    nodup_keys_foldl_scanKeyed frames nodup_nil
  refine ⟨sorted_insertionSort_of_nodup hnodup, ?_, rfl, rfl⟩
  intro key
  have hperm := perm_insertionSort (fun a b : Bytes × List DigestRec => a.1 ≤ b.1)
    (frames.foldl scanKeyed [])
  have hempty : KeyMerge.find key [] = entryFor [] := rfl
  have hfind := find_foldl_scanKeyed key frames hempty
  rw [nil_append] at hfind
  rw [← hfind]
  exact (KeyMerge.find_eq_of_perm hperm.symm hnodup key).symm

theorem buildKeyDigest_describes (seg : Segment) : (buildKeyDigest seg).Describes seg.frames :=
  digestOfScan_describes _ _ _ _

theorem KeyDigest.Describes.withStamp (hdescribes : digest.Describes frames) (stamp : ℤ)
    (hdrs : List Bytes) : (digest.withStamp stamp hdrs).Describes frames :=
  ⟨hdescribes.keyed_sorted, hdescribes.find_keyed, hdescribes.unkeyed, hdescribes.control⟩

theorem KeyDigest.Describes.mem_control (hdescribes : digest.Describes frames) {offset : ℤ} :
    offset ∈ digest.control ↔ ∃ frame ∈ frames, frame.isControl = true ∧ frame.offset = offset := by
  rw [hdescribes.control]
  simp [and_assoc]

theorem KeyDigest.Describes.mem_unkeyed (hdescribes : digest.Describes frames) :
    rec ∈ digest.unkeyed ↔ ∃ frame ∈ frames, isUnkeyedData frame = true ∧
        digestRec frame = rec := by
  rw [hdescribes.unkeyed]
  simp [and_assoc]

theorem mem_keyRecs : rec ∈ keyRecs key frames ↔ ∃ frame ∈ frames, isKeyedData key frame = true ∧
        digestRec frame = rec := by
  simp [keyRecs, and_assoc]

/-! ## The stored digest -/

/-- `loadKeyDigest`: a stored digest is used when its base offset and logical
size are those of the segment and its header list is not oversized. -/
def loadKeyDigest (stored : Option KeyDigest) (seg : Segment) :
    Option KeyDigest :=
  match stored with
  | none => none
  | some digest =>
    if digest.base = seg.baseOffset ∧ digest.logSize = seg.position ∧
        digest.stripHdrs.length ≤ 64 then
      some digest
    else none

theorem loadKeyDigest_eq_some {stored : Option KeyDigest} {seg : Segment}
    (hload : loadKeyDigest stored seg = some digest) :
    stored = some digest ∧ digest.base = seg.baseOffset ∧ digest.logSize = seg.position := by
  unfold loadKeyDigest at hload
  split at hload
  · cases hload
  · split at hload
    next hbind =>
      cases hload
      exact ⟨rfl, hbind.1, hbind.2.1⟩
    · cases hload

end CommitLog
