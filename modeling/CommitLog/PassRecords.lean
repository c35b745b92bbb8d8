import CommitLog.CompactSteps

/-!
# The records a pass leaves

The reference for compaction is a single predicate over the records of the
whole log: `removes` says which records go, and `fate` what becomes of the
rest.  A rewrite follows the reference on every record of its segment, and
the skip test only passes a segment the reference does not touch, up to what
the strip stamp of its digest vouches for.
-/

namespace CommitLog

open DropSet List

variable {frame : Frame} {merged : MergeResult} {loop : LoopResult}
variable {log : LogView} {spec : CleanSpec} {seg : Segment} {i : ℕ} {c : Candidate} {now : ℤ}
  {env : PassEnv}

/-! ## The reference -/

/-- No copy of the key that takes part in the merge lies above the frame. -/
def isLatest (spec : CleanSpec) (records : List Frame) (key : Bytes) (frame : Frame) : Bool :=
  records.all fun other =>
    !participates spec key other || decide (other.offset ≤ frame.offset)

def expiredTombstone (spec : CleanSpec) (now : ℤ) (frame : Frame) : Bool :=
  decide (0 < spec.tombstoneRetention) && frame.message.isTombstone &&
    decide (frame.offset < spec.tombstoneGCBelow) &&
    decide (0 < frame.timestamp) &&
    decide (frame.timestamp < now - spec.tombstoneRetention)

def removes (spec : CleanSpec) (now : ℤ) (records : List Frame) (frame : Frame) : Bool :=
  decide (frame.offset < spec.ceiling) &&
    if frame.isControl then
      decide (frame.offset < spec.stripBelow) && !spec.stripHeaders.isEmpty
    else
      spec.aborted frame.offset || (!spec.stripOnly &&
          match frame.key with
          | none => false
          | some key =>
            !isLatest spec records key frame || expiredTombstone spec now frame)

/-- A sound data record below both bounds that carries a strip header. -/
def strips (spec : CleanSpec) (frame : Frame) : Bool :=
  decide (frame.offset < spec.ceiling) && !frame.isControl &&
    decide (frame.offset < spec.stripBelow) && frame.crcMatches &&
    frame.message.hasAnyHeader spec.stripHeaders

def fate (spec : CleanSpec) (now : ℤ) (records : List Frame) (frame : Frame) : Option Frame :=
  if removes spec now records frame then none
  else if strips spec frame then some (reframe frame spec.stripHeaders)
  else some frame

theorem isLatest_eq_not_superseded (spec : CleanSpec) (records : List Frame) (key : Bytes)
    (frame : Frame) : isLatest spec records key frame = !superseded spec records key frame := by
  unfold isLatest superseded
  rw [not_any_eq_all_not]
  congr 1
  funext other
  by_cases hle : other.offset ≤ frame.offset
  · have hnot : ¬frame.offset < other.offset := by omega
    simp [hle, hnot]
  · have hlt : frame.offset < other.offset := by omega
    simp [hle, hlt]

theorem dropped_eq {records : List Frame} {key : Bytes} (hkey : frame.key = some key)
    (hdata : frame.isControl = false) (hbelow : frame.offset < spec.ceiling)
    (haborted : spec.aborted frame.offset = false) :
    dropped spec now records frame = (!isLatest spec records key frame ||
        expiredTombstone spec now frame) := by
  have hparticipates : participates spec key frame = true := by
    simp [participates, isKeyedData, hdata, hkey, haborted, hbelow.le]
  have hexpired : expiredRec spec now (digestRec frame) =
      expiredTombstone spec now frame := rfl
  unfold dropped
  rw [hkey, isLatest_eq_not_superseded]
  simp only [hparticipates, Bool.true_and, hexpired, Bool.not_not]
  cases superseded spec records key frame with
  | true => simp [hbelow]
  | false => simp

/-! ## Logs whose digests can be trusted -/

structure LogView.Faithful (log : LogView) : Prop where
  ordered : LogOrdered log.segments
  describes : ∀ seg ∈ log.sealedSegs, ∀ digest,
    loadKeyDigest (log.keys seg.baseOffset) seg = some digest →
    digest.Describes seg.frames

/-- What a strip stamp vouches for: no sound data record below it carries one
of its headers. -/
def KeyDigest.StampHonest (digest : KeyDigest) (frames : List Frame) :
    Prop :=
  ∀ frame ∈ frames, frame.isControl = false → frame.crcMatches = true →
    frame.offset < digest.stripVerifiedBelow →
    frame.message.hasAnyHeader digest.stripHdrs = false

def LogView.StampsHonest (log : LogView) : Prop :=
  ∀ seg ∈ log.sealedSegs, ∀ digest, loadKeyDigest (log.keys seg.baseOffset) seg = some digest →
    digest.StampHonest seg.frames

theorem LogView.Faithful.loadOrBuild (hfaithful : log.Faithful) (hmem : seg ∈ log.sealedSegs) :
    (loadOrBuild log.keys seg).Describes seg.frames := by
  unfold CommitLog.loadOrBuild
  cases hload : loadKeyDigest (log.keys seg.baseOffset) seg with
  | none => exact buildKeyDigest_describes seg
  | some digest => exact hfaithful.describes seg hmem digest hload

def KeyDigest.sameContent (digest : KeyDigest) (frames : List Frame) :
    Bool :=
  let built := digestOfScan 0 0 0 frames
  decide (digest.keyed = built.keyed) &&
    decide (digest.unkeyed = built.unkeyed) &&
    decide (digest.control = built.control)

theorem describes_of_sameContent {digest : KeyDigest} {frames : List Frame}
    (hsame : digest.sameContent frames = true) : digest.Describes frames := by
  simp only [KeyDigest.sameContent, Bool.and_eq_true, decide_eq_true_eq] at hsame
  have hbuilt := digestOfScan_describes 0 0 0 frames
  refine ⟨?_, ?_, hsame.1.2.trans hbuilt.unkeyed, hsame.2.trans hbuilt.control⟩
  · rw [hsame.1.1]
    exact hbuilt.keyed_sorted
  · rw [hsame.1.1]
    exact hbuilt.find_keyed

def LogView.digestsMatch (log : LogView) : Bool :=
  log.sealedSegs.all fun seg =>
    match loadKeyDigest (log.keys seg.baseOffset) seg with
    | none => true
    | some digest => digest.sameContent seg.frames

theorem LogView.faithful_of_digestsMatch (hordered : LogOrdered log.segments)
    (hmatch : log.digestsMatch = true) : log.Faithful := by
  refine ⟨hordered, ?_⟩
  intro seg hmem digest hload
  have hseg := all_eq_true.mp hmatch seg hmem
  rw [hload] at hseg
  exact describes_of_sameContent hseg

theorem LogView.faithful_of_no_keys (hordered : LogOrdered log.segments)
    (hkeys : ∀ base, log.keys base = none) : log.Faithful := by
  refine ⟨hordered, ?_⟩
  intro seg _ digest hload
  rw [hkeys] at hload
  cases hload

theorem LogView.stampsHonest_of_no_keys
    (hkeys : ∀ base, log.keys base = none) : log.StampsHonest := by
  intro seg _ digest hload
  rw [hkeys] at hload
  cases hload

theorem buildKeyDigest_stampHonest (hwf : seg.WellFormed) :
    (buildKeyDigest seg).StampHonest seg.frames := by
  intro frame hframe _ _ hbelow
  have hnonneg := hwf.offset_nonneg hframe
  have hstamp : (buildKeyDigest seg).stripVerifiedBelow = -1 := rfl
  omega

theorem LogView.mem_segments_of_sealed (hmem : seg ∈ log.sealedSegs) : seg ∈ log.segments :=
  mem_append_left _ hmem

theorem LogView.mem_records : frame ∈ recordsOf log.segments ↔
      frame ∈ recordsOf log.sealedSegs ∨ frame ∈ log.active.frames := by
  simp [LogView.segments]

theorem mem_records_of_mem_active
    (hmem : frame ∈ log.active.frames) : frame ∈ recordsOf log.segments :=
  LogView.mem_records.mpr (Or.inr hmem)

theorem LogView.getElem?_segments (hget : log.sealedSegs[i]? = some seg) :
    log.segments[i]? = some seg := by
  have hlt := (List.getElem?_eq_some_iff.mp hget).1
  rw [LogView.segments, List.getElem?_append_left hlt, hget]

theorem LogView.Faithful.digestsDescribe (hfaithful : log.Faithful) :
    DigestsDescribe log.segments (log.sealedSegs.map (CommitLog.loadOrBuild log.keys) ++
        [buildKeyDigest log.active]) := by
  have hsealed : ∀ segs : List Segment, (∀ seg ∈ segs, seg ∈ log.sealedSegs) → DigestsDescribe segs
        (segs.map (CommitLog.loadOrBuild log.keys)) := by
    intro segs
    induction segs with
    | nil => intro _; exact .nil
    | cons seg segs ih =>
      intro hmem
      exact .cons (hfaithful.loadOrBuild (hmem seg mem_cons_self))
        (ih fun s hs => hmem s (mem_cons_of_mem _ hs))
  have hactive : DigestsDescribe [log.active] [buildKeyDigest log.active] :=
    .cons (buildKeyDigest_describes log.active) .nil
  exact rel_append (hsealed log.sealedSegs fun _ h => h) hactive

/-! ## The merge of a pass -/

/-- The merge a pass works with, told through the records of its log. -/
structure MergedFor (spec : CleanSpec) (now : ℤ) (log : LogView)
    (merged : MergeResult) : Prop where
  drops : ∀ i seg frame, log.segments[i]? = some seg → frame ∈ seg.frames →
    (getOf (merged.drops i) frame.offset = true ↔ spec.stripOnly = false ∧ hasKey frame = true ∧
        dropped spec now (recordsOf log.segments) frame = true)
  dropCount : ∀ i seg, log.segments[i]? = some seg → (0 < dropCount merged i ↔ ∃ frame ∈ seg.frames,
      spec.stripOnly = false ∧ hasKey frame = true ∧
        dropped spec now (recordsOf log.segments) frame = true)
  gcSegs : ∀ i seg, log.segments[i]? = some seg → (merged.gcSegs i = true ↔ ∃ frame ∈ seg.frames,
      spec.stripOnly = false ∧ hasKey frame = true ∧
        collected spec now (recordsOf log.segments) frame = true)
  abortedKeyed : ∀ i seg, log.segments[i]? = some seg →
    (merged.abortedKeyed i = true ↔ ∃ frame ∈ seg.frames,
      hasKey frame = true ∧ frame.offset < spec.ceiling ∧ spec.aborted frame.offset = true)
  stripKeyed : ∀ i seg, log.segments[i]? = some seg →
    (merged.stripKeyed i = true ↔ ∃ frame ∈ seg.frames,
      hasKey frame = true ∧ spec.stripActive = true ∧ frame.offset < spec.stripBelow ∧
        (digestRec frame).hasHeaders = true)

theorem DropSet.getOf_none (offset : ℤ) : getOf none offset = false := rfl

theorem dropCount_pos_iff (hcount : ∀ drops, merged.drops i = some drops → drops.CountOk) :
    0 < dropCount merged i ↔ ∃ offset, getOf (merged.drops i) offset = true := by
  unfold dropCount
  cases hdrops : merged.drops i with
  | none => simp [getOf_none]
  | some drops => exact hcount drops hdrops

theorem exists_getElem?_iff {segments : List Segment} (hseg : segments[i]? = some seg)
    {p : Segment → Prop} : (∃ seg', segments[i]? = some seg' ∧ p seg') ↔ p seg := by
  simp [hseg]

theorem MergedAs.getOf_iff {segments : List Segment} {res : MergeResult}
    (hmerged : MergedAs spec now segments res) (hordered : LogOrdered segments)
    (hseg : segments[i]? = some seg) (hframe : frame ∈ seg.frames) :
    getOf (res.drops i) frame.offset = true ↔ hasKey frame = true ∧
        dropped spec now (recordsOf segments) frame = true := by
  rw [hmerged.drops]
  constructor
  · intro hfound
    obtain ⟨seg', hseg', frame', hframe', hkey, hoffset, hdropped⟩ := hfound
    have hmem := mem_recordsOf_getElem?.mpr ⟨i, seg, hseg, hframe⟩
    have hmem' := mem_recordsOf_getElem?.mpr ⟨i, seg', hseg', hframe'⟩
    have hsame : frame' = frame :=
      hordered.eq_of_offset_eq hmem' hmem hoffset
    rw [← hsame]
    exact ⟨hkey, hdropped⟩
  · intro hfound
    exact ⟨seg, hseg, frame, hframe, hfound.1, rfl, hfound.2⟩

theorem mergeLog_spec (hfaithful : log.Faithful) (hmerged : mergeLog spec env log = .ok merged) :
    MergedFor spec env.now log merged := by
  unfold mergeLog at hmerged
  cases hresult : mergeDigests spec env.now log.segments
      (log.sealedSegs.map (loadOrBuild log.keys) ++ [buildKeyDigest log.active]) with
  | error err =>
    rw [hresult] at hmerged
    cases hmerged
  | ok res =>
    rw [hresult] at hmerged
    have hforPass : merged = res.forPass spec :=
      (Except.ok.inj hmerged).symm
    have hres := mergeDigests_spec hfaithful.ordered hfaithful.digestsDescribe hresult
    have haborted : ∀ i seg, log.segments[i]? = some seg →
        (res.abortedKeyed i = true ↔ ∃ frame ∈ seg.frames,
          hasKey frame = true ∧ frame.offset < spec.ceiling ∧
            spec.aborted frame.offset = true) := by
      intro i seg hseg
      rw [hres.abortedKeyed, exists_getElem?_iff hseg]
    have hstrip : ∀ i seg, log.segments[i]? = some seg →
        (res.stripKeyed i = true ↔ ∃ frame ∈ seg.frames,
          hasKey frame = true ∧ spec.stripActive = true ∧ frame.offset < spec.stripBelow ∧
            (digestRec frame).hasHeaders = true) := by
      intro i seg hseg
      rw [hres.stripKeyed, exists_getElem?_iff hseg]
    cases honly : spec.stripOnly with
    | true =>
      have hmerged' : merged = { res with
          drops := fun _ => none, gcSegs := fun _ => false } := by
        simp [hforPass, MergeResult.forPass, honly]
      rw [hmerged']
      refine ⟨?_, ?_, ?_, haborted, hstrip⟩
      · intro i seg frame _ _
        simp [getOf_none, honly]
      · intro i seg _
        simp [dropCount, honly]
      · intro i seg _
        simp [honly]
    | false =>
      have hmerged' : merged = res := by
        simp [hforPass, MergeResult.forPass, honly]
      rw [hmerged']
      refine ⟨?_, ?_, ?_, haborted, hstrip⟩
      · intro i seg frame hseg hframe
        rw [hres.getOf_iff hfaithful.ordered hseg hframe]
        simp [honly]
      · intro i seg hseg
        rw [dropCount_pos_iff (hres.countOk i)]
        constructor
        · intro hget
          obtain ⟨offset, hoffset⟩ := hget
          have hfound := (hres.drops i offset).mp hoffset
          rw [exists_getElem?_iff hseg] at hfound
          obtain ⟨frame, hframe, hkey, _, hdropped⟩ := hfound
          exact ⟨frame, hframe, honly, hkey, hdropped⟩
        · intro hfound
          obtain ⟨frame, hframe, _, hkey, hdropped⟩ := hfound
          exact ⟨frame.offset, (hres.drops i frame.offset).mpr
            ⟨seg, hseg, frame, hframe, hkey, rfl, hdropped⟩⟩
      · intro i seg hseg
        rw [hres.gcSegs, exists_getElem?_iff hseg]
        simp [honly]

/-! ## Rewriting follows the reference -/

theorem classify_eq_remove_iff (hmerged : MergedFor spec now log merged)
    (hseg : log.segments[i]? = some seg) (hframe : frame ∈ seg.frames) :
    classify spec (merged.drops i) frame = .remove ↔
      removes spec now (recordsOf log.segments) frame = true := by
  have hstripOrRetain : stripOrRetain spec frame ≠ .remove := by
    unfold stripOrRetain
    split <;> simp
  unfold classify removes
  by_cases hceiling : spec.ceiling ≤ frame.offset
  · have hnot : ¬frame.offset < spec.ceiling := by omega
    simp [hceiling, hnot]
  · have hbelow : frame.offset < spec.ceiling := by omega
    rw [if_neg hceiling]
    cases hcontrol : frame.isControl with
    | true =>
      by_cases hstrip : (decide (frame.offset < spec.stripBelow) &&
          !spec.stripHeaders.isEmpty) = true
      · simp [hbelow, hstrip]
      · simp [hbelow, hstrip]
    | false =>
      cases haborted : spec.aborted frame.offset with
      | true => simp [hbelow]
      | false =>
        cases hkey : frame.key with
        | none => simp [hbelow, hstripOrRetain]
        | some key =>
          have hdrops := hmerged.drops i seg frame hseg hframe
          have hhasKey : hasKey frame = true := by
            simp [hasKey, hcontrol, hkey]
          rw [dropped_eq hkey hcontrol hbelow haborted, hhasKey] at hdrops
          cases hget : getOf (merged.drops i) frame.offset with
          | true =>
            have hgone := hdrops.mp hget
            simp [hbelow, hgone.1, hgone.2.2]
          | false =>
            have hstays : ¬(spec.stripOnly = false ∧
                (!isLatest spec (recordsOf log.segments) key frame
                  || expiredTombstone spec now frame) = true) := by
              intro hgone
              rw [hdrops.mpr ⟨hgone.1, rfl, hgone.2⟩] at hget
              cases hget
            simpa [hbelow, hstripOrRetain] using hstays

theorem classify_eq_strip_iff {drops : Option DropSet}
    (hstays : classify spec drops frame ≠ .remove) :
    classify spec drops frame = .strip ↔
      frame.offset < spec.ceiling ∧ frame.isControl = false ∧
        frame.offset < spec.stripBelow ∧ spec.stripHeaders ≠ [] := by
  have hstripOrRetain : stripOrRetain spec frame = .strip ↔
      frame.offset < spec.stripBelow ∧ spec.stripHeaders ≠ [] := by
    unfold stripOrRetain
    split
    next hcond => simpa using hcond
    next hcond => simpa using hcond
  unfold classify at hstays ⊢
  by_cases hceiling : spec.ceiling ≤ frame.offset
  · have hnot : ¬frame.offset < spec.ceiling := by omega
    simp [hceiling, hnot]
  · have hbelow : frame.offset < spec.ceiling := by omega
    rw [if_neg hceiling] at hstays ⊢
    cases hcontrol : frame.isControl with
    | true =>
      rw [if_pos rfl]
      split <;> simp
    | false =>
      rw [hcontrol, if_neg Bool.false_ne_true] at hstays
      rw [if_neg Bool.false_ne_true]
      cases haborted : spec.aborted frame.offset with
      | true =>
        rw [haborted, if_pos rfl] at hstays
        exact absurd rfl hstays
      | false =>
        rw [haborted, if_neg Bool.false_ne_true] at hstays
        rw [if_neg Bool.false_ne_true]
        cases hkey : frame.key with
        | none => simp [hbelow, hstripOrRetain]
        | some key =>
          rw [hkey] at hstays
          cases hget : getOf drops frame.offset with
          | true => simp [hget] at hstays
          | false => simp [hbelow, hstripOrRetain]

theorem rewriteFrame_eq_fate (hmerged : MergedFor spec now log merged)
    (hseg : log.segments[i]? = some seg) (hframe : frame ∈ seg.frames) :
    rewriteFrame spec (merged.drops i) frame = fate spec now (recordsOf log.segments) frame := by
  have hremove := classify_eq_remove_iff hmerged hseg hframe
  unfold rewriteFrame fate
  cases hgoes : removes spec now (recordsOf log.segments) frame with
  | true => simp [hremove.mpr hgoes]
  | false =>
    have hstays : classify spec (merged.drops i) frame ≠ .remove := by
      intro hclass
      rw [hremove.mp hclass] at hgoes
      cases hgoes
    have hstrip := classify_eq_strip_iff hstays
    cases hclass : classify spec (merged.drops i) frame with
    | remove => exact absurd hclass hstays
    | strip =>
      have hbounds := hstrip.mp hclass
      simp [strips, hbounds.1, hbounds.2.1, hbounds.2.2.1]
    | retain =>
      have hnot : strips spec frame = false := by
        rw [Bool.eq_false_iff]
        intro hstrips
        simp only [strips, Bool.and_eq_true, decide_eq_true_eq, Bool.not_eq_true'] at hstrips
        have hheaders : spec.stripHeaders ≠ [] := by
          intro hnil
          rw [hnil] at hstrips
          simp at hstrips
        have hclass' := hstrip.mpr ⟨hstrips.1.1.1.1, hstrips.1.1.1.2, hstrips.1.1.2, hheaders⟩
        rw [hclass] at hclass'
        cases hclass'
      simp [hnot]

/-! ## The skip test -/

theorem canSkip_eq_true {digest : KeyDigest} (hskip : canSkip spec digest merged i = true) :
    dropCount merged i = 0 ∧ merged.abortedKeyed i = false ∧
      (spec.stripActive = true → ∀ offset ∈ digest.control, spec.stripBelow ≤ offset) ∧
      (spec.stripActive = true → merged.stripKeyed i = true →
        digest.stripStampCovers spec.stripBelow spec.stripHeaders = true) ∧
      (spec.stripActive = true → ∀ rec ∈ digest.unkeyed,
        rec.offset < spec.stripBelow → rec.hasHeaders = true →
        digest.stripStampCovers spec.stripBelow spec.stripHeaders = true) ∧
      (∀ rec ∈ digest.unkeyed, rec.offset < spec.ceiling → spec.aborted rec.offset = false) := by
  unfold canSkip at hskip
  simp only [Bool.if_false_left, Bool.and_true, Bool.and_eq_true, Bool.not_eq_true',
    decide_eq_false_iff_not, Nat.not_lt, Nat.le_zero, any_eq_true, decide_eq_true_eq, not_and,
    not_exists, Bool.not_eq_false] at hskip
  obtain ⟨hcount, haborted, hcontrol, hkeyed, hunkeyed, habortedUnkeyed⟩ :=
    hskip
  refine ⟨hcount, Bool.eq_false_iff.mpr haborted, ?_, hkeyed, ?_, ?_⟩
  · intro hactive offset hmem
    exact not_lt.mp (hcontrol hactive offset hmem)
  · intro hactive rec hmem hbelow hheaders
    exact hunkeyed hactive rec hmem ⟨hbelow, hheaders⟩
  · intro rec hmem hbelow
    exact Bool.eq_false_iff.mpr (habortedUnkeyed rec hmem hbelow)

/-- A record that keeps the skip test from passing its segment whatever the
strip stamp says. -/
def marked (spec : CleanSpec) (now : ℤ) (records : List Frame) (frame : Frame) : Bool :=
  (frame.isControl && spec.stripActive &&
      decide (frame.offset < spec.stripBelow)) ||
    (!frame.isControl && decide (frame.offset < spec.ceiling) && spec.aborted frame.offset) ||
    (!spec.stripOnly && hasKey frame && dropped spec now records frame)

/-- A data record whose headers the stamp has to vouch for. -/
def wantsStamp (spec : CleanSpec) (frame : Frame) : Bool :=
  spec.stripActive && !frame.isControl &&
    decide (frame.offset < spec.stripBelow) &&
    (digestRec frame).hasHeaders

section Skipped

variable {spec : CleanSpec} {now : ℤ} {log : LogView}
  {merged : MergeResult} {i : ℕ} {seg : Segment} {digest : KeyDigest}

theorem hasKey_or_isUnkeyedData (hdata : frame.isControl = false) :
    hasKey frame = true ∨ isUnkeyedData frame = true := by
  cases hkey : frame.key with
  | none => exact Or.inr (by simp [isUnkeyedData, hdata, hkey])
  | some key => exact Or.inl (by simp [hasKey, hdata, hkey])

theorem marked_of_canSkip (hmerged : MergedFor spec now log merged)
    (hseg : log.segments[i]? = some seg) (hdescribes : digest.Describes seg.frames)
    (hskip : canSkip spec digest merged i = true) (hframe : frame ∈ seg.frames) :
    marked spec now (recordsOf log.segments) frame = false := by
  obtain ⟨hcount, haborted, hcontrol, _, _, hunkeyed⟩ :=
    canSkip_eq_true hskip
  rw [Bool.eq_false_iff]
  intro hmarked
  simp only [marked, Bool.or_eq_true, Bool.and_eq_true, Bool.not_eq_true',
    decide_eq_true_eq] at hmarked
  rcases hmarked with (⟨⟨hisControl, hactive⟩, hbelow⟩ |
    ⟨⟨hdata, hbelow⟩, hverdict⟩) | ⟨⟨hcompact, hkey⟩, hdropped⟩
  · have hoffset := hcontrol hactive frame.offset
      (hdescribes.mem_control.mpr ⟨frame, hframe, hisControl, rfl⟩)
    omega
  · rcases hasKey_or_isUnkeyedData hdata with hkey | hnokey
    · rw [(hmerged.abortedKeyed i seg hseg).mpr ⟨frame, hframe, hkey, hbelow, hverdict⟩] at haborted
      cases haborted
    · have hlive := hunkeyed (digestRec frame)
        (hdescribes.mem_unkeyed.mpr ⟨frame, hframe, hnokey, rfl⟩) hbelow
      have hsame : (digestRec frame).offset = frame.offset := rfl
      rw [hsame, hverdict] at hlive
      cases hlive
  · have hpos := (hmerged.dropCount i seg hseg).mpr ⟨frame, hframe, hcompact, hkey, hdropped⟩
    omega

theorem stripStampCovers_of_wantsStamp (hmerged : MergedFor spec now log merged)
    (hseg : log.segments[i]? = some seg) (hdescribes : digest.Describes seg.frames)
    (hskip : canSkip spec digest merged i = true) (hframe : frame ∈ seg.frames)
    (hwants : wantsStamp spec frame = true) :
    digest.stripStampCovers spec.stripBelow spec.stripHeaders = true := by
  obtain ⟨_, _, _, hkeyed, hunkeyed, _⟩ := canSkip_eq_true hskip
  simp only [wantsStamp, Bool.and_eq_true, Bool.not_eq_true', decide_eq_true_eq] at hwants
  obtain ⟨⟨⟨hactive, hdata⟩, hbelow⟩, hheaders⟩ := hwants
  rcases hasKey_or_isUnkeyedData hdata with hkey | hnokey
  · exact hkeyed hactive ((hmerged.stripKeyed i seg hseg).mpr
      ⟨frame, hframe, hkey, hactive, hbelow, hheaders⟩)
  · exact hunkeyed hactive (digestRec frame)
      (hdescribes.mem_unkeyed.mpr ⟨frame, hframe, hnokey, rfl⟩) hbelow
      hheaders

theorem canSkip_of_unmarked (hmerged : MergedFor spec now log merged)
    (hseg : log.segments[i]? = some seg) (hdescribes : digest.Describes seg.frames)
    (hunmarked : ∀ frame ∈ seg.frames, marked spec now (recordsOf log.segments) frame = false)
    (hcovers : digest.stripStampCovers spec.stripBelow spec.stripHeaders = true) :
    canSkip spec digest merged i = true := by
  have hcount : ¬0 < dropCount merged i := by
    intro hpos
    obtain ⟨frame, hframe, hcompact, hkey, hdropped⟩ :=
      (hmerged.dropCount i seg hseg).mp hpos
    have hnot := hunmarked frame hframe
    simp [marked, hcompact, hkey, hdropped] at hnot
  have haborted : merged.abortedKeyed i = false := by
    rw [Bool.eq_false_iff]
    intro hmark
    obtain ⟨frame, hframe, hkey, hbelow, hverdict⟩ :=
      (hmerged.abortedKeyed i seg hseg).mp hmark
    have hdata : frame.isControl = false := by
      simp only [hasKey, Bool.and_eq_true, Bool.not_eq_true'] at hkey
      exact hkey.1
    have hnot := hunmarked frame hframe
    simp [marked, hdata, hbelow, hverdict] at hnot
  have hcontrol : (spec.stripActive && digest.control.any fun offset =>
      decide (offset < spec.stripBelow)) = false := by
    rw [Bool.eq_false_iff]
    intro hany
    rw [Bool.and_eq_true, any_eq_true] at hany
    obtain ⟨hactive, offset, hmem, hbelow⟩ := hany
    obtain ⟨frame, hframe, hisControl, hoffset⟩ :=
      hdescribes.mem_control.mp hmem
    have hnot := hunmarked frame hframe
    rw [decide_eq_true_eq, ← hoffset] at hbelow
    simp [marked, hisControl, hactive, hbelow] at hnot
  have hunkeyed : (digest.unkeyed.any fun rec =>
      decide (rec.offset < spec.ceiling) && spec.aborted rec.offset) =
        false := by
    rw [Bool.eq_false_iff]
    intro hany
    rw [any_eq_true] at hany
    obtain ⟨rec, hmem, hcond⟩ := hany
    obtain ⟨frame, hframe, hnokey, hrec⟩ := hdescribes.mem_unkeyed.mp hmem
    rw [← hrec, Bool.and_eq_true, decide_eq_true_eq] at hcond
    have hbelow : frame.offset < spec.ceiling := hcond.1
    have hverdict : spec.aborted frame.offset = true := hcond.2
    have hdata : frame.isControl = false := by
      simp only [isUnkeyedData, Bool.and_eq_true, Bool.not_eq_true'] at hnokey
      exact hnokey.1
    have hnot := hunmarked frame hframe
    simp [marked, hdata, hbelow, hverdict] at hnot
  unfold canSkip
  simp [hcount, haborted, hcontrol, hunkeyed, hcovers]

theorem marked_of_removes {records : List Frame} (hnonneg : 0 ≤ frame.offset)
    (hremoves : removes spec now records frame = true) : marked spec now records frame = true := by
  unfold removes at hremoves
  rw [Bool.and_eq_true, decide_eq_true_eq] at hremoves
  obtain ⟨hbelow, hgoes⟩ := hremoves
  cases hcontrol : frame.isControl with
  | true =>
    rw [hcontrol, if_pos rfl, Bool.and_eq_true, decide_eq_true_eq] at hgoes
    have hpos : 0 < spec.stripBelow := by omega
    have hactive : spec.stripActive = true := by
      rw [CleanSpec.stripActive, hgoes.2]
      simpa using hpos
    simp [marked, hcontrol, hactive, hgoes.1]
  | false =>
    cases hverdict : spec.aborted frame.offset with
    | true => simp [marked, hcontrol, hbelow, hverdict]
    | false =>
      cases hkey : frame.key with
      | none => simp [hcontrol, hverdict, hkey] at hgoes
      | some key =>
        simp only [hcontrol, hverdict, hkey, Bool.false_eq_true,
          if_false, Bool.false_or, Bool.and_eq_true] at hgoes
        have hdropped : dropped spec now records frame = true := by
          rw [dropped_eq hkey hcontrol hbelow hverdict]
          exact hgoes.2
        simp [marked, hcontrol, hasKey, hkey, hdropped]
        simpa using Or.inr hgoes.1

theorem removes_of_canSkip (hmerged : MergedFor spec now log merged)
    (hseg : log.segments[i]? = some seg) (hwf : seg.WellFormed)
    (hdescribes : digest.Describes seg.frames) (hskip : canSkip spec digest merged i = true)
    (hframe : frame ∈ seg.frames) : removes spec now (recordsOf log.segments) frame = false := by
  have hunmarked := marked_of_canSkip hmerged hseg hdescribes hskip hframe
  rw [Bool.eq_false_iff]
  intro hremoves
  rw [marked_of_removes (hwf.offset_nonneg hframe) hremoves] at hunmarked
  cases hunmarked

theorem wantsStamp_of_hasAnyHeader (hnonneg : 0 ≤ frame.offset) (hdata : frame.isControl = false)
    (hbelow : frame.offset < spec.stripBelow)
    (hhas : frame.message.hasAnyHeader spec.stripHeaders = true) :
    wantsStamp spec frame = true := by
  have hheaders : (digestRec frame).hasHeaders = true := by
    have hne := Message.headers_ne_nil_of_hasAnyHeader hhas
    simpa [digestRec] using hne
  have hne : spec.stripHeaders ≠ [] := by
    intro hnil
    simp [hnil] at hhas
  have hpos : 0 < spec.stripBelow := by omega
  simp [wantsStamp, CleanSpec.stripActive, hpos, hne, hdata, hbelow, hheaders]

theorem strips_of_canSkip (hmerged : MergedFor spec now log merged)
    (hseg : log.segments[i]? = some seg) (hwf : seg.WellFormed)
    (hdescribes : digest.Describes seg.frames) (hhonest : digest.StampHonest seg.frames)
    (hskip : canSkip spec digest merged i = true) (hframe : frame ∈ seg.frames) :
    strips spec frame = false := by
  rw [Bool.eq_false_iff]
  intro hstrips
  simp only [strips, Bool.and_eq_true, decide_eq_true_eq, Bool.not_eq_true'] at hstrips
  obtain ⟨⟨⟨⟨_, hdata⟩, hbelow⟩, hcrc⟩, hhas⟩ := hstrips
  have hcovers := stripStampCovers_of_wantsStamp hmerged hseg hdescribes
    hskip hframe (wantsStamp_of_hasAnyHeader (hwf.offset_nonneg hframe) hdata hbelow hhas)
  simp only [KeyDigest.stripStampCovers, Bool.and_eq_true, decide_eq_true_eq] at hcovers
  have hclean := hhonest frame hframe hdata hcrc (by omega)
  rw [← hcovers.2, hhas] at hclean
  cases hclean

end Skipped

/-! ## The records after a pass -/

theorem compact_eq_ok {result : PassResult} (hpass : compact spec env log = .ok result) :
    ∃ merged, mergeLog spec env log = .ok merged ∧ result.log = ⟨(candidatesOf log).flatMap
          (segmentAfter (runRewrites spec env log merged)), log.active,
        keysAfter spec env log merged⟩ ∧
      result.verified = (if (runRewrites spec env log merged).failed.isSome then -1
        else capFloor spec (assemble spec env log merged).verified) ∧
      result.failed = (runRewrites spec env log merged).failed.isSome := by
  unfold compact at hpass
  cases hmerged : mergeLog spec env log with
  | error err =>
    rw [hmerged] at hpass
    cases hpass
  | ok merged =>
    rw [hmerged] at hpass
    have hresult := (Except.ok.inj hpass).symm
    refine ⟨merged, rfl, ?_, ?_, ?_⟩
    · rw [hresult, ← assemble_sealedSegs]
    · rw [hresult]
    · rw [hresult]

theorem candidate_wellFormed (hfaithful : log.Faithful) (hmem : c ∈ candidatesOf log) :
    c.seg.WellFormed := by
  have hseg := mem_of_getElem? (mem_candidatesOf.mp hmem).1
  exact hfaithful.ordered.wellFormed c.seg (LogView.mem_segments_of_sealed hseg)

theorem candidate_describes (hfaithful : log.Faithful) (hmem : c ∈ candidatesOf log) :
    c.digest.Describes c.seg.frames := by
  have hcand := mem_candidatesOf.mp hmem
  rw [hcand.2]
  exact hfaithful.loadOrBuild (mem_of_getElem? hcand.1)

theorem candidate_stampHonest (hfaithful : log.Faithful) (hstamps : log.StampsHonest)
    (hmem : c ∈ candidatesOf log) : c.digest.StampHonest c.seg.frames := by
  have hcand := mem_candidatesOf.mp hmem
  rw [hcand.2]
  unfold loadOrBuild
  cases hload : loadKeyDigest (log.keys c.seg.baseOffset) c.seg with
  | none =>
    exact buildKeyDigest_stampHonest (candidate_wellFormed hfaithful hmem)
  | some digest =>
    exact hstamps c.seg (mem_of_getElem? hcand.1) digest hload

theorem candidate_getElem? (hmem : c ∈ candidatesOf log) : log.segments[c.index]? = some c.seg :=
  LogView.getElem?_segments (mem_candidatesOf.mp hmem).1

theorem flatMap_candidatesOf (log : LogView) : (candidatesOf log).flatMap (fun c => c.seg.frames) =
      recordsOf log.sealedSegs := by
  unfold candidatesOf recordsOf
  rw [flatMap_map]
  have hzip : ∀ (segs : List Segment) (n : ℕ),
      (segs.zipIdx n).flatMap (fun entry => entry.1.frames) = segs.flatMap Segment.frames := by
    intro segs
    induction segs with
    | nil => intro n; rfl
    | cons seg segs ih =>
      intro n
      rw [zipIdx_cons, flatMap_cons, flatMap_cons, ih]
  exact hzip log.sealedSegs 0

theorem framesAfter_of_installed (hmerged : MergedFor spec now log merged)
    (hmem : c ∈ candidatesOf log) (hinstalled : loop.installed c.index ≠ none) :
    framesAfter spec merged loop c = c.seg.frames.filterMap
        (fate spec now (recordsOf log.segments)) := by
  obtain ⟨result, hresult⟩ := Option.ne_none_iff_exists'.mp hinstalled
  unfold framesAfter
  rw [hresult]
  apply filterMap_congr
  intro frame hframe
  exact rewriteFrame_eq_fate hmerged (candidate_getElem? hmem) hframe

theorem framesAfter_of_not_installed (hinstalled : loop.installed c.index = none) :
    framesAfter spec merged loop c = c.seg.frames := by
  simp [framesAfter, hinstalled]

theorem recordsOf_flatMap_segmentAfter (spec : CleanSpec) (env : PassEnv) (log : LogView)
    (merged : MergeResult) :
    recordsOf ((candidatesOf log).flatMap (segmentAfter (runRewrites spec env log merged))) =
      (candidatesOf log).flatMap (framesAfter spec merged (runRewrites spec env log merged)) := by
  unfold recordsOf
  rw [flatMap_assoc]
  apply flatMap_congr
  intro c hmem
  exact recordsOf_segmentAfter hmem

/-! ## Passes that reach every segment -/

structure Unrestricted (spec : CleanSpec) (env : PassEnv) (log : LogView) :
    Prop where
  unbudgeted : spec.Unbudgeted
  minAge : env.minAge ≤ 0
  tiers : ∀ seg ∈ log.sealedSegs, inReadOnlyTier spec seg = false

theorem Unrestricted.ageProtected (hfree : Unrestricted spec env log) (seg : Segment) :
    ageProtected env seg = false := by
  have hage : ¬0 < env.minAge := by
    have hle := hfree.minAge
    omega
  simp [CommitLog.ageProtected, PassEnv.horizon, hage]

theorem Unrestricted.done (hfree : Unrestricted spec env log)
    (hfailed : (runRewrites spec env log merged).failed = none) (hmem : c ∈ candidatesOf log)
    (hwant : dispositionOf spec env merged c = .wantRewrite) :
    (runRewrites spec env log merged).done c.index ≠ none := by
  have htiers : ∀ d ∈ rewriteOrder spec env merged (candidatesOf log),
      inReadOnlyTier spec d.seg = false := by
    intro d hd
    have hcand := mem_candidatesOf.mp (mem_rewriteOrder.mp hd).1
    exact hfree.tiers d.seg (mem_of_getElem? hcand.1)
  exact rewriteLoop_complete
    (nodup_index_rewriteOrder spec env merged (nodup_index_candidatesOf log))
    (Budgets.unlimited_start hfree.unbudgeted) rfl htiers hfailed c
    (mem_rewriteOrder.mpr ⟨hmem, hwant⟩)

theorem LoopResult.installed_ne_none_of_done
    (hdone : loop.done i ≠ none) : loop.installed i ≠ none := by
  obtain ⟨result, hresult⟩ := Option.ne_none_iff_exists'.mp hdone
  rw [LoopResult.installed_of_done hresult]
  simp

theorem Unrestricted.installed_or_canSkip (hfree : Unrestricted spec env log)
    (hfailed : (runRewrites spec env log merged).failed = none) (hmem : c ∈ candidatesOf log) :
    (runRewrites spec env log merged).installed c.index ≠ none ∨
      ((runRewrites spec env log merged).installed c.index = none ∧
        canSkip spec c.digest merged c.index = true) := by
  cases hdisp : dispositionOf spec env merged c with
  | wantRewrite =>
    left
    exact LoopResult.installed_ne_none_of_done (hfree.done hfailed hmem hdisp)
  | keepProtected =>
    have hage := dispositionOf_eq_keepProtected.mp hdisp
    rw [hfree.ageProtected] at hage
    cases hage
  | keepConverged =>
    refine Or.inr ⟨?_, canSkip_of_keepConverged hdisp⟩
    exact not_installed_of_ne_wantRewrite hmem (by simp [hdisp])

end CommitLog
