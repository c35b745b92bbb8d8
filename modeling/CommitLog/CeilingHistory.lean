import CommitLog.CompactReference

/-!
# Histories of passes under a moving ceiling

Passes follow one another with rising ceilings while transaction verdicts
settle.  A verdict is final once its offset lies below the ceiling of a pass;
a record at the ceiling may still be undecided, yet the merge compares it with
the older copies of its key.  The history keeps the latest settled copy of
every key as long as no record that was live at a pass's ceiling turns out
aborted.
-/

namespace CommitLog

open List

variable {frame : Frame} {records : List Frame} {passes : List (CleanSpec × PassEnv)}
variable {spec : CleanSpec} {log log' : LogView} {frame' : Frame}

/-! ## Settled copies -/

def settled (spec : CleanSpec) (key : Bytes) (frame : Frame) : Bool :=
  isKeyedData key frame && decide (frame.offset < spec.ceiling) && !spec.aborted frame.offset

def isLatestSettled (spec : CleanSpec) (key : Bytes)
    (records : List Frame) (frame : Frame) : Bool :=
  settled spec key frame && records.all fun other =>
    !settled spec key other || decide (other.offset ≤ frame.offset)

def SameLatest (spec : CleanSpec) (key : Bytes) (records records' : List Frame) : Prop :=
  (∀ frame ∈ records, isLatestSettled spec key records frame = true →
    ∃ frame' ∈ records', isLatestSettled spec key records' frame' = true ∧
      Frame.SameRecord frame frame') ∧
  (∀ frame' ∈ records', isLatestSettled spec key records' frame' = true →
    ∃ frame ∈ records, isLatestSettled spec key records frame = true ∧
      Frame.SameRecord frame' frame)

variable {key : Bytes}

theorem SameLatest.symm {records' : List Frame} (hsame : SameLatest spec key records records') :
    SameLatest spec key records' records := ⟨hsame.2, hsame.1⟩

theorem SameLatest.trans {first second third : List Frame}
    (hfirst : SameLatest spec key first second) (hsecond : SameLatest spec key second third) :
    SameLatest spec key first third := by
  constructor
  · intro frame hmem hlatest
    obtain ⟨mid, hmid, hmidLatest, hmidSame⟩ := hfirst.1 frame hmem hlatest
    obtain ⟨last, hlast, hlastLatest, hlastSame⟩ :=
      hsecond.1 mid hmid hmidLatest
    exact ⟨last, hlast, hlastLatest, hmidSame.trans hlastSame⟩
  · intro frame hmem hlatest
    obtain ⟨mid, hmid, hmidLatest, hmidSame⟩ := hsecond.2 frame hmem hlatest
    obtain ⟨last, hlast, hlastLatest, hlastSame⟩ :=
      hfirst.2 mid hmid hmidLatest
    exact ⟨last, hlast, hlastLatest, hmidSame.trans hlastSame⟩

theorem isKeyedData_of_same (hsame : Frame.SameRecord frame frame') :
    isKeyedData key frame' = isKeyedData key frame := by
  have hkey : frame'.key = frame.key := hsame.key
  simp only [isKeyedData, hsame.isControl, hkey]

theorem settled_of_same (hsame : Frame.SameRecord frame frame') :
    settled spec key frame' = settled spec key frame := by
  simp only [settled, isKeyedData_of_same hsame, hsame.offset]

theorem participates_of_same (hsame : Frame.SameRecord frame frame') :
    participates spec key frame' = participates spec key frame := by
  simp only [participates, isKeyedData_of_same hsame, hsame.offset]

theorem isLatestSettled_iff : isLatestSettled spec key records frame = true ↔
      settled spec key frame = true ∧ ∀ other ∈ records,
        settled spec key other = true → other.offset ≤ frame.offset := by
  simp only [isLatestSettled, Bool.and_eq_true, all_eq_true,
    Bool.or_eq_true, Bool.not_eq_true', decide_eq_true_eq]
  apply and_congr_right
  intro _
  constructor
  · intro hall other hmem hsettled
    rcases hall other hmem with hnot | hle
    · rw [hsettled] at hnot
      cases hnot
    · exact hle
  · intro hall other hmem
    cases hsettled : settled spec key other with
    | false => exact Or.inl rfl
    | true => exact Or.inr (hall other hmem hsettled)

theorem settled_iff :
    settled spec key frame = true ↔ isKeyedData key frame = true ∧ frame.offset < spec.ceiling ∧
        spec.aborted frame.offset = false := by
  simp [settled, and_assoc]

theorem participates_iff : participates spec key frame = true ↔
      isKeyedData key frame = true ∧ frame.offset ≤ spec.ceiling ∧
        spec.aborted frame.offset = false := by
  simp [participates, and_assoc]

theorem exists_max_offset {p : Frame → Bool} (hmem : frame ∈ records) (hp : p frame = true) :
    ∃ latest ∈ records, p latest = true ∧ ∀ other ∈ records,
      p other = true → other.offset ≤ latest.offset := by
  have hfinite : {f | f ∈ records ∧ p f = true}.Finite :=
    (finite_toSet records).subset fun f hf => hf.1
  obtain ⟨latest, hlatest, hmax⟩ := Set.exists_max_image _ Frame.offset hfinite ⟨frame, hmem, hp⟩
  exact ⟨latest, hlatest.1, hlatest.2, fun other hother hpo => hmax other ⟨hother, hpo⟩⟩

/-! ## One pass -/

structure CompactionPass (log : LogView) (pass : CleanSpec × PassEnv)
    (log' : LogView) : Prop where
  faithful : log.Faithful
  completes : ∃ result, compactSpec pass.1 pass.2 log = .ok result ∧ result.log = log'

structure FullPass (log : LogView) (pass : CleanSpec × PassEnv)
    (log' : LogView) : Prop where
  faithful : log.Faithful
  unrestricted : Unrestricted pass.1 pass.2 log
  completes : ∃ result, compactSpec pass.1 pass.2 log = .ok result ∧
    result.failed = false ∧ result.log = log'

section OnePass

variable {log log' : LogView} {pass : CleanSpec × PassEnv}

theorem FullPass.compactionPass (hfull : FullPass log pass log') :
    CompactionPass log pass log' := by
  obtain ⟨result, hresult, _, hlog⟩ := hfull.completes
  exact ⟨hfull.faithful, result, hresult, hlog⟩

theorem CompactionPass.active (hpass : CompactionPass log pass log') :
    log'.active = log.active := by
  obtain ⟨result, hresult, hlog⟩ := hpass.completes
  rw [← hlog]
  exact compactSpec_active hpass.faithful hresult

theorem CompactionPass.origin (hpass : CompactionPass log pass log')
    (hmem : frame' ∈ recordsOf log'.sealedSegs) :
    ∃ frame ∈ recordsOf log.sealedSegs,
      Frame.SameRecord frame frame' := by
  obtain ⟨result, hresult, hlog⟩ := hpass.completes
  rw [← hlog] at hmem
  obtain ⟨frame, hframe, hsurvivor⟩ :=
    compactSpec_origin hpass.faithful hresult hmem
  exact ⟨frame, hframe, hsurvivor.same⟩

theorem CompactionPass.survives (hpass : CompactionPass log pass log')
    (hmem : frame ∈ recordsOf log.sealedSegs)
    (hkept : removes pass.1 pass.2.now (recordsOf log.segments) frame = false) :
    ∃ frame' ∈ recordsOf log'.sealedSegs,
      Frame.SameRecord frame frame' := by
  obtain ⟨result, hresult, hlog⟩ := hpass.completes
  rw [← hlog]
  obtain ⟨frame', hframe', hsurvivor⟩ :=
    compactSpec_survives hpass.faithful hresult hmem hkept
  exact ⟨frame', hframe', hsurvivor.same⟩

theorem FullPass.origin (hfull : FullPass log pass log')
    (hmem : frame' ∈ recordsOf log'.sealedSegs) :
    ∃ frame ∈ recordsOf log.sealedSegs,
      removes pass.1 pass.2.now (recordsOf log.segments) frame = false ∧
      Frame.SameRecord frame frame' := by
  obtain ⟨result, hresult, hfailed, hlog⟩ := hfull.completes
  rw [← hlog] at hmem
  have hreference := compactSpec_sealed_reference hfull.faithful hfull.unrestricted hresult hfailed
  obtain ⟨frame, hframe, hsurvivor⟩ := forall₂_mem_right hreference hmem
  have hkept := mem_filter.mp hframe
  exact ⟨frame, hkept.1, by simpa using hkept.2, hsurvivor.same⟩

end OnePass

/-! ## Runs of passes -/

/-- The log came out of passes over `start`: same active segment, and every
sealed record is one of the old ones. -/
structure Descends (start log : LogView) : Prop where
  active : log.active = start.active
  origin : ∀ frame ∈ recordsOf log.sealedSegs,
    ∃ orig ∈ recordsOf start.sealedSegs, Frame.SameRecord orig frame

theorem Descends.refl (log : LogView) : Descends log log :=
  ⟨rfl, fun frame hmem => ⟨frame, hmem, Frame.SameRecord.refl frame⟩⟩

variable {start : LogView}

theorem Descends.pass {pass : CleanSpec × PassEnv} (hdescends : Descends start log)
    (hpass : CompactionPass log pass log') : Descends start log' := by
  refine ⟨hpass.active.trans hdescends.active, ?_⟩
  intro frame' hmem
  obtain ⟨frame, hframe, hsame⟩ := hpass.origin hmem
  obtain ⟨orig, horig, hsameOrig⟩ := hdescends.origin frame hframe
  exact ⟨orig, horig, hsameOrig.trans hsame⟩

theorem Descends.run (hdescends : Descends start log)
    (hrun : Runs.Run CompactionPass log passes log') : Descends start log' :=
  hrun.invariant (fun _ _ _ hinv hpass => hinv.pass hpass) hdescends

theorem Descends.mem_records (hdescends : Descends start log)
    (hmem : frame ∈ recordsOf log.segments) :
    ∃ orig ∈ recordsOf start.segments, Frame.SameRecord orig frame := by
  rcases LogView.mem_records.mp hmem with hsealed | hactive
  · obtain ⟨orig, horig, hsame⟩ := hdescends.origin frame hsealed
    exact ⟨orig, LogView.mem_records.mpr (Or.inl horig), hsame⟩
  · rw [hdescends.active] at hactive
    exact ⟨frame, LogView.mem_records.mpr (Or.inr hactive), Frame.SameRecord.refl frame⟩

/-- The pass has no reason to take this copy of the key: it lies at or above
the ceiling, or it is live and nothing newer takes part. -/
def Spares (spec : CleanSpec) (key : Bytes) (records : List Frame) (frame : Frame) : Prop :=
  spec.ceiling ≤ frame.offset ∨ (spec.aborted frame.offset = false ∧ ∀ newer ∈ records,
      participates spec key newer = true → newer.offset ≤ frame.offset)

theorem removes_of_spares {now : ℤ} {orig : Frame} (hdescends : Descends start log)
    (hgc : spec.tombstoneRetention ≤ 0) (hkeyed : isKeyedData key orig = true)
    (hspares : Spares spec key (recordsOf start.segments) orig)
    (hsame : Frame.SameRecord orig frame) :
    removes spec now (recordsOf log.segments) frame = false := by
  have hframe : isKeyedData key frame = true := by
    rw [isKeyedData_of_same hsame]
    exact hkeyed
  have hdata : frame.isControl = false ∧ frame.key = some key := by
    simpa [isKeyedData] using hframe
  unfold removes
  rcases hspares with hceiling | ⟨haborted, hlatest⟩
  · have hnot : ¬frame.offset < spec.ceiling := by
      rw [hsame.offset]
      omega
    simp [hnot]
  · have hverdict : spec.aborted frame.offset = false := by
      rw [hsame.offset]
      exact haborted
    have hexpired : expiredTombstone spec now frame = false := by
      have hnot : ¬0 < spec.tombstoneRetention := by omega
      simp [expiredTombstone, hnot]
    have hisLatest : isLatest spec (recordsOf log.segments) key frame =
        true := by
      unfold isLatest
      rw [all_eq_true]
      intro other hother
      obtain ⟨otherOrig, hotherOrig, hsameOther⟩ :=
        hdescends.mem_records hother
      cases hpart : participates spec key other with
      | false => rfl
      | true =>
        rw [participates_of_same hsameOther] at hpart
        have hle := hlatest otherOrig hotherOrig hpart
        simpa [hsame.offset, hsameOther.offset] using hle
    simp [hdata.1, hdata.2, hverdict, hexpired, hisLatest]

theorem run_persists {orig : Frame} (hrun : Runs.Run CompactionPass log passes log')
    (hdescends : Descends start log) (hgc : ∀ pass ∈ passes, pass.1.tombstoneRetention ≤ 0)
    (hkeyed : isKeyedData key orig = true)
    (hspares : ∀ pass ∈ passes, Spares pass.1 key (recordsOf start.segments) orig)
    (hpresent : ∃ frame ∈ recordsOf log.segments, Frame.SameRecord orig frame) :
    ∃ frame ∈ recordsOf log'.segments, Frame.SameRecord orig frame := by
  induction hrun with
  | nil => exact hpresent
  | @cons log mid log' pass passes hpass _ ih =>
    apply ih (hdescends.pass hpass) (fun p hp => hgc p (mem_cons_of_mem _ hp))
      (fun p hp => hspares p (mem_cons_of_mem _ hp))
    obtain ⟨frame, hframe, hsame⟩ := hpresent
    rcases LogView.mem_records.mp hframe with hsealed | hactive
    · have hkept : removes pass.1 pass.2.now (recordsOf log.segments) frame = false :=
        removes_of_spares hdescends (hgc pass mem_cons_self) hkeyed
          (hspares pass mem_cons_self) hsame
      obtain ⟨frame', hframe', hsame'⟩ := hpass.survives hsealed hkept
      exact ⟨frame', LogView.mem_records.mpr (Or.inl hframe'), hsame.trans hsame'⟩
    · rw [← hpass.active] at hactive
      exact ⟨frame, LogView.mem_records.mpr (Or.inr hactive), hsame⟩

/-! ## The latest settled copy -/

/-- A copy of the key that takes part sits exactly at the ceiling. -/
def heldAtCeiling (spec : CleanSpec) (key : Bytes) (records : List Frame) : Bool :=
  records.any fun frame =>
    participates spec key frame && decide (frame.offset = spec.ceiling)

/-- Where the latest settled copy comes from after a pass: a participant at
the ceiling supersedes every sealed copy below it. -/
def settledSource (spec : CleanSpec) (key : Bytes) (log : LogView) :
    List Frame :=
  if heldAtCeiling spec key (recordsOf log.segments) then log.active.frames
  else recordsOf log.segments

/-- What the passes of a history promise each other: rising ceilings, and a
verdict that is final below the ceiling of an earlier pass. -/
def Settles (pass pass' : CleanSpec × PassEnv) : Prop :=
  pass.1.ceiling ≤ pass'.1.ceiling ∧ ∀ offset < pass.1.ceiling,
      pass'.1.aborted offset = pass.1.aborted offset

def CeilingDecided (records : List Frame) (pass pass' : CleanSpec × PassEnv) : Prop :=
  ∀ frame ∈ records, hasKey frame = true → frame.offset = pass.1.ceiling →
    pass.1.aborted frame.offset = false →
    pass'.1.aborted frame.offset = false

section LastPass

variable {start mid log' : LogView} {key : Bytes} {last : CleanSpec × PassEnv}

theorem settled_of_heldAtCeiling (hpass : FullPass mid last log')
    (hcompact : last.1.stripOnly = false)
    (hheld : ∃ top ∈ recordsOf mid.segments,
      participates last.1 key top = true ∧ top.offset = last.1.ceiling) (hmem :
        frame' ∈ recordsOf log'.sealedSegs) :
    settled last.1 key frame' = false := by
  obtain ⟨frame, _, hkept, hsame⟩ := hpass.origin hmem
  obtain ⟨top, htop, hpart, hoffset⟩ := hheld
  rw [settled_of_same hsame, Bool.eq_false_iff]
  intro hsettled
  obtain ⟨hkeyed, hbelow, hverdict⟩ := settled_iff.mp hsettled
  have hdata : frame.isControl = false ∧ frame.key = some key := by
    simpa [isKeyedData] using hkeyed
  have hnotLatest : isLatest last.1 (recordsOf mid.segments) key frame =
      false := by
    unfold isLatest
    rw [all_eq_false]
    refine ⟨top, htop, ?_⟩
    have hlt : ¬top.offset ≤ frame.offset := by omega
    simp [hpart, hlt]
  unfold removes at hkept
  simp [hdata.1, hdata.2, hbelow, hcompact, hnotLatest] at hkept

theorem sameLatest_active (hactive : log'.active = start.active)
    (hsealed : ∀ frame ∈ recordsOf log'.sealedSegs, settled last.1 key frame = false) :
    SameLatest last.1 key start.active.frames (recordsOf log'.segments) := by
  rw [← hactive]
  constructor
  · intro frame hmem hlatest
    obtain ⟨hsettled, hmax⟩ := isLatestSettled_iff.mp hlatest
    refine ⟨frame, mem_records_of_mem_active hmem,
      isLatestSettled_iff.mpr ⟨hsettled, ?_⟩, Frame.SameRecord.refl frame⟩
    intro other hother hotherSettled
    rcases LogView.mem_records.mp hother with hin | hin
    · rw [hsealed other hin] at hotherSettled
      cases hotherSettled
    · exact hmax other hin hotherSettled
  · intro frame hmem hlatest
    obtain ⟨hsettled, hmax⟩ := isLatestSettled_iff.mp hlatest
    rcases LogView.mem_records.mp hmem with hin | hin
    · rw [hsealed frame hin] at hsettled
      cases hsettled
    · refine ⟨frame, hin, isLatestSettled_iff.mpr ⟨hsettled, ?_⟩, Frame.SameRecord.refl frame⟩
      intro other hother
      exact hmax other (mem_records_of_mem_active hother)

theorem exists_isLatestSettled (hmem : frame ∈ records) (hsettled : settled spec key frame = true) :
    ∃ latest ∈ records, isLatestSettled spec key records latest = true := by
  obtain ⟨latest, hlatest, hp, hmax⟩ := exists_max_offset hmem hsettled
  exact ⟨latest, hlatest, isLatestSettled_iff.mpr ⟨hp, hmax⟩⟩

theorem sameLatest_of_survives (hdescends : Descends start log')
    (hsurvives : ∀ frame ∈ recordsOf start.segments,
      isLatestSettled last.1 key (recordsOf start.segments) frame = true →
      ∃ frame' ∈ recordsOf log'.segments, Frame.SameRecord frame frame') :
    SameLatest last.1 key (recordsOf start.segments) (recordsOf log'.segments) := by
  constructor
  · intro frame hmem hlatest
    obtain ⟨hsettled, hmax⟩ := isLatestSettled_iff.mp hlatest
    obtain ⟨frame', hframe', hsame⟩ := hsurvives frame hmem hlatest
    refine ⟨frame', hframe', isLatestSettled_iff.mpr ⟨?_, ?_⟩, hsame⟩
    · rw [settled_of_same hsame]
      exact hsettled
    · intro other hother hotherSettled
      obtain ⟨orig, horig, hsameOrig⟩ := hdescends.mem_records hother
      rw [settled_of_same hsameOrig] at hotherSettled
      rw [hsameOrig.offset, hsame.offset]
      exact hmax orig horig hotherSettled
  · intro frame' hmem hlatest
    obtain ⟨hsettled, hmax⟩ := isLatestSettled_iff.mp hlatest
    obtain ⟨orig, horig, hsame⟩ := hdescends.mem_records hmem
    have horigSettled : settled last.1 key orig = true := by
      rw [← settled_of_same hsame]
      exact hsettled
    refine ⟨orig, horig, isLatestSettled_iff.mpr ⟨horigSettled, ?_⟩, hsame.symm⟩
    -- the latest copy of the start survives, so it bounds every other one
    obtain ⟨latest, hlatestMem, hisLatest⟩ :=
      exists_isLatestSettled horig horigSettled
    obtain ⟨latest', hlatest', hsameLatest⟩ :=
      hsurvives latest hlatestMem hisLatest
    have hlatestSettled := isLatestSettled_iff.mp hisLatest
    have hbound : latest'.offset ≤ frame'.offset := by
      apply hmax latest' hlatest'
      rw [settled_of_same hsameLatest]
      exact hlatestSettled.1
    intro other hother hotherSettled
    have hle := hlatestSettled.2 other hother hotherSettled
    rw [hsameLatest.offset, hsame.offset] at hbound
    exact hle.trans hbound

theorem spares_latest {pass : CleanSpec × PassEnv} (hsettles : Settles pass last)
    (hdecided : CeilingDecided (recordsOf start.segments) pass last)
    (hheld : heldAtCeiling last.1 key (recordsOf start.segments) = false)
    (hlatest : isLatestSettled last.1 key (recordsOf start.segments) frame = true) :
    Spares pass.1 key (recordsOf start.segments) frame := by
  obtain ⟨hsettled, hmax⟩ := isLatestSettled_iff.mp hlatest
  have hverdict := (settled_iff.mp hsettled).2.2
  by_cases hceiling : pass.1.ceiling ≤ frame.offset
  · exact Or.inl hceiling
  · have hbelow : frame.offset < pass.1.ceiling := by omega
    refine Or.inr ⟨?_, ?_⟩
    · rw [← hsettles.2 frame.offset hbelow]
      exact hverdict
    · intro newer hnewer hpart
      obtain ⟨hkeyed, hle, hnewerVerdict⟩ := participates_iff.mp hpart
      have hfinal : last.1.aborted newer.offset = false := by
        by_cases hlt : newer.offset < pass.1.ceiling
        · rw [hsettles.2 newer.offset hlt]
          exact hnewerVerdict
        · exact hdecided newer hnewer (isKeyedData_iff.mp hkeyed).1 (by omega) hnewerVerdict
      have hleLast : newer.offset ≤ last.1.ceiling := hle.trans hsettles.1
      have hne : newer.offset ≠ last.1.ceiling := by
        intro heq
        have hparticipates : participates last.1 key newer = true :=
          participates_iff.mpr ⟨hkeyed, hleLast, hfinal⟩
        have hany : heldAtCeiling last.1 key (recordsOf start.segments) =
            true := by
          unfold heldAtCeiling
          rw [any_eq_true]
          exact ⟨newer, hnewer, by simp [hparticipates, heq]⟩
        rw [hheld] at hany
        cases hany
      exact hmax newer hnewer (settled_iff.mpr ⟨hkeyed, lt_of_le_of_ne hleLast hne, hfinal⟩)

theorem Settles.refl (pass : CleanSpec × PassEnv) : Settles pass pass :=
  ⟨le_rfl, fun _ _ => rfl⟩

theorem CeilingDecided.refl (records : List Frame)
    (pass : CleanSpec × PassEnv) : CeilingDecided records pass pass :=
  fun _ _ _ _ hverdict => hverdict

theorem sameLatest_settledSource (hrun : Runs.Run CompactionPass start passes mid)
    (hlast : FullPass mid last log') (hsettles : ∀ pass ∈ passes, Settles pass last)
    (hdecided : ∀ pass ∈ passes, CeilingDecided (recordsOf start.segments) pass last)
    (hgc : ∀ pass ∈ passes ++ [last], pass.1.tombstoneRetention ≤ 0)
    (hcompact : last.1.stripOnly = false) :
    SameLatest last.1 key (settledSource last.1 key start) (recordsOf log'.segments) := by
  have hdescends := (Descends.refl start).run hrun
  have hpresent : ∀ frame ∈ recordsOf start.segments,
      ∃ other ∈ recordsOf start.segments, Frame.SameRecord frame other :=
    fun frame hmem => ⟨frame, hmem, Frame.SameRecord.refl frame⟩
  unfold settledSource
  cases hheld : heldAtCeiling last.1 key (recordsOf start.segments) with
  | true =>
    rw [if_pos rfl]
    obtain ⟨top, htop, hcond⟩ := any_eq_true.mp hheld
    rw [Bool.and_eq_true, decide_eq_true_eq] at hcond
    have hspares : ∀ pass ∈ passes, Spares pass.1 key (recordsOf start.segments) top := by
      intro pass hpass
      exact Or.inl (by rw [hcond.2]; exact (hsettles pass hpass).1)
    obtain ⟨top', htop', hsame⟩ := run_persists hrun (Descends.refl start)
      (fun p hp => hgc p (mem_append_left _ hp))
      (participates_iff.mp hcond.1).1 hspares (hpresent top htop)
    have hheld' : ∃ top ∈ recordsOf mid.segments, participates last.1 key top = true ∧
          top.offset = last.1.ceiling := by
      refine ⟨top', htop', ?_, by rw [hsame.offset]; exact hcond.2⟩
      rw [participates_of_same hsame]
      exact hcond.1
    exact sameLatest_active (hdescends.pass hlast.compactionPass).active
      fun frame hmem => settled_of_heldAtCeiling hlast hcompact hheld' hmem
  | false =>
    rw [if_neg Bool.false_ne_true]
    apply sameLatest_of_survives (hdescends.pass hlast.compactionPass)
    intro frame hmem hlatest
    have hspares : ∀ pass ∈ passes ++ [last],
        Spares pass.1 key (recordsOf start.segments) frame := by
      intro pass hpass
      rcases mem_append.mp hpass with hin | hin
      · exact spares_latest (hsettles pass hin) (hdecided pass hin) hheld hlatest
      · rw [mem_singleton.mp hin]
        exact spares_latest (Settles.refl last) (CeilingDecided.refl _ last) hheld hlatest
    have hsettled := (isLatestSettled_iff.mp hlatest).1
    exact run_persists (hrun.snoc hlast.compactionPass)
      (Descends.refl start) hgc (settled_iff.mp hsettled).1 hspares
      (hpresent frame hmem)

end LastPass

theorem fullPass_passLog {pass : CleanSpec × PassEnv}
    (hfaithful : log.Faithful) (hfree : Unrestricted pass.1 pass.2 log)
    (heval : (compactSpec pass.1 pass.2 log).toOption.map PassResult.failed = some false) :
    FullPass log pass (passLog pass log) := by
  obtain ⟨result, hresult, hfailed⟩ := Runs.exists_ok_of_toOption heval
  refine ⟨hfaithful, hfree, result, hresult, hfailed, ?_⟩
  simp [passLog, hresult]

theorem sampleSpec_unrestricted (ceiling : ℤ) (verdict : Option (ℤ → Bool)) :
    Unrestricted { sampleSpec ceiling with abortedFn := verdict } sampleEnv
      log := by
  refine ⟨⟨le_rfl, le_rfl, ?_⟩, le_rfl, ?_⟩
  · intro name d htier
    cases htier
  · intro seg _
    unfold inReadOnlyTier
    cases seg.tier <;> rfl

/-- A committed copy at 0 and a newer one at 1 that is still undecided. -/
def undecidedLog : LogView where
  sealedSegs :=
    [sampleSegment 0 [sampleFrame 0 1 0 (some [5]) Headers.empty,
      sampleFrame 1 1 0 (some [5]) Headers.empty]]
  active := sampleSegment 2 [sampleFrame 2 1 0 (some [6]) Headers.empty]
  keys := fun _ => none

/-- The pass at the ceiling of the undecided record. -/
def earlyPass : CleanSpec × PassEnv :=
  ({ sampleSpec 1 with abortedFn := some fun _ => false }, sampleEnv)

def latePass (aborted : Bool) : CleanSpec × PassEnv :=
  ({ sampleSpec 2 with
      abortedFn := some fun offset => aborted && offset == 1 }, sampleEnv)

theorem undecidedLog_faithful : undecidedLog.Faithful :=
  LogView.faithful_of_no_keys (by decide +kernel) fun _ => rfl

theorem undecidedLog_single (aborted : Bool) : FullPass undecidedLog (latePass aborted)
      (passLog (latePass aborted) undecidedLog) := by
  apply fullPass_passLog undecidedLog_faithful (sampleSpec_unrestricted 2 _)
  cases aborted <;> decide +kernel

theorem undecidedLog_early : FullPass undecidedLog earlyPass (passLog earlyPass undecidedLog) := by
  apply fullPass_passLog undecidedLog_faithful (sampleSpec_unrestricted 1 _)
  decide +kernel

theorem undecidedLog_late (aborted : Bool) :
    FullPass (passLog earlyPass undecidedLog) (latePass aborted)
      (passLog (latePass aborted) (passLog earlyPass undecidedLog)) := by
  have hfaithful : (passLog earlyPass undecidedLog).Faithful :=
    LogView.faithful_of_digestsMatch (by decide +kernel) (by decide +kernel)
  apply fullPass_passLog hfaithful (sampleSpec_unrestricted 2 _)
  cases aborted <;> decide +kernel

theorem undecidedLog_settles (aborted : Bool) :
    ([earlyPass] ++ [latePass aborted]).Pairwise Settles := by
  have hfinal : Settles earlyPass (latePass aborted) := by
    have hceiling : earlyPass.1.ceiling = 1 := rfl
    have hceilingLate : (latePass aborted).1.ceiling = 2 := rfl
    refine ⟨by omega, ?_⟩
    intro offset hbelow
    have hne : ¬offset = 1 := by omega
    simp [latePass, earlyPass, CleanSpec.aborted, hne]
  simpa using hfinal

theorem undecidedLog_compact (aborted : Bool) : ∀ pass ∈ [earlyPass] ++ [latePass aborted],
      pass.1.stripOnly = false ∧ pass.1.tombstoneRetention ≤ 0 := by
  intro pass hpass
  rcases mem_append.mp hpass with hin | hin
  · rw [mem_singleton.mp hin]
    exact ⟨rfl, le_rfl⟩
  · rw [mem_singleton.mp hin]
    exact ⟨rfl, le_rfl⟩

end CommitLog
