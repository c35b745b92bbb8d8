import CommitLog.CeilingHistory

/-!
# Governing records

An expired tombstone shadows the older copies of its key and a control record
decides the data records below it.  A pass may be stopped anywhere, by its
budgets, by a read-only tier or by a failing rewrite, yet it only removes such
a governor after the segments it governs.  The argument needs the protected
horizon to cover a tail of the log: a protected segment below a governor is
left alone without holding the governor back.
-/

namespace CommitLog

open List

def ProtectedTail (env : PassEnv) (segs : List Segment) : Prop :=
  segs.Pairwise fun seg seg' =>
    ageProtected env seg = true → ageProtected env seg' = true

def Gone (log : LogView) (offset : ℤ) : Prop :=
  ∀ frame ∈ recordsOf log.segments, frame.offset ≠ offset

/-! ## What a governor waits for -/

section Governed

variable {spec : CleanSpec} {env : PassEnv} {log : LogView} {merged : MergeResult} {c : Candidate}

theorem governed_candidate (htail : ProtectedTail env log.sealedSegs) {b : Candidate}
    (hb : b ∈ candidatesOf log) (hc : c ∈ candidatesOf log) (hle : b.index ≤ c.index)
    (hlate : lateRewrite spec merged c = true)
    (hinstalled : (runRewrites spec env log merged).installed c.index ≠ none) :
    (runRewrites spec env log merged).installed b.index ≠ none ∨
      ((runRewrites spec env log merged).installed b.index = none ∧
        canSkip spec b.digest merged b.index = true) := by
  by_cases hinstalledB : (runRewrites spec env log merged).installed b.index = none
  · right
    refine ⟨hinstalledB, ?_⟩
    have hlt : b.index < c.index := by
      apply lt_of_le_of_ne hle
      intro heq
      rw [heq] at hinstalledB
      exact hinstalled hinstalledB
    cases hdisp : dispositionOf spec env merged b with
    | keepConverged => exact canSkip_of_keepConverged hdisp
    | wantRewrite =>
      exact absurd hinstalledB (runRewrites_governed hb hc hdisp (Or.inr hlt) hlate hinstalled)
    | keepProtected =>
      have hage := dispositionOf_eq_keepProtected.mp hdisp
      obtain ⟨hbLt, hbGet⟩ := List.getElem?_eq_some_iff.mp (mem_candidatesOf.mp hb).1
      obtain ⟨hcLt, hcGet⟩ := List.getElem?_eq_some_iff.mp (mem_candidatesOf.mp hc).1
      have hpair := pairwise_iff_getElem.mp htail b.index c.index hbLt hcLt hlt
      rw [hbGet, hcGet] at hpair
      have hdispC : dispositionOf spec env merged c ≠ .wantRewrite := by
        rw [dispositionOf_eq_keepProtected.mpr (hpair hage)]
        simp
      exact absurd (not_installed_of_ne_wantRewrite hc hdispC) hinstalled
  · exact Or.inl hinstalledB

variable {frame : Frame}

theorem index_le_of_offset_lt (hordered : LogOrdered log.segments) {b : Candidate}
    (hb : b ∈ candidatesOf log) (hc : c ∈ candidatesOf log) {governor : Frame}
    (hframe : frame ∈ b.seg.frames) (hgovernor : governor ∈ c.seg.frames)
    (hlt : frame.offset < governor.offset) : b.index ≤ c.index := by
  by_contra hnot
  have horder := hordered.offset_lt (candidate_getElem? hc)
    (candidate_getElem? hb) (by omega) hgovernor hframe
  omega

theorem offset_lt_active (hordered : LogOrdered log.segments) (hc : c ∈ candidatesOf log) {late : Frame}
    (hframe : frame ∈ c.seg.frames) (hlate : late ∈ log.active.frames) :
    frame.offset < late.offset := by
  have hlt := (List.getElem?_eq_some_iff.mp (mem_candidatesOf.mp hc).1).1
  have hactive : log.segments[log.sealedSegs.length]? = some log.active := by
    simp [LogView.segments]
  exact hordered.offset_lt (candidate_getElem? hc) hactive hlt hframe hlate

theorem below_governor (hfaithful : log.Faithful) (hmerged : MergedFor spec env.now log merged)
    (htail : ProtectedTail env log.sealedSegs) (hc : c ∈ candidatesOf log)
    (hlate : lateRewrite spec merged c = true)
    (hinstalled : (runRewrites spec env log merged).installed c.index ≠ none)
    {governor : Frame} (hgovernor : governor ∈ c.seg.frames)
    {log' : LogView}
    (hrecords : recordsOf log'.sealedSegs = (candidatesOf log).flatMap
      (framesAfter spec merged (runRewrites spec env log merged)))
    (hactive : log'.active = log.active)
    {frame' : Frame} (hmem : frame' ∈ recordsOf log'.segments)
    (hbelow : frame'.offset < governor.offset) :
    ∃ b ∈ candidatesOf log, ∃ frame ∈ b.seg.frames, Survivor spec frame frame' ∧
      removes spec env.now (recordsOf log.segments) frame = false ∧
      (fate spec env.now (recordsOf log.segments) frame = some frame' ∨ (frame' = frame ∧
          canSkip spec b.digest merged b.index = true)) := by
  rcases LogView.mem_records.mp hmem with hsealed | hin
  · rw [hrecords, mem_flatMap] at hsealed
    obtain ⟨b, hb, hframe'⟩ := hsealed
    by_cases hinstalledB : (runRewrites spec env log merged).installed b.index = none
    · rw [framesAfter_of_not_installed hinstalledB] at hframe'
      have hle := index_le_of_offset_lt hfaithful.ordered hb hc hframe' hgovernor hbelow
      rcases governed_candidate htail hb hc hle hlate hinstalled with
        hrewritten | hskip
      · exact absurd hinstalledB hrewritten
      · have hkept := removes_of_canSkip hmerged (candidate_getElem? hb)
          (candidate_wellFormed hfaithful hb)
          (candidate_describes hfaithful hb) hskip.2 hframe'
        exact ⟨b, hb, frame', hframe', Survivor.refl spec frame', hkept, Or.inr ⟨rfl, hskip.2⟩⟩
    · rw [framesAfter_of_installed hmerged hb hinstalledB, mem_filterMap] at hframe'
      obtain ⟨frame, hframe, hfate⟩ := hframe'
      have hsurvivor := survivor_of_fate hfate
      exact ⟨b, hb, frame, hframe, hsurvivor.2, hsurvivor.1, Or.inl hfate⟩
  · rw [hactive] at hin
    have hlt := offset_lt_active hfaithful.ordered hc hgovernor hin
    omega

theorem gone_candidate (hmerged : MergedFor spec env.now log merged) {log' : LogView}
    (hrecords : recordsOf log'.sealedSegs = (candidatesOf log).flatMap
      (framesAfter spec merged (runRewrites spec env log merged)))
    (hactive : log'.active = log.active) (hmem : frame ∈ recordsOf log.segments)
    (hgone : Gone log' frame.offset) :
    ∃ c ∈ candidatesOf log, frame ∈ c.seg.frames ∧
      (runRewrites spec env log merged).installed c.index ≠ none ∧
      removes spec env.now (recordsOf log.segments) frame = true := by
  rcases LogView.mem_records.mp hmem with hsealed | hin
  · rw [← flatMap_candidatesOf, mem_flatMap] at hsealed
    obtain ⟨c, hc, hframe⟩ := hsealed
    have hlift : ∀ frame' ∈ framesAfter spec merged (runRewrites spec env log merged) c,
        frame' ∈ recordsOf log'.segments := by
      intro frame' hframe'
      apply LogView.mem_records.mpr
      rw [hrecords]
      exact Or.inl (mem_flatMap.mpr ⟨c, hc, hframe'⟩)
    have hinstalled : (runRewrites spec env log merged).installed c.index ≠ none := by
      intro hnone
      rw [framesAfter_of_not_installed hnone] at hlift
      exact hgone frame (hlift frame hframe) rfl
    refine ⟨c, hc, hframe, hinstalled, ?_⟩
    by_contra hkept
    rw [Bool.not_eq_true] at hkept
    rw [framesAfter_of_installed hmerged hc hinstalled] at hlift
    obtain ⟨frame', hfate⟩ : ∃ frame',
        fate spec env.now (recordsOf log.segments) frame = some frame' := by
      unfold fate
      rw [hkept]
      by_cases hstrips : strips spec frame = true
      · exact ⟨reframe frame spec.stripHeaders, by simp [hstrips]⟩
      · exact ⟨frame, by simp [hstrips]⟩
    have hpresent := hlift frame' (mem_filterMap.mpr ⟨frame, hframe, hfate⟩)
    exact hgone frame' hpresent (survivor_of_fate hfate).2.same.offset
  · rw [← hactive] at hin
    exact absurd rfl (hgone frame (mem_records_of_mem_active hin))

end Governed

/-! ## One pass -/

/-- A pass over a log with trustworthy digests whose verdicts agree with the
final one.  It may stop anywhere. -/
structure GovernedPass (verdict : ℤ → Bool) (log : LogView)
    (pass : CleanSpec × PassEnv) (log' : LogView) : Prop where
  faithful : log.Faithful
  stamps : log.StampsHonest
  tail : ProtectedTail pass.2 log.sealedSegs
  verdict_below : ∀ offset < pass.1.ceiling, pass.1.aborted offset = verdict offset
  verdict_at : ∀ frame ∈ recordsOf log.segments, hasKey frame = true →
    frame.offset = pass.1.ceiling →
    pass.1.aborted frame.offset = false → verdict frame.offset = false
  completes : ∃ result, compactSpec pass.1 pass.2 log = .ok result ∧ result.log = log'

section OneGovernedPass

variable {verdict : ℤ → Bool} {log log' : LogView} {pass : CleanSpec × PassEnv} {key : Bytes}

section

variable (hpass : GovernedPass verdict log pass log')
include hpass

theorem GovernedPass.active : log'.active = log.active := by
  obtain ⟨result, hresult, hlog⟩ := hpass.completes
  rw [← hlog]
  exact compactSpec_active hpass.faithful hresult

theorem GovernedPass.origin {frame' : Frame} (hmem : frame' ∈ recordsOf log'.segments) :
    ∃ frame ∈ recordsOf log.segments, Survivor pass.1 frame frame' := by
  rcases LogView.mem_records.mp hmem with hsealed | hin
  · obtain ⟨result, hresult, hlog⟩ := hpass.completes
    rw [← hlog] at hsealed
    obtain ⟨frame, hframe, hsurvivor⟩ :=
      compactSpec_origin hpass.faithful hresult hsealed
    exact ⟨frame, LogView.mem_records.mpr (Or.inl hframe), hsurvivor⟩
  · rw [hpass.active] at hin
    exact ⟨frame', mem_records_of_mem_active hin, Survivor.refl pass.1 frame'⟩

variable {frame : Frame}

theorem GovernedPass.present_or_gone (hmem : frame ∈ recordsOf log.segments) :
    (∃ frame' ∈ recordsOf log'.segments, Frame.SameRecord frame frame') ∨
      Gone log' frame.offset := by
  by_cases hgone : Gone log' frame.offset
  · exact Or.inr hgone
  · left
    unfold Gone at hgone
    push Not at hgone
    obtain ⟨frame', hframe', hoffset⟩ := hgone
    obtain ⟨orig, horig, hsurvivor⟩ := hpass.origin hframe'
    have hsame : orig = frame :=
      hpass.faithful.ordered.eq_of_offset_eq horig hmem (hsurvivor.same.offset.symm.trans hoffset)
    rw [hsame] at hsurvivor
    exact ⟨frame', hframe', hsurvivor.same⟩

theorem GovernedPass.merged : log' = log ∨ ∃ merged, MergedFor pass.1 pass.2.now log merged ∧
        recordsOf log'.sealedSegs = (candidatesOf log).flatMap (framesAfter pass.1 merged
            (runRewrites pass.1 pass.2 log merged)) := by
  obtain ⟨result, hresult, hlog⟩ := hpass.completes
  rw [← hlog]
  rcases compactSpec_records hpass.faithful hresult with
    ⟨_, hsame⟩ | ⟨merged, hmerged, _, hrecords, _⟩
  · exact Or.inl hsame
  · exact Or.inr ⟨merged, hmerged, hrecords⟩

end

def Shadowed (verdict : ℤ → Bool) (key : Bytes) (offset : ℤ) (log : LogView) : Prop :=
  (∃ newer ∈ recordsOf log.segments, isKeyedData key newer = true ∧
    verdict newer.offset = false ∧ offset < newer.offset) ∨
  (∀ older ∈ recordsOf log.segments, isKeyedData key older = true →
    older.offset < offset → verdict older.offset = true)

theorem removes_of_superseded {spec : CleanSpec} (now : ℤ) {records : List Frame} {newer : Frame}
    (hcompact : spec.stripOnly = false) (hframe : participates spec key frame = true)
    (hbelow : frame.offset < spec.ceiling) (hnewer : newer ∈ records)
    (hpart : participates spec key newer = true) (hlt : frame.offset < newer.offset) :
    removes spec now records frame = true := by
  obtain ⟨hkeyed, _, haborted⟩ := participates_iff.mp hframe
  have hdata : frame.isControl = false ∧ frame.key = some key := by
    simpa [isKeyedData] using hkeyed
  have hnotLatest : isLatest spec records key frame = false := by
    unfold isLatest
    rw [all_eq_false]
    have hnot : ¬newer.offset ≤ frame.offset := by omega
    exact ⟨newer, hnewer, by simp [hpart, hnot]⟩
  simp [removes, hbelow, hdata.1, hdata.2, hcompact, hnotLatest]

/-- A live copy that goes although no newer copy takes part is an expired
tombstone the merge collects. -/
theorem collected_of_removes {spec : CleanSpec} {now : ℤ} {records : List Frame}
    (hframe : participates spec key frame = true)
    (hlatest : ∀ other ∈ records, participates spec key other = true → other.offset ≤ frame.offset)
    (hremoves : removes spec now records frame = true) :
    spec.stripOnly = false ∧ collected spec now records frame = true := by
  obtain ⟨hkeyed, _, haborted⟩ := participates_iff.mp hframe
  have hdata : frame.isControl = false ∧ frame.key = some key := by
    simpa [isKeyedData] using hkeyed
  have hisLatest : isLatest spec records key frame = true := by
    unfold isLatest
    rw [all_eq_true]
    intro other hother
    cases hpart : participates spec key other with
    | false => rfl
    | true => simpa using hlatest other hother hpart
  have hnot : superseded spec records key frame = false := by
    rw [isLatest_eq_not_superseded] at hisLatest
    simpa using hisLatest
  unfold removes at hremoves
  simp only [hdata.1, hdata.2, haborted, hisLatest, Bool.and_eq_true, Bool.false_eq_true, if_false,
    Bool.false_or, Bool.not_true, Bool.not_eq_true'] at hremoves
  have hexpired : expiredRec spec now (digestRec frame) = true :=
    hremoves.2.2
  refine ⟨hremoves.2.1, ?_⟩
  simp [collected, hdata.2, hframe, hnot, hexpired]

theorem GovernedPass.shadowed (hpass : GovernedPass verdict log pass log')
    (hmem : frame ∈ recordsOf log.segments) (hkeyed : isKeyedData key frame = true)
    (hlive : verdict frame.offset = false) (hgone : Gone log' frame.offset) :
    Shadowed verdict key frame.offset log' := by
  rcases hpass.merged with hsame | ⟨merged, hmerged, hrecords⟩
  · rw [hsame] at hgone
    exact absurd rfl (hgone frame hmem)
  · have hactive := hpass.active
    have hordered := hpass.faithful.ordered
    obtain ⟨_, _, _, _, hremoves⟩ :=
      gone_candidate hmerged hrecords hactive hmem hgone
    have hbelow : frame.offset < pass.1.ceiling := by
      unfold removes at hremoves
      rw [Bool.and_eq_true, decide_eq_true_eq] at hremoves
      exact hremoves.1
    have hpart : participates pass.1 key frame = true := by
      apply participates_iff.mpr
      rw [hpass.verdict_below frame.offset hbelow]
      exact ⟨hkeyed, hbelow.le, hlive⟩
    obtain ⟨latest, hlatest, hlatestPart, hmax⟩ :=
      exists_max_offset hmem hpart
    have hle := hmax frame hmem hpart
    obtain ⟨hlatestKeyed, hlatestLe, hlatestLive⟩ :=
      participates_iff.mp hlatestPart
    rcases hpass.present_or_gone hlatest with ⟨latest', hlatest', hsame⟩ | hlatestGone
    · left
      have hne : frame.offset ≠ latest.offset := by
        intro heq
        exact hgone latest' hlatest' (hsame.offset.trans heq.symm)
      have hfinal : verdict latest.offset = false := by
        by_cases hlt : latest.offset < pass.1.ceiling
        · rw [← hpass.verdict_below latest.offset hlt]
          exact hlatestLive
        · exact hpass.verdict_at latest hlatest
            (isKeyedData_iff.mp hlatestKeyed).1 (by omega) hlatestLive
      refine ⟨latest', hlatest', ?_, ?_, ?_⟩
      · rw [isKeyedData_of_same hsame]
        exact hlatestKeyed
      · rw [hsame.offset]
        exact hfinal
      · rw [hsame.offset]
        exact lt_of_le_of_ne hle hne
    · right
      obtain ⟨c, hc, hlatestMem, hinstalled, hlatestRemoves⟩ :=
        gone_candidate hmerged hrecords hactive hlatest hlatestGone
      obtain ⟨hcompact, hcollected⟩ :=
        collected_of_removes hlatestPart hmax hlatestRemoves
      have hlate : lateRewrite pass.1 merged c = true := by
        have hgc := (hmerged.gcSegs c.index c.seg
          (candidate_getElem? hc)).mpr ⟨latest, hlatestMem, hcompact,
            (isKeyedData_iff.mp hlatestKeyed).1, hcollected⟩
        simp [lateRewrite, hgc]
      intro older holder holderKeyed holderBelow
      by_contra holderLive
      rw [Bool.not_eq_true] at holderLive
      obtain ⟨b, _, orig, horig, hsurvivor, hkept, _⟩ :=
        below_governor hpass.faithful hmerged hpass.tail hc hlate
          hinstalled hlatestMem hrecords hactive holder (by omega)
      have hoffset := hsurvivor.same.offset
      have horigPart : participates pass.1 key orig = true := by
        rw [← participates_of_same hsurvivor.same]
        apply participates_iff.mpr
        rw [hpass.verdict_below older.offset (by omega)]
        exact ⟨holderKeyed, by omega, holderLive⟩
      have hgoes := removes_of_superseded pass.2.now hcompact
        horigPart (by omega) hlatest hlatestPart (by omega)
      rw [hkept] at hgoes
      cases hgoes

/-- No sound data record below the offset carries one of the headers. -/
def CleanBelow (hdrs : List Bytes) (offset : ℤ) (log : LogView) : Prop :=
  ∀ frame ∈ recordsOf log.segments, frame.isControl = false →
    frame.crcMatches = true → frame.offset < offset →
    frame.message.hasAnyHeader hdrs = false

/-- A control record only goes when nothing below it needs it any more. -/
theorem GovernedPass.cleanBelow (hpass : GovernedPass verdict log pass log') {marker : Frame}
    (hmem : marker ∈ recordsOf log.segments) (hcontrol : marker.isControl = true)
    (hgone : Gone log' marker.offset) : CleanBelow pass.1.stripHeaders marker.offset log' := by
  rcases hpass.merged with hsame | ⟨merged, hmerged, hrecords⟩
  · rw [hsame] at hgone
    exact absurd rfl (hgone marker hmem)
  · have hactive := hpass.active
    obtain ⟨c, hc, hmarker, hinstalled, hremoves⟩ :=
      gone_candidate hmerged hrecords hactive hmem hgone
    simp only [removes, hcontrol, if_true, Bool.and_eq_true, decide_eq_true_eq] at hremoves
    obtain ⟨hceiling, hstripBelow, hheaders⟩ := hremoves
    have hnonneg := hpass.faithful.ordered.offset_nonneg hmem
    have hactiveStrip : pass.1.stripActive = true := by
      have hpos : 0 < pass.1.stripBelow := by omega
      simpa [CleanSpec.stripActive, hpos] using hheaders
    have hlate : lateRewrite pass.1 merged c = true := by
      have hin := (candidate_describes hpass.faithful hc).mem_control.mpr
        ⟨marker, hmarker, hcontrol, rfl⟩
      have hany : (c.digest.control.any fun offset =>
          decide (offset < pass.1.stripBelow)) = true := by
        rw [any_eq_true]
        exact ⟨marker.offset, hin, by simpa using hstripBelow⟩
      simp [lateRewrite, hactiveStrip, hany]
    intro frame' hframe' hdata hcrc hbelow
    obtain ⟨b, hb, frame, hframe, hsurvivor, _, hsource⟩ :=
      below_governor hpass.faithful hmerged hpass.tail hc hlate hinstalled
        hmarker hrecords hactive hframe' hbelow
    have hoffset := hsurvivor.same.offset
    have hdata' : frame.isControl = false := by
      rw [← hsurvivor.same.isControl]
      exact hdata
    have hcrc' : frame.crcMatches = true := by
      rw [← hsurvivor.same.crcMatches]
      exact hcrc
    rcases hsource with hfate | ⟨heq, hskip⟩
    · exact hasAnyHeader_of_fate hfate hdata' hcrc' (by omega) (by omega)
    · have hstrips := strips_of_canSkip hmerged (candidate_getElem? hb)
        (candidate_wellFormed hpass.faithful hb)
        (candidate_describes hpass.faithful hb)
        (candidate_stampHonest hpass.faithful hpass.stamps hb) hskip hframe
      have hceiling' : frame.offset < pass.1.ceiling := by omega
      have hbelow' : frame.offset < pass.1.stripBelow := by omega
      rw [heq]
      simpa [strips, hceiling', hbelow', hdata', hcrc'] using hstrips

theorem CleanBelow.step {hdrs : List Bytes} {offset : ℤ} (hclean : CleanBelow hdrs offset log)
    (hpass : GovernedPass verdict log pass log') : CleanBelow hdrs offset log' := by
  intro frame' hframe' hdata hcrc hbelow
  obtain ⟨frame, hframe, hsurvivor⟩ := hpass.origin hframe'
  have hold : frame.message.hasAnyHeader hdrs = false := by
    apply hclean frame hframe
    · rw [← hsurvivor.same.isControl]
      exact hdata
    · rw [← hsurvivor.same.crcMatches]
      exact hcrc
    · rw [← hsurvivor.same.offset]
      exact hbelow
  rcases hsurvivor.headers with hheaders | hheaders
  · simpa [Message.hasAnyHeader, hheaders] using hold
  · rw [Bool.eq_false_iff]
    intro hhas
    have hback : frame.message.hasAnyHeader hdrs = true := by
      have hstripped : (frame.message.withoutHeaders
          pass.1.stripHeaders).hasAnyHeader hdrs = true := by
        simpa [Message.hasAnyHeader, Message.withoutHeaders, hheaders] using hhas
      exact Message.hasAnyHeader_withoutHeaders_subset hstripped
    rw [hold] at hback
    cases hback

theorem Shadowed.step {offset : ℤ} (hshadowed : Shadowed verdict key offset log)
    (hpass : GovernedPass verdict log pass log') : Shadowed verdict key offset log' := by
  rcases hshadowed with ⟨newer, hnewer, hkeyed, hlive, hlt⟩ | hnone
  · rcases hpass.present_or_gone hnewer with ⟨newer', hnewer', hsame⟩ | hgone
    · refine Or.inl ⟨newer', hnewer', ?_, ?_, ?_⟩
      · rw [isKeyedData_of_same hsame]
        exact hkeyed
      · rw [hsame.offset]
        exact hlive
      · rw [hsame.offset]
        exact hlt
    · rcases hpass.shadowed hnewer hkeyed hlive hgone with
        ⟨next, hnext, hnextKeyed, hnextLive, hnextLt⟩ | hnone
      · exact Or.inl ⟨next, hnext, hnextKeyed, hnextLive, hlt.trans hnextLt⟩
      · right
        intro older holder holderKeyed holderBelow
        exact hnone older holder holderKeyed (holderBelow.trans hlt)
  · right
    intro older' holder' hkeyed hbelow
    obtain ⟨older, holder, hsurvivor⟩ := hpass.origin holder'
    have hsame := hsurvivor.same
    rw [hsame.offset] at hbelow ⊢
    rw [isKeyedData_of_same hsame] at hkeyed
    exact hnone older holder hkeyed hbelow

end OneGovernedPass

/-! ## Sequences of passes -/

/-- Neither a deleted value nor an orphaned record comes out of a sequence of
passes: what holds after the pass that removed the governor still holds at
the end. -/
theorem passes_respect_governors {verdict : ℤ → Bool} {log log' final : LogView}
    {pass : CleanSpec × PassEnv} {later : List (CleanSpec × PassEnv)}
    (hpass : GovernedPass verdict log pass log')
    (hlater : Runs.Run (GovernedPass verdict) log' later final) :
    (∀ (key : Bytes) (tomb : Frame), tomb ∈ recordsOf log.segments →
      isKeyedData key tomb = true → tomb.message.isTombstone = true →
      verdict tomb.offset = false → Gone log' tomb.offset →
      Shadowed verdict key tomb.offset final) ∧
    (∀ marker ∈ recordsOf log.segments, marker.isControl = true → Gone log' marker.offset →
      CleanBelow pass.1.stripHeaders marker.offset final) := by
  constructor
  · intro key tomb hmem hkeyed _ hlive hgone
    exact hlater.invariant (fun _ _ _ hinv hstep => hinv.step hstep)
      (hpass.shadowed hmem hkeyed hlive hgone)
  · intro marker hmem hcontrol hgone
    exact hlater.invariant (fun _ _ _ hinv hstep => hinv.step hstep)
      (hpass.cleanBelow hmem hcontrol hgone)

/-! ## A tombstone that a newer copy supersedes -/

/-- The tombstone at 1 shares a dense segment; the older copy at 0 does
not. -/
def densityLog : LogView where
  sealedSegs :=
    [sampleSegment 0 [sampleFrame 0 1 0 (some [5]) Headers.empty],
     sampleSegment 1 [sampleFrame 1 1 2 (some [5]) Headers.empty,
      sampleFrame 2 1 0 (some [6]) Headers.empty],
     sampleSegment 3 [sampleFrame 3 1 0 (some [5]) Headers.empty,
      sampleFrame 4 1 0 (some [6]) Headers.empty]]
  active := sampleSegment 5 [sampleFrame 5 1 0 (some [8]) Headers.empty]
  keys := fun _ => none

def briefPass : CleanSpec × PassEnv :=
  ({ sampleSpec 5 with rewriteBudget := 1 }, { sampleEnv with pastDeadline := fun _ _ => true })

theorem densityLog_governed : GovernedPass (fun _ => false) densityLog briefPass
      (passLog briefPass densityLog) := by
  have heval : (compactSpec briefPass.1 briefPass.2
      densityLog).toOption.map PassResult.failed = some false := by
    decide +kernel
  obtain ⟨result, hresult, _⟩ := Runs.exists_ok_of_toOption heval
  refine ⟨LogView.faithful_of_no_keys (by decide +kernel) fun _ => rfl,
    LogView.stampsHonest_of_no_keys fun _ => rfl, ?_, fun _ _ => rfl,
    fun _ _ _ _ _ => rfl, result, hresult, by simp [passLog, hresult]⟩
  unfold ProtectedTail
  decide +kernel

/-- The budget goes to the dense segment: its tombstone is removed as
superseded while the older copy waits for another pass. -/
theorem superseded_tombstone_leaves_older : GovernedPass (fun _ => false) densityLog briefPass
        (passLog briefPass densityLog) ∧
      (∃ tomb ∈ recordsOf densityLog.segments,
        isKeyedData [5] tomb = true ∧ tomb.message.isTombstone = true ∧
        tomb.offset = 1) ∧
      Gone (passLog briefPass densityLog) 1 ∧
      ∃ older ∈ recordsOf (passLog briefPass densityLog).segments,
        isKeyedData [5] older = true ∧ older.offset < 1 := by
  refine ⟨densityLog_governed, by decide +kernel, ?_, by decide +kernel⟩
  unfold Gone
  decide +kernel

theorem passes_respect_governors_densityLog :
    Shadowed (fun _ => false) [5] 1 (passLog briefPass densityLog) := by
  have hrespect := (passes_respect_governors densityLog_governed (.nil _)).1 [5]
    (sampleFrame 1 1 2 (some [5]) Headers.empty) (by decide +kernel)
    (by decide +kernel) (by decide +kernel) rfl
  apply hrespect
  unfold Gone
  decide +kernel

/-- A recently written copy at 0 below an old tombstone at 1. -/
def recentCopyLog : LogView where
  sealedSegs :=
    [sampleSegment 0 [sampleFrame 0 90 0 (some [5]) Headers.empty],
     sampleSegment 1 [sampleFrame 1 1 2 (some [5]) Headers.empty]]
  active := sampleSegment 2 [sampleFrame 2 95 0 (some [8]) Headers.empty]
  keys := fun _ => none

-- without the tail condition the protected copy outlives its tombstone
example : (compactSpec { sampleSpec 2 with tombstoneRetention := 10, tombstoneGCBelow := 2 }
      { sampleEnv with minAge := 50 } recentCopyLog).toOption.map
        (fun result => (recordsOf result.log.segments).map Frame.offset) =
      some [0, 2] := by
  decide +kernel

end CommitLog
