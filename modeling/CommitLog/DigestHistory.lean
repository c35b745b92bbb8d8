import CommitLog.CompactReference
import CommitLog.LogOps

/-!
# Digest files over the life of a log

A digest file is bound to its segment by base offset and logical size alone.
Sealed segments only shrink in place, so a file that is not replaced becomes
too long to load; the binding breaks where a base offset is used again for a
segment that grew anew, and where a refreshed digest was scanned from the
object before the swap.
-/

namespace CommitLog

open List LogView

variable {digest : KeyDigest} {log : LogView} {Good : KeyDigest → List Frame → Prop}

/-! ## What a stored digest must be -/

/-- The sections of the digest are those of a fresh build. -/
def SameAsBuilt (digest : KeyDigest) (frames : List Frame) : Prop :=
  digest.sameContent frames = true

theorem sameAsBuilt_digestOfScan (base : ℤ) (logSize : ℕ) (baseTs : ℤ) (frames : List Frame) :
    SameAsBuilt (digestOfScan base logSize baseTs frames) frames := by
  simp [SameAsBuilt, KeyDigest.sameContent, digestOfScan]

theorem SameAsBuilt.withStamp {frames : List Frame}
    (hsame : SameAsBuilt digest frames) (stamp : ℤ) (hdrs : List Bytes) :
    SameAsBuilt (digest.withStamp stamp hdrs) frames := hsame

/-- The log is in order and no digest file that loads describes anything but
its segment. -/
structure KeysTrusted (log : LogView) : Prop where
  ordered : LogOrdered log.segments
  stored : log.Stored SameAsBuilt

theorem KeysTrusted.sameAsBuilt_of_load (htrusted : KeysTrusted log) {seg : Segment}
    (hmem : seg ∈ log.sealedSegs)
    (hload : loadKeyDigest (log.keys seg.baseOffset) seg = some digest) :
    SameAsBuilt digest seg.frames := by
  have hstored := (loadKeyDigest_eq_some hload).1
  rw [hstored] at hload
  exact (htrusted.stored seg hmem digest hstored).of_load hload

theorem KeysTrusted.faithful (htrusted : KeysTrusted log) : log.Faithful :=
  ⟨htrusted.ordered, fun _ hmem _ hload =>
    describes_of_sameContent (htrusted.sameAsBuilt_of_load hmem hload)⟩

variable {keys : ℤ → Option KeyDigest}

theorem removeKeys_eq_some {segs : List Segment} {base : ℤ}
    (hkeys : removeKeys keys segs base = some digest) : keys base = some digest := by
  unfold removeKeys at hkeys
  split at hkeys
  · cases hkeys
  · exact hkeys

theorem LogView.Stored.subset {log' : LogView} (hstored : log.Stored Good)
    (hsegs : ∀ seg ∈ log'.sealedSegs, seg ∈ log.sealedSegs)
    (hkeys : ∀ base digest, log'.keys base = some digest → log.keys base = some digest) :
    log'.Stored Good :=
  fun seg hseg digest hdigest =>
    hstored seg (hsegs seg hseg) digest (hkeys _ digest hdigest)

theorem LogView.Stored.mapSealed {f : Segment → Segment} (hstored : log.Stored Good)
    (hbase : ∀ seg, (f seg).baseOffset = seg.baseOffset)
    (hframes : ∀ seg, (f seg).frames = seg.frames) :
    Stored Good { log with sealedSegs := log.sealedSegs.map f } := by
  intro seg' hseg' digest hdigest
  obtain ⟨seg, hseg, heq⟩ := mem_map.mp hseg'
  rw [← heq, hbase] at hdigest
  have hold := hstored seg hseg digest hdigest
  unfold StoredAs Segment.position at hold ⊢
  rw [← heq, hframes]
  exact hold

/-! ## Joins -/

theorem readExtent_short (frames : List Frame) {n : ℕ} (hn : 0 < n) :
    readExtent frames (framingLen frames + n) = none := by
  induction frames with
  | nil =>
    obtain ⟨m, hm⟩ : ∃ m, n = m + 1 := ⟨n - 1, by omega⟩
    rw [framingLen_nil, Nat.zero_add, hm]
    rfl
  | cons frame frames ih =>
    have hpos := frame.length_pos
    obtain ⟨m, hm⟩ : ∃ m, frame.length + framingLen frames + n = m + 1 :=
      ⟨frame.length + framingLen frames + n - 1, by omega⟩
    have hrest : m + 1 - frame.length = framingLen frames + n := by omega
    rw [framingLen_cons, hm, readExtent, if_pos (by omega), hrest, ih]
    rfl

theorem joinScan_joinedSegment (first : Segment) (others : List Segment) :
    joinScan first others (joinedSegment first others) = none ∨
      joinScan first others (joinedSegment first others) =
        some (joinedSegment first others).frames := by
  have hframes : (joinedSegment first others).frames =
      first.frames ++ recordsOf others :=
    frames_joinedSegment first others
  unfold joinScan
  split
  next cached new more _ hfirst hjoined =>
    split
    · exact Or.inr rfl
    · have hnew : (joinedSegment first others).frames =
          new.frames ++ more.flatMap Block.frames := by
        simp [Segment.frames, Layout.frames, hjoined]
      have hcached : first.frames = cached.frames := by
        simp [Segment.frames, Layout.frames, hfirst]
      have hsplit := hnew.symm.trans hframes
      rw [hcached] at hsplit
      rw [hnew]
      -- the new first block ends inside the cached one or reaches beyond it
      rcases append_eq_append_iff.mp hsplit with
        ⟨rest, hrest, _⟩ | ⟨rest, hrest, _⟩
      · right
        rw [hrest, readExtent_append]
        simp [resumeAt_zero]
      · cases rest with
        | nil =>
          right
          rw [append_nil] at hrest
          have hread := readExtent_append cached.frames []
          rw [append_nil] at hread
          rw [hrest, hread]
          simp [resumeAt_zero]
        | cons frame frames =>
          left
          have hpos := frame.length_pos
          rw [hrest, framingLen_append, readExtent_short _ (by
            rw [framingLen_cons]
            omega)]
          rfl
  · exact Or.inr rfl

theorem joinedKeys_other {first : Segment} {others : List Segment} {refreshFails : Bool} {base : ℤ}
    (hne : base ≠ first.baseOffset)
    (hkeys : joinedKeys keys first others refreshFails base = some digest) :
    keys base = some digest := by
  have hkept : (if first.isOffloaded then keys
      else removeKeys keys others) base = some digest →
      keys base = some digest := by
    intro h
    split at h
    · exact h
    · exact removeKeys_eq_some h
  unfold joinedKeys at hkeys
  split at hkeys
  · exact hkept hkeys
  · rw [Function.update_of_ne hne] at hkeys
    exact hkept hkeys

theorem joinedKeys_self {first : Segment} {others : List Segment} {refreshFails : Bool}
    (hkeys : joinedKeys keys first others refreshFails first.baseOffset = some digest) :
    digest.logSize = (joinedSegment first others).position ∧ SameAsBuilt digest
        (joinedSegment first others).frames := by
  unfold joinedKeys at hkeys
  split at hkeys
  next hnone =>
    rw [Option.isNone_iff_eq_none] at hnone
    split at hkeys
    · rw [hnone] at hkeys
      cases hkeys
    · rw [removeKeys_eq_some hkeys] at hnone
      cases hnone
  · rw [Function.update_self] at hkeys
    split at hkeys
    · cases hkeys
    · rcases joinScan_joinedSegment first others with hscan | hscan
      · rw [hscan] at hkeys
        cases hkeys
      · rw [hscan] at hkeys
        cases hkeys
        exact ⟨rfl, sameAsBuilt_digestOfScan _ _ _ _⟩

/-! ## The steps of a history -/

section Steps

variable {log : LogView}

theorem LogView.Stored.roll (hstored : log.Stored Good)
    (hfile : ∀ digest, log.keys log.active.baseOffset = some digest →
      log.active.position < digest.logSize) (encodesBlocks : Bool) :
    (log.roll encodesBlocks).Stored Good := by
  intro seg hseg digest hdigest
  rcases mem_append.mp hseg with hin | hin
  · exact hstored seg hin digest hdigest
  · rw [mem_singleton.mp hin] at hdigest ⊢
    exact Or.inr (hfile digest hdigest)

theorem LogView.Stored.join (hordered : LogOrdered log.segments) (hstored : log.Stored SameAsBuilt)
    (i count : ℕ) (refreshFails : Bool) : (log.join i count refreshFails).Stored SameAsBuilt := by
  unfold LogView.join
  split
  next first second rest hinputs =>
    have hsplit : log.sealedSegs = log.sealedSegs.take i ++ (first :: second :: rest) ++
          (log.sealedSegs.drop i).drop count := by
      rw [← hinputs, append_assoc, take_append_drop, take_append_drop]
    have hsealed : LogOrdered log.sealedSegs :=
      hordered.sublist (sublist_append_left _ _)
    have hpairs := hsealed.increasing
    rw [hsplit, pairwise_append, pairwise_append] at hpairs
    have hother : ∀ seg ∈ log.sealedSegs, seg.baseOffset ≠ first.baseOffset → ∀ digest,
        joinedKeys log.keys first (second :: rest) refreshFails seg.baseOffset = some digest →
        StoredAs SameAsBuilt digest seg :=
      fun seg hseg hne digest hdigest =>
        hstored seg hseg digest (joinedKeys_other hne hdigest)
    intro seg hseg digest hdigest
    simp only at hseg hdigest
    rcases mem_append.mp hseg with hin | hin
    · have hlt := (hpairs.1.2.2 seg hin first mem_cons_self).1
      exact hother seg (mem_of_mem_take hin) hlt.ne digest hdigest
    · rcases mem_cons.mp hin with heq | hin
      · rw [heq] at hdigest ⊢
        exact Or.inl (joinedKeys_self hdigest)
      · have hlt := (hpairs.2.2 first (mem_append_right _ mem_cons_self) seg hin).1
        exact hother seg (mem_of_mem_drop (mem_of_mem_drop hin)) hlt.ne' digest hdigest
  · exact hstored

theorem LogView.Stored.truncate (hstored : log.Stored Good) (offset : ℤ) :
    (log.truncate offset).Stored Good := by
  unfold LogView.truncate
  simp only
  have hsplit := takeWhile_append_dropWhile
    (p := fun seg : Segment => decide (seg.nextOffset ≤ offset))
    (l := log.segments)
  split
  · exact hstored
  next seg later hrest =>
    -- the segments before the cut were sealed
    have hbefore : ∀ other ∈ log.segments.takeWhile (fun s => decide (s.nextOffset ≤ offset)),
        other ∈ log.sealedSegs := by
      intro other hother
      rw [hrest] at hsplit
      have hdrop := congrArg dropLast hsplit
      rw [dropLast_append_of_ne_nil (by simp), segments, dropLast_concat] at hdrop
      rw [← hdrop]
      exact mem_append_left _ hother
    split
    · exact hstored.subset hbefore fun _ _ h => removeKeys_eq_some h
    · split
      · exact hstored
      · exact hstored.subset (fun other hother => hbefore other (mem_of_mem_dropLast hother))
          fun _ _ h => removeKeys_eq_some h

theorem LogView.Stored.truncateBefore (hstored : log.Stored Good) {minOffset : ℤ}
    (hfile : ∀ seg ∈ log.sealedSegs, seg.baseOffset < minOffset →
      ∀ frame ∈ seg.frames, minOffset ≤ frame.offset →
      log.keys frame.offset = none) :
    (log.truncateBefore minOffset).Stored Good := by
  unfold LogView.truncateBefore
  split
  · exact hstored
  · have hdrop := dropWhile_sublist
      (fun seg : Segment => !seg.reaches minOffset) (l := log.sealedSegs)
    simp only
    split
    · exact hstored.subset (by simp) fun _ _ h => removeKeys_eq_some h
    next boundary later hrest =>
      rw [hrest] at hdrop
      have hlater : ∀ seg ∈ later, seg ∈ log.sealedSegs :=
        fun seg hseg => hdrop.subset (mem_cons_of_mem _ hseg)
      split
      next hstraddles =>
        split
        · exact hstored.subset hlater fun _ _ h => removeKeys_eq_some h
        next first rest hfilter =>
          have hfirst : first ∈ boundary.frames ∧ minOffset ≤ first.offset := by
            have hmem : first ∈ boundary.frames.filter fun f => decide (minOffset ≤ f.offset) := by
              rw [hfilter]
              exact mem_cons_self
            simpa using mem_filter.mp hmem
          intro seg hseg digest hdigest
          have hkeys := removeKeys_eq_some hdigest
          rcases mem_cons.mp hseg with heq | hin
          · rw [heq, Segment.baseOffset_writeEach,
              hfile boundary (hdrop.subset mem_cons_self) hstraddles
                first hfirst.1 hfirst.2] at hkeys
            cases hkeys
          · exact hstored seg (hlater seg hin) digest hkeys
      · exact hstored.subset (fun seg hseg => hdrop.subset hseg) fun _ _ h => removeKeys_eq_some h

theorem LogView.Stored.compactSpec (htrusted : KeysTrusted log) {spec : CleanSpec} {env : PassEnv}
    (hspares : SparesOneBlockObjects spec env.now log) {result : PassResult}
    (hpass : compactSpec spec env log = .ok result) : result.log.Stored SameAsBuilt := by
  unfold CommitLog.compactSpec at hpass
  split at hpass
  · cases hpass
    exact htrusted.stored
  · obtain ⟨merged, hmerged, hlog, _⟩ := compact_eq_ok hpass
    have hmergedFor := mergeLog_spec htrusted.faithful hmerged
    rw [hlog]
    apply stored_keysAfter htrusted.ordered htrusted.stored
    · intro c _
      exact sameAsBuilt_digestOfScan _ _ _ _
    · intro c hc cleaned new frames hclean hsegment hscan
      rw [refreshScan_frames hmergedFor hspares hc hclean hsegment] at hscan
      cases hscan
      exact (sameAsBuilt_digestOfScan _ _ _ _).withStamp _ _

/-- What a step has to find for the digest files to stay trustworthy. -/
def DigestSafe (log : LogView) : LogOp → Prop
  | .roll _ => ∀ digest, log.keys log.active.baseOffset = some digest →
      log.active.position < digest.logSize
  | .pass spec env => SparesOneBlockObjects spec env.now log
  | .truncateBefore minOffset =>
    ∀ seg ∈ log.sealedSegs, seg.baseOffset < minOffset →
      ∀ frame ∈ seg.frames, minOffset ≤ frame.offset → log.keys frame.offset = none
  | _ => True

def DigestStep (log : LogView) (op : LogOp) (log' : LogView) : Prop :=
  LogStep log op log' ∧ DigestSafe log op

theorem KeysTrusted.step {log' : LogView} {op : LogOp} (htrusted : KeysTrusted log)
    (hstep : DigestStep log op log') : KeysTrusted log' := by
  obtain ⟨hlog, hsafe⟩ := hstep
  refine ⟨hlog.ordered htrusted.ordered, ?_⟩
  cases op with
  | append block =>
    rw [hlog.2]
    exact htrusted.stored
  | roll encodesBlocks =>
    rw [hlog.2]
    exact htrusted.stored.roll hsafe encodesBlocks
  | pass spec env =>
    obtain ⟨result, hpass, hresult⟩ := hlog
    rw [← hresult]
    exact Stored.compactSpec htrusted hsafe hpass
  | consolidate chosen =>
    rw [show log' = _ from hlog]
    apply htrusted.stored.mapSealed
    · intro seg
      split <;> simp
    · intro seg
      split <;> simp
  | offload tierOf =>
    rw [show log' = _ from hlog]
    apply htrusted.stored.mapSealed
    · intro seg
      split <;> rfl
    · intro seg
      split <;> rfl
  | reopen encodesBlocks pending =>
    rw [show log' = _ from hlog]
    exact htrusted.stored.mapSealed (fun _ => rfl) fun _ => rfl
  | join i count refreshFails =>
    rw [show log' = _ from hlog]
    exact Stored.join htrusted.ordered htrusted.stored i count refreshFails
  | truncate offset =>
    rw [show log' = _ from hlog]
    exact htrusted.stored.truncate offset
  | truncateBefore minOffset =>
    rw [show log' = _ from hlog]
    exact htrusted.stored.truncateBefore hsafe

end Steps

/-- Over every history whose steps are safe, a digest that loads has the
sections a fresh build of its segment would have. -/
theorem loaded_digests_faithful {start log : LogView} {ops : List LogOp}
    (hordered : LogOrdered start.segments) (hkeys : ∀ base, start.keys base = none)
    (hrun : Runs.Run DigestStep start ops log) {seg : Segment} (hmem : seg ∈ log.sealedSegs)
    {digest : KeyDigest} (hload : loadKeyDigest (log.keys seg.baseOffset) seg = some digest) :
    digest.keyed = (buildKeyDigest seg).keyed ∧ digest.unkeyed = (buildKeyDigest seg).unkeyed ∧
      digest.control = (buildKeyDigest seg).control := by
  have htrusted : KeysTrusted log :=
    hrun.invariant (fun _ _ _ h hstep => h.step hstep) ⟨hordered, Stored.of_no_keys hkeys⟩
  have hsame := htrusted.sameAsBuilt_of_load hmem hload
  simp only [SameAsBuilt, KeyDigest.sameContent, Bool.and_eq_true, decide_eq_true_eq] at hsame
  exact ⟨hsame.1.1, hsame.1.2, hsame.2⟩

/-! ## Files that outlive their segment -/

theorem logStep_passLog {spec : CleanSpec} {env : PassEnv}
    (heval : (compactSpec spec env log).toOption.map PassResult.failed = some false) :
    LogStep log (.pass spec env) (passLog (spec, env) log) := by
  obtain ⟨result, hresult, _⟩ := Runs.exists_ok_of_toOption heval
  exact ⟨result, hresult, by simp [passLog, hresult]⟩

def keyedFrame (offset : ℤ) (key : Byte) : Frame :=
  sampleFrame offset 1 0 (some [key]) Headers.empty

/-- A segment to be cut in the middle and filled up again. -/
def refilledLog : LogView where
  sealedSegs := [sampleSegment 0 [keyedFrame 0 5, keyedFrame 1 6]]
  active := sampleSegment 2 [keyedFrame 2 8]
  keys := fun _ => none

/-- An offloaded segment in one block, with a superseded record. -/
def swappedLog : LogView where
  sealedSegs := [⟨0, .blocks [Block.ofFrames [keyedFrame 0 5, keyedFrame 1 6]], true, false,
      some "tier"⟩]
  active := sampleSegment 2 [keyedFrame 2 5]
  keys := fun _ => none

/-- Three offloaded segments to be joined. -/
def retiredLog : LogView where
  sealedSegs :=
    [{ sampleSegment 0 [keyedFrame 0 1] with tier := some "tier" },
     { sampleSegment 2 [keyedFrame 2 2, keyedFrame 3 5] with
        tier := some "tier" },
     { sampleSegment 5 [keyedFrame 5 5] with tier := some "tier" }]
  active := sampleSegment 6 [keyedFrame 6 8]
  keys := fun _ => none

/-- A pass below every record: it only writes the digests down. -/
def digestPass (log : LogView) : LogView :=
  passLog (sampleSpec 0, sampleEnv) log

def refilled : LogView :=
  (((digestPass refilledLog).truncate 1).append (Block.ofFrames [keyedFrame 1 7])).roll false

def retired : LogView :=
  (passLog (sampleSpec 6, sampleEnv) ((digestPass retiredLog).join 0 3 false)).truncateBefore 2

/-- A digest loads that does not describe its segment: after a truncation and
appends up to the same size, after the rewrite of an offloaded segment of one
block, and after a trim to the base of a segment that an offloaded join had
retired. -/
theorem digest_files_go_stale : (∃ ops, Runs.Run LogStep refilledLog ops refilled) ∧
      refilled.digestsMatch = false ∧
    (∃ ops, Runs.Run LogStep swappedLog ops (passLog (sampleSpec 2, sampleEnv) swappedLog)) ∧
      (passLog (sampleSpec 2, sampleEnv) swappedLog).digestsMatch = false ∧
    (∃ ops, Runs.Run LogStep retiredLog ops retired) ∧ retired.digestsMatch = false := by
  refine ⟨?_, by decide +kernel, ?_, by decide +kernel, ?_, by decide +kernel⟩
  · refine ⟨[.pass (sampleSpec 0) sampleEnv, .truncate 1,
      .append (Block.ofFrames [keyedFrame 1 7]), .roll false], ?_⟩
    apply Runs.Run.cons (logStep_passLog (by decide +kernel))
    apply Runs.Run.cons (show LogStep _ (.truncate 1) _ from rfl)
    apply Runs.Run.cons (show LogStep _ (.append _) _ from ⟨by decide +kernel, rfl⟩)
    exact Runs.Run.single ⟨by decide +kernel, rfl⟩
  · exact ⟨[.pass (sampleSpec 2) sampleEnv], Runs.Run.single (logStep_passLog (by decide +kernel))⟩
  · refine ⟨[.pass (sampleSpec 0) sampleEnv, .join 0 3 false,
      .pass (sampleSpec 6) sampleEnv, .truncateBefore 2], ?_⟩
    apply Runs.Run.cons (logStep_passLog (by decide +kernel))
    apply Runs.Run.cons (show LogStep _ (.join 0 3 false) _ from rfl)
    apply Runs.Run.cons (logStep_passLog (by decide +kernel))
    exact Runs.Run.single rfl

theorem loaded_digests_faithful_refilledLog :
    ∃ digest, loadKeyDigest ((digestPass refilledLog).roll false |>.keys 0)
        (sampleSegment 0 [keyedFrame 0 5, keyedFrame 1 6]) = some digest ∧
      digest.keyed = [([5], [⟨0, false, false, 1⟩]), ([6], [⟨1, false, false, 1⟩])] := by
  have hload : (loadKeyDigest ((digestPass refilledLog).roll false |>.keys 0)
      (sampleSegment 0 [keyedFrame 0 5, keyedFrame 1 6])).isSome = true := by
    decide +kernel
  obtain ⟨digest, hdigest⟩ := Option.isSome_iff_exists.mp hload
  have hpass : DigestStep refilledLog (.pass (sampleSpec 0) sampleEnv)
      (digestPass refilledLog) := by
    refine ⟨logStep_passLog (by decide +kernel), ?_⟩
    unfold DigestSafe SparesOneBlockObjects
    decide +kernel
  have hroll : DigestStep (digestPass refilledLog) (.roll false)
      ((digestPass refilledLog).roll false) := by
    refine ⟨⟨by decide +kernel, rfl⟩, ?_⟩
    intro digest hdigest
    have hnone : (digestPass refilledLog).keys
        (digestPass refilledLog).active.baseOffset = none := by
      decide +kernel
    rw [hnone] at hdigest
    cases hdigest
  have hmem : sampleSegment 0 [keyedFrame 0 5, keyedFrame 1 6] ∈
      ((digestPass refilledLog).roll false).sealedSegs := by
    decide +kernel
  have hfaithful := loaded_digests_faithful (by decide +kernel)
    (fun _ => rfl) (.cons hpass (.single hroll)) hmem hdigest
  refine ⟨digest, hdigest, ?_⟩
  rw [hfaithful.1]
  decide +kernel

end CommitLog
