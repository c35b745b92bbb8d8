import CommitLog.PassRecords

/-!
# Digest files across a pass

A pass writes the digests it had to build and refreshes those of the segments
it rewrote.  Each segment only touches the file of its own base offset.  A
file that was not refreshed after its segment changed is longer than the
segment, so it no longer loads; that a sealed segment only ever shrinks is
what the binding by logical size rests on.
-/

namespace CommitLog

open List

variable {c : Candidate} {Good : KeyDigest → List Frame → Prop} {seg' : Segment}
  {result : CleanResult} {digest : KeyDigest}

/-! ## Order -/

theorem LogOrdered.flatMap {α : Type*} {items : List α}
    {seg : α → Segment} {after : α → List Segment} {rest : List Segment}
    (hordered : LogOrdered (items.map seg ++ rest))
    (hafter : ∀ a ∈ items, after a = [] ∨ ∃ seg', after a = [seg'] ∧
      seg'.WellFormed ∧ seg'.baseOffset = (seg a).baseOffset ∧
      seg'.nextOffset ≤ (seg a).nextOffset) :
    LogOrdered (items.flatMap after ++ rest) := by
  induction items with
  | nil => exact hordered
  | cons a items ih =>
    rw [map_cons, cons_append] at hordered
    have htail : LogOrdered (items.flatMap after ++ rest) :=
      ih hordered.tail fun b hb => hafter b (mem_cons_of_mem _ hb)
    rcases hafter a mem_cons_self with hnil | ⟨seg', hseg', hwf, hbase, hnext⟩
    · rw [flatMap_cons, hnil]
      exact htail
    · rw [flatMap_cons, hseg', cons_append, cons_append, nil_append]
      have hhead := (pairwise_cons.mp hordered.increasing).1
      have hbound : ∀ other ∈ items.flatMap after ++ rest, (seg a).baseOffset < other.baseOffset ∧
            (seg a).nextOffset ≤ other.baseOffset := by
        intro other hother
        have hsource : ∃ source ∈ items.map seg ++ rest, other.baseOffset = source.baseOffset := by
          rcases mem_append.mp hother with hin | hin
          · obtain ⟨b, hb, hmem⟩ := mem_flatMap.mp hin
            rcases hafter b (mem_cons_of_mem _ hb) with hnil | ⟨seg'', hseg'', _, hbase'', _⟩
            · rw [hnil] at hmem
              simp at hmem
            · rw [hseg'', mem_singleton] at hmem
              refine ⟨seg b, mem_append_left _ (mem_map_of_mem (f := seg) hb), ?_⟩
              rw [hmem]
              exact hbase''
          · exact ⟨other, mem_append_right _ hin, rfl⟩
        obtain ⟨source, hsourceMem, hsourceBase⟩ := hsource
        rw [hsourceBase]
        refine ⟨(hhead source hsourceMem).1, ?_⟩
        obtain ⟨j, hj⟩ := mem_iff_getElem?.mp hsourceMem
        have hj' : (seg a :: (items.map seg ++ rest))[j + 1]? =
            some source := by
          simpa using hj
        exact hordered.nextOffset_le (i := 0) rfl hj' (by omega)
      constructor
      · intro other hother
        rcases mem_cons.mp hother with heq | hin
        · rw [heq]
          exact hwf
        · exact htail.wellFormed other hin
      · rw [pairwise_cons]
        refine ⟨?_, htail.increasing⟩
        intro other hother
        have hother' := hbound other hother
        refine ⟨by rw [hbase]; exact hother'.1, ?_⟩
        intro frame hframe
        have hlt := hwf.offset_lt_nextOffset hframe
        omega

theorem map_seg_candidatesOf (log : LogView) :
    (candidatesOf log).map Candidate.seg = log.sealedSegs := by
  unfold candidatesOf
  rw [map_map]
  have hcomp : (Candidate.seg ∘ fun entry : Segment × ℕ =>
      (⟨entry.2, entry.1, loadOrBuild log.keys entry.1⟩ : Candidate)) =
        Prod.fst := rfl
  rw [hcomp, zipIdx_map_fst]

section Pass

variable {spec : CleanSpec} {env : PassEnv} {log : LogView} {merged : MergeResult}

theorem mem_segmentAfter (hc : c ∈ candidatesOf log)
    (hmem : seg' ∈ segmentAfter (runRewrites spec env log merged) c) :
    ((runRewrites spec env log merged).installed c.index = none ∧ seg' = c.seg) ∨
      ∃ result, (runRewrites spec env log merged).installed c.index = some result ∧
        cleanSegment spec c.seg (merged.drops c.index) = .ok result ∧
        result.outcome.segment c.seg = some seg' := by
  unfold segmentAfter at hmem
  cases hinstalled : (runRewrites spec env log merged).installed c.index with
  | none =>
    rw [hinstalled] at hmem
    exact Or.inl ⟨rfl, mem_singleton.mp hmem⟩
  | some result =>
    rw [hinstalled] at hmem
    exact Or.inr ⟨result, rfl, (installed_candidate hc hinstalled).2, Option.mem_toList.mp hmem⟩

theorem baseOffset_of_mem_segmentAfter (hc : c ∈ candidatesOf log)
    (hmem : seg' ∈ segmentAfter (runRewrites spec env log merged) c) :
    seg'.baseOffset = c.seg.baseOffset := by
  rcases mem_segmentAfter hc hmem with ⟨_, heq⟩ | ⟨result, _, hclean, hsegment⟩
  · rw [heq]
  · exact ((cleanSegment_spec hclean).identity seg' hsegment).1

theorem ordered_flatMap_segmentAfter (hordered : LogOrdered log.segments) :
    LogOrdered ((candidatesOf log).flatMap
      (segmentAfter (runRewrites spec env log merged)) ++ [log.active]) := by
  have hmap : LogOrdered ((candidatesOf log).map Candidate.seg ++ [log.active]) := by
    rw [map_seg_candidatesOf]
    exact hordered
  apply hmap.flatMap
  intro c hc
  have hwf : c.seg.WellFormed := by
    apply hordered.wellFormed
    exact LogView.mem_segments_of_sealed (mem_of_getElem? (mem_candidatesOf.mp hc).1)
  unfold segmentAfter
  cases hinstalled : (runRewrites spec env log merged).installed c.index with
  | none => exact Or.inr ⟨c.seg, rfl, hwf, rfl, le_rfl⟩
  | some result =>
    have hclean := (installed_candidate hc hinstalled).2
    cases hsegment : result.outcome.segment c.seg with
    | none => exact Or.inl (by simp [hsegment])
    | some seg' =>
      have hshrink := cleanSegment_wellFormed hclean hsegment hwf
      exact Or.inr ⟨seg', by simp [hsegment], hshrink.1,
        ((cleanSegment_spec hclean).identity seg' hsegment).1,
        hshrink.2⟩

theorem compactSpec_ordered (hordered : LogOrdered log.segments) {result : PassResult}
    (hpass : compactSpec spec env log = .ok result) : LogOrdered result.log.segments := by
  unfold compactSpec at hpass
  split at hpass
  · cases hpass
    exact hordered
  · obtain ⟨merged, _, hlog, _⟩ := compact_eq_ok hpass
    rw [hlog]
    exact ordered_flatMap_segmentAfter hordered

/-! ## The file of one segment -/

def persistAt (env : PassEnv) (c : Candidate) (stored : Option KeyDigest) :
    Option KeyDigest :=
  match loadKeyDigest stored c.seg with
  | some _ => stored
  | none =>
    if env.persistFails c.index then stored
    else some (buildKeyDigest c.seg)

def refreshAt (env : PassEnv) (loop : LoopResult) (c : Candidate)
    (stored : Option KeyDigest) : Option KeyDigest :=
  match loop.done c.index with
  | some result =>
    match result.outcome.segment c.seg with
    | none => none
    | some new =>
      if env.refreshFails c.index then stored
      else
        match refreshScan c.seg new with
        | none => stored
        | some frames =>
          some ((digestOfScan new.baseOffset new.position
            new.firstWriteTime frames).withStamp result.stamp result.stampHdrs)
  | none =>
    match loop.installed c.index with
    | some ⟨.emptied, _, _, _⟩ => none
    | _ => stored

section

variable (keys : ℤ → Option KeyDigest)
include keys

theorem persistDigest_other {base : ℤ} (hne : base ≠ c.seg.baseOffset) :
    persistDigest env keys c base = keys base := by
  unfold persistDigest
  cases loadKeyDigest (keys c.seg.baseOffset) c.seg with
  | some digest => rfl
  | none =>
    by_cases hfails : env.persistFails c.index = true
    · simp [hfails]
    · simp [hfails, Function.update_of_ne hne]

theorem persistDigest_self (c : Candidate) :
    persistDigest env keys c c.seg.baseOffset = persistAt env c (keys c.seg.baseOffset) := by
  unfold persistDigest persistAt
  cases loadKeyDigest (keys c.seg.baseOffset) c.seg with
  | some digest => rfl
  | none =>
    by_cases hfails : env.persistFails c.index = true
    · simp [hfails]
    · simp [hfails]

theorem refreshDigest_other {new : Segment} {base : ℤ} (hne : base ≠ new.baseOffset) :
    refreshDigest env keys c new result base = keys base := by
  unfold refreshDigest
  by_cases hfails : env.refreshFails c.index = true
  · simp [hfails]
  · cases refreshScan c.seg new with
    | none => simp [hfails]
    | some frames => simp [hfails, Function.update_of_ne hne]

theorem refreshDigest_self (c : Candidate) (new : Segment) (result : CleanResult) :
    refreshDigest env keys c new result new.baseOffset =
      if env.refreshFails c.index then keys new.baseOffset
      else
        match refreshScan c.seg new with
        | none => keys new.baseOffset
        | some frames =>
          some ((digestOfScan new.baseOffset new.position
            new.firstWriteTime frames).withStamp result.stamp result.stampHdrs) := by
  unfold refreshDigest
  by_cases hfails : env.refreshFails c.index = true
  · simp [hfails]
  · cases refreshScan c.seg new with
    | none => simp [hfails]
    | some frames => simp [hfails]

end

theorem digestAfter_at (hc : c ∈ candidatesOf log) (keys : ℤ → Option KeyDigest) :
    (∀ base, base ≠ c.seg.baseOffset →
      digestAfter env (runRewrites spec env log merged) keys c base = keys base) ∧
    digestAfter env (runRewrites spec env log merged) keys c c.seg.baseOffset =
      refreshAt env (runRewrites spec env log merged) c (keys c.seg.baseOffset) := by
  unfold digestAfter refreshAt
  cases hdone : (runRewrites spec env log merged).done c.index with
  | some result =>
    have hclean := (installed_candidate hc (LoopResult.installed_of_done hdone)).2
    have hidentity := (cleanSegment_spec hclean).identity
    cases houtcome : result.outcome with
    | emptied =>
      constructor
      · intro base hne
        simp [houtcome, Function.update_of_ne hne]
      · simp [houtcome, CleanOutcome.segment]
    | converged =>
      constructor
      · intro base hne
        simpa [houtcome] using refreshDigest_other keys hne
      · simpa [houtcome, CleanOutcome.segment] using refreshDigest_self keys c c.seg result
    | replaced new =>
      have hbase : new.baseOffset = c.seg.baseOffset :=
        (hidentity new (by rw [houtcome]; rfl)).1
      constructor
      · intro base hne
        rw [← hbase] at hne
        simpa [houtcome] using refreshDigest_other keys hne
      · rw [← hbase]
        simpa [houtcome, CleanOutcome.segment] using refreshDigest_self keys c new result
  | none =>
    cases (runRewrites spec env log merged).installed c.index with
    | none => simp
    | some result =>
      obtain ⟨outcome, removed, stamp, hdrs⟩ := result
      cases outcome with
      | emptied =>
        constructor
        · intro base hne
          simp [Function.update_of_ne hne]
        · simp
      | converged => simp
      | replaced new => simp

theorem nodup_base_candidatesOf (hordered : LogOrdered log.segments) :
    ((candidatesOf log).map fun c => c.seg.baseOffset).Nodup := by
  have hmap : ((candidatesOf log).map fun c => c.seg.baseOffset) =
      log.sealedSegs.map Segment.baseOffset := by
    rw [← map_seg_candidatesOf log, map_map]
    rfl
  rw [hmap, Nodup, pairwise_map]
  have hsealed := (pairwise_append.mp hordered.increasing).1
  exact hsealed.imp fun h => h.1.ne

theorem keysAfter_at (hordered : LogOrdered log.segments) (hc : c ∈ candidatesOf log) :
    keysAfter spec env log merged c.seg.baseOffset =
      refreshAt env (runRewrites spec env log merged) c
        (persistAt env c (log.keys c.seg.baseOffset)) := by
  have hnodup := nodup_base_candidatesOf hordered
  unfold keysAfter
  rw [Runs.foldl_local (fun d : Candidate => d.seg.baseOffset) hnodup
      (fun d hd keys base hne => (digestAfter_at hd keys).1 base hne)
      (fun d hd keys => (digestAfter_at hd keys).2) hc,
    Runs.foldl_local (fun d : Candidate => d.seg.baseOffset) hnodup
      (fun d _ keys base hne => persistDigest_other keys hne)
      (fun d _ keys => persistDigest_self keys d) hc]

theorem keysAfter_other {base : ℤ} (hne : ∀ c ∈ candidatesOf log, base ≠ c.seg.baseOffset) :
    keysAfter spec env log merged base = log.keys base := by
  unfold keysAfter
  apply Runs.foldl_invariant (fun keys : ℤ → Option KeyDigest => keys base = log.keys base)
  · intro keys c hc hkeys
    rw [(digestAfter_at hc keys).1 base (hne c hc), hkeys]
  · apply Runs.foldl_invariant (fun keys : ℤ → Option KeyDigest => keys base = log.keys base)
    · intro keys c hc hkeys
      rw [persistDigest_other keys (hne c hc), hkeys]
    · rfl

/-! ## Scanning a swapped segment -/

theorem readExtent_append (frames more : List Frame) :
    readExtent (frames ++ more) (framingLen frames) = some (frames, 0) := by
  induction frames with
  | nil => cases more <;> rfl
  | cons frame frames ih =>
    have hpos := frame.length_pos
    obtain ⟨n, hn⟩ : ∃ n, frame.length + framingLen frames = n + 1 :=
      ⟨frame.length + framingLen frames - 1, by omega⟩
    have hrest : n + 1 - frame.length = framingLen frames := by omega
    rw [framingLen_cons, hn, cons_append, readExtent, if_pos (by omega), hrest, ih]
    rfl

theorem resumeAt_zero (frames : List Frame) : resumeAt frames 0 = some frames := by
  cases frames <;> rfl

theorem refreshScan_of_frames_eq {old new : Segment} (hsame : new.frames = old.frames) :
    refreshScan old new = some new.frames := by
  unfold refreshScan
  split
  next cached first rest _ hold hnew =>
    have hframes : cached.frames =
        first.frames ++ rest.flatMap Block.frames := by
      simpa [Segment.frames, Layout.frames, hold, hnew] using hsame.symm
    rw [hframes, readExtent_append]
    simp [resumeAt_zero, Segment.frames, Layout.frames, hnew]
  · rfl

def Segment.oneBlockObject (seg : Segment) : Bool :=
  seg.isOffloaded &&
    match seg.layout with
    | .blocks [_] => true
    | _ => false

theorem refreshScan_of_not_oneBlockObject {old new : Segment}
    (hblocks : old.oneBlockObject = false) :
    refreshScan old new = some new.frames := by
  unfold refreshScan
  split
  next cached first rest hoffloaded hold hnew =>
    simp [Segment.oneBlockObject, hoffloaded, hold] at hblocks
  · rfl

/-- The pass takes nothing out of an offloaded segment of a single block. -/
def SparesOneBlockObjects (spec : CleanSpec) (now : ℤ) (log : LogView) :
    Prop :=
  ∀ seg ∈ log.sealedSegs, seg.oneBlockObject = true → ∀ frame ∈ seg.frames,
      fate spec now (recordsOf log.segments) frame = some frame

theorem refreshScan_frames (hmerged : MergedFor spec env.now log merged)
    (hspares : SparesOneBlockObjects spec env.now log) (hc : c ∈ candidatesOf log) {new : Segment}
    (hclean : cleanSegment spec c.seg (merged.drops c.index) = .ok result)
    (hsegment : result.outcome.segment c.seg = some new) :
    refreshScan c.seg new = some new.frames := by
  cases hblocks : c.seg.oneBlockObject with
  | false => exact refreshScan_of_not_oneBlockObject hblocks
  | true =>
    apply refreshScan_of_frames_eq
    have hframes := (cleanSegment_spec hclean).frames
    unfold CleanOutcome.frames at hframes
    rw [hsegment] at hframes
    change new.frames = _ at hframes
    have hmem := mem_of_getElem? (mem_candidatesOf.mp hc).1
    have hkept : ∀ frame ∈ c.seg.frames,
        rewriteFrame spec (merged.drops c.index) frame = some frame := by
      intro frame hframe
      rw [rewriteFrame_eq_fate hmerged (candidate_getElem? hc) hframe]
      exact hspares c.seg hmem hblocks frame hframe
    rw [hframes, filterMap_congr hkept, filterMap_some]

/-! ## Files that can be trusted -/

def StoredAs (Good : KeyDigest → List Frame → Prop) (digest : KeyDigest) (seg : Segment) : Prop :=
  (digest.logSize = seg.position ∧ Good digest seg.frames) ∨ seg.position < digest.logSize

def LogView.Stored (Good : KeyDigest → List Frame → Prop) (log : LogView) : Prop :=
  ∀ seg ∈ log.sealedSegs, ∀ digest, log.keys seg.baseOffset = some digest → StoredAs Good digest seg

theorem LogView.Stored.of_no_keys {log : LogView} (hkeys : ∀ base, log.keys base = none) :
    log.Stored Good := by
  intro seg _ digest hdigest
  rw [hkeys] at hdigest
  cases hdigest

theorem StoredAs.of_load {seg : Segment} (hstored : StoredAs Good digest seg)
    (hload : loadKeyDigest (some digest) seg = some digest) : Good digest seg.frames := by
  have hsize := (loadKeyDigest_eq_some hload).2.2
  rcases hstored with hgood | hlonger
  · exact hgood.2
  · omega

theorem StoredAs.of_cleanSegment {seg : Segment} {drops : Option DropSet}
    (hstored : StoredAs Good digest seg) (hclean : cleanSegment spec seg drops = .ok result)
    (hsegment : result.outcome.segment seg = some seg') : StoredAs Good digest seg' := by
  rcases cleanSegment_position hclean hsegment with hsame | hless
  · have hposition : seg'.position = seg.position := by
      simp [Segment.position, hsame]
    unfold StoredAs
    rw [hsame, hposition]
    exact hstored
  · right
    rcases hstored with hgood | hlonger
    · omega
    · omega

theorem persistAt_storedAs {stored : Option KeyDigest}
    (hbuild : Good (buildKeyDigest c.seg) c.seg.frames)
    (hstored : ∀ digest, stored = some digest → StoredAs Good digest c.seg)
    (hpersist : persistAt env c stored = some digest) : StoredAs Good digest c.seg := by
  unfold persistAt at hpersist
  split at hpersist
  · exact hstored digest hpersist
  · split at hpersist
    · exact hstored digest hpersist
    · cases hpersist
      exact Or.inl ⟨rfl, hbuild⟩

theorem stored_keysAfter (hordered : LogOrdered log.segments) (hstored : log.Stored Good)
    (hbuild : ∀ c ∈ candidatesOf log, Good (buildKeyDigest c.seg) c.seg.frames)
    (hrefresh : ∀ c ∈ candidatesOf log, ∀ result new frames,
      cleanSegment spec c.seg (merged.drops c.index) = .ok result →
      result.outcome.segment c.seg = some new →
      refreshScan c.seg new = some frames →
      Good ((digestOfScan new.baseOffset new.position new.firstWriteTime
        frames).withStamp result.stamp result.stampHdrs) new.frames) :
    LogView.Stored Good ⟨(candidatesOf log).flatMap
        (segmentAfter (runRewrites spec env log merged)), log.active,
      keysAfter spec env log merged⟩ := by
  intro seg' hseg' digest hdigest
  simp only at hseg' hdigest
  obtain ⟨c, hc, hin⟩ := mem_flatMap.mp hseg'
  have hold : ∀ d, log.keys c.seg.baseOffset = some d → StoredAs Good d c.seg := by
    intro d hd
    exact hstored c.seg (mem_of_getElem? (mem_candidatesOf.mp hc).1) d hd
  have hpersist : ∀ d, persistAt env c (log.keys c.seg.baseOffset) =
      some d → StoredAs Good d c.seg :=
    fun d hd => persistAt_storedAs (hbuild c hc) hold hd
  rw [baseOffset_of_mem_segmentAfter hc hin, keysAfter_at hordered hc] at hdigest
  rcases mem_segmentAfter hc hin with ⟨hnone, heq⟩ | ⟨result, hinstalled, hclean, hsegment⟩
  · have hdone : (runRewrites spec env log merged).done c.index = none := by
      cases hdone : (runRewrites spec env log merged).done c.index with
      | none => rfl
      | some result =>
        rw [LoopResult.installed_of_done hdone] at hnone
        cases hnone
    rw [refreshAt, hdone, hnone] at hdigest
    rw [heq]
    exact hpersist digest hdigest
  · have hkept : ∀ d, persistAt env c (log.keys c.seg.baseOffset) = some d → StoredAs Good d seg' :=
      fun d hd => (hpersist d hd).of_cleanSegment hclean hsegment
    unfold refreshAt at hdigest
    cases hdone : (runRewrites spec env log merged).done c.index with
    | some done =>
      have hsame : done = result := by
        rw [LoopResult.installed_of_done hdone] at hinstalled
        exact Option.some.inj hinstalled
      rw [hdone, hsame] at hdigest
      simp only [hsegment] at hdigest
      split at hdigest
      · exact hkept digest hdigest
      · split at hdigest
        · exact hkept digest hdigest
        next frames hscan =>
          cases hdigest
          exact Or.inl ⟨rfl, hrefresh c hc result seg' frames hclean hsegment hscan⟩
    | none =>
      simp only [hdone, hinstalled] at hdigest
      split at hdigest
      · cases hdigest
      · exact hkept digest hdigest

end Pass

end CommitLog
