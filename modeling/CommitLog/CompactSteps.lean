import CommitLog.CompactPass

/-!
# What a compaction pass can do

The rewrite loop installs a rewrite for some of the segments that want one.
A segment that removes a governing record is only reached when everything the
order puts before it was rewritten.  Assembling the list turns this into a
description of the records after the pass: each sealed segment is either
untouched or has every record rewritten.
-/

namespace CommitLog

open List

variable {merged : MergeResult}
variable {spec : CleanSpec} {env : PassEnv} {c : Candidate} {log : LogView} {i : ℕ}
  {result : CleanResult} {order : List Candidate} {st : LoopState}

/-! ## Candidates -/

theorem mem_candidatesOf : c ∈ candidatesOf log ↔
      log.sealedSegs[c.index]? = some c.seg ∧ c.digest = loadOrBuild log.keys c.seg := by
  unfold candidatesOf
  rw [mem_map]
  constructor
  · intro hentry
    obtain ⟨entry, hmem, hc⟩ := hentry
    have hget := mem_zipIdx_iff_getElem?.mp hmem
    rw [← hc]
    exact ⟨hget, rfl⟩
  · intro hc
    exact ⟨(c.seg, c.index), mem_zipIdx_iff_getElem?.mpr hc.1, by rw [← hc.2]⟩

theorem eq_of_index_eq {c' : Candidate} (hmem : c ∈ candidatesOf log)
    (hmem' : c' ∈ candidatesOf log) (hindex : c.index = c'.index) : c = c' := by
  have hc := mem_candidatesOf.mp hmem
  have hc' := mem_candidatesOf.mp hmem'
  have hseg : c.seg = c'.seg := by
    have hget := hc.1
    rw [hindex, hc'.1] at hget
    exact (Option.some.inj hget).symm
  cases c
  cases c'
  simp only at hindex hseg hc hc'
  subst hindex hseg
  rw [hc.2, hc'.2]

theorem map_index_candidatesOf (log : LogView) : (candidatesOf log).map Candidate.index =
      range log.sealedSegs.length := by
  unfold candidatesOf
  rw [map_map]
  have hcomp : (Candidate.index ∘ fun entry : Segment × ℕ =>
      (⟨entry.2, entry.1, loadOrBuild log.keys entry.1⟩ : Candidate)) =
        Prod.snd := rfl
  rw [hcomp, zipIdx_map_snd, range_eq_range']

theorem pairwise_index_candidatesOf (log : LogView) :
    (candidatesOf log).Pairwise fun b c => b.index < c.index := by
  have hrange := pairwise_lt_range (n := log.sealedSegs.length)
  rw [← map_index_candidatesOf, pairwise_map] at hrange
  exact hrange

theorem nodup_index_candidatesOf (log : LogView) :
    ((candidatesOf log).map Candidate.index).Nodup := by
  rw [map_index_candidatesOf]
  exact nodup_range

/-! ## Dispositions -/

theorem canSkip_of_keepConverged (hdisp : dispositionOf spec env merged c = .keepConverged) :
    canSkip spec c.digest merged c.index = true := by
  unfold dispositionOf at hdisp
  split at hdisp
  · cases hdisp
  · split at hdisp
    next hskip => exact ((Bool.and_eq_true _ _).mp hskip).1
    next => cases hdisp

theorem dispositionOf_eq_keepProtected :
    dispositionOf spec env merged c = .keepProtected ↔ ageProtected env c.seg = true := by
  unfold dispositionOf
  split
  next hage => simp [hage]
  next hage =>
    split <;> simp [hage]

/-! ## The rewrite order -/

theorem rewriteBefore_total (spec : CleanSpec) (merged : MergeResult) (a b : Candidate) :
    rewriteBefore spec merged b a = false ∨ rewriteBefore spec merged a b = false := by
  unfold rewriteBefore
  cases lateRewrite spec merged a with
  | false =>
    cases lateRewrite spec merged b with
    | false =>
      by_cases hlt : dropCount merged a.index < dropCount merged b.index
      · have hnot : ¬dropCount merged b.index < dropCount merged a.index := by omega
        simp [hnot]
      · simp [hlt]
    | true => simp
  | true =>
    cases lateRewrite spec merged b with
    | false => simp
    | true =>
      by_cases hlt : b.index < a.index
      · have hnot : ¬a.index < b.index := by omega
        simp [hnot]
      · simp [hlt]

theorem rewriteBefore_trans (spec : CleanSpec) (merged : MergeResult) (a b c : Candidate)
    (hab : rewriteBefore spec merged b a = false) (hbc : rewriteBefore spec merged c b = false) :
    rewriteBefore spec merged c a = false := by
  unfold rewriteBefore at hab hbc ⊢
  cases ha : lateRewrite spec merged a <;>
    cases hb : lateRewrite spec merged b <;>
      cases hc : lateRewrite spec merged c <;>
        simp [ha, hb, hc] at hab hbc ⊢ <;> omega

theorem mem_rewriteOrder {candidates : List Candidate} :
    c ∈ rewriteOrder spec env merged candidates ↔ c ∈ candidates ∧
        dispositionOf spec env merged c = .wantRewrite := by
  unfold rewriteOrder
  rw [mem_insertionSort, mem_filter]
  simp

theorem pairwise_rewriteOrder (spec : CleanSpec) (env : PassEnv) (merged : MergeResult)
    (candidates : List Candidate) :
    (rewriteOrder spec env merged candidates).Pairwise
      fun a b => rewriteBefore spec merged b a = false := by
  have htrans : IsTrans Candidate fun a b => rewriteBefore spec merged b a = false :=
    ⟨rewriteBefore_trans spec merged⟩
  have htotal : Std.Total fun a b => rewriteBefore spec merged b a = false :=
    ⟨rewriteBefore_total spec merged⟩
  exact pairwise_insertionSort _ _

theorem nodup_index_rewriteOrder (spec : CleanSpec) (env : PassEnv) (merged : MergeResult)
    {candidates : List Candidate} (hnodup : (candidates.map Candidate.index).Nodup) :
    ((rewriteOrder spec env merged candidates).map Candidate.index).Nodup := by
  unfold rewriteOrder
  have hperm := perm_insertionSort (fun a b => rewriteBefore spec merged b a = false)
    (candidates.filter fun c =>
      dispositionOf spec env merged c == .wantRewrite)
  rw [(hperm.map Candidate.index).nodup_iff]
  exact hnodup.sublist (filter_sublist.map Candidate.index)

/-! ## The rewrite loop -/

theorem LoopResult.installed_of_done {loop : LoopResult} (hdone : loop.done i = some result) :
    loop.installed i = some result := by
  simp [LoopResult.installed, hdone]

theorem LoopState.done_noteDone_self (st : LoopState) (c : Candidate) (result : CleanResult) :
    (st.noteDone c result).done c.index = some result := by
  simp [LoopState.noteDone]

theorem LoopState.done_noteDone_of_ne (st : LoopState) (result : CleanResult) (hne : i ≠ c.index) :
    (st.noteDone c result).done i = st.done i := by
  simp [LoopState.noteDone, Function.update_of_ne hne]

/-- One iteration of the loop, as the cases it can take. -/
inductive LoopStep (spec : CleanSpec) (env : PassEnv) (merged : MergeResult)
    (c : Candidate) (rest : List Candidate) (st : LoopState) :
    LoopResult → Prop
  | skip {loop : LoopResult} : (inReadOnlyTier spec c.seg = true ∨
        (st.budgets.of c.seg).allow (env.pastDeadline c.index true) = false) →
      rewriteLoop spec env merged rest st.skip = loop →
      LoopStep spec env merged c rest st loop
  | stop : (st.budgets.of c.seg).allow (env.pastDeadline c.index false) = false ∨
        st.skipped = true →
      LoopStep spec env merged c rest st ⟨st.done, none⟩
  | fail {result : Option CleanResult} : (lateRewrite spec merged c = true → st.skipped = false) →
      (∀ r, result = some r → cleanSegment spec c.seg (merged.drops c.index) = .ok r) →
      LoopStep spec env merged c rest st ⟨st.done, some (c.index, result)⟩
  | install {result : CleanResult} {loop : LoopResult} :
      (lateRewrite spec merged c = true → st.skipped = false) →
      cleanSegment spec c.seg (merged.drops c.index) = .ok result →
      rewriteLoop spec env merged rest (st.noteDone c result) = loop →
      LoopStep spec env merged c rest st loop

theorem rewriteLoop_cons (spec : CleanSpec) (env : PassEnv) (merged : MergeResult)
    (c : Candidate) (rest : List Candidate) (st : LoopState) :
    LoopStep spec env merged c rest st (rewriteLoop spec env merged (c :: rest) st) := by
  simp only [rewriteLoop]
  by_cases hreadOnly : inReadOnlyTier spec c.seg = true
  · rw [if_pos hreadOnly]
    exact .skip (Or.inl hreadOnly) rfl
  · rw [if_neg hreadOnly]
    by_cases hstop : (lateRewrite spec merged c && (st.skipped || !(st.budgets.of c.seg).allow
          (env.pastDeadline c.index false))) = true
    · rw [if_pos hstop]
      apply LoopStep.stop
      rw [Bool.and_eq_true, Bool.or_eq_true] at hstop
      rcases hstop.2 with hskipped | hallow
      · exact Or.inr hskipped
      · exact Or.inl (by simpa using hallow)
    · rw [if_neg hstop]
      have hlate : lateRewrite spec merged c = true → st.skipped = false := by
        intro hlate
        rw [Bool.and_eq_true, Bool.or_eq_true] at hstop
        by_contra hskipped
        exact hstop ⟨hlate, Or.inl (by simpa using hskipped)⟩
      by_cases hallow : (!(st.budgets.of c.seg).allow (env.pastDeadline c.index true)) = true
      · rw [if_pos hallow]
        exact .skip (Or.inr (by simpa using hallow)) rfl
      · rw [if_neg hallow]
        cases hclean : cleanSegment spec c.seg (merged.drops c.index) with
        | error err => exact .fail hlate (fun r hr => by cases hr)
        | ok result =>
          cases hfault : env.fault c.index with
          | before => exact .fail hlate (fun r hr => by cases hr)
          | after =>
            refine .fail hlate ?_
            intro r hr
            cases hr
            exact hclean
          | none => exact .install hlate hclean rfl

theorem index_ne_of_not_mem {rest : List Candidate} (hnew : c.index ∉ rest.map Candidate.index) :
    ∀ d ∈ rest, d.index ≠ c.index := by
  intro d hd heq
  rw [← heq] at hnew
  exact hnew (mem_map_of_mem hd)

theorem rewriteLoop_done_of_done (hdone : st.done i = some result)
    (hfresh : ∀ c ∈ order, c.index ≠ i) :
    (rewriteLoop spec env merged order st).done i = some result := by
  induction order generalizing st with
  | nil => exact hdone
  | cons c rest ih =>
    have hne : c.index ≠ i := hfresh c mem_cons_self
    have hrest : ∀ d ∈ rest, d.index ≠ i := by
      intro d hd
      exact hfresh d (mem_cons_of_mem _ hd)
    have hstep := rewriteLoop_cons spec env merged c rest st
    generalize rewriteLoop spec env merged (c :: rest) st = loop at hstep ⊢
    cases hstep with
    | skip _ hloop =>
      rw [← hloop]
      exact ih hdone hrest
    | stop _ => exact hdone
    | fail _ _ => exact hdone
    | install _ _ hloop =>
      rw [← hloop]
      apply ih _ hrest
      rw [st.done_noteDone_of_ne _ (Ne.symm hne)]
      exact hdone

theorem rewriteLoop_installed
    (hinstalled : (rewriteLoop spec env merged order st).installed i = some result) :
    st.done i = some result ∨ ∃ c ∈ order, c.index = i ∧
        cleanSegment spec c.seg (merged.drops c.index) = .ok result := by
  induction order generalizing st with
  | nil =>
    left
    simp only [rewriteLoop, LoopResult.installed] at hinstalled
    cases hdone : st.done i with
    | none => simp [hdone] at hinstalled
    | some found => simpa [hdone] using hinstalled
  | cons c rest ih =>
    have hlift : (∃ d ∈ rest, d.index = i ∧
        cleanSegment spec d.seg (merged.drops d.index) = .ok result) →
        ∃ d ∈ c :: rest, d.index = i ∧ cleanSegment spec d.seg (merged.drops d.index) =
            .ok result := by
      intro hd
      obtain ⟨d, hmem, hprops⟩ := hd
      exact ⟨d, mem_cons_of_mem _ hmem, hprops⟩
    have hstep := rewriteLoop_cons spec env merged c rest st
    generalize rewriteLoop spec env merged (c :: rest) st = loop at hstep hinstalled
    cases hstep with
    | skip _ hloop =>
      rw [← hloop] at hinstalled
      rcases ih hinstalled with hdone | hcand
      · exact Or.inl hdone
      · exact Or.inr (hlift hcand)
    | stop _ =>
      left
      cases hdone : st.done i with
      | none => simp [LoopResult.installed, hdone] at hinstalled
      | some found =>
        simpa [LoopResult.installed, hdone] using hinstalled
    | @fail failed _ hclean =>
      cases hdone : st.done i with
      | some found =>
        left
        simpa [LoopResult.installed, hdone] using hinstalled
      | none =>
        right
        simp only [LoopResult.installed, hdone] at hinstalled
        by_cases hindex : c.index = i
        · rw [if_pos hindex] at hinstalled
          exact ⟨c, mem_cons_self, hindex, hclean result hinstalled⟩
        · rw [if_neg hindex] at hinstalled
          cases hinstalled
    | @install found _ _ hclean hloop =>
      rw [← hloop] at hinstalled
      rcases ih hinstalled with hdone | hcand
      · by_cases hindex : i = c.index
        · right
          rw [hindex, st.done_noteDone_self] at hdone
          cases hdone
          exact ⟨c, mem_cons_self, hindex.symm, hclean⟩
        · left
          rwa [st.done_noteDone_of_ne _ hindex] at hdone
      · exact Or.inr (hlift hcand)

theorem rewriteLoop_not_installed (hdone : st.done i = none) (hfresh : ∀ c ∈ order, c.index ≠ i) :
    (rewriteLoop spec env merged order st).installed i = none := by
  cases hinstalled : (rewriteLoop spec env merged order st).installed i with
  | none => rfl
  | some result =>
    rcases rewriteLoop_installed hinstalled with hold | ⟨c, hmem, hindex, _⟩
    · rw [hdone] at hold
      cases hold
    · exact absurd hindex (hfresh c hmem)

theorem rewriteLoop_governed (hnodup : (order.map Candidate.index).Nodup)
    (hfresh : ∀ c ∈ order, st.done c.index = none) :
    order.Pairwise (fun b c => lateRewrite spec merged c = true →
        (rewriteLoop spec env merged order st).installed c.index ≠ none →
        (rewriteLoop spec env merged order st).installed b.index ≠ none) ∧
      (st.skipped = true → ∀ c ∈ order, lateRewrite spec merged c = true →
        (rewriteLoop spec env merged order st).installed c.index = none) := by
  induction order generalizing st with
  | nil => simp
  | cons c rest ih =>
    rw [map_cons, nodup_cons] at hnodup
    have hne := index_ne_of_not_mem hnodup.1
    have hc : st.done c.index = none := hfresh c mem_cons_self
    have hrest : ∀ d ∈ rest, st.done d.index = none := by
      intro d hd
      exact hfresh d (mem_cons_of_mem _ hd)
    have hstep := rewriteLoop_cons spec env merged c rest st
    generalize rewriteLoop spec env merged (c :: rest) st = loop at hstep ⊢
    cases hstep with
    | skip _ hloop =>
      have hfreshNext : ∀ d ∈ rest, st.skip.done d.index = none := hrest
      have hnext := ih hnodup.2 hfreshNext
      rw [hloop] at hnext
      have hself : loop.installed c.index = none := by
        rw [← hloop]
        exact rewriteLoop_not_installed hc hne
      refine ⟨pairwise_cons.mpr ⟨?_, hnext.1⟩, ?_⟩
      · intro d hd hlate hinstalled
        exact absurd (hnext.2 rfl d hd hlate) hinstalled
      · intro _ d hd hlate
        rcases mem_cons.mp hd with heq | hd
        · rw [heq]
          exact hself
        · exact hnext.2 rfl d hd hlate
    | stop _ =>
      have hnone : ∀ d ∈ c :: rest, (⟨st.done, none⟩ : LoopResult).installed d.index = none := by
        intro d hd
        simp [LoopResult.installed, hfresh d hd]
      refine ⟨?_, fun _ d hd _ => hnone d hd⟩
      apply pairwise_of_forall_mem_list
      intro b _ d hd _ hinstalled
      exact absurd (hnone d hd) hinstalled
    | @fail failed hlate _ =>
      have hnone : ∀ d ∈ rest, (⟨st.done, some (c.index, failed)⟩ : LoopResult).installed
            d.index = none := by
        intro d hd
        simp [LoopResult.installed, hrest d hd, Ne.symm (hne d hd)]
      refine ⟨pairwise_cons.mpr ⟨?_, ?_⟩, ?_⟩
      · intro d hd _ hinstalled
        exact absurd (hnone d hd) hinstalled
      · apply pairwise_of_forall_mem_list
        intro b _ d hd _ hinstalled
        exact absurd (hnone d hd) hinstalled
      · intro hskipped d hd hlateD
        rcases mem_cons.mp hd with heq | hd
        · rw [heq] at hlateD
          rw [hlate hlateD] at hskipped
          cases hskipped
        · exact hnone d hd
    | @install found _ hlate _ hloop =>
      have hfreshNext : ∀ d ∈ rest, (st.noteDone c found).done d.index = none := by
        intro d hd
        rw [st.done_noteDone_of_ne _ (hne d hd)]
        exact hrest d hd
      have hnext := ih hnodup.2 hfreshNext
      rw [hloop] at hnext
      have hself : loop.installed c.index = some found := by
        rw [← hloop]
        apply LoopResult.installed_of_done
        exact rewriteLoop_done_of_done (st.done_noteDone_self c found) hne
      refine ⟨pairwise_cons.mpr ⟨?_, hnext.1⟩, ?_⟩
      · intro d hd _ _
        rw [hself]
        simp
      · intro hskipped d hd hlateD
        rcases mem_cons.mp hd with heq | hd
        · rw [heq] at hlateD
          rw [hlate hlateD] at hskipped
          cases hskipped
        · exact hnext.2 hskipped d hd hlateD

/-! ## Passes without limits -/

structure CleanSpec.Unbudgeted (spec : CleanSpec) : Prop where
  maxRewrites : spec.maxRewrites ≤ 0
  rewriteBudget : spec.rewriteBudget ≤ 0
  tierBudgets : ∀ name d, spec.tierBudgets name = some d → d ≤ 0

def RewriteBudget.Unlimited (budget : RewriteBudget) : Prop :=
  budget.max ≤ 0 ∧ budget.hasDeadline = false

theorem RewriteBudget.Unlimited.allow {budget : RewriteBudget} (hunlimited : budget.Unlimited)
    (past : Bool) : budget.allow past = true := by
  have hmax : ¬(0 < budget.max ∧ budget.max ≤ budget.spent) := by
    intro hspent
    have hle := hunlimited.1
    omega
  unfold RewriteBudget.allow
  rw [if_neg hmax, hunlimited.2]
  rfl

theorem newRewriteBudget_unlimited {max duration : ℤ} (hmax : max ≤ 0) (hduration : duration ≤ 0) :
    (newRewriteBudget max duration).Unlimited := by
  refine ⟨hmax, ?_⟩
  simpa [newRewriteBudget] using hduration

def Budgets.Unlimited (budgets : Budgets) : Prop :=
  budgets.disk.Unlimited ∧ ∀ name, (budgets.tier name).Unlimited

theorem Budgets.unlimited_start (hspec : spec.Unbudgeted) : (Budgets.start spec).Unlimited := by
  refine ⟨newRewriteBudget_unlimited hspec.maxRewrites hspec.rewriteBudget, ?_⟩
  intro name
  apply newRewriteBudget_unlimited hspec.maxRewrites
  cases htier : spec.tierBudgets name with
  | none => exact hspec.rewriteBudget
  | some d => exact hspec.tierBudgets name d htier

theorem Budgets.Unlimited.of {budgets : Budgets} (hunlimited : budgets.Unlimited) (seg : Segment) :
    (budgets.of seg).Unlimited := by
  unfold Budgets.of
  cases seg.tier with
  | none => exact hunlimited.1
  | some name => exact hunlimited.2 name

theorem Budgets.Unlimited.note {budgets : Budgets}
    (hunlimited : budgets.Unlimited) (seg : Segment) :
    (budgets.note seg).Unlimited := by
  unfold Budgets.note
  cases seg.tier with
  | none => exact ⟨hunlimited.1, hunlimited.2⟩
  | some name =>
    refine ⟨hunlimited.1, ?_⟩
    intro other
    by_cases hname : other = name
    · subst hname
      have htier := hunlimited.2 other
      simpa [RewriteBudget.note, RewriteBudget.Unlimited] using htier
    · simpa [Function.update_of_ne hname] using hunlimited.2 other

theorem rewriteLoop_complete (hnodup : (order.map Candidate.index).Nodup)
    (hbudgets : st.budgets.Unlimited) (hskipped : st.skipped = false)
    (htiers : ∀ c ∈ order, inReadOnlyTier spec c.seg = false)
    (hfailed : (rewriteLoop spec env merged order st).failed = none) :
    ∀ c ∈ order, (rewriteLoop spec env merged order st).done c.index ≠ none := by
  induction order generalizing st with
  | nil => simp
  | cons c rest ih =>
    rw [map_cons, nodup_cons] at hnodup
    have hne := index_ne_of_not_mem hnodup.1
    have hallow := fun past => (hbudgets.of c.seg).allow past
    have hstep := rewriteLoop_cons spec env merged c rest st
    generalize rewriteLoop spec env merged (c :: rest) st = loop at hstep hfailed ⊢
    cases hstep with
    | skip hreason _ =>
      rcases hreason with htier | hdeny
      · rw [htiers c mem_cons_self] at htier
        cases htier
      · rw [hallow] at hdeny
        cases hdeny
    | stop hreason =>
      rcases hreason with hdeny | hskip
      · rw [hallow] at hdeny
        cases hdeny
      · rw [hskipped] at hskip
        cases hskip
    | fail _ _ => cases hfailed
    | @install found _ _ _ hloop =>
      rw [← hloop] at hfailed ⊢
      intro d hd
      rcases mem_cons.mp hd with heq | hd
      · rw [heq, rewriteLoop_done_of_done (st.done_noteDone_self c found) hne]
        simp
      · have hnext : (st.noteDone c found).budgets.Unlimited :=
          hbudgets.note c.seg
        have hnextSkipped : (st.noteDone c found).skipped = false :=
          hskipped
        exact ih hnodup.2 hnext hnextSkipped
          (fun e he => htiers e (mem_cons_of_mem _ he)) hfailed d hd

/-! ## The pass as a whole -/

theorem pairwise_or_of_mem {α : Type*} {R : α → α → Prop} {items : List α}
    (hpair : items.Pairwise R) {a b : α} (ha : a ∈ items) (hb : b ∈ items)
    (hne : a ≠ b) : R a b ∨ R b a := by
  have hsymm : Std.Symm fun x y => R x y ∨ R y x := ⟨fun _ _ => Or.symm⟩
  have hor : items.Pairwise fun x y => R x y ∨ R y x :=
    hpair.imp fun h => Or.inl h
  exact hor.forall ha hb hne

theorem runRewrites_installed
    (hinstalled : (runRewrites spec env log merged).installed i = some result) :
    ∃ c ∈ candidatesOf log, c.index = i ∧ dispositionOf spec env merged c = .wantRewrite ∧
      cleanSegment spec c.seg (merged.drops c.index) = .ok result := by
  rcases rewriteLoop_installed hinstalled with hdone | ⟨c, hmem, hindex, hclean⟩
  · cases hdone
  · have horder := mem_rewriteOrder.mp hmem
    exact ⟨c, horder.1, hindex, horder.2, hclean⟩

theorem installed_candidate (hmem : c ∈ candidatesOf log)
    (hinstalled : (runRewrites spec env log merged).installed c.index = some result) :
    dispositionOf spec env merged c = .wantRewrite ∧
      cleanSegment spec c.seg (merged.drops c.index) = .ok result := by
  obtain ⟨c', hmem', hindex, hprops⟩ := runRewrites_installed hinstalled
  rw [eq_of_index_eq hmem' hmem hindex] at hprops
  exact hprops

theorem not_installed_of_ne_wantRewrite (hmem : c ∈ candidatesOf log)
    (hdisp : dispositionOf spec env merged c ≠ .wantRewrite) :
    (runRewrites spec env log merged).installed c.index = none := by
  cases hinstalled : (runRewrites spec env log merged).installed c.index with
  | none => rfl
  | some result =>
    exact absurd (installed_candidate hmem hinstalled).1 hdisp

theorem runRewrites_governed {b : Candidate} (hb : b ∈ candidatesOf log) (hc : c ∈ candidatesOf log)
    (hwant : dispositionOf spec env merged b = .wantRewrite)
    (hbefore : lateRewrite spec merged b = false ∨ b.index < c.index)
    (hlate : lateRewrite spec merged c = true)
    (hinstalled : (runRewrites spec env log merged).installed c.index ≠ none) :
    (runRewrites spec env log merged).installed b.index ≠ none := by
  obtain ⟨result, hresult⟩ := Option.ne_none_iff_exists'.mp hinstalled
  have hwantC := (installed_candidate hc hresult).1
  have hbOrder := mem_rewriteOrder.mpr ⟨hb, hwant⟩
  have hcOrder := mem_rewriteOrder.mpr ⟨hc, hwantC⟩
  have hne : b ≠ c := by
    intro heq
    rcases hbefore with hnot | hlt
    · rw [heq, hlate] at hnot
      cases hnot
    · rw [heq] at hlt
      exact lt_irrefl _ hlt
  have hfirst : rewriteBefore spec merged b c = true := by
    unfold rewriteBefore
    cases hbLate : lateRewrite spec merged b with
    | false => simp [hlate]
    | true =>
      have hlt : b.index < c.index := by
        rcases hbefore with hnot | hlt
        · rw [hbLate] at hnot
          cases hnot
        · exact hlt
      simp [hlate, hlt]
  have hfresh : ∀ d ∈ rewriteOrder spec env merged (candidatesOf log),
      (⟨Budgets.start spec, false, fun _ => none⟩ : LoopState).done d.index = none := fun _ _ => rfl
  have hgoverned : (rewriteOrder spec env merged (candidatesOf log)).Pairwise
      fun b c => lateRewrite spec merged c = true →
        (runRewrites spec env log merged).installed c.index ≠ none →
        (runRewrites spec env log merged).installed b.index ≠ none :=
    (rewriteLoop_governed (nodup_index_rewriteOrder spec env merged
      (nodup_index_candidatesOf log)) hfresh).1
  have hsorted := pairwise_rewriteOrder spec env merged (candidatesOf log)
  rcases pairwise_or_of_mem (hsorted.and hgoverned) hbOrder hcOrder hne with
    hbc | hcb
  · exact hbc.2 hlate hinstalled
  · have hnot := hcb.1
    rw [hfirst] at hnot
    cases hnot

/-- What the pass leaves of the records of a candidate. -/
def framesAfter (spec : CleanSpec) (merged : MergeResult)
    (loop : LoopResult) (c : Candidate) : List Frame :=
  match loop.installed c.index with
  | none => c.seg.frames
  | some _ =>
    c.seg.frames.filterMap (rewriteFrame spec (merged.drops c.index))

theorem recordsOf_segmentAfter (hmem : c ∈ candidatesOf log) :
    recordsOf (segmentAfter (runRewrites spec env log merged) c) =
      framesAfter spec merged (runRewrites spec env log merged) c := by
  unfold segmentAfter framesAfter
  cases hinstalled : (runRewrites spec env log merged).installed c.index with
  | none => simp
  | some result =>
    have hclean := cleanSegment_spec (installed_candidate hmem hinstalled).2
    have hframes := hclean.frames
    unfold CleanOutcome.frames at hframes
    cases hseg : result.outcome.segment c.seg with
    | none => simpa [hseg] using hframes
    | some seg' => simpa [hseg] using hframes

theorem assembleOne_sealedSegs (hmem : c ∈ candidatesOf log) (acc : Assembly) :
    (assembleOne spec env merged (runRewrites spec env log merged) acc c).sealedSegs =
      acc.sealedSegs ++ segmentAfter (runRewrites spec env log merged) c := by
  have hkept : dispositionOf spec env merged c ≠ .wantRewrite →
      segmentAfter (runRewrites spec env log merged) c = [c.seg] := by
    intro hdisp
    unfold segmentAfter
    rw [not_installed_of_ne_wantRewrite hmem hdisp]
  unfold assembleOne
  cases hdisp : dispositionOf spec env merged c with
  | keepProtected => simp [hkept (by simp [hdisp])]
  | keepConverged => simp [hkept (by simp [hdisp])]
  | wantRewrite =>
    cases (runRewrites spec env log merged).done c.index with
    | none => rfl
    | some result => rfl

theorem assemble_sealedSegs (spec : CleanSpec) (env : PassEnv) (log : LogView)
    (merged : MergeResult) :
    (assemble spec env log merged).sealedSegs = (candidatesOf log).flatMap
        (segmentAfter (runRewrites spec env log merged)) := by
  unfold assemble
  have hfold : ∀ (items : List Candidate) (acc : Assembly), (∀ c ∈ items, c ∈ candidatesOf log) →
      (items.foldl (assembleOne spec env merged (runRewrites spec env log merged)) acc).sealedSegs =
        acc.sealedSegs ++ items.flatMap (segmentAfter (runRewrites spec env log merged)) := by
    intro items
    induction items with
    | nil => simp
    | cons c items ih =>
      intro acc hmem
      rw [foldl_cons, ih _ (fun d hd => hmem d (mem_cons_of_mem _ hd)),
        assembleOne_sealedSegs (hmem c mem_cons_self)]
      simp
  simpa using hfold (candidatesOf log) ⟨[], -1, true⟩ (fun _ h => h)

end CommitLog
