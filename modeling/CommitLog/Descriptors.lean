import CommitLog.Runs

/-!
# The descriptor of a log

A log records what it was created with in its directory and in every tier it
may write.  Each open settles the options of the caller against the record of
the nearest tier, or of the directory when there are no tiers, and may write
the record anew in all of these places, the directory first.
-/

namespace CommitLog

open List Runs

/-- The settings `enforced` compares. -/
structure Gating where
  compact : Bool
  compactMinAge : ℤ
  compactTombstoneRetention : ℤ
deriving DecidableEq

structure Descriptor where
  gating : Gating
  compression : ℕ
  maxSegmentBytes : ℤ
  identity : List UInt8
  tiered : Bool
deriving DecidableEq

inductive StoredDescriptor
  | absent
  | unreadable
  | recorded (d : Descriptor)
deriving DecidableEq

structure DescriptorTier where
  store : ℕ
  readOnly : Bool

structure DescriptorOptions where
  gating : Gating
  compression : ℕ
  maxSegmentBytes : ℤ
  identity : List UInt8
  tiers : List DescriptorTier
  adoptOptions : Bool
  adoptIdentity : Bool

/-- What is stored in the directory (`none`) and in each store, and whether
the directory has a log file. -/
structure DescriptorState where
  stored : Option ℕ → StoredDescriptor
  hasLog : Bool

def descriptorFromOptions (opts : DescriptorOptions) : Descriptor where
  gating := opts.gating
  compression := opts.compression
  maxSegmentBytes := opts.maxSegmentBytes
  identity := opts.identity
  tiered := !opts.tiers.isEmpty

def logIsNew (opts : DescriptorOptions) (s : DescriptorState) : Bool :=
  if opts.tiers.isEmpty then !s.hasLog
  else opts.tiers.all fun t => decide (s.stored (some t.store) = .absent)

/-- Where `loadDescriptor` reads. -/
def DescriptorOptions.home (opts : DescriptorOptions) : Option ℕ :=
  opts.tiers.head?.map DescriptorTier.store

/-- Where `publishDescriptor` writes, in this order. -/
def DescriptorOptions.places (opts : DescriptorOptions) : List (Option ℕ) :=
  none :: (opts.tiers.filter fun t => !t.readOnly).map fun t => some t.store

structure IdentityConflict where
  stored : List UInt8
  opened : List UInt8
deriving DecidableEq

def identityConflict (stored opened : List UInt8) : Option IdentityConflict :=
  if opened = [] ∨ stored = opened then none else some ⟨stored, opened⟩

inductive Settlement
  | mismatch
  | unreadable
  | publish (d : Descriptor)
  | keep (conflict : Option IdentityConflict)

/-- The value of `fresh` when it is published. -/
def freshDescriptor (opts : DescriptorOptions) (got : Descriptor) : Descriptor :=
  let want := descriptorFromOptions opts
  let fresh := if opts.adoptOptions then { want with identity := got.identity }
    else got
  { fresh with
    compression := want.compression
    maxSegmentBytes := want.maxSegmentBytes
    identity := if opts.adoptIdentity then want.identity else fresh.identity }

/-- `reconcileDescriptor` from a record that was read. -/
def settleDescriptor (opts : DescriptorOptions) (got : Descriptor) : Settlement :=
  let want := descriptorFromOptions opts
  if got.tiered = true ∧ opts.tiers = [] then .mismatch
  else if opts.adoptOptions = false ∧ got.gating ≠ want.gating then .mismatch
  else if opts.adoptIdentity then .publish (freshDescriptor opts got)
  else
    match identityConflict got.identity want.identity with
    | some conflict => .keep (some conflict)
    | none =>
      if opts.adoptOptions = true ∨ got.compression ≠ want.compression ∨
          got.maxSegmentBytes ≠ want.maxSegmentBytes then
        .publish (freshDescriptor opts got)
      else .keep none

def reconcileDescriptor (opts : DescriptorOptions) (s : DescriptorState) :
    Settlement :=
  if logIsNew opts s then .publish (descriptorFromOptions opts)
  else
    match s.stored opts.home with
    | .absent =>
      if opts.adoptOptions then .publish (descriptorFromOptions opts)
      else .mismatch
    | .unreadable => .unreadable
    | .recorded got => settleDescriptor opts got

inductive OpenOutcome
  | mismatch
  | unreadable
  | writeFailed
  | opened (conflict : Option IdentityConflict)
deriving DecidableEq

def DescriptorState.write (s : DescriptorState) (places : List (Option ℕ))
    (d : Descriptor) : DescriptorState :=
  { s with stored := fun p => if p ∈ places then .recorded d else s.stored p }

/-- An open of which the first `writes` writes succeed.  One that comes
through leaves a log file. -/
def DescriptorState.openLog (s : DescriptorState) (opts : DescriptorOptions)
    (writes : ℕ) : DescriptorState × OpenOutcome :=
  match reconcileDescriptor opts s with
  | .mismatch => (s, .mismatch)
  | .unreadable => (s, .unreadable)
  | .keep conflict => ({ s with hasLog := true }, .opened conflict)
  | .publish d =>
    let written := s.write (opts.places.take writes) d
    if opts.places.length ≤ writes then
      ({ written with hasLog := true }, .opened none)
    else (written, .writeFailed)

/-! ## What is asked of an open -/

def DescriptorState.HoldsData (s : DescriptorState) (opts : DescriptorOptions) :
    Prop :=
  s.hasLog = true ∨ ∃ t ∈ opts.tiers, s.stored (some t.store) ≠ .absent

/-- What is recorded where the open reads or writes is what the place it
reads from records. -/
def DescriptorState.Coherent (s : DescriptorState) (opts : DescriptorOptions) :
    Prop :=
  ∀ p ∈ opts.home :: opts.places, ∀ d, s.stored p = .recorded d →
    ∃ e, s.stored opts.home = .recorded e ∧ e.identity = d.identity ∧ e.gating = d.gating

/-- Every record of `s` is still there in `t`, with the same `f`. -/
def DescriptorState.Retains {β : Type} (f : Descriptor → β) (s t : DescriptorState) : Prop :=
  ∀ p d, s.stored p = .recorded d → ∃ e, t.stored p = .recorded e ∧ f e = f d

structure DescriptorStable (s : DescriptorState) (opts : DescriptorOptions)
    (writes : ℕ) : Prop where
  identity : opts.adoptIdentity = false → s.Retains Descriptor.identity (s.openLog opts writes).1
  gating : opts.adoptOptions = false → s.Retains Descriptor.gating (s.openLog opts writes).1
  refused : opts.adoptOptions = false → ∀ p ∈ opts.home :: opts.places, ∀ d,
    s.stored p = .recorded d → d.gating ≠ opts.gating → s.openLog opts writes = (s, .mismatch)
  reported : opts.adoptIdentity = false → opts.identity ≠ [] →
    ∀ p ∈ opts.home :: opts.places, ∀ d, s.stored p = .recorded d →
      d.identity ≠ opts.identity → ∀ conflict,
      (s.openLog opts writes).2 = .opened conflict → conflict = some ⟨d.identity, opts.identity⟩
  repeated : (s.openLog opts writes).2 = .opened none → ∀ again,
    ((s.openLog opts writes).1.openLog opts again).1.stored = (s.openLog opts writes).1.stored

/-! ## One open -/

section Open

variable {s : DescriptorState} {opts : DescriptorOptions} {writes : ℕ}

theorem logIsNew_of_recorded {e : Descriptor} (hdata : s.HoldsData opts)
    (hhome : s.stored opts.home = .recorded e) : logIsNew opts s = false := by
  cases htiers : opts.tiers with
  | nil =>
    have hlog : s.hasLog = true := by
      simpa [DescriptorState.HoldsData, htiers] using hdata
    simp [logIsNew, htiers, hlog]
  | cons t tiers =>
    have hstore : s.stored (some t.store) = .recorded e := by
      simpa [DescriptorOptions.home, htiers] using hhome
    simp [logIsNew, htiers, hstore]

theorem identity_freshDescriptor (hadopt : opts.adoptIdentity = false)
    (got : Descriptor) : (freshDescriptor opts got).identity = got.identity := by
  cases hoptions : opts.adoptOptions <;>
    simp [freshDescriptor, hadopt, hoptions]

theorem gating_freshDescriptor (hadopt : opts.adoptOptions = false)
    (got : Descriptor) : (freshDescriptor opts got).gating = got.gating := by
  simp [freshDescriptor, hadopt]

theorem freshDescriptor_want (opts : DescriptorOptions) :
    freshDescriptor opts (descriptorFromOptions opts) =
      descriptorFromOptions opts := by
  cases hoptions : opts.adoptOptions <;>
    cases hidentity : opts.adoptIdentity <;>
    simp [freshDescriptor, hoptions, hidentity]

theorem freshDescriptor_idem (opts : DescriptorOptions) (got : Descriptor) :
    freshDescriptor opts (freshDescriptor opts got) =
      freshDescriptor opts got := by
  cases hoptions : opts.adoptOptions <;>
    cases hidentity : opts.adoptIdentity <;>
    simp [freshDescriptor, hoptions, hidentity]

theorem settleDescriptor_publish {got d : Descriptor}
    (hsettle : settleDescriptor opts got = .publish d) : d = freshDescriptor opts got := by
  simp only [settleDescriptor] at hsettle
  split at hsettle
  · cases hsettle
  split at hsettle
  · cases hsettle
  split at hsettle
  · cases hsettle
    rfl
  cases hconflict : identityConflict got.identity (descriptorFromOptions opts).identity with
  | some conflict =>
    simp only [hconflict] at hsettle
    cases hsettle
  | none =>
    simp only [hconflict] at hsettle
    split at hsettle
    · cases hsettle
      rfl
    · cases hsettle

/-- The place an open publishes from: nothing recorded there, or a record. -/
theorem reconcileDescriptor_publish {d : Descriptor}
    (hpublish : reconcileDescriptor opts s = .publish d) :
    (d = descriptorFromOptions opts ∧ (logIsNew opts s = true ∨ s.stored opts.home = .absent)) ∨
      ∃ got, logIsNew opts s = false ∧ s.stored opts.home = .recorded got ∧
        d = freshDescriptor opts got := by
  unfold reconcileDescriptor at hpublish
  cases hnew : logIsNew opts s with
  | true =>
    simp only [hnew, if_true] at hpublish
    cases hpublish
    exact .inl ⟨rfl, .inl rfl⟩
  | false =>
    simp only [hnew, Bool.false_eq_true, if_false] at hpublish
    cases hhome : s.stored opts.home with
    | absent =>
      simp only [hhome] at hpublish
      split_ifs at hpublish
      cases hpublish
      exact .inl ⟨rfl, .inr rfl⟩
    | unreadable => simp [hhome] at hpublish
    | recorded got =>
      simp only [hhome] at hpublish
      exact .inr ⟨got, rfl, rfl, settleDescriptor_publish hpublish⟩

theorem reconcileDescriptor_of_recorded {e : Descriptor}
    (hdata : s.HoldsData opts) (hhome : s.stored opts.home = .recorded e) :
    reconcileDescriptor opts s = settleDescriptor opts e := by
  simp [reconcileDescriptor, logIsNew_of_recorded hdata hhome, hhome]

theorem DescriptorState.Coherent.retains {β : Type} {f : Descriptor → β}
    (hcoherent : s.Coherent opts) (hdata : s.HoldsData opts)
    (hagrees : ∀ d e : Descriptor, e.identity = d.identity → e.gating = d.gating → f e = f d)
    (hfresh : ∀ got, f (freshDescriptor opts got) = f got) :
    s.Retains f (s.openLog opts writes).1 := by
  intro p d hp
  cases hreconcile : reconcileDescriptor opts s with
  | mismatch => exact ⟨d, by simpa [openLog, hreconcile] using hp, rfl⟩
  | unreadable => exact ⟨d, by simpa [openLog, hreconcile] using hp, rfl⟩
  | keep conflict => exact ⟨d, by simpa [openLog, hreconcile] using hp, rfl⟩
  | publish fresh =>
    have hstored : (s.openLog opts writes).1.stored p =
        if p ∈ opts.places.take writes then .recorded fresh
        else s.stored p := by
      simp only [openLog, hreconcile]
      split_ifs <;> simp_all [write]
    rw [hstored]
    split_ifs with hwritten
    · have htouched : p ∈ opts.home :: opts.places :=
        mem_cons_of_mem _ (mem_of_mem_take hwritten)
      obtain ⟨e, hhome, hidentity, hgating⟩ := hcoherent p htouched d hp
      rw [reconcileDescriptor_of_recorded hdata hhome] at hreconcile
      refine ⟨fresh, rfl, ?_⟩
      rw [settleDescriptor_publish hreconcile, hfresh]
      exact hagrees d e hidentity hgating
    · exact ⟨d, hp, rfl⟩

theorem home_absent_of_new (hnew : logIsNew opts s = true) (hunwritten : opts.home ∉ opts.places) :
    s.stored opts.home = .absent := by
  cases htiers : opts.tiers with
  | nil => simp [DescriptorOptions.home, DescriptorOptions.places, htiers] at hunwritten
  | cons t tiers =>
    have hall : s.stored (some t.store) = .absent := by
      simp only [logIsNew, htiers, isEmpty_cons, Bool.false_eq_true,
        if_false, all_cons, Bool.and_eq_true, decide_eq_true_eq] at hnew
      exact hnew.1
    simpa [DescriptorOptions.home, htiers] using hall

theorem publish_again {d d' : Descriptor} (hpublish : reconcileDescriptor opts s = .publish d)
    (hagain : reconcileDescriptor opts
      { s.write opts.places d with hasLog := true } = .publish d') :
    d' = d := by
  rcases reconcileDescriptor_publish hagain with ⟨hd', hplace⟩ | ⟨got', -, hhome', hd'⟩
  · rcases reconcileDescriptor_publish hpublish with ⟨hd, -⟩ | ⟨got, hold, hhome, hd⟩
    · rw [hd', hd]
    · -- A home that was recorded is still recorded, so the log is not new.
      exfalso
      obtain ⟨e, he⟩ : ∃ e, (s.write opts.places d).stored opts.home =
          .recorded e := by
        simp only [DescriptorState.write]
        split_ifs
        · exact ⟨d, rfl⟩
        · exact ⟨got, hhome⟩
      rcases hplace with hnew | habsent
      · have hdata : ({ s.write opts.places d with hasLog := true } :
            DescriptorState).HoldsData opts := .inl rfl
        rw [logIsNew_of_recorded hdata he] at hnew
        cases hnew
      · rw [show ({ s.write opts.places d with hasLog := true } :
          DescriptorState).stored opts.home = .recorded e from he] at habsent
        cases habsent
  · simp only [DescriptorState.write] at hhome'
    split_ifs at hhome' with hwritten
    · cases hhome'
      rcases reconcileDescriptor_publish hpublish with ⟨hd, -⟩ | ⟨got, -, -, hd⟩
      · rw [hd', hd, freshDescriptor_want]
      · rw [hd', hd, freshDescriptor_idem]
    · rcases reconcileDescriptor_publish hpublish with ⟨hd, hplace⟩ | ⟨got, -, hhome, hd⟩
      · have habsent : s.stored opts.home = .absent := by
          rcases hplace with hnew | habsent
          · exact home_absent_of_new hnew hwritten
          · exact habsent
        rw [habsent] at hhome'
        cases hhome'
      · rw [hhome] at hhome'
        cases hhome'
        rw [hd', hd]

theorem DescriptorState.stored_openLog_again
    (hopened : (s.openLog opts writes).2 = .opened none) (again : ℕ) :
    ((s.openLog opts writes).1.openLog opts again).1.stored = (s.openLog opts writes).1.stored := by
  cases hreconcile : reconcileDescriptor opts s with
  | mismatch => simp [openLog, hreconcile] at hopened
  | unreadable => simp [openLog, hreconcile] at hopened
  | keep conflict =>
    -- Nothing was written, and what was settled is settled the same way.
    have hfirst : (s.openLog opts writes).1 = { s with hasLog := true } := by
      simp [openLog, hreconcile]
    have hnew : logIsNew opts s = false := by
      cases hnew : logIsNew opts s with
      | false => rfl
      | true => simp [reconcileDescriptor, hnew] at hreconcile
    have hnew' : logIsNew opts { s with hasLog := true } = false := by
      unfold logIsNew at hnew ⊢
      split_ifs at hnew ⊢
      · rfl
      · exact hnew
    have hagain : reconcileDescriptor opts { s with hasLog := true } =
        .keep conflict := by
      rw [← hreconcile]
      simp [reconcileDescriptor, hnew, hnew']
    rw [hfirst]
    simp [openLog, hagain]
  | publish d =>
    have hall : opts.places.length ≤ writes := by
      by_contra hless
      simp [openLog, hreconcile, hless] at hopened
    have hfirst : (s.openLog opts writes).1 = { s.write opts.places d with hasLog := true } := by
      simp [openLog, hreconcile, hall, take_of_length_le hall]
    rw [hfirst]
    cases hagain : reconcileDescriptor opts { s.write opts.places d with hasLog := true } with
    | mismatch => simp [openLog, hagain]
    | unreadable => simp [openLog, hagain]
    | keep conflict => simp [openLog, hagain]
    | publish d' =>
      have hsame := publish_again hreconcile hagain
      subst hsame
      funext p
      have hwritten : p ∈ opts.places.take again → p ∈ opts.places :=
        mem_of_mem_take
      simp only [openLog, hagain]
      split_ifs <;> simp only [write] <;> split_ifs <;> simp_all

theorem descriptorStable_of_coherent (hdata : s.HoldsData opts)
    (hcoherent : s.Coherent opts) (writes : ℕ) :
    DescriptorStable s opts writes where
  identity hadopt := hcoherent.retains hdata (fun _ _ hidentity _ => hidentity)
    (identity_freshDescriptor hadopt)
  gating hadopt := hcoherent.retains hdata (fun _ _ _ hgating => hgating)
    (gating_freshDescriptor hadopt)
  refused := by
    intro hadopt p hp d hd hdiffers
    obtain ⟨e, hhome, -, hgating⟩ := hcoherent p hp d hd
    have hsettle : settleDescriptor opts e = .mismatch := by
      rw [← hgating] at hdiffers
      simp [settleDescriptor, descriptorFromOptions, hadopt, hdiffers]
    simp [DescriptorState.openLog, reconcileDescriptor_of_recorded hdata hhome, hsettle]
  reported := by
    intro hadopt hnonempty p hp d hd hdiffers conflict hopened
    obtain ⟨e, hhome, hidentity, -⟩ := hcoherent p hp d hd
    rw [← hidentity] at hdiffers ⊢
    have hconflict : identityConflict e.identity opts.identity =
        some ⟨e.identity, opts.identity⟩ := by
      simp [identityConflict, hnonempty, hdiffers]
    simp only [DescriptorState.openLog, reconcileDescriptor_of_recorded hdata hhome,
      settleDescriptor, descriptorFromOptions, hadopt, hconflict] at hopened
    split_ifs at hopened <;> simp_all
  repeated := DescriptorState.stored_openLog_again

end Open

/-! ## Runs of opens -/

theorem DescriptorState.Retains.trans {β : Type} {f : Descriptor → β} {s t u : DescriptorState}
    (hst : s.Retains f t) (htu : t.Retains f u) : s.Retains f u := by
  intro p d hp
  obtain ⟨e, he, hfe⟩ := hst p d hp
  obtain ⟨e', he', hfe'⟩ := htu p e he
  exact ⟨e', he', hfe'.trans hfe⟩

/-- An open, with the number of its writes that succeed, of a log that holds
data and whose records agree. -/
def DescriptorStep (s : DescriptorState) (o : DescriptorOptions × ℕ) (t : DescriptorState) : Prop :=
  s.HoldsData o.1 ∧ s.Coherent o.1 ∧ t = (s.openLog o.1 o.2).1

theorem retains_of_run {β : Type} {f : Descriptor → β} {adopts : DescriptorOptions → Bool}
    {s t : DescriptorState} {opens : List (DescriptorOptions × ℕ)}
    (hstep : ∀ s o t, DescriptorStep s o t → adopts o.1 = false → s.Retains f t)
    (hrun : Run DescriptorStep s opens t) (hnone : ∀ o ∈ opens, adopts o.1 = false) :
    s.Retains f t := by
  induction hrun with
  | nil => exact fun p d hp => ⟨d, hp, rfl⟩
  | cons hopen _ ih =>
    have hfirst := hstep _ _ _ hopen (hnone _ mem_cons_self)
    exact hfirst.trans (ih fun o ho => hnone o (mem_cons_of_mem _ ho))

/-- Over every run of opens that find the records of the log in agreement,
what is recorded stays as long as nothing is adopted, and the next open of
this kind is stable. -/
theorem descriptors_stable {s t : DescriptorState}
    {opens : List (DescriptorOptions × ℕ)} (hrun : Run DescriptorStep s opens t) :
    ((∀ o ∈ opens, o.1.adoptIdentity = false) → s.Retains Descriptor.identity t) ∧
      ((∀ o ∈ opens, o.1.adoptOptions = false) → s.Retains Descriptor.gating t) ∧
      ∀ opts writes, t.HoldsData opts → t.Coherent opts →
        DescriptorStable t opts writes := by
  refine ⟨?_, ?_, ?_⟩
  · apply retains_of_run _ hrun
    rintro s o t ⟨hdata, hcoherent, rfl⟩ hadopt
    exact (descriptorStable_of_coherent hdata hcoherent o.2).identity hadopt
  · apply retains_of_run _ hrun
    rintro s o t ⟨hdata, hcoherent, rfl⟩ hadopt
    exact (descriptorStable_of_coherent hdata hcoherent o.2).gating hadopt
  · intro opts writes hdata hcoherent
    exact descriptorStable_of_coherent hdata hcoherent writes

def unadopted (tiers : List DescriptorTier) (compact : Bool)
    (identity : List UInt8) : DescriptorOptions :=
  ⟨⟨compact, 0, 0⟩, 0, 1000, identity, tiers, false, false⟩

/-- A compacted local log with data and the identity `[1]`. -/
def localLog : DescriptorState where
  stored
    | none => .recorded (descriptorFromOptions (unadopted [] true [1]))
    | some _ => .absent
  hasLog := true

/-- Opened with an empty store and other settings, it is taken for new: the
open succeeds, and both records are gone. -/
theorem attached_store_erases_record : (localLog.openLog (unadopted [⟨0, false⟩] false []) 2).2 =
        .opened none ∧
      (localLog.openLog (unadopted [⟨0, false⟩] false []) 2).1.stored none =
        .recorded (descriptorFromOptions (unadopted [⟨0, false⟩] false [])) ∧
      ¬ DescriptorStable localLog (unadopted [⟨0, false⟩] false []) 2 := by
  have hstored : (localLog.openLog (unadopted [⟨0, false⟩] false [])
      2).1.stored none = .recorded (descriptorFromOptions (unadopted [⟨0, false⟩] false [])) := by
    decide +kernel
  refine ⟨by decide +kernel, hstored, ?_⟩
  intro hstable
  obtain ⟨e, he, hidentity⟩ := hstable.identity rfl none _ rfl
  rw [hstored] at he
  cases he
  revert hidentity
  decide

/-- Opened as it was, the local log keeps its record. -/
theorem descriptors_stable_local : localLog.Retains Descriptor.identity
      (localLog.openLog (unadopted [] true [1]) 1).1 := by
  have hcoherent : localLog.Coherent (unadopted [] true [1]) := by
    intro p hp d hd
    have hnone : p = none := by
      simpa [DescriptorOptions.home, DescriptorOptions.places, unadopted] using hp
    subst hnone
    exact ⟨d, hd, rfl, rfl⟩
  have hstep : DescriptorStep localLog (unadopted [] true [1], 1)
      (localLog.openLog (unadopted [] true [1]) 1).1 :=
    ⟨.inl rfl, hcoherent, rfl⟩
  exact (descriptors_stable (.single hstep)).1 (by simp [unadopted])

end CommitLog
