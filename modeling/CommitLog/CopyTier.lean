import CommitLog.ManifestMerge

/-!
# Copying a tier into a fresh store

`CopyTier` copies every object the source's manifest names, then the
descriptor, then the manifest, into a store that holds neither of the last
two.  A copy that stops leaves a tier without a manifest.  It can be run again
unless it stopped at its very last call: the descriptor is there by then, and
the next run takes it for another log's.
-/

namespace CommitLog

open List

variable {calls : List CopyCall} {key : ObjectKey} {call : CopyCall}
variable {τ β δ : Type}

structure CopyStore (τ β δ : Type) where
  objects : ObjectKey → Option β
  descriptor : Option δ
  manifest : Option (List (TierObject τ))

/-- `readTierManifest`: the entries in base offset order; a store without a
manifest is an empty tier. -/
def CopyStore.readTierManifest (store : CopyStore τ β δ) : List (TierObject τ) :=
  (store.manifest.getD []).insertionSort fun a b => a.baseOffset ≤ b.baseOffset

/-- `copyTierObjects` takes the log object, the block table, the index. -/
def TierObject.copyOrder (object : TierObject τ) : List ObjectKey :=
  ⟨object.baseOffset, object.upload.id, .log⟩ :: ((if object.upload.blocks then
        [⟨object.baseOffset, object.upload.id, .blocks⟩] else []) ++
      (if object.upload.index then
        [⟨object.baseOffset, object.upload.id, .index⟩] else []))

theorem TierObject.mem_copyOrder {object : TierObject τ} :
    key ∈ object.copyOrder ↔ key ∈ object.keys := by
  simp only [copyOrder, TierObject.keys, Upload.keys, mem_cons, mem_append]
  tauto

inductive CopyCall
  | statManifest
  | statDescriptor
  | readManifest
  | readDescriptor
  | statObject (key : ObjectKey)
  | streamObject (key : ObjectKey)
  | putObject (key : ObjectKey)
  | putDescriptor
  | putManifest
deriving DecidableEq

inductive CopyError
  | holdsManifest
  | holdsDescriptor
  | noDescriptor
  | noObject (key : ObjectKey)
deriving DecidableEq

namespace CopyCall

/-- What a call that answers can still refuse. -/
def refuses (src dst : CopyStore τ β δ) : CopyCall → Option CopyError
  | .statManifest => if dst.manifest.isSome then some .holdsManifest else none
  | .statDescriptor =>
    if dst.descriptor.isSome then some .holdsDescriptor else none
  | .readDescriptor =>
    if src.descriptor.isNone then some .noDescriptor else none
  | .statObject key | .streamObject key =>
    if (src.objects key).isNone then some (.noObject key) else none
  | _ => none

def effect (src dst : CopyStore τ β δ) : CopyCall → CopyStore τ β δ
  | .putObject key =>
    { dst with objects := Function.update dst.objects key (src.objects key) }
  | .putDescriptor => { dst with descriptor := src.descriptor }
  | .putManifest => { dst with manifest := some src.readTierManifest }
  | _ => dst

end CopyCall

namespace CopyStore

def objectCalls (src : CopyStore τ β δ) : List CopyCall :=
  (src.readTierManifest.flatMap TierObject.copyOrder).flatMap fun key =>
    [.statObject key, .streamObject key, .putObject key]

/-- The calls of `CopyTier` in their order. -/
def copyCalls (src : CopyStore τ β δ) : List CopyCall :=
  .statManifest :: .statDescriptor :: .readManifest :: .readDescriptor ::
    (src.objectCalls ++ [.putDescriptor, .putManifest])

end CopyStore

inductive CopyOutcome
  | done
  | refused (error : CopyError)
  | interrupted
deriving DecidableEq

/-- The calls up to the one that fails, or at which the process stops. -/
def runCopy (src : CopyStore τ β δ) :
    ℕ → List CopyCall → CopyStore τ β δ → CopyStore τ β δ × CopyOutcome
  | _, [], dst => (dst, .done)
  | 0, _ :: _, dst => (dst, .interrupted)
  | fuel + 1, call :: rest, dst =>
    match call.refuses src dst with
    | some error => (dst, .refused error)
    | none => runCopy src fuel rest (call.effect src dst)

namespace CopyStore

/-- `CopyTier` with the number of the call that fails. -/
def copyUntil (src : CopyStore τ β δ) (failing : ℕ)
    (dst : CopyStore τ β δ) : CopyStore τ β δ × CopyOutcome :=
  runCopy src failing src.copyCalls dst

/-- `CopyTier` where every call answers. -/
def copyTier (src dst : CopyStore τ β δ) : CopyStore τ β δ × CopyOutcome :=
  src.copyUntil src.copyCalls.length dst

/-- A tier that can be handed over: it belongs to a log and holds what its
manifest names. -/
structure Whole (src : CopyStore τ β δ) : Prop where
  descriptor : src.descriptor.isSome = true
  objects : ∀ object ∈ src.readTierManifest, ∀ key ∈ object.keys, (src.objects key).isSome = true

structure Unclaimed (dst : CopyStore τ β δ) : Prop where
  manifest : dst.manifest = none
  descriptor : dst.descriptor = none

/-- The copy says and holds what the source does. -/
structure CopyOf (src dst : CopyStore τ β δ) : Prop where
  manifest : dst.readTierManifest = src.readTierManifest
  descriptor : dst.descriptor = src.descriptor
  objects : ∀ object ∈ src.readTierManifest, ∀ key ∈ object.keys, dst.objects key = src.objects key

/-- After a failure the destination is an empty tier, and another run makes
the copy. -/
def Resumable (src dst : CopyStore τ β δ) (failing : ℕ) : Prop :=
  let left := (src.copyUntil failing dst).1
  left.manifest = none ∧ (src.copyTier left).2 = .done ∧ src.CopyOf (src.copyTier left).1

/-! ## Runs without refusals -/

variable {src : CopyStore τ β δ}

theorem runCopy_eq (hpass : ∀ call ∈ calls, ∀ dst, call.refuses src dst = none) (fuel : ℕ)
    (dst : CopyStore τ β δ) :
    runCopy src fuel calls dst = ((calls.take fuel).foldl (fun dst call => call.effect src dst) dst,
        if fuel < calls.length then .interrupted else .done) := by
  induction calls generalizing fuel dst with
  | nil => simp [runCopy]
  | cons call rest ih =>
    cases fuel with
    | zero => simp [runCopy]
    | succ fuel =>
      rw [runCopy, hpass call mem_cons_self dst]
      simp only [take_succ_cons, foldl_cons, length_cons, Nat.add_lt_add_iff_right]
      exact ih (fun other hother =>
        hpass other (mem_cons_of_mem _ hother)) fuel _

theorem Whole.passes (hsrc : src.Whole) (hcall : call ∈ .readManifest :: .readDescriptor ::
      (src.objectCalls ++ [.putDescriptor, .putManifest]))
    (dst : CopyStore τ β δ) : call.refuses src dst = none := by
  simp only [mem_cons, mem_append, not_mem_nil, or_false] at hcall
  rcases hcall with rfl | rfl | hobject | rfl | rfl
  · rfl
  · simp [CopyCall.refuses, Option.isNone_iff_eq_none, Option.isSome_iff_ne_none.mp hsrc.descriptor]
  · obtain ⟨key, hkey, hcall⟩ := mem_flatMap.mp hobject
    obtain ⟨object, hmem, hin⟩ := mem_flatMap.mp hkey
    have hheld := hsrc.objects object hmem key (TierObject.mem_copyOrder.mp hin)
    simp only [mem_cons, not_mem_nil, or_false] at hcall
    rcases hcall with rfl | rfl | rfl <;>
      simp [CopyCall.refuses, Option.isSome_iff_ne_none.mp hheld]
  · rfl
  · rfl

variable {dst : CopyStore τ β δ}

theorem Whole.copyUntil_eq (hsrc : src.Whole) (hdst : dst.Unclaimed) (failing : ℕ) :
    src.copyUntil failing dst = ((src.copyCalls.take failing).foldl
          (fun dst call => call.effect src dst) dst,
        if failing < src.copyCalls.length then .interrupted else .done) := by
  cases failing with
  | zero => simp [copyUntil, copyCalls, runCopy]
  | succ failing =>
    have hmanifest : CopyCall.refuses src dst .statManifest = none := by
      simp [CopyCall.refuses, hdst.manifest]
    have hdescriptor : CopyCall.refuses src dst .statDescriptor = none := by
      simp [CopyCall.refuses, hdst.descriptor]
    cases failing with
    | zero => simp [copyUntil, copyCalls, runCopy, hmanifest, CopyCall.effect]
    | succ failing =>
      have hrun := runCopy_eq (fun call hcall dst => hsrc.passes hcall dst) failing dst
      simp only [copyUntil, copyCalls, runCopy, hmanifest, CopyCall.effect, hdescriptor, hrun,
        take_succ_cons, foldl_cons, length_cons, Nat.add_lt_add_iff_right]

/-! ## What the calls leave -/

theorem effects_manifest (hput : .putManifest ∉ calls) (dst : CopyStore τ β δ) :
    (calls.foldl (fun dst call => call.effect src dst) dst).manifest =
      dst.manifest := by
  induction calls generalizing dst with
  | nil => rfl
  | cons call rest ih =>
    rw [mem_cons, not_or] at hput
    rw [foldl_cons, ih hput.2]
    cases call <;> first | rfl | exact absurd rfl hput.1

theorem effects_descriptor (hput : .putDescriptor ∉ calls) (dst : CopyStore τ β δ) :
    (calls.foldl (fun dst call => call.effect src dst) dst).descriptor =
      dst.descriptor := by
  induction calls generalizing dst with
  | nil => rfl
  | cons call rest ih =>
    rw [mem_cons, not_or] at hput
    rw [foldl_cons, ih hput.2]
    cases call <;> first | rfl | exact absurd rfl hput.1

theorem effects_object (dst : CopyStore τ β δ)
    (hcopied : dst.objects key = src.objects key ∨ .putObject key ∈ calls) :
    (calls.foldl (fun dst call => call.effect src dst) dst).objects key =
      src.objects key := by
  induction calls generalizing dst with
  | nil =>
    cases hcopied with
    | inl hheld => exact hheld
    | inr hmem => cases hmem
  | cons call rest ih =>
    rw [foldl_cons]
    apply ih
    cases hcopied with
    | inl hheld =>
      left
      cases call with
      | putObject other =>
        by_cases hsame : key = other
        · simp [CopyCall.effect, hsame]
        · simp [CopyCall.effect, Function.update_of_ne hsame, hheld]
      | _ => exact hheld
    | inr hmem =>
      cases mem_cons.mp hmem with
      | inl heq =>
        left
        simp [← heq, CopyCall.effect]
      | inr hlater => exact .inr hlater

theorem not_mem_objectCalls (hput : call = .putDescriptor ∨ call = .putManifest) :
    call ∉ src.objectCalls := by
  intro hmem
  obtain ⟨key, _, hcall⟩ := mem_flatMap.mp hmem
  rcases hput with rfl | rfl <;> simp at hcall

def opening (src : CopyStore τ β δ) : List CopyCall :=
  .statManifest :: .statDescriptor :: .readManifest :: .readDescriptor :: src.objectCalls

theorem copyCalls_eq (src : CopyStore τ β δ) :
    src.copyCalls = src.opening ++ [.putDescriptor, .putManifest] := by
  simp [copyCalls, opening]

theorem not_mem_opening (hput : call = .putDescriptor ∨ call = .putManifest) :
    call ∉ src.opening := by
  have hobjects : call ∉ src.objectCalls := not_mem_objectCalls hput
  rcases hput with rfl | rfl <;> simp [opening, hobjects]

theorem opening_copies {object : TierObject τ} (hobject : object ∈ src.readTierManifest)
    (hkey : key ∈ object.keys) : .putObject key ∈ src.opening := by
  have hcall : CopyCall.putObject key ∈ src.objectCalls := by
    apply mem_flatMap.mpr
    refine ⟨key, mem_flatMap.mpr ⟨object, hobject, ?_⟩, by simp⟩
    exact TierObject.mem_copyOrder.mpr hkey
  simp [opening, hcall]

theorem readTierManifest_published (src : CopyStore τ β δ)
    (objects : ObjectKey → Option β) (descriptor : Option δ) :
    readTierManifest ⟨objects, descriptor, some src.readTierManifest⟩ =
      src.readTierManifest := by
  simp only [readTierManifest, Option.getD_some]
  apply Pairwise.insertionSort_eq
  exact pairwise_insertionSort _ _

theorem Whole.copyTier_unclaimed (hsrc : src.Whole) (hdst : dst.Unclaimed) :
    (src.copyTier dst).2 = .done ∧ src.CopyOf (src.copyTier dst).1 := by
  rw [copyTier, hsrc.copyUntil_eq hdst, take_length, copyCalls_eq, foldl_append]
  simp only [lt_irrefl, if_false, foldl_cons, foldl_nil, CopyCall.effect, true_and]
  constructor
  · exact readTierManifest_published src _ _
  · rfl
  · intro object hobject key hkey
    exact effects_object dst (.inr (opening_copies hobject hkey))

/-- The store a stopped copy leaves: no manifest, and a descriptor only if
every call but the last was made. -/
theorem Whole.left_by (hsrc : src.Whole) (hdst : dst.Unclaimed) {failing : ℕ}
    (hfails : failing < src.copyCalls.length) :
    (src.copyUntil failing dst).1.manifest = none ∧
      ((src.copyUntil failing dst).1.descriptor = none ↔ failing + 1 ≠ src.copyCalls.length) := by
  have hlength : src.copyCalls.length = src.opening.length + 2 := by
    simp [copyCalls_eq]
  rw [hsrc.copyUntil_eq hdst]
  by_cases hopening : failing ≤ src.opening.length
  · have htake : src.copyCalls.take failing = src.opening.take failing := by
      rw [copyCalls_eq, take_append_of_le_length hopening]
    have hfront : ∀ call, (call = CopyCall.putDescriptor ∨
        call = .putManifest) → call ∉ src.opening.take failing :=
      fun call hput hmem => not_mem_opening hput (mem_of_mem_take hmem)
    simp only [htake]
    constructor
    · rw [effects_manifest (hfront _ (.inr rfl))]
      exact hdst.manifest
    · rw [effects_descriptor (hfront _ (.inl rfl)), hdst.descriptor]
      simp only [true_iff]
      omega
  · have heq : failing = src.opening.length + 1 := by omega
    have htake : src.copyCalls.take failing = src.opening ++ [.putDescriptor] := by
      rw [copyCalls_eq, heq, take_length_add_append]
      rfl
    simp only [htake, foldl_append, foldl_cons, foldl_nil]
    constructor
    · change (src.opening.foldl _ dst).manifest = none
      rw [effects_manifest (not_mem_opening (.inr rfl))]
      exact hdst.manifest
    · change src.descriptor = none ↔ _
      have hdescriptor : src.descriptor ≠ none :=
        Option.isSome_iff_ne_none.mp hsrc.descriptor
      simp only [hdescriptor, false_iff, ne_eq, not_not]
      omega

theorem copyTier_claimed (hmanifest : dst.manifest = none) (hdescriptor : dst.descriptor ≠ none) :
    (src.copyTier dst).2 = .refused .holdsDescriptor := by
  have hstat : CopyCall.refuses src dst .statManifest = none := by
    simp [CopyCall.refuses, hmanifest]
  have hfound : CopyCall.refuses src dst .statDescriptor = some .holdsDescriptor := by
    simp [CopyCall.refuses, Option.isSome_iff_ne_none, hdescriptor]
  simp only [copyTier, copyUntil, copyCalls, length_cons, runCopy, hstat, CopyCall.effect, hfound]

/-- A copy that fails can be run again exactly when the call that failed was
not the last one. -/
theorem copy_resumable_iff {src dst : CopyStore τ β δ} (hsrc : src.Whole) (hdst : dst.Unclaimed)
    {failing : ℕ} (hfails : failing < src.copyCalls.length) :
    src.Resumable dst failing ↔ failing + 1 ≠ src.copyCalls.length := by
  obtain ⟨hmanifest, hdescriptor⟩ := hsrc.left_by hdst hfails
  constructor
  · rintro ⟨_, hdone, _⟩ hlast
    have hclaimed : (src.copyUntil failing dst).1.descriptor ≠ none :=
      fun hnone => hdescriptor.mp hnone hlast
    rw [copyTier_claimed hmanifest hclaimed] at hdone
    cases hdone
  · intro hlast
    have hagain := hsrc.copyTier_unclaimed ⟨hmanifest, hdescriptor.mpr hlast⟩
    exact ⟨hmanifest, hagain.1, hagain.2⟩

/-- A tier of one raw segment whose index is on local disk. -/
def oneSegmentTier : CopyStore Unit ℕ ℕ where
  objects key := if key = ⟨0, 1, .log⟩ then some 7 else none
  descriptor := some 3
  manifest := some [⟨0, (), ⟨1, false, false⟩, none⟩]

def emptyStore : CopyStore Unit ℕ ℕ := ⟨fun _ => none, none, none⟩

/-- The put of the manifest fails: the next run is refused. -/
theorem failed_manifest_put_refused :
    (oneSegmentTier.copyTier (oneSegmentTier.copyUntil 8 emptyStore).1).2 =
      .refused .holdsDescriptor ∧
    ¬ oneSegmentTier.Resumable emptyStore 8 := by
  have hrefused : (oneSegmentTier.copyTier (oneSegmentTier.copyUntil 8 emptyStore).1).2 =
      .refused .holdsDescriptor := by
    decide +kernel
  refine ⟨hrefused, ?_⟩
  rintro ⟨_, hdone, _⟩
  rw [hrefused] at hdone
  cases hdone

theorem oneSegmentTier_whole : oneSegmentTier.Whole := by
  constructor
  · rfl
  · intro object hobject key hkey
    have hentry : object = ⟨0, (), ⟨1, false, false⟩, none⟩ := by
      simpa [readTierManifest, oneSegmentTier] using hobject
    subst hentry
    have hlog : key = ⟨0, 1, .log⟩ := by
      simpa [TierObject.keys, Upload.keys] using hkey
    subst hlog
    rfl

theorem copy_resumable_iff_six : oneSegmentTier.Resumable emptyStore 6 ↔
      6 + 1 ≠ oneSegmentTier.copyCalls.length :=
  copy_resumable_iff oneSegmentTier_whole ⟨rfl, rfl⟩ (by decide +kernel)

end CopyStore

end CommitLog
