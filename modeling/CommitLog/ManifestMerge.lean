import CommitLog.Runs

/-!
# Merging the manifests of several tiers

Every tier's store says what it holds.  A log that opens takes all entries
together: a segment claimed once is taken as it is claimed, a segment claimed
by two tiers only if one of them says it was moved there from the other, and
anything else refuses the open.  The tiers and the entries are visited in the
order of a map, and the answer does not depend on it.
-/

namespace CommitLog

open List

variable {baseOffset : ℤ} {visit : List ℤ}

inductive ObjectKind
  | log
  | index
  | blocks
deriving DecidableEq

/-- `newStoreKeys`: the base offset, the id of the upload, and the suffix. -/
structure ObjectKey where
  baseOffset : ℤ
  upload : ℕ
  kind : ObjectKind
deriving DecidableEq

/-- One upload of a segment and which of the two sidecars it has. -/
structure Upload where
  id : ℕ
  index : Bool
  blocks : Bool
deriving DecidableEq

/-- `objectKeys`: the log object, the index unless it stayed on local disk,
the block table of a block-compressed segment. -/
def Upload.keys (upload : Upload) (baseOffset : ℤ) : List ObjectKey :=
  ⟨baseOffset, upload.id, .log⟩ ::
    ((if upload.index then [⟨baseOffset, upload.id, .index⟩] else []) ++
      (if upload.blocks then [⟨baseOffset, upload.id, .blocks⟩] else []))

variable {τ : Type}

/-- An entry of a tier's manifest. -/
structure TierObject (τ : Type) where
  baseOffset : ℤ
  tier : τ
  upload : Upload
  movedFrom : Option τ
deriving DecidableEq

instance : Std.Total fun a b : TierObject τ => a.baseOffset ≤ b.baseOffset :=
  ⟨fun a b => le_total a.baseOffset b.baseOffset⟩

instance : IsTrans (TierObject τ) fun a b => a.baseOffset ≤ b.baseOffset :=
  ⟨fun _ _ _ hab hbc => le_trans hab hbc⟩

def TierObject.keys (object : TierObject τ) : List ObjectKey :=
  object.upload.keys object.baseOffset

/-- Every entry with the tier whose manifest it was read from. -/
def claimsIn (perTier : List (τ × List (TierObject τ))) : List (τ × TierObject τ) :=
  perTier.flatMap fun tier => tier.2.map (tier.1, ·)

def claimsOf (claims : List (τ × TierObject τ)) (baseOffset : ℤ) : List (τ × TierObject τ) :=
  claims.filter (·.2.baseOffset = baseOffset)

variable {claims : List (τ × TierObject τ)} {claim : τ × TierObject τ}

theorem mem_claimsOf :
    claim ∈ claimsOf claims baseOffset ↔ claim ∈ claims ∧ claim.2.baseOffset = baseOffset := by
  simp [claimsOf]

def claimedBases (claims : List (τ × TierObject τ)) : List ℤ :=
  (claims.map (·.2.baseOffset)).dedup

theorem mem_claimedBases :
    baseOffset ∈ claimedBases claims ↔ ∃ claim ∈ claims, claim.2.baseOffset = baseOffset := by
  simp [claimedBases]

/-- Tiers that claim one segment with nothing to say why. -/
structure ManifestConflict (τ : Type) where
  tiers : List τ
  baseOffset : ℤ

variable [DecidableEq τ]

/-- `resolveInterruptedMove`, with the single claim that needs no resolving:
of two claims the one that names the other's tier as the one it was moved
from wins. -/
def resolveClaims (baseOffset : ℤ) : List (τ × TierObject τ) →
      Except (ManifestConflict τ) (τ × TierObject τ)
  | [claim] => .ok claim
  | [a, b] =>
    if a.2.movedFrom = some b.1 ∧ b.2.movedFrom ≠ some a.1 then .ok a
    else if b.2.movedFrom = some a.1 ∧ a.2.movedFrom ≠ some b.1 then .ok b
    else .error ⟨[a.1, b.1], baseOffset⟩
  | claims => .error ⟨claims.map Prod.fst, baseOffset⟩

def mergeClaims (claims : List (τ × TierObject τ)) :
    List ℤ → Except (ManifestConflict τ) (List (TierObject τ))
  | [] => .ok []
  | baseOffset :: rest =>
    match resolveClaims baseOffset (claimsOf claims baseOffset), mergeClaims claims rest with
    | .ok claim, .ok objects => .ok (claim.2 :: objects)
    | .error conflict, _ => .error conflict
    | _, .error conflict => .error conflict

/-- `mergeTierManifests`: the answer is sorted by base offset. -/
def mergeTierManifests (claims : List (τ × TierObject τ)) (visit : List ℤ) :
    Except (ManifestConflict τ) (List (TierObject τ)) :=
  match mergeClaims claims visit with
  | .ok objects => .ok (objects.insertionSort fun a b => a.baseOffset ≤ b.baseOffset)
  | .error conflict => .error conflict

/-! ## What a merge takes -/

theorem mem_of_resolveClaims (hresolve : resolveClaims baseOffset claims = .ok claim) :
    claim ∈ claims := by
  match claims, hresolve with
  | [], hresolve => cases hresolve
  | [single], hresolve =>
    cases hresolve
    exact mem_singleton_self claim
  | [a, b], hresolve =>
    simp only [resolveClaims] at hresolve
    split at hresolve
    · cases hresolve
      simp
    · split at hresolve
      · cases hresolve
        simp
      · cases hresolve
  | a :: b :: c :: rest, hresolve => cases hresolve

variable {objects : List (TierObject τ)}

theorem mergeClaims_cons {rest : List ℤ}
    (hmerge : mergeClaims claims (baseOffset :: rest) = .ok objects) :
    ∃ claim others, resolveClaims baseOffset (claimsOf claims baseOffset) = .ok claim ∧
        mergeClaims claims rest = .ok others ∧ objects = claim.2 :: others := by
  cases hresolve : resolveClaims baseOffset (claimsOf claims baseOffset) with
  | error conflict =>
    rw [mergeClaims, hresolve] at hmerge
    cases hmerge
  | ok claim =>
    cases hrest : mergeClaims claims rest with
    | error conflict =>
      rw [mergeClaims, hresolve, hrest] at hmerge
      cases hmerge
    | ok others =>
      rw [mergeClaims, hresolve, hrest] at hmerge
      exact ⟨claim, others, rfl, rfl, (Except.ok.inj hmerge).symm⟩

theorem of_mergeClaims {bases : List ℤ} (hmerge : mergeClaims claims bases = .ok objects) :
    objects.map (·.baseOffset) = bases ∧ ∀ object, object ∈ objects ↔ ∃ baseOffset ∈ bases, ∃ claim,
        resolveClaims baseOffset (claimsOf claims baseOffset) = .ok claim ∧ claim.2 = object := by
  induction bases generalizing objects with
  | nil =>
    cases hmerge
    simp
  | cons baseOffset bases ih =>
    obtain ⟨claim, others, hresolve, hrest, rfl⟩ := mergeClaims_cons hmerge
    obtain ⟨hbases, hmem⟩ := ih hrest
    have hbase := (mem_claimsOf.mp (mem_of_resolveClaims hresolve)).2
    refine ⟨by simp [hbase, hbases], ?_⟩
    intro object
    simp only [mem_cons, hmem, exists_eq_or_imp, hresolve, Except.ok.injEq, exists_eq_left']
    constructor
    · rintro (rfl | hlater)
      · exact .inl rfl
      · exact .inr hlater
    · rintro (hfirst | hlater)
      · exact .inl hfirst.symm
      · exact .inr hlater

theorem of_mergeTierManifests (hmerge : mergeTierManifests claims visit = .ok objects) :
    (objects.map (·.baseOffset)).Perm visit ∧
      ∀ object, object ∈ objects ↔ ∃ baseOffset ∈ visit, ∃ claim,
        resolveClaims baseOffset (claimsOf claims baseOffset) = .ok claim ∧ claim.2 = object := by
  unfold mergeTierManifests at hmerge
  cases hvisit : mergeClaims claims visit with
  | error conflict =>
    rw [hvisit] at hmerge
    cases hmerge
  | ok found =>
    rw [hvisit] at hmerge
    obtain ⟨hbases, hmem⟩ := of_mergeClaims hvisit
    rw [← Except.ok.inj hmerge]
    constructor
    · rw [← hbases]
      exact (perm_insertionSort _ found).map _
    · intro object
      rw [mem_insertionSort, hmem]

/-! ## Orders of visiting -/

variable {claims' : List (τ × TierObject τ)}

theorem resolveClaims_perm (hperm : claims.Perm claims')
    (hresolve : resolveClaims baseOffset claims = .ok claim) :
    resolveClaims baseOffset claims' = .ok claim := by
  match claims, hresolve with
  | [], hresolve => cases hresolve
  | [single], hresolve =>
    rw [singleton_perm.mp hperm] at hresolve
    exact hresolve
  | [a, b], hresolve =>
    cases pair_perm.mp hperm with
    | inl hsame =>
      rw [hsame]
      exact hresolve
    | inr hswapped =>
      rw [hswapped]
      simp only [resolveClaims] at hresolve ⊢
      split at hresolve
      · rename_i ha
        cases hresolve
        rw [if_neg fun hb => ha.2 hb.1, if_pos ha]
      · split at hresolve
        · rename_i hb
          cases hresolve
          rw [if_pos hb]
        · cases hresolve
  | a :: b :: c :: rest, hresolve => cases hresolve

theorem mergeClaims_ok_iff :
    (∃ objects, mergeClaims claims visit = .ok objects) ↔ ∀ baseOffset ∈ visit, ∃ claim,
        resolveClaims baseOffset (claimsOf claims baseOffset) = .ok claim := by
  induction visit with
  | nil => simp [mergeClaims]
  | cons baseOffset rest ih =>
    rw [forall_mem_cons, ← ih]
    constructor
    · rintro ⟨objects, hmerge⟩
      obtain ⟨claim, others, hresolve, hrest, _⟩ := mergeClaims_cons hmerge
      exact ⟨⟨claim, hresolve⟩, others, hrest⟩
    · rintro ⟨⟨claim, hresolve⟩, others, hrest⟩
      exact ⟨claim.2 :: others, by rw [mergeClaims, hresolve, hrest]⟩

theorem mergeTierManifests_perm (hclaims : claims.Perm claims') {visit' : List ℤ}
    (hvisit : visit.Perm visit') (hnodup : visit.Nodup)
    (hmerge : mergeTierManifests claims visit = .ok objects) :
    mergeTierManifests claims' visit' = .ok objects := by
  have hresolves : ∀ baseOffset claim,
      resolveClaims baseOffset (claimsOf claims baseOffset) = .ok claim ↔
        resolveClaims baseOffset (claimsOf claims' baseOffset) = .ok claim :=
    fun baseOffset claim =>
      ⟨resolveClaims_perm (hclaims.filter _), resolveClaims_perm (hclaims.symm.filter _)⟩
  unfold mergeTierManifests at hmerge
  cases hfound : mergeClaims claims visit with
  | error conflict =>
    rw [hfound] at hmerge
    cases hmerge
  | ok found =>
    rw [hfound] at hmerge
    obtain ⟨found', hfound'⟩ : ∃ found', mergeClaims claims' visit' = .ok found' := by
      rw [mergeClaims_ok_iff]
      intro baseOffset hbase
      obtain ⟨claim, hresolve⟩ := mergeClaims_ok_iff.mp ⟨found, hfound⟩
        baseOffset (hvisit.mem_iff.mpr hbase)
      exact ⟨claim, (hresolves baseOffset claim).mp hresolve⟩
    obtain ⟨hbases, hmem⟩ := of_mergeClaims hfound
    obtain ⟨hbases', hmem'⟩ := of_mergeClaims hfound'
    have hnodup' : found.Nodup :=
      Nodup.of_map _ (hbases ▸ hnodup)
    have hperm : found.Perm found' := by
      apply (perm_ext_iff_of_nodup hnodup' (Nodup.of_map _ (hbases' ▸ hvisit.nodup hnodup))).mpr
      intro object
      rw [hmem, hmem']
      constructor
      · rintro ⟨baseOffset, hbase, claim, hresolve, heq⟩
        exact ⟨baseOffset, hvisit.mem_iff.mp hbase, claim,
          (hresolves baseOffset claim).mp hresolve, heq⟩
      · rintro ⟨baseOffset, hbase, claim, hresolve, heq⟩
        exact ⟨baseOffset, hvisit.mem_iff.mpr hbase, claim,
          (hresolves baseOffset claim).mpr hresolve, heq⟩
    rw [mergeTierManifests, hfound', ← Except.ok.inj hmerge]
    apply congrArg Except.ok
    apply Perm.eq_of_pairwise _ (pairwise_insertionSort _ _) (pairwise_insertionSort _ _)
    · exact (perm_insertionSort _ _).trans (hperm.symm.trans (perm_insertionSort _ _).symm)
    · intro a b ha hb hab hba
      rw [mem_insertionSort] at ha hb
      have hinj : Set.InjOn (·.baseOffset) {object | object ∈ found} := by
        intro a ha b hb heq
        exact inj_on_of_nodup_map (hbases ▸ hnodup) ha hb heq
      exact hinj (hperm.mem_iff.mpr ha) hb (le_antisymm hab hba)

end CommitLog
