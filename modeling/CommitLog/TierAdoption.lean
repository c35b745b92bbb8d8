import CommitLog.CopyTier

/-!
# Adopting what the tiers hold

An open adopts the segments of the merged manifests that its directory does
not have.  A claim carries two tiers: the one whose manifest it was read from
and the one it records.  The merge looks at the first, the adoption opens the
object over the store of the second.  The two are the same in a manifest the
tier's own log wrote, and differ in one that was copied to a store under
another name.
-/

namespace CommitLog

open List

variable {τ : Type} [DecidableEq τ]

inductive AdoptError (τ : Type)
  | noIndexCache (baseOffset : ℤ)
  | unknownTier (tier : τ)
  | rebuildIndex (baseOffset : ℤ)
deriving DecidableEq

/-- What an adoption finds: the configured tiers, whether there is a cache for
remote indexes, the base offsets of the directory's own segments, which
objects a store can open and which indexes can be rebuilt from them. -/
structure AdoptContext (τ : Type) where
  tiers : List τ
  indexCache : Bool
  held : List ℤ
  opens : τ → TierObject τ → Bool
  rebuilds : τ → TierObject τ → Bool

/-- `adoptTierManifestLocked`: every adopted entry with the tier its segment
reads from.  An object that does not open is skipped. -/
def AdoptContext.adoptTierManifest (context : AdoptContext τ) :
    List (TierObject τ) → List (τ × TierObject τ) × Option (AdoptError τ)
  | [] => ([], none)
  | object :: rest =>
    if object.baseOffset ∈ context.held then
      context.adoptTierManifest rest
    else if object.upload.index && !context.indexCache then
      ([], some (.noIndexCache object.baseOffset))
    else if object.tier ∉ context.tiers then
      ([], some (.unknownTier object.tier))
    else if !context.opens object.tier object then
      context.adoptTierManifest rest
    else if !object.upload.index && !context.rebuilds object.tier object then
      ([], some (.rebuildIndex object.baseOffset))
    else
      let later := context.adoptTierManifest rest
      ((object.tier, object) :: later.1, later.2)

variable {objects : List (TierObject τ)}

theorem AdoptContext.of_mem_adopted {context : AdoptContext τ} {adopted : τ × TierObject τ}
    (hadopted : adopted ∈ (context.adoptTierManifest objects).1) :
    adopted.2 ∈ objects ∧ adopted.1 = adopted.2.tier ∧ adopted.1 ∈ context.tiers := by
  induction objects with
  | nil => cases hadopted
  | cons object rest ih =>
    have hlater : adopted ∈ (context.adoptTierManifest rest).1 →
        adopted.2 ∈ object :: rest ∧ adopted.1 = adopted.2.tier ∧
          adopted.1 ∈ context.tiers := fun hmem =>
      ⟨mem_cons_of_mem _ (ih hmem).1, (ih hmem).2⟩
    unfold adoptTierManifest at hadopted
    split at hadopted
    · exact hlater hadopted
    split at hadopted
    · cases hadopted
    split at hadopted
    · cases hadopted
    rename_i htier
    split at hadopted
    · exact hlater hadopted
    split at hadopted
    · cases hadopted
    cases mem_cons.mp hadopted with
    | inl hfirst =>
      rw [hfirst]
      exact ⟨mem_cons_self, rfl, not_not.mp htier⟩
    | inr hmem => exact hlater hmem

/-- A directory that has every segment but those of one base, where every
store answers. -/
def AdoptContext.lacking (tiers : List τ) (objects : List (TierObject τ))
    (baseOffset : ℤ) : AdoptContext τ where
  tiers := tiers
  indexCache := true
  held := (objects.map (·.baseOffset)).filter (· ≠ baseOffset)
  opens := fun _ _ => true
  rebuilds := fun _ _ => true

theorem AdoptContext.adopts_lacking {tiers : List τ} (hnodup : (objects.map (·.baseOffset)).Nodup)
    {object : TierObject τ} (hobject : object ∈ objects) (htier : object.tier ∈ tiers) :
    (object.tier, object) ∈ ((lacking tiers objects object.baseOffset).adoptTierManifest
        objects).1 := by
  -- the induction runs over a tail, the directory stays that of the whole
  suffices hrun : ∀ rest : List (TierObject τ), rest ⊆ objects →
      object ∈ rest → (object.tier, object) ∈
        ((lacking tiers objects object.baseOffset).adoptTierManifest rest).1
    from hrun objects (Subset.refl _) hobject
  intro rest hsub hmem
  induction rest with
  | nil => cases hmem
  | cons first rest ih =>
    by_cases hfirst : first = object
    · subst hfirst
      simp [adoptTierManifest, htier, lacking]
    · have hbase : first.baseOffset ≠ object.baseOffset := fun heq =>
        hfirst (inj_on_of_nodup_map hnodup (hsub mem_cons_self) hobject heq)
      have hheld : first.baseOffset ∈ (lacking tiers objects object.baseOffset).held := by
        apply mem_filter.mpr
        refine ⟨mem_map_of_mem (hsub mem_cons_self), ?_⟩
        simpa using hbase
      rw [adoptTierManifest, if_pos hheld]
      apply ih fun other hother => hsub (mem_cons_of_mem _ hother)
      cases mem_cons.mp hmem with
      | inl heq => exact absurd heq.symm hfirst
      | inr hlater => exact hlater

/-! ## Winning claims -/

/-- The source of a move whose destination has the segment: the other claim
says it was moved out of this tier. -/
def Superseded (claims : List (τ × TierObject τ)) (claim : τ × TierObject τ) : Prop :=
  ∃ other ∈ claims, other.2.baseOffset = claim.2.baseOffset ∧
    other.2.movedFrom = some claim.1 ∧ claim.2.movedFrom ≠ some other.1

def Explained (claims : List (τ × TierObject τ)) : Prop :=
  ∀ baseOffset ∈ claimedBases claims, ∃ claim,
    resolveClaims baseOffset (claimsOf claims baseOffset) = .ok claim

variable {claims : List (τ × TierObject τ)} {claim : τ × TierObject τ}

omit [DecidableEq τ] in
theorem superseded_iff_claimsOf :
    Superseded claims claim ↔ ∃ other ∈ claimsOf claims claim.2.baseOffset,
        other.2.movedFrom = some claim.1 ∧ claim.2.movedFrom ≠ some other.1 := by
  simp only [Superseded, mem_claimsOf, and_assoc]

theorem resolveClaims_eq_iff {baseOffset : ℤ} {winner : τ × TierObject τ}
    (hresolve : resolveClaims baseOffset claims = .ok winner) (hclaim : claim ∈ claims) :
    claim = winner ↔ ¬ ∃ other ∈ claims,
      other.2.movedFrom = some claim.1 ∧ claim.2.movedFrom ≠ some other.1 := by
  match claims, hresolve with
  | [], hresolve => cases hresolve
  | [single], hresolve =>
    cases hresolve
    have hsingle := mem_singleton.mp hclaim
    subst hsingle
    simp
  | [a, b], hresolve =>
    simp only [mem_cons, not_mem_nil, or_false] at hclaim
    simp only [mem_cons, not_mem_nil, or_false, exists_eq_or_imp, exists_eq_left]
    simp only [resolveClaims] at hresolve
    split at hresolve
    · rename_i ha
      cases hresolve
      rcases hclaim with rfl | rfl
      · simp [ha.2]
      · simp only [ha, ne_eq, not_false_eq_true, and_self, true_or, not_true, iff_false]
        rintro rfl
        exact ha.2 ha.1
    · split at hresolve
      · rename_i hb
        cases hresolve
        rcases hclaim with rfl | rfl
        · simp only [hb, ne_eq, not_false_eq_true, and_self, or_true, not_true, iff_false]
          rintro rfl
          exact hb.2 hb.1
        · simp [hb.2]
      · cases hresolve
  | a :: b :: c :: rest, hresolve => cases hresolve

theorem mem_merged_iff {visit : List ℤ} (hvisit : visit.Perm (claimedBases claims))
    (hmerge : mergeTierManifests claims visit = .ok objects) {object : TierObject τ} :
    object ∈ objects ↔ ∃ tier, (tier, object) ∈ claims ∧ ¬ Superseded claims (tier, object) := by
  obtain ⟨hbases, hmem⟩ := of_mergeTierManifests hmerge
  rw [hmem]
  constructor
  · rintro ⟨baseOffset, _, claim, hresolve, rfl⟩
    have hclaim := mem_of_resolveClaims hresolve
    obtain ⟨hin, hbase⟩ := mem_claimsOf.mp hclaim
    refine ⟨claim.1, hin, ?_⟩
    rw [superseded_iff_claimsOf]
    change ¬ ∃ other ∈ claimsOf claims claim.2.baseOffset, _
    rw [hbase]
    exact (resolveClaims_eq_iff hresolve hclaim).mp rfl
  · rintro ⟨tier, hin, hwins⟩
    have hbase : object.baseOffset ∈ visit :=
      hvisit.mem_iff.mpr (mem_claimedBases.mpr ⟨_, hin, rfl⟩)
    have hmapped : object.baseOffset ∈ objects.map (·.baseOffset) :=
      hbases.mem_iff.mpr hbase
    obtain ⟨other, hother, hsame⟩ := mem_map.mp hmapped
    obtain ⟨baseOffset, hvisited, winner, hresolve, rfl⟩ :=
      (hmem other).mp hother
    have hbaseOffset := (mem_claimsOf.mp (mem_of_resolveClaims hresolve)).2
    have hclaim : (tier, object) ∈ claimsOf claims baseOffset :=
      mem_claimsOf.mpr ⟨hin, by rw [← hbaseOffset, hsame]⟩
    refine ⟨baseOffset, hvisited, winner, hresolve, ?_⟩
    rw [superseded_iff_claimsOf] at hwins
    have hwinner : (tier, object) = winner := by
      apply (resolveClaims_eq_iff hresolve hclaim).mpr
      rw [← hbaseOffset, hsame]
      exact hwins
    rw [← hwinner]

/-! ## Order and location -/

/-- Whatever order the tiers, their entries and the segments are visited in,
the merge gives the same segments or refuses. -/
def OrderFree (perTier : List (τ × List (TierObject τ))) : Prop :=
  ∀ claims visit, claims.Perm (claimsIn perTier) → visit.Perm (claimedBases claims) →
      (mergeTierManifests claims visit).toOption = (mergeTierManifests (claimsIn perTier)
          (claimedBases (claimsIn perTier))).toOption

/-- Whatever the directory holds and the stores answer, an adopted segment
reads from the store whose claim to it stands. -/
def Located (perTier : List (τ × List (TierObject τ))) : Prop :=
  ∀ claims visit, claims.Perm (claimsIn perTier) → visit.Perm (claimedBases claims) →
      ∀ objects, mergeTierManifests claims visit = .ok objects →
        ∀ context : AdoptContext τ, context.tiers = perTier.map Prod.fst →
          ∀ adopted ∈ (context.adoptTierManifest objects).1, adopted ∈ claimsIn perTier ∧
              ¬ Superseded (claimsIn perTier) adopted

def RecordsOwnTier (perTier : List (τ × List (TierObject τ))) : Prop :=
  ∀ claim ∈ claimsIn perTier, ¬ Superseded (claimsIn perTier) claim →
    claim.2.tier ∈ perTier.map Prod.fst → claim.2.tier = claim.1

omit [DecidableEq τ] in
theorem claimedBases_perm {claims' : List (τ × TierObject τ)} (hperm : claims.Perm claims') :
    (claimedBases claims).Perm (claimedBases claims') :=
  (hperm.map _).dedup

theorem orderFree (perTier : List (τ × List (TierObject τ))) : OrderFree perTier := by
  intro claims visit hclaims hvisit
  have hbases := hvisit.trans (claimedBases_perm hclaims)
  have hnodup : (claimedBases (claimsIn perTier)).Nodup := nodup_dedup _
  cases hthere : mergeTierManifests (claimsIn perTier) (claimedBases (claimsIn perTier)) with
  | ok objects =>
    rw [mergeTierManifests_perm hclaims.symm hbases.symm hnodup hthere]
  | error conflict =>
    cases hhere : mergeTierManifests claims visit with
    | error other => rfl
    | ok objects =>
      rw [mergeTierManifests_perm hclaims hbases (hbases.symm.nodup hnodup) hhere] at hthere
      cases hthere

theorem merges_iff_explained (claims : List (τ × TierObject τ)) :
    (∃ objects, mergeTierManifests claims (claimedBases claims) =
      .ok objects) ↔ Explained claims := by
  rw [Explained, ← mergeClaims_ok_iff]
  unfold mergeTierManifests
  cases mergeClaims claims (claimedBases claims) with
  | ok objects => simp
  | error conflict => simp

/-- The order is never seen; the stores are the right ones exactly when the
merge refuses or every claim that stands records the tier it was read
from. -/
theorem order_free_and_located_iff (perTier : List (τ × List (TierObject τ))) : OrderFree perTier ∧
      (Located perTier ↔ ¬ Explained (claimsIn perTier) ∨ RecordsOwnTier perTier) := by
  refine ⟨orderFree perTier, ?_⟩
  constructor
  · intro hlocated
    rw [or_iff_not_imp_left, not_not]
    intro hexplained claim hclaim hwins htier
    obtain ⟨objects, hmerge⟩ := (merges_iff_explained _).mpr hexplained
    have hobject : claim.2 ∈ objects :=
      (mem_merged_iff (Perm.refl _) hmerge).mpr ⟨claim.1, hclaim, hwins⟩
    have hnodup : (objects.map (·.baseOffset)).Nodup :=
      (of_mergeTierManifests hmerge).1.nodup_iff.mpr (nodup_dedup _)
    obtain ⟨hin, hstands⟩ := hlocated _ _ (Perm.refl _) (Perm.refl _) objects hmerge
      (.lacking (perTier.map Prod.fst) objects claim.2.baseOffset) rfl
      (claim.2.tier, claim.2) (AdoptContext.adopts_lacking hnodup hobject htier)
    -- two claims of one base stand, so they are one
    obtain ⟨winner, hresolve⟩ := hexplained claim.2.baseOffset
      (mem_claimedBases.mpr ⟨claim, hclaim, rfl⟩)
    have hone : ∀ other ∈ claimsIn perTier, other.2.baseOffset = claim.2.baseOffset →
          ¬ Superseded (claimsIn perTier) other → other = winner := by
      intro other hother hbase hnot
      apply (resolveClaims_eq_iff hresolve (mem_claimsOf.mpr ⟨hother, hbase⟩)).mpr
      rw [← hbase]
      exact fun hexists => hnot (superseded_iff_claimsOf.mpr hexists)
    have hsame : (claim.2.tier, claim.2) = claim :=
      (hone _ hin rfl hstands).trans (hone claim hclaim rfl hwins).symm
    exact congrArg Prod.fst hsame
  · intro hcondition claims visit hclaims hvisit objects hmerge context htiers adopted hadopted
    obtain ⟨hobject, hstore, hconfigured⟩ :=
      AdoptContext.of_mem_adopted hadopted
    have hbases := hvisit.trans (claimedBases_perm hclaims)
    have hmerge' := mergeTierManifests_perm hclaims hbases
      (hbases.symm.nodup (nodup_dedup _)) hmerge
    have hexplained := (merges_iff_explained _).mp ⟨objects, hmerge'⟩
    obtain ⟨tier, hin, hwins⟩ :=
      (mem_merged_iff (Perm.refl _) hmerge').mp hobject
    cases hcondition with
    | inl hrefuses => exact absurd hexplained hrefuses
    | inr hrecords =>
      rw [hstore, htiers] at hconfigured
      have htier := hrecords _ hin hwins hconfigured
      have hadoptedEq : adopted = (tier, adopted.2) := by
        rw [← Prod.eta adopted, hstore, htier]
      rw [hadoptedEq]
      exact ⟨hin, hwins⟩

namespace CopyStore

/-- A tier named false, with one raw segment. -/
def namedFalse : CopyStore Bool ℕ ℕ where
  objects key := if key = ⟨0, 1, .log⟩ then some 7 else none
  descriptor := some 3
  manifest := some [⟨0, false, ⟨1, false, false⟩, none⟩]

def besideItsCopy : List (Bool × List (TierObject Bool)) :=
  [(false, []), (true, (namedFalse.copyTier ⟨fun _ => none, none, none⟩).1.readTierManifest)]

/-- The segment the copy claims is opened over the other store. -/
theorem copied_segment_opened_over_other : mergeTierManifests (claimsIn besideItsCopy) [0] =
        .ok [⟨0, false, ⟨1, false, false⟩, none⟩] ∧
      (AdoptContext.lacking [false, true] [] 0).adoptTierManifest
          [⟨0, false, ⟨1, false, false⟩, none⟩] =
        ([(false, ⟨0, false, ⟨1, false, false⟩, none⟩)], none) ∧
      ¬ Located besideItsCopy := by
  have hclaims : claimsIn besideItsCopy = [(true, ⟨0, false, ⟨1, false, false⟩, none⟩)] := by
    decide +kernel
  have hmerge : mergeTierManifests (claimsIn besideItsCopy) [0] =
      .ok [⟨0, false, ⟨1, false, false⟩, none⟩] := by
    rw [hclaims]
    rfl
  have hadopts : (AdoptContext.lacking [false, true] [] 0).adoptTierManifest
      [⟨0, false, ⟨1, false, false⟩, none⟩] =
        ([(false, ⟨0, false, ⟨1, false, false⟩, none⟩)], none) := by
    decide +kernel
  refine ⟨hmerge, hadopts, ?_⟩
  intro hlocated
  have hvisit : [0].Perm (claimedBases (claimsIn besideItsCopy)) := by
    rw [hclaims]
    exact Perm.refl _
  have hin := (hlocated _ [0] (Perm.refl _) hvisit _ hmerge
    (.lacking [false, true] [] 0) rfl (false, ⟨0, false, ⟨1, false, false⟩, none⟩)
    (by rw [hadopts]; exact mem_cons_self)).1
  rw [hclaims] at hin
  revert hin
  decide

end CopyStore

end CommitLog
