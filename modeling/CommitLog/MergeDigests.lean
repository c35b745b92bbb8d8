import CommitLog.DropSets
import CommitLog.KeyDigests

/-!
# Merging key digests

Compaction decides what to drop by merging the digests of all segments in key
order.  For each key the merge finds the latest record at or below the ceiling
that is not aborted; it marks the copies before it, and the record itself when
it is an expired tombstone.  `mergeDigests_spec` states the outcome in terms
of the records of the whole log.
-/

namespace CommitLog

open KeyMerge List

variable {spec : CleanSpec} {res : MergeResult} {bounds : ℕ → ℤ × ℤ} {now : ℤ}
  {digests : List KeyDigest} {pairs : List (ℕ × DigestRec)} {latest part : ℕ × DigestRec}
  {group : Bytes × List (ℕ × List DigestRec)} {rec : DigestRec} {i : ℕ}

/-- The part of a `CleanSpec` a compaction pass reads, with the ceiling
already resolved against the high watermark. -/
structure CleanSpec where
  ceiling : ℤ
  stripOnly : Bool
  stripBelow : ℤ
  stripHeaders : List Bytes
  abortedFn : Option (ℤ → Bool)
  tombstoneGCBelow : ℤ
  tombstoneRetention : ℤ
  maxRewrites : ℤ
  rewriteBudget : ℤ
  tierBudgets : String → Option ℤ
  skipTiers : String → Bool

namespace CleanSpec

def aborted (spec : CleanSpec) (offset : ℤ) : Bool :=
  match spec.abortedFn with
  | none => false
  | some verdict => verdict offset

def stripActive (spec : CleanSpec) : Bool :=
  decide (0 < spec.stripBelow) && !spec.stripHeaders.isEmpty

end CleanSpec

structure MergeResult where
  drops : ℕ → Option DropSet
  abortedKeyed : ℕ → Bool
  stripKeyed : ℕ → Bool
  gcSegs : ℕ → Bool

namespace MergeResult

def empty : MergeResult where
  drops := fun _ => none
  abortedKeyed := fun _ => false
  stripKeyed := fun _ => false
  gcSegs := fun _ => false

/-- The closure `drop` of `mergeDigests`; `bounds i` is the base and next
offset of segment `i`. -/
def drop (bounds : ℕ → ℤ × ℤ) (res : MergeResult) (i : ℕ) (offset : ℤ) :
    MergeResult :=
  let drops :=
    match res.drops i with
    | none => DropSet.new (bounds i).1 (bounds i).2
    | some drops => drops
  { res with drops := Function.update res.drops i (some (drops.set offset)) }

end MergeResult

/-! ## One key -/

structure KeyScan where
  abortedKeyed : ℕ → Bool
  stripKeyed : ℕ → Bool
  parts : List (ℕ × DigestRec)
  latest : Option (ℕ × DigestRec)

def KeyScan.latestOff (scan : KeyScan) : ℤ :=
  match scan.latest with
  | none => -1
  | some part => part.2.offset

def noteStrip (spec : CleanSpec) (scan : KeyScan) (part : ℕ × DigestRec) :
    KeyScan :=
  if spec.stripActive && decide (part.2.offset < spec.stripBelow) && part.2.hasHeaders then
    { scan with stripKeyed := Function.update scan.stripKeyed part.1 true }
  else scan

/-- The body of the gather loop for one record of the current key. -/
def scanRec (spec : CleanSpec) (scan : KeyScan) (part : ℕ × DigestRec) :
    KeyScan :=
  let scan := noteStrip spec scan part
  if spec.ceiling < part.2.offset then scan
  else if spec.aborted part.2.offset then
    if part.2.offset < spec.ceiling then
      { scan with
        abortedKeyed := Function.update scan.abortedKeyed part.1 true }
    else scan
  else
    { scan with
      parts := scan.parts ++ [part]
      latest :=
        if scan.latestOff < part.2.offset then some part else scan.latest }

def expiredRec (spec : CleanSpec) (now : ℤ) (rec : DigestRec) : Bool :=
  decide (0 < spec.tombstoneRetention) && rec.tombstone &&
    decide (rec.offset < spec.tombstoneGCBelow) && decide (0 < rec.ts) &&
    decide (rec.ts < now - spec.tombstoneRetention)

def dropSuperseded (spec : CleanSpec) (bounds : ℕ → ℤ × ℤ) (latestOff : ℤ)
    (res : MergeResult) (part : ℕ × DigestRec) : MergeResult :=
  if part.2.offset ≠ latestOff ∧ part.2.offset < spec.ceiling then
    res.drop bounds part.1 part.2.offset
  else res

def dropExpired (spec : CleanSpec) (now : ℤ) (bounds : ℕ → ℤ × ℤ)
    (res : MergeResult) (latest : ℕ × DigestRec) : MergeResult :=
  if expiredRec spec now latest.2 then
    let res := res.drop bounds latest.1 latest.2.offset
    { res with gcSegs := Function.update res.gcSegs latest.1 true }
  else res

/-- One round of the merge loop: `pairs` are the records the segments hold for
the key, with their segment index. -/
def markKey (spec : CleanSpec) (now : ℤ) (bounds : ℕ → ℤ × ℤ)
    (res : MergeResult) (pairs : List (ℕ × DigestRec)) : MergeResult :=
  let scan := pairs.foldl (scanRec spec) ⟨res.abortedKeyed, res.stripKeyed, [], none⟩
  let res :=
    { res with
      abortedKeyed := scan.abortedKeyed
      stripKeyed := scan.stripKeyed }
  match scan.latest with
  | none => res
  | some latest =>
    dropExpired spec now bounds (scan.parts.foldl
        (dropSuperseded spec bounds latest.2.offset) res) latest

/-! ## All keys -/

inductive MergeError
  | digestCorrupt
deriving DecidableEq, Repr

/-- The allocation guard of `digestIter.next`. -/
def keyTooLong (entry : Bytes × List DigestRec) : Bool :=
  decide (2 ^ 24 < entry.1.length)

def boundsOf (segments : List Segment) (i : ℕ) : ℤ × ℤ :=
  match segments[i]? with
  | none => (0, 0)
  | some seg => (seg.baseOffset, seg.nextOffset)

def groupPairs (group : Bytes × List (ℕ × List DigestRec)) : List (ℕ × DigestRec) :=
  group.2.flatMap fun found => found.2.map fun rec => (found.1, rec)

def mergeDigests (spec : CleanSpec) (now : ℤ) (segments : List Segment)
    (digests : List KeyDigest) : Except MergeError MergeResult :=
  if digests.any fun digest => digest.keyed.any keyTooLong then
    .error .digestCorrupt
  else
    .ok ((merge (digests.map KeyDigest.keyed)).foldl (fun res group =>
        markKey spec now (boundsOf segments) res (groupPairs group))
      MergeResult.empty)

/-! ## The record-level meaning of the merge -/

/-- A keyed data record the merge compares with the other copies of its
key. -/
def participates (spec : CleanSpec) (key : Bytes) (frame : Frame) : Bool :=
  isKeyedData key frame && decide (frame.offset ≤ spec.ceiling) && !spec.aborted frame.offset

def superseded (spec : CleanSpec) (records : List Frame) (key : Bytes) (frame : Frame) : Bool :=
  records.any fun newer =>
    participates spec key newer && decide (frame.offset < newer.offset)

/-- What the merge marks: a copy older than the latest of its key, or the
latest copy when it is an expired tombstone. -/
def dropped (spec : CleanSpec) (now : ℤ) (records : List Frame) (frame : Frame) : Bool :=
  match frame.key with
  | none => false
  | some key =>
    participates spec key frame &&
      if superseded spec records key frame then
        decide (frame.offset < spec.ceiling)
      else expiredRec spec now (digestRec frame)

/-- What the merge garbage-collects: a key's latest record, an expired
tombstone. -/
def collected (spec : CleanSpec) (now : ℤ) (records : List Frame) (frame : Frame) : Bool :=
  match frame.key with
  | none => false
  | some key =>
    participates spec key frame && !superseded spec records key frame &&
      expiredRec spec now (digestRec frame)

def hasKey (frame : Frame) : Bool :=
  !frame.isControl && frame.key.isSome

/-! ## The gather loop -/

def participant (spec : CleanSpec) (rec : DigestRec) : Bool :=
  decide (rec.offset ≤ spec.ceiling) && !spec.aborted rec.offset

theorem participates_eq (spec : CleanSpec) (key : Bytes) (frame : Frame) :
    participates spec key frame =
      (isKeyedData key frame && participant spec (digestRec frame)) := by
  unfold participates participant
  rw [Bool.and_assoc]
  rfl

theorem noteStrip_parts (spec : CleanSpec) (scan : KeyScan) (part : ℕ × DigestRec) :
    (noteStrip spec scan part).parts = scan.parts ∧
      (noteStrip spec scan part).latest = scan.latest ∧
      (noteStrip spec scan part).abortedKeyed = scan.abortedKeyed := by
  unfold noteStrip
  split <;> simp

theorem scanRec_parts (spec : CleanSpec) (scan : KeyScan) (part : ℕ × DigestRec) :
    (scanRec spec scan part).parts =
      scan.parts ++ if participant spec part.2 then [part] else [] := by
  have hnote := noteStrip_parts spec scan part
  unfold scanRec participant
  by_cases hceiling : spec.ceiling < part.2.offset
  · have hnot : ¬part.2.offset ≤ spec.ceiling := by omega
    simp [hceiling, hnot, hnote.1]
  · have hle : part.2.offset ≤ spec.ceiling := by omega
    cases haborted : spec.aborted part.2.offset with
    | true =>
      by_cases hbelow : part.2.offset < spec.ceiling
      · simp [hceiling, hbelow, hnote.1]
      · simp [hceiling, hbelow, hnote.1]
    | false => simp [hceiling, hle, hnote.1]

theorem scanRec_latest (spec : CleanSpec) (scan : KeyScan) (part : ℕ × DigestRec) :
    (scanRec spec scan part).latest =
      if participant spec part.2 ∧ scan.latestOff < part.2.offset then
        some part
      else scan.latest := by
  have hnote := noteStrip_parts spec scan part
  have hlatestOff : (noteStrip spec scan part).latestOff =
      scan.latestOff := by
    simp [KeyScan.latestOff, hnote.2.1]
  unfold scanRec participant
  by_cases hceiling : spec.ceiling < part.2.offset
  · have hnot : ¬part.2.offset ≤ spec.ceiling := by omega
    simp [hceiling, hnot, hnote.2.1]
  · have hle : part.2.offset ≤ spec.ceiling := by omega
    cases haborted : spec.aborted part.2.offset with
    | true =>
      by_cases hbelow : part.2.offset < spec.ceiling
      · simp [hceiling, hbelow, hnote.2.1]
      · simp [hceiling, hbelow, hnote.2.1]
    | false => simp [hceiling, hle, hlatestOff, hnote.2.1]

theorem scanRec_abortedKeyed (spec : CleanSpec) (scan : KeyScan) (part : ℕ × DigestRec) (i : ℕ) :
    (scanRec spec scan part).abortedKeyed i = true ↔ scan.abortedKeyed i = true ∨
        (part.1 = i ∧ part.2.offset < spec.ceiling ∧ spec.aborted part.2.offset = true) := by
  have hnote := noteStrip_parts spec scan part
  unfold scanRec
  by_cases hceiling : spec.ceiling < part.2.offset
  · have hnot : ¬part.2.offset < spec.ceiling := by omega
    simp [hceiling, hnot, hnote.2.2]
  · cases haborted : spec.aborted part.2.offset with
    | false => simp [hceiling, hnote.2.2]
    | true =>
      by_cases hbelow : part.2.offset < spec.ceiling
      · by_cases hi : i = part.1
        · simp [hceiling, hbelow, hi]
        · simp [hceiling, hbelow, hi, Ne.symm hi, hnote.2.2]
      · simp [hceiling, hbelow, hnote.2.2]

theorem scanRec_stripKeyed (spec : CleanSpec) (scan : KeyScan) (part : ℕ × DigestRec) (i : ℕ) :
    (scanRec spec scan part).stripKeyed i = true ↔ scan.stripKeyed i = true ∨
        (part.1 = i ∧ spec.stripActive = true ∧
          part.2.offset < spec.stripBelow ∧ part.2.hasHeaders = true) := by
  have hsame : (scanRec spec scan part).stripKeyed = (noteStrip spec scan part).stripKeyed := by
    unfold scanRec
    dsimp only
    split
    · rfl
    · split
      · split <;> rfl
      · rfl
  rw [hsame]
  unfold noteStrip
  by_cases hwork : spec.stripActive = true ∧
      part.2.offset < spec.stripBelow ∧ part.2.hasHeaders = true
  · by_cases hi : i = part.1
    · simp [hwork.1, hwork.2.1, hwork.2.2, hi]
    · simp [hwork.1, hwork.2.1, hwork.2.2, hi, Ne.symm hi]
  · have hcond : (spec.stripActive && decide (part.2.offset < spec.stripBelow)
        && part.2.hasHeaders) = false := by
      rw [Bool.eq_false_iff]
      intro htrue
      apply hwork
      simpa [and_assoc] using htrue
    simp [hcond, hwork]

/-- The loop invariant for the latest participant. -/
def LatestOk (scan : KeyScan) : Prop :=
  match scan.latest with
  | none => scan.parts = []
  | some latest =>
    latest ∈ scan.parts ∧ ∀ part ∈ scan.parts, part.2.offset ≤ latest.2.offset

theorem LatestOk.scanRec {scan : KeyScan} (hlatest : LatestOk scan) (hnonneg : 0 ≤ part.2.offset) :
    LatestOk (scanRec spec scan part) := by
  unfold LatestOk at hlatest ⊢
  rw [scanRec_parts, scanRec_latest]
  cases hpart : participant spec part.2 with
  | false => simpa [hpart] using hlatest
  | true =>
    cases hscan : scan.latest with
    | none =>
      have hempty : scan.parts = [] := by simpa [hscan] using hlatest
      have hlt : scan.latestOff < part.2.offset := by
        simp only [KeyScan.latestOff, hscan]
        omega
      simp [hlt, hempty]
    | some latest =>
      rw [hscan] at hlatest
      have hoff : scan.latestOff = latest.2.offset := by
        simp [KeyScan.latestOff, hscan]
      by_cases hlt : latest.2.offset < part.2.offset
      · have hall : ∀ other ∈ scan.parts ++ [part], other.2.offset ≤ part.2.offset := by
          intro other hother
          rcases mem_append.mp hother with hin | hlast
          · exact (hlatest.2 other hin).trans hlt.le
          · rw [mem_singleton.mp hlast]
        simpa [hoff, hlt] using hall
      · have hall : ∀ other ∈ scan.parts ++ [part], other.2.offset ≤ latest.2.offset := by
          intro other hother
          rcases mem_append.mp hother with hin | hlast
          · exact hlatest.2 other hin
          · rw [mem_singleton.mp hlast]
            omega
        have hmem : latest ∈ scan.parts ++ [part] :=
          mem_append_left _ hlatest.1
        simpa [hoff, hlt] using And.intro hmem hall

abbrev participants (spec : CleanSpec) (pairs : List (ℕ × DigestRec)) : List (ℕ × DigestRec) :=
  pairs.filter fun part => participant spec part.2

theorem foldl_scanRec_parts (spec : CleanSpec) (pairs : List (ℕ × DigestRec)) (scan : KeyScan) :
    (pairs.foldl (scanRec spec) scan).parts =
      scan.parts ++ participants spec pairs := by
  induction pairs generalizing scan with
  | nil => simp
  | cons part pairs ih =>
    rw [foldl_cons, ih, scanRec_parts, append_assoc]
    cases hpart : participant spec part.2 with
    | false => simp [hpart]
    | true => simp [hpart]

/-! ## Marking the drops of one key -/

structure MergeResult.Fits (bounds : ℕ → ℤ × ℤ) (res : MergeResult) :
    Prop where
  base : ∀ i drops, res.drops i = some drops → drops.base = (bounds i).1
  length : ∀ i drops, res.drops i = some drops → drops.bits.length =
      (DropSet.new (bounds i).1 (bounds i).2).bits.length
  countOk : ∀ i drops, res.drops i = some drops → drops.CountOk

theorem MergeResult.fits_empty (bounds : ℕ → ℤ × ℤ) : MergeResult.empty.Fits bounds := by
  refine ⟨?_, ?_, ?_⟩ <;> simp [MergeResult.empty]

def MergeResult.dropsAt (bounds : ℕ → ℤ × ℤ) (res : MergeResult) (i : ℕ) :
    DropSet :=
  match res.drops i with
  | none => DropSet.new (bounds i).1 (bounds i).2
  | some drops => drops

theorem MergeResult.Fits.dropsAt (hfits : res.Fits bounds) (i : ℕ) :
    (res.dropsAt bounds i).base = (bounds i).1 ∧ (res.dropsAt bounds i).bits.length =
        (DropSet.new (bounds i).1 (bounds i).2).bits.length ∧
      (res.dropsAt bounds i).CountOk := by
  unfold MergeResult.dropsAt
  cases hdrops : res.drops i with
  | none => exact ⟨rfl, rfl, DropSet.countOk_new _ _⟩
  | some drops =>
    exact ⟨hfits.base i drops hdrops, hfits.length i drops hdrops, hfits.countOk i drops hdrops⟩

theorem MergeResult.drops_drop (bounds : ℕ → ℤ × ℤ) (res : MergeResult) (i j : ℕ) (offset : ℤ) :
    (res.drop bounds i offset).drops j =
      if j = i then some ((res.dropsAt bounds i).set offset)
      else res.drops j := by
  unfold MergeResult.drop MergeResult.dropsAt
  by_cases hij : j = i
  · subst hij
    cases res.drops j <;> simp
  · simp [hij]

theorem MergeResult.Fits.drop (hfits : res.Fits bounds) (i : ℕ) (offset : ℤ) :
    (res.drop bounds i offset).Fits bounds := by
  have hat := hfits.dropsAt i
  have hcases : ∀ j drops, (res.drop bounds i offset).drops j = some drops →
      drops.base = (bounds j).1 ∧ drops.bits.length =
          (DropSet.new (bounds j).1 (bounds j).2).bits.length ∧
        drops.CountOk := by
    intro j drops hdrops
    rw [MergeResult.drops_drop] at hdrops
    by_cases hij : j = i
    · rw [if_pos hij, Option.some.injEq] at hdrops
      subst hij hdrops
      exact ⟨by simpa using hat.1, by simpa using hat.2.1, hat.2.2.set offset⟩
    · rw [if_neg hij] at hdrops
      exact ⟨hfits.base j drops hdrops, hfits.length j drops hdrops, hfits.countOk j drops hdrops⟩
  exact ⟨fun j drops h => (hcases j drops h).1, fun j drops h => (hcases j drops h).2.1,
    fun j drops h => (hcases j drops h).2.2⟩

def InBounds (bounds : ℕ → ℤ × ℤ) (part : ℕ × DigestRec) : Prop :=
  (bounds part.1).1 ≤ part.2.offset ∧ part.2.offset < (bounds part.1).2

theorem MergeResult.Fits.get_drop (hfits : res.Fits bounds)
    (hbounds : InBounds bounds part) (j : ℕ) (offset : ℤ) :
    DropSet.getOf ((res.drop bounds part.1 part.2.offset).drops j) offset = true ↔
      DropSet.getOf (res.drops j) offset = true ∨ (part.1 = j ∧ part.2.offset = offset) := by
  rw [MergeResult.drops_drop]
  by_cases hij : j = part.1
  · have hat := hfits.dropsAt part.1
    have hrange : (res.dropsAt bounds part.1).InRange part.2.offset := by
      have hnew := DropSet.inRange_new hbounds.1 hbounds.2
      unfold DropSet.InRange at hnew ⊢
      rw [hat.1, hat.2.1]
      exact hnew
    have hsame : DropSet.getOf (res.drops j) offset = (res.dropsAt bounds part.1).get offset := by
      rw [hij]
      unfold MergeResult.dropsAt DropSet.getOf
      cases res.drops part.1 <;> simp
    have hget : ((res.dropsAt bounds part.1).set part.2.offset).get offset =
        true ↔ (res.dropsAt bounds part.1).get offset = true ∨ offset = part.2.offset := by
      rw [DropSet.get_set]
      simp [hrange]
    rw [if_pos hij, hsame]
    change ((res.dropsAt bounds part.1).set part.2.offset).get offset = true ↔ _
    rw [hget]
    constructor
    · intro hor
      rcases hor with hold | hoffset
      · exact Or.inl hold
      · exact Or.inr ⟨hij.symm, hoffset.symm⟩
    · intro hor
      rcases hor with hold | hnew
      · exact Or.inl hold
      · exact Or.inr hnew.2.symm
  · rw [if_neg hij]
    simp [Ne.symm hij]

@[simp] theorem MergeResult.drop_flags (bounds : ℕ → ℤ × ℤ)
    (res : MergeResult) (i : ℕ) (offset : ℤ) :
    (res.drop bounds i offset).abortedKeyed = res.abortedKeyed ∧
      (res.drop bounds i offset).stripKeyed = res.stripKeyed ∧
      (res.drop bounds i offset).gcSegs = res.gcSegs := by
  simp [MergeResult.drop]

/-- What `markKey` drops, over the records of one key. -/
def droppedRec (spec : CleanSpec) (now : ℤ) (pairs : List (ℕ × DigestRec))
    (rec : DigestRec) : Bool :=
  participant spec rec &&
    if pairs.any fun newer =>
        participant spec newer.2 && decide (rec.offset < newer.2.offset) then
      decide (rec.offset < spec.ceiling)
    else expiredRec spec now rec

/-- What `markKey` garbage-collects: the latest record, when it expired. -/
def collectedRec (spec : CleanSpec) (now : ℤ)
    (pairs : List (ℕ × DigestRec)) (rec : DigestRec) : Bool :=
  participant spec rec && !(pairs.any fun newer =>
        participant spec newer.2 && decide (rec.offset < newer.2.offset)) &&
    expiredRec spec now rec

/-- The records of one key as the merge meets them. -/
structure PairsOk (bounds : ℕ → ℤ × ℤ) (pairs : List (ℕ × DigestRec)) :
    Prop where
  nonneg : ∀ part ∈ pairs, 0 ≤ part.2.offset
  inBounds : ∀ part ∈ pairs, InBounds bounds part
  injective : ∀ part ∈ pairs, ∀ part' ∈ pairs, part.2.offset = part'.2.offset → part = part'

/-- The effect of one round on the result, segment by segment. -/
structure MarkSpec (spec : CleanSpec) (now : ℤ) (bounds : ℕ → ℤ × ℤ)
    (pairs : List (ℕ × DigestRec)) (res res' : MergeResult) : Prop where
  fits : res'.Fits bounds
  drops : ∀ i offset, DropSet.getOf (res'.drops i) offset = true ↔
    DropSet.getOf (res.drops i) offset = true ∨ ∃ rec, (i, rec) ∈ pairs ∧ rec.offset = offset ∧
        droppedRec spec now pairs rec = true
  gcSegs : ∀ i, res'.gcSegs i = true ↔ res.gcSegs i = true ∨
      ∃ rec, (i, rec) ∈ pairs ∧ collectedRec spec now pairs rec = true
  abortedKeyed : ∀ i, res'.abortedKeyed i = true ↔ res.abortedKeyed i = true ∨
      ∃ rec, (i, rec) ∈ pairs ∧ rec.offset < spec.ceiling ∧ spec.aborted rec.offset = true
  stripKeyed : ∀ i, res'.stripKeyed i = true ↔ res.stripKeyed i = true ∨
      ∃ rec, (i, rec) ∈ pairs ∧ spec.stripActive = true ∧
        rec.offset < spec.stripBelow ∧ rec.hasHeaders = true

variable {latestOff : ℤ}

theorem fits_dropSuperseded (hfits : res.Fits bounds) (part : ℕ × DigestRec) :
    (dropSuperseded spec bounds latestOff res part).Fits bounds := by
  unfold dropSuperseded
  split
  · exact hfits.drop _ _
  · exact hfits

theorem fits_foldl_dropSuperseded (hfits : res.Fits bounds) (parts : List (ℕ × DigestRec)) :
    (parts.foldl (dropSuperseded spec bounds latestOff) res).Fits bounds :=
  Runs.foldl_invariant (MergeResult.Fits bounds)
    (fun _ part _ h => fits_dropSuperseded h part) hfits

theorem get_dropSuperseded (hfits : res.Fits bounds)
    (hbounds : InBounds bounds part) (i : ℕ) (offset : ℤ) :
    DropSet.getOf ((dropSuperseded spec bounds latestOff res part).drops i) offset = true ↔
      DropSet.getOf (res.drops i) offset = true ∨
        (part.1 = i ∧ part.2.offset = offset ∧ offset ≠ latestOff ∧ offset < spec.ceiling) := by
  unfold dropSuperseded
  split
  next hdrop =>
    rw [hfits.get_drop hbounds]
    constructor
    · intro hor
      rcases hor with hold | ⟨hi, hoffset⟩
      · exact Or.inl hold
      · exact Or.inr ⟨hi, hoffset, hoffset ▸ hdrop⟩
    · intro hor
      rcases hor with hold | hnew
      · exact Or.inl hold
      · exact Or.inr ⟨hnew.1, hnew.2.1⟩
  next hkeep =>
    constructor
    · exact Or.inl
    · intro hor
      rcases hor with hold | ⟨_, hoffset, hnew⟩
      · exact hold
      · exact absurd (hoffset ▸ hnew) hkeep

theorem get_foldl_dropSuperseded {parts : List (ℕ × DigestRec)} (hfits : res.Fits bounds)
    (hbounds : ∀ part ∈ parts, InBounds bounds part) (i : ℕ) (offset : ℤ) :
    DropSet.getOf ((parts.foldl (dropSuperseded spec bounds latestOff) res).drops i) offset = true ↔
      DropSet.getOf (res.drops i) offset = true ∨
        ∃ part ∈ parts, part.1 = i ∧ part.2.offset = offset ∧
          offset ≠ latestOff ∧ offset < spec.ceiling :=
  Runs.foldl_accumulates (MergeResult.Fits bounds)
    (fun r => DropSet.getOf (r.drops i) offset = true) _
    (fun _ part _ h => fits_dropSuperseded h part)
    (fun _ part hpart h => get_dropSuperseded h (hbounds part hpart) i offset)
    hfits

theorem foldl_dropSuperseded_gcSegs (spec : CleanSpec) (bounds : ℕ → ℤ × ℤ) (latestOff : ℤ)
    (parts : List (ℕ × DigestRec)) (res : MergeResult) :
    (parts.foldl (dropSuperseded spec bounds latestOff) res).gcSegs = res.gcSegs ∧
      (parts.foldl (dropSuperseded spec bounds latestOff) res).abortedKeyed = res.abortedKeyed ∧
      (parts.foldl (dropSuperseded spec bounds latestOff) res).stripKeyed =
        res.stripKeyed := by
  induction parts generalizing res with
  | nil => simp
  | cons part parts ih =>
    have hstep := ih (dropSuperseded spec bounds latestOff res part)
    have hsame : (dropSuperseded spec bounds latestOff res part).gcSegs = res.gcSegs ∧
          (dropSuperseded spec bounds latestOff res part).abortedKeyed = res.abortedKeyed ∧
          (dropSuperseded spec bounds latestOff res part).stripKeyed =
            res.stripKeyed := by
      unfold dropSuperseded
      split <;> simp
    rw [foldl_cons]
    exact ⟨hstep.1.trans hsame.1, hstep.2.1.trans hsame.2.1, hstep.2.2.trans hsame.2.2⟩

/-- The last of the participants. -/
structure Newest (spec : CleanSpec) (pairs : List (ℕ × DigestRec)) (latest : ℕ × DigestRec) :
    Prop where
  mem : latest ∈ participants spec pairs
  max : ∀ part ∈ participants spec pairs, part.2.offset ≤ latest.2.offset

theorem any_newer_iff (hlatest : Newest spec pairs latest)
    (hrec : rec.offset ≤ latest.2.offset) :
    (pairs.any fun newer =>
        participant spec newer.2 && decide (rec.offset < newer.2.offset)) =
        true ↔ rec.offset ≠ latest.2.offset := by
  rw [any_eq_true]
  constructor
  · intro hnewer
    obtain ⟨newer, hmem, hcond⟩ := hnewer
    have hnewer : participant spec newer.2 = true ∧
        rec.offset < newer.2.offset := by simpa using hcond
    have hle := hlatest.max newer (mem_filter.mpr ⟨hmem, hnewer.1⟩)
    omega
  · intro hne
    have hin := mem_filter.mp hlatest.mem
    refine ⟨latest, hin.1, ?_⟩
    have hlt : rec.offset < latest.2.offset := by omega
    simpa [hlt] using hin.2

def KeyScan.start (res : MergeResult) : KeyScan :=
  ⟨res.abortedKeyed, res.stripKeyed, [], none⟩

theorem latestOk_foldl_scanRec (spec : CleanSpec) (res : MergeResult)
    (hnonneg : ∀ part ∈ pairs, 0 ≤ part.2.offset) :
    LatestOk (pairs.foldl (scanRec spec) (KeyScan.start res)) := by
  apply Runs.foldl_invariant LatestOk
  · intro scan part hpart hscan
    exact hscan.scanRec (hnonneg part hpart)
  · simp [LatestOk, KeyScan.start]

theorem exists_pair_iff {Q : DigestRec → Prop} :
    (∃ part ∈ pairs, part.1 = i ∧ Q part.2) ↔ ∃ rec, (i, rec) ∈ pairs ∧ Q rec := by
  constructor
  · intro hpart
    obtain ⟨part, hmem, hi, hQ⟩ := hpart
    exact ⟨part.2, hi ▸ hmem, hQ⟩
  · intro hrec
    obtain ⟨rec, hmem, hQ⟩ := hrec
    exact ⟨(i, rec), hmem, rfl, hQ⟩

theorem foldl_scanRec_abortedKeyed (spec : CleanSpec)
    (pairs : List (ℕ × DigestRec)) (res : MergeResult) (i : ℕ) :
    (pairs.foldl (scanRec spec) (KeyScan.start res)).abortedKeyed i = true ↔
      res.abortedKeyed i = true ∨ ∃ rec, (i, rec) ∈ pairs ∧ rec.offset < spec.ceiling ∧
          spec.aborted rec.offset = true := by
  rw [← exists_pair_iff]
  exact Runs.foldl_accumulates (fun _ => True)
    (fun scan => scan.abortedKeyed i = true) _ (fun _ _ _ _ => trivial)
    (fun scan part _ _ => scanRec_abortedKeyed spec scan part i) trivial

theorem foldl_scanRec_stripKeyed (spec : CleanSpec)
    (pairs : List (ℕ × DigestRec)) (res : MergeResult) (i : ℕ) :
    (pairs.foldl (scanRec spec) (KeyScan.start res)).stripKeyed i = true ↔ res.stripKeyed i = true ∨
        ∃ rec, (i, rec) ∈ pairs ∧ spec.stripActive = true ∧
          rec.offset < spec.stripBelow ∧ rec.hasHeaders = true := by
  rw [← exists_pair_iff]
  exact Runs.foldl_accumulates (fun _ => True)
    (fun scan => scan.stripKeyed i = true) _ (fun _ _ _ _ => trivial)
    (fun scan part _ _ => scanRec_stripKeyed spec scan part i) trivial

/-- The outcome of the gather loop alone. -/
def MergeResult.withScan (res : MergeResult) (scan : KeyScan) : MergeResult :=
  { res with
    abortedKeyed := scan.abortedKeyed
    stripKeyed := scan.stripKeyed }

theorem markKey_eq (spec : CleanSpec) (now : ℤ) (bounds : ℕ → ℤ × ℤ)
    (res : MergeResult) (pairs : List (ℕ × DigestRec)) :
    markKey spec now bounds res pairs =
      match (pairs.foldl (scanRec spec) (KeyScan.start res)).latest with
      | none => res.withScan (pairs.foldl (scanRec spec) (KeyScan.start res))
      | some latest =>
        dropExpired spec now bounds ((participants spec pairs).foldl
            (dropSuperseded spec bounds latest.2.offset)
            (res.withScan (pairs.foldl (scanRec spec) (KeyScan.start res)))) latest := by
  have hparts := foldl_scanRec_parts spec pairs (KeyScan.start res)
  rw [show (KeyScan.start res).parts = [] from rfl, nil_append] at hparts
  rw [← hparts]
  rfl

theorem dropExpired_flags (spec : CleanSpec) (now : ℤ)
    (bounds : ℕ → ℤ × ℤ) (res : MergeResult) (latest : ℕ × DigestRec) :
    (dropExpired spec now bounds res latest).abortedKeyed = res.abortedKeyed ∧
      (dropExpired spec now bounds res latest).stripKeyed =
        res.stripKeyed := by
  unfold dropExpired
  split <;> simp

theorem markKey_flags (spec : CleanSpec) (now : ℤ) (bounds : ℕ → ℤ × ℤ)
    (res : MergeResult) (pairs : List (ℕ × DigestRec)) :
    (markKey spec now bounds res pairs).abortedKeyed =
        (pairs.foldl (scanRec spec) (KeyScan.start res)).abortedKeyed ∧
      (markKey spec now bounds res pairs).stripKeyed =
        (pairs.foldl (scanRec spec) (KeyScan.start res)).stripKeyed := by
  rw [markKey_eq]
  cases (pairs.foldl (scanRec spec) (KeyScan.start res)).latest with
  | none => exact ⟨rfl, rfl⟩
  | some latest =>
    have hexpired := dropExpired_flags spec now bounds
      ((participants spec pairs).foldl
        (dropSuperseded spec bounds latest.2.offset)
        (res.withScan (pairs.foldl (scanRec spec) (KeyScan.start res)))) latest
    have hfold := foldl_dropSuperseded_gcSegs spec bounds latest.2.offset
      (participants spec pairs)
      (res.withScan (pairs.foldl (scanRec spec) (KeyScan.start res)))
    exact ⟨hexpired.1.trans hfold.2.1, hexpired.2.trans hfold.2.2⟩

theorem MergeResult.Fits.withScan (hfits : res.Fits bounds) (scan : KeyScan) :
    (res.withScan scan).Fits bounds :=
  ⟨hfits.base, hfits.length, hfits.countOk⟩

theorem droppedRec_eq_true (hlatest : Newest spec pairs latest)
    (hrec : rec.offset ≤ latest.2.offset) :
    droppedRec spec now pairs rec = true ↔ participant spec rec = true ∧
        ((rec.offset ≠ latest.2.offset ∧ rec.offset < spec.ceiling) ∨
          (rec.offset = latest.2.offset ∧ expiredRec spec now rec = true)) := by
  have hnewer := any_newer_iff hlatest hrec
  unfold droppedRec
  rw [Bool.and_eq_true]
  by_cases hne : rec.offset = latest.2.offset
  · have hfalse : (pairs.any fun newer =>
        participant spec newer.2 &&
          decide (rec.offset < newer.2.offset)) = false := by
      rw [Bool.eq_false_iff]
      intro htrue
      exact hnewer.mp htrue hne
    simp only [hfalse, Bool.false_eq_true, if_false]
    simp [hne]
  · have htrue := hnewer.mpr hne
    simp only [htrue, if_true]
    simp [hne]

theorem fits_dropExpired (hfits : res.Fits bounds) (latest : ℕ × DigestRec) :
    (dropExpired spec now bounds res latest).Fits bounds := by
  unfold dropExpired
  split
  · have hdrop := hfits.drop latest.1 latest.2.offset
    exact ⟨hdrop.base, hdrop.length, hdrop.countOk⟩
  · exact hfits

theorem get_dropExpired (hfits : res.Fits bounds) (hbounds : InBounds bounds latest)
    (i : ℕ) (offset : ℤ) :
    DropSet.getOf ((dropExpired spec now bounds res latest).drops i) offset = true ↔
      DropSet.getOf (res.drops i) offset = true ∨
        (expiredRec spec now latest.2 = true ∧ latest.1 = i ∧ latest.2.offset = offset) := by
  unfold dropExpired
  split
  next hexpired =>
    change DropSet.getOf ((res.drop bounds latest.1 latest.2.offset).drops i) offset = true ↔ _
    rw [hfits.get_drop hbounds]
    simp [hexpired]
  next hexpired => simp [hexpired]

theorem markDrops_spec (hfits : res.Fits bounds) (hpairs : PairsOk bounds pairs)
    (hlatest : Newest spec pairs latest) (i : ℕ) (offset : ℤ) :
    DropSet.getOf ((dropExpired spec now bounds
        ((participants spec pairs).foldl
          (dropSuperseded spec bounds latest.2.offset) res)
        latest).drops i) offset = true ↔
      DropSet.getOf (res.drops i) offset = true ∨ ∃ rec, (i, rec) ∈ pairs ∧ rec.offset = offset ∧
          droppedRec spec now pairs rec = true := by
  have hin := mem_filter.mp hlatest.mem
  have hfitsFold : ((participants spec pairs).foldl
        (dropSuperseded spec bounds latest.2.offset) res).Fits bounds :=
    fits_foldl_dropSuperseded hfits _
  have hbounds : ∀ part ∈ participants spec pairs,
      InBounds bounds part := by
    intro part hpart
    exact hpairs.inBounds part (mem_filter.mp hpart).1
  rw [get_dropExpired hfitsFold (hpairs.inBounds latest hin.1),
    get_foldl_dropSuperseded hfits hbounds, or_assoc]
  apply or_congr_right
  constructor
  · intro hor
    rcases hor with ⟨part, hpart, hi, hoffset, hne, hceiling⟩ | hexpired
    · have hmem := mem_filter.mp hpart
      refine ⟨part.2, hi ▸ hmem.1, hoffset, ?_⟩
      rw [droppedRec_eq_true hlatest (hlatest.max part hpart)]
      exact ⟨hmem.2, Or.inl (by rw [hoffset]; exact ⟨hne, hceiling⟩)⟩
    · refine ⟨latest.2, hexpired.2.1 ▸ hin.1, hexpired.2.2, ?_⟩
      rw [droppedRec_eq_true hlatest le_rfl]
      exact ⟨hin.2, Or.inr ⟨rfl, hexpired.1⟩⟩
  · intro hrec
    obtain ⟨rec, hmem, hoffset, hdropped⟩ := hrec
    have hpart : participant spec rec = true := by
      unfold droppedRec at hdropped
      exact (Bool.and_eq_true _ _ |>.mp hdropped).1
    have hfilter : (i, rec) ∈ participants spec pairs :=
      mem_filter.mpr ⟨hmem, hpart⟩
    rw [droppedRec_eq_true hlatest (hlatest.max _ hfilter)] at hdropped
    rcases hdropped.2 with hsuper | hexpired
    · exact Or.inl ⟨(i, rec), hfilter, rfl, hoffset, hoffset ▸ hsuper⟩
    · have heq := hpairs.injective _ hmem _ hin.1 hexpired.1
      refine Or.inr ⟨?_, ?_, ?_⟩
      · rw [← heq]
        exact hexpired.2
      · rw [← heq]
      · rw [← heq]
        exact hoffset

theorem collectedRec_eq_true (hlatest : Newest spec pairs latest)
    (hrec : rec.offset ≤ latest.2.offset) :
    collectedRec spec now pairs rec = true ↔
      participant spec rec = true ∧ rec.offset = latest.2.offset ∧
        expiredRec spec now rec = true := by
  have hnewer := any_newer_iff hlatest hrec
  have hnot : (!(pairs.any fun newer =>
      participant spec newer.2 &&
        decide (rec.offset < newer.2.offset))) = true ↔
      rec.offset = latest.2.offset := by
    rw [Bool.not_eq_true', Bool.eq_false_iff, Ne, hnewer, not_not]
  unfold collectedRec
  rw [Bool.and_eq_true, Bool.and_eq_true, hnot, and_assoc]

theorem markGc_spec (hpairs : PairsOk bounds pairs)
    (hlatest : Newest spec pairs latest) (i : ℕ) :
    (dropExpired spec now bounds ((participants spec pairs).foldl
          (dropSuperseded spec bounds latest.2.offset) res)
        latest).gcSegs i = true ↔
      res.gcSegs i = true ∨ ∃ rec, (i, rec) ∈ pairs ∧ collectedRec spec now pairs rec = true := by
  have hin := mem_filter.mp hlatest.mem
  have hfold := (foldl_dropSuperseded_gcSegs spec bounds latest.2.offset
    (participants spec pairs) res).1
  have hexpired : (dropExpired spec now bounds
      ((participants spec pairs).foldl
        (dropSuperseded spec bounds latest.2.offset) res)
      latest).gcSegs i = true ↔
      res.gcSegs i = true ∨ (latest.1 = i ∧ expiredRec spec now latest.2 = true) := by
    unfold dropExpired
    split
    next hexp =>
      by_cases hi : i = latest.1
      · simp [hi, hexp]
      · simp [hi, Ne.symm hi, hfold]
    next hexp => simp [hexp, hfold]
  rw [hexpired]
  apply or_congr_right
  constructor
  · intro hlast
    refine ⟨latest.2, hlast.1 ▸ hin.1, ?_⟩
    rw [collectedRec_eq_true hlatest le_rfl]
    exact ⟨hin.2, rfl, hlast.2⟩
  · intro hrec
    obtain ⟨rec, hmem, hcollected⟩ := hrec
    have hpart : participant spec rec = true := by
      unfold collectedRec at hcollected
      simp only [Bool.and_eq_true] at hcollected
      exact hcollected.1.1
    have hfilter : (i, rec) ∈ participants spec pairs :=
      mem_filter.mpr ⟨hmem, hpart⟩
    rw [collectedRec_eq_true hlatest (hlatest.max _ hfilter)] at hcollected
    have heq := hpairs.injective _ hmem _ hin.1 hcollected.2.1
    rw [← heq]
    exact ⟨rfl, hcollected.2.2⟩

theorem markKey_spec (hfits : res.Fits bounds) (hpairs : PairsOk bounds pairs) :
    MarkSpec spec now bounds pairs res (markKey spec now bounds res pairs) := by
  have hflags := markKey_flags spec now bounds res pairs
  have haborted := foldl_scanRec_abortedKeyed spec pairs res
  have hstrip := foldl_scanRec_stripKeyed spec pairs res
  have hlatest := latestOk_foldl_scanRec spec res hpairs.nonneg
  have hparts := foldl_scanRec_parts spec pairs (KeyScan.start res)
  rw [show (KeyScan.start res).parts = [] from rfl, nil_append] at hparts
  unfold LatestOk at hlatest
  rw [hparts] at hlatest
  have hmark := markKey_eq spec now bounds res pairs
  cases hscan : (pairs.foldl (scanRec spec) (KeyScan.start res)).latest with
  | none =>
    rw [hscan] at hlatest hmark
    have hnone : ∀ part ∈ pairs, participant spec part.2 = false := by
      intro part hpart
      have hnot := filter_eq_nil_iff.mp hlatest part hpart
      simpa using hnot
    refine ⟨?_, ?_, ?_, ?_, ?_⟩
    · rw [hmark]
      exact hfits.withScan _
    · intro i offset
      rw [hmark]
      constructor
      · exact Or.inl
      · intro hor
        rcases hor with hold | ⟨rec, hmem, _, hdropped⟩
        · exact hold
        · simp [droppedRec, hnone _ hmem] at hdropped
    · intro i
      rw [hmark]
      constructor
      · exact Or.inl
      · intro hor
        rcases hor with hold | ⟨rec, hmem, hcollected⟩
        · exact hold
        · simp [collectedRec, hnone _ hmem] at hcollected
    · intro i
      rw [hflags.1]
      exact haborted i
    · intro i
      rw [hflags.2]
      exact hstrip i
  | some latest =>
    rw [hscan] at hlatest hmark
    have hscanFits := hfits.withScan (pairs.foldl (scanRec spec) (KeyScan.start res))
    refine ⟨?_, ?_, ?_, ?_, ?_⟩
    · rw [hmark]
      exact fits_dropExpired (fits_foldl_dropSuperseded hscanFits _) latest
    · intro i offset
      rw [hmark]
      exact markDrops_spec hscanFits hpairs ⟨hlatest.1, hlatest.2⟩ i offset
    · intro i
      rw [hmark]
      exact markGc_spec hpairs ⟨hlatest.1, hlatest.2⟩ i
    · intro i
      rw [hflags.1]
      exact haborted i
    · intro i
      rw [hflags.2]
      exact hstrip i

/-! ## The merge over all keys -/

def DigestsDescribe (segments : List Segment) (digests : List KeyDigest) :
    Prop :=
  Forall₂ (fun seg digest => digest.Describes seg.frames) segments digests

variable {segments : List Segment}

theorem DigestsDescribe.getElem? (hdescribe : DigestsDescribe segments digests) {digest : KeyDigest}
    (hget : digests[i]? = some digest) :
    ∃ seg, segments[i]? = some seg ∧ digest.Describes seg.frames :=
  Runs.forall₂_getElem? hdescribe.flip hget

theorem DigestsDescribe.getElem?_segment (hdescribe : DigestsDescribe segments digests)
    {seg : Segment} (hget : segments[i]? = some seg) :
    ∃ digest, digests[i]? = some digest ∧ digest.Describes seg.frames :=
  Runs.forall₂_getElem? hdescribe hget

theorem mem_groupPairs (hdescribe : DigestsDescribe segments digests)
    (hgroup : group.2 = lookupAll group.1 0 (digests.map KeyDigest.keyed)) :
    (i, rec) ∈ groupPairs group ↔ ∃ seg, segments[i]? = some seg ∧ ∃ frame ∈ seg.frames,
        isKeyedData group.1 frame = true ∧ digestRec frame = rec := by
  have hpairs : (i, rec) ∈ groupPairs group ↔ ∃ recs, (i, recs) ∈ group.2 ∧ rec ∈ recs := by
    simp [groupPairs]
  rw [hpairs, hgroup]
  constructor
  · intro hrecs
    obtain ⟨recs, hmem, hrec⟩ := hrecs
    obtain ⟨j, keyed, hget, hij, hfind⟩ := mem_lookupAll.mp hmem
    rw [Nat.zero_add] at hij
    subst hij
    rw [getElem?_map, Option.map_eq_some_iff] at hget
    obtain ⟨digest, hdigest, hkeyed⟩ := hget
    obtain ⟨seg, hseg, hdesc⟩ := hdescribe.getElem? hdigest
    rw [← hkeyed, hdesc.find_keyed] at hfind
    have hentry : keyRecs group.1 seg.frames = recs := by
      unfold entryFor at hfind
      split at hfind
      · cases hfind
      · exact Option.some.inj hfind
    rw [← hentry] at hrec
    exact ⟨seg, hseg, mem_keyRecs.mp hrec⟩
  · intro hframe
    obtain ⟨seg, hseg, hmem⟩ := hframe
    obtain ⟨digest, hdigest, hdesc⟩ := hdescribe.getElem?_segment hseg
    have hrec := mem_keyRecs.mpr hmem
    have hfind : find group.1 digest.keyed = some (keyRecs group.1 seg.frames) := by
      rw [hdesc.find_keyed]
      unfold entryFor
      rw [if_neg (ne_nil_of_mem hrec)]
    refine ⟨keyRecs group.1 seg.frames, ?_, hrec⟩
    rw [KeyMerge.mem_lookupAll]
    refine ⟨i, digest.keyed, ?_, by simp, hfind⟩
    rw [getElem?_map, hdigest]
    rfl

variable {frame : Frame}

theorem isKeyedData_iff {key : Bytes} : isKeyedData key frame = true ↔
      hasKey frame = true ∧ frame.key = some key := by
  unfold isKeyedData hasKey
  cases hkey : frame.key with
  | none => simp
  | some other => simp

theorem pairsOk_groupPairs (hordered : LogOrdered segments)
    (hdescribe : DigestsDescribe segments digests)
    (hgroup : group.2 = lookupAll group.1 0 (digests.map KeyDigest.keyed)) :
    PairsOk (boundsOf segments) (groupPairs group) := by
  refine ⟨?_, ?_, ?_⟩
  · intro part hpart
    obtain ⟨seg, hseg, frame, hframe, _, hrec⟩ :=
      (mem_groupPairs hdescribe hgroup).mp hpart
    have hwf := hordered.wellFormed seg (mem_of_getElem? hseg)
    rw [← hrec]
    exact hwf.offset_nonneg hframe
  · intro part hpart
    obtain ⟨seg, hseg, frame, hframe, _, hrec⟩ :=
      (mem_groupPairs hdescribe hgroup).mp hpart
    have hwf := hordered.wellFormed seg (mem_of_getElem? hseg)
    have hbounds : boundsOf segments part.1 = (seg.baseOffset, seg.nextOffset) := by
      simp [boundsOf, hseg]
    unfold InBounds
    rw [hbounds, ← hrec]
    exact ⟨hwf.base_le frame hframe, hwf.offset_lt_nextOffset hframe⟩
  · intro part hpart part' hpart' hoffset
    obtain ⟨seg, hseg, frame, hframe, _, hrec⟩ :=
      (mem_groupPairs hdescribe hgroup).mp hpart
    obtain ⟨seg', hseg', frame', hframe', _, hrec'⟩ :=
      (mem_groupPairs hdescribe hgroup).mp hpart'
    have hframes : frame.offset = frame'.offset := by
      rw [← hrec, ← hrec'] at hoffset
      exact hoffset
    have hindex := hordered.index_eq hseg hseg' hframe hframe' hframes
    have hsame := hordered.eq_of_offset_eq (mem_recordsOf_getElem?.mpr ⟨_, seg, hseg, hframe⟩)
      (mem_recordsOf_getElem?.mpr ⟨_, seg', hseg', hframe'⟩) hframes
    exact Prod.ext hindex (by rw [← hrec, ← hrec', hsame])

section

variable (hdescribe : DigestsDescribe segments digests)
include hdescribe

theorem any_newer_groupPairs (hgroup : group.2 = lookupAll group.1 0 (digests.map KeyDigest.keyed))
    (frame : Frame) :
    ((groupPairs group).any fun newer =>
        participant spec newer.2 &&
          decide ((digestRec frame).offset < newer.2.offset)) =
      superseded spec (recordsOf segments) group.1 frame := by
  rw [Bool.eq_iff_iff]
  unfold superseded
  rw [any_eq_true, any_eq_true]
  constructor
  · intro hnewer
    obtain ⟨⟨i, rec⟩, hmem, hcond⟩ := hnewer
    obtain ⟨seg, hseg, newer, hnewerMem, hkeyed, hrec⟩ :=
      (mem_groupPairs hdescribe hgroup).mp hmem
    rw [← hrec, Bool.and_eq_true] at hcond
    refine ⟨newer, mem_recordsOf_getElem?.mpr ⟨i, seg, hseg, hnewerMem⟩, ?_⟩
    rw [participates_eq, hkeyed, hcond.1]
    exact hcond.2
  · intro hnewer
    obtain ⟨newer, hmem, hcond⟩ := hnewer
    obtain ⟨i, seg, hseg, hnewerMem⟩ := mem_recordsOf_getElem?.mp hmem
    rw [participates_eq, Bool.and_eq_true, Bool.and_eq_true] at hcond
    refine ⟨(i, digestRec newer), (mem_groupPairs hdescribe hgroup).mpr
      ⟨seg, hseg, newer, hnewerMem, hcond.1.1, rfl⟩, ?_⟩
    rw [Bool.and_eq_true]
    exact ⟨hcond.1.2, hcond.2⟩

theorem droppedRec_groupPairs
    (hgroup : group.2 = lookupAll group.1 0 (digests.map KeyDigest.keyed)) (hkeyed : isKeyedData group.1 frame = true) :
    droppedRec spec now (groupPairs group) (digestRec frame) =
      dropped spec now (recordsOf segments) frame := by
  have hkey := (isKeyedData_iff.mp hkeyed).2
  unfold droppedRec dropped
  rw [any_newer_groupPairs hdescribe hgroup frame, hkey]
  simp only [participates_eq, hkeyed, Bool.true_and]
  rfl

theorem collectedRec_groupPairs
    (hgroup : group.2 = lookupAll group.1 0 (digests.map KeyDigest.keyed)) (hkeyed : isKeyedData group.1 frame = true) :
    collectedRec spec now (groupPairs group) (digestRec frame) =
      collected spec now (recordsOf segments) frame := by
  have hkey := (isKeyedData_iff.mp hkeyed).2
  unfold collectedRec collected
  rw [any_newer_groupPairs hdescribe hgroup frame, hkey]
  simp only [participates_eq, hkeyed, Bool.true_and]

theorem exists_group_iff {groups : List (Bytes × List (ℕ × List DigestRec))}
    (hmerge : MergeSpec (digests.map KeyDigest.keyed) groups)
    (R : List (ℕ × DigestRec) → DigestRec → Prop) (S : Frame → Prop)
    (hiff : ∀ group ∈ groups, ∀ frame, isKeyedData group.1 frame = true →
      (R (groupPairs group) (digestRec frame) ↔ S frame)) (i : ℕ) :
    (∃ group ∈ groups, ∃ rec, (i, rec) ∈ groupPairs group ∧ R (groupPairs group) rec) ↔
      ∃ seg, segments[i]? = some seg ∧ ∃ frame ∈ seg.frames, hasKey frame = true ∧ S frame := by
  constructor
  · intro hgroup
    obtain ⟨group, hmem, rec, hpair, hR⟩ := hgroup
    obtain ⟨seg, hseg, frame, hframe, hkeyed, hrec⟩ :=
      (mem_groupPairs hdescribe (hmerge.sound group hmem)).mp hpair
    rw [← hrec] at hR
    exact ⟨seg, hseg, frame, hframe, (isKeyedData_iff.mp hkeyed).1,
      (hiff group hmem frame hkeyed).mp hR⟩
  · intro hframe
    obtain ⟨seg, hseg, frame, hmem, hkey, hS⟩ := hframe
    obtain ⟨key, hsome⟩ : ∃ key, frame.key = some key := by
      unfold hasKey at hkey
      rw [Bool.and_eq_true] at hkey
      exact Option.isSome_iff_exists.mp hkey.2
    have hkeyed : isKeyedData key frame = true :=
      isKeyedData_iff.mpr ⟨hkey, hsome⟩
    let group : Bytes × List (ℕ × List DigestRec) :=
      (key, lookupAll key 0 (digests.map KeyDigest.keyed))
    have hpair : (i, digestRec frame) ∈ groupPairs group :=
      (mem_groupPairs hdescribe rfl).mpr ⟨seg, hseg, frame, hmem, hkeyed, rfl⟩
    have hne : lookupAll key 0 (digests.map KeyDigest.keyed) ≠ [] := by
      intro hnil
      simp [groupPairs, group, hnil] at hpair
    have hgroup : group ∈ groups := hmerge.complete key hne
    exact ⟨group, hgroup, digestRec frame, hpair, (hiff group hgroup frame hkeyed).mpr hS⟩

end

structure MergedAs (spec : CleanSpec) (now : ℤ) (segments : List Segment)
    (res : MergeResult) : Prop where
  countOk : ∀ i drops, res.drops i = some drops → drops.CountOk
  drops : ∀ i offset, DropSet.getOf (res.drops i) offset = true ↔
    ∃ seg, segments[i]? = some seg ∧ ∃ frame ∈ seg.frames,
      hasKey frame = true ∧ frame.offset = offset ∧
        dropped spec now (recordsOf segments) frame = true
  gcSegs : ∀ i, res.gcSegs i = true ↔ ∃ seg, segments[i]? = some seg ∧ ∃ frame ∈ seg.frames,
      hasKey frame = true ∧ collected spec now (recordsOf segments) frame = true
  abortedKeyed : ∀ i, res.abortedKeyed i = true ↔
    ∃ seg, segments[i]? = some seg ∧ ∃ frame ∈ seg.frames,
      hasKey frame = true ∧ frame.offset < spec.ceiling ∧ spec.aborted frame.offset = true
  stripKeyed : ∀ i, res.stripKeyed i = true ↔ ∃ seg, segments[i]? = some seg ∧ ∃ frame ∈ seg.frames,
      hasKey frame = true ∧ spec.stripActive = true ∧ frame.offset < spec.stripBelow ∧
        (digestRec frame).hasHeaders = true

theorem mergeDigests_spec (hordered : LogOrdered segments)
    (hdescribe : DigestsDescribe segments digests)
    (hmerged : mergeDigests spec now segments digests = .ok res) :
    MergedAs spec now segments res := by
  have hsorted : ∀ stream ∈ digests.map KeyDigest.keyed,
      Sorted stream := by
    intro stream hstream
    obtain ⟨digest, hdigest, rfl⟩ := mem_map.mp hstream
    obtain ⟨i, hi⟩ := mem_iff_getElem?.mp hdigest
    obtain ⟨_, _, hdesc⟩ := hdescribe.getElem? hi
    exact hdesc.keyed_sorted
  have hmerge := merge_spec hsorted
  have hres : res = (merge (digests.map KeyDigest.keyed)).foldl (fun res group =>
        markKey spec now (boundsOf segments) res (groupPairs group))
      MergeResult.empty := by
    unfold mergeDigests at hmerged
    split at hmerged
    · cases hmerged
    · exact (Except.ok.inj hmerged).symm
  have hmark : ∀ r, ∀ group ∈ merge (digests.map KeyDigest.keyed),
      MergeResult.Fits (boundsOf segments) r →
      MarkSpec spec now (boundsOf segments) (groupPairs group) r
        (markKey spec now (boundsOf segments) r (groupPairs group)) := by
    intro r group hgroup hfits
    exact markKey_spec hfits (pairsOk_groupPairs hordered hdescribe (hmerge.sound group hgroup))
  have hfits : ∀ r, ∀ group ∈ merge (digests.map KeyDigest.keyed),
      MergeResult.Fits (boundsOf segments) r →
      MergeResult.Fits (boundsOf segments)
        (markKey spec now (boundsOf segments) r (groupPairs group)) :=
    fun r group hgroup h => (hmark r group hgroup h).fits
  have hempty := MergeResult.fits_empty (boundsOf segments)
  refine ⟨?_, ?_, ?_, ?_, ?_⟩
  · rw [hres]
    exact (Runs.foldl_invariant (MergeResult.Fits (boundsOf segments)) hfits hempty).countOk
  · intro i offset
    rw [hres, Runs.foldl_accumulates (MergeResult.Fits (boundsOf segments))
      (fun r => DropSet.getOf (r.drops i) offset = true) _ hfits
      (fun r group hgroup h => (hmark r group hgroup h).drops i offset)
      hempty]
    rw [exists_group_iff hdescribe hmerge (fun pairs rec => rec.offset = offset ∧
        droppedRec spec now pairs rec = true)
      (fun frame => frame.offset = offset ∧ dropped spec now (recordsOf segments) frame = true)]
    · simp [MergeResult.empty, DropSet.getOf]
    · intro group hgroup frame hkeyed
      rw [droppedRec_groupPairs hdescribe (hmerge.sound group hgroup) hkeyed]
      rfl
  · intro i
    rw [hres, Runs.foldl_accumulates (MergeResult.Fits (boundsOf segments))
      (fun r => r.gcSegs i = true) _ hfits
      (fun r group hgroup h => (hmark r group hgroup h).gcSegs i) hempty]
    rw [exists_group_iff hdescribe hmerge (fun pairs rec => collectedRec spec now pairs rec = true)
      (fun frame => collected spec now (recordsOf segments) frame = true)]
    · simp [MergeResult.empty]
    · intro group hgroup frame hkeyed
      rw [collectedRec_groupPairs hdescribe (hmerge.sound group hgroup) hkeyed]
  · intro i
    rw [hres, Runs.foldl_accumulates (MergeResult.Fits (boundsOf segments))
      (fun r => r.abortedKeyed i = true) _ hfits
      (fun r group hgroup h => (hmark r group hgroup h).abortedKeyed i)
      hempty]
    rw [exists_group_iff hdescribe hmerge (fun _ rec => rec.offset < spec.ceiling ∧
        spec.aborted rec.offset = true)
      (fun frame => frame.offset < spec.ceiling ∧ spec.aborted frame.offset = true)]
    · simp [MergeResult.empty]
    · intro group _ frame _
      rfl
  · intro i
    rw [hres, Runs.foldl_accumulates (MergeResult.Fits (boundsOf segments))
      (fun r => r.stripKeyed i = true) _ hfits
      (fun r group hgroup h => (hmark r group hgroup h).stripKeyed i)
      hempty]
    rw [exists_group_iff hdescribe hmerge (fun _ rec => spec.stripActive = true ∧
        rec.offset < spec.stripBelow ∧ rec.hasHeaders = true)
      (fun frame => spec.stripActive = true ∧ frame.offset < spec.stripBelow ∧
        (digestRec frame).hasHeaders = true)]
    · simp [MergeResult.empty]
    · intro group _ frame _
      rfl

end CommitLog
