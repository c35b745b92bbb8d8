import CommitLog.Appends

/-!
# The attempts of a roll

An append that finds the active segment due creates the files of the next one.
If the log file is there already, another thread is taken to have rolled, and
the check starts over on the active segment.
-/

namespace CommitLog

/-- Where the creation of a segment's files can fail.  The log file stays if
only what follows it failed. -/
inductive CreateFault
  | logFile
  | positions

inductive RollError
  | segmentExists
  | commitLogClosed
  | failed (fault : CreateFault)

/-- The log and the base offsets that have a log file in its directory. -/
structure RollDir where
  log : LogView
  logFiles : List ℤ
  sealedBases : List ℤ
  closed : Bool

/-- The time at each round. -/
structure RollClock where
  now : ℕ → ℤ
  forward : ∀ attempt, now attempt ≤ now (attempt + 1)

namespace RollDir

variable (limits : RollLimits) (encodesBlocks : Bool)

/-- `split`. -/
def split (fault : Option CreateFault) (dir : RollDir) : Option RollError × RollDir :=
  if dir.log.active.nextOffset ∈ dir.logFiles then (some .segmentExists, dir)
  else
    let created := { dir with logFiles := dir.log.active.nextOffset :: dir.logFiles }
    match fault with
    | some .logFile => (some (.failed .logFile), dir)
    | some .positions => (some (.failed .positions), created)
    | none =>
      if dir.closed then (some .commitLogClosed, dir)
      else (none, { created with log := dir.log.roll encodesBlocks })

/-- `checkAndPerformSplit`, from its `attempt`-th round on; none is a loop that
goes on. -/
def checkAndPerformSplit (clock : RollClock) (fault : ℕ → Option CreateFault) :
    ℕ → ℕ → RollDir → Option (Except RollError Bool × RollDir)
  | 0, _, _ => none
  | rounds + 1, attempt, dir =>
    if dir.log.active.checkSplit limits (clock.now attempt) then
      match dir.split encodesBlocks (fault attempt) with
      | (some .segmentExists, dir) =>
        checkAndPerformSplit clock fault rounds (attempt + 1) dir
      | (some err, dir) => some (.error err, dir)
      | (none, rolled) =>
        some (.ok true, { rolled with sealedBases := dir.log.active.baseOffset :: dir.sealedBases })
    else some (.ok false, dir)

/-- The check returns.  Without an error the log is as the append expects it,
and with one it is as it was, and nothing is sealed. -/
def Rolls (clock : RollClock) (fault : ℕ → Option CreateFault) (dir : RollDir) : Prop :=
  ∃ rounds result, dir.checkAndPerformSplit limits encodesBlocks clock fault rounds 0 = some result ∧
    (∀ rolled, result.1 = .ok rolled →
      result.2.log = dir.log.checkAndPerformSplit limits (clock.now 0) encodesBlocks) ∧
    ∀ err, result.1 = .error err → result.2.log = dir.log ∧ result.2.sealedBases = dir.sealedBases

variable {limits encodesBlocks} {clock : RollClock} {fault : ℕ → Option CreateFault} {dir : RollDir}

theorem checkSplit_mono {seg : Segment} {before after : ℤ} (hle : before ≤ after)
    (hdue : seg.checkSplit limits before = true) : seg.checkSplit limits after = true := by
  simp only [Segment.checkSplit, Bool.or_eq_true, Bool.and_eq_true, decide_eq_true_eq] at hdue ⊢
  omega

/-- A round that meets the file leaves everything as it was for the next. -/
theorem goes_on {attempt : ℕ} (hdue : dir.log.active.checkSplit limits (clock.now attempt) = true)
    (hfile : dir.log.active.nextOffset ∈ dir.logFiles) (rounds : ℕ) :
    dir.checkAndPerformSplit limits encodesBlocks clock fault rounds attempt = none := by
  induction rounds generalizing attempt with
  | zero => rfl
  | succ rounds ih =>
    have hlater := checkSplit_mono (clock.forward attempt) hdue
    simp only [checkAndPerformSplit, if_pos hdue, split, if_pos hfile]
    exact ih hlater

theorem not_rolls (hdue : dir.log.active.checkSplit limits (clock.now 0) = true)
    (hfile : dir.log.active.nextOffset ∈ dir.logFiles) :
    ¬ dir.Rolls limits encodesBlocks clock fault := by
  rintro ⟨rounds, result, hreturns, _⟩
  rw [goes_on hdue hfile] at hreturns
  cases hreturns

theorem rolls_of_absent (hdue : dir.log.active.checkSplit limits (clock.now 0) = true)
    (habsent : dir.log.active.nextOffset ∉ dir.logFiles) :
    dir.Rolls limits encodesBlocks clock fault := by
  refine ⟨1, ?_⟩
  simp only [checkAndPerformSplit, if_pos hdue, split, if_neg habsent]
  cases fault 0 with
  | none =>
    cases hclosed : dir.closed with
    | true => exact ⟨_, rfl, by simp, by simp⟩
    | false => exact ⟨_, rfl, by simp [LogView.checkAndPerformSplit, hdue], by simp⟩
  | some place =>
    cases place with
    | logFile => exact ⟨_, rfl, by simp, by simp⟩
    | positions => exact ⟨_, rfl, by simp, by simp⟩

/-- An append's check returns exactly if the segment is not due or its
successor has no log file yet. -/
theorem rolls_iff (limits : RollLimits) (encodesBlocks : Bool) (clock : RollClock)
    (fault : ℕ → Option CreateFault) (dir : RollDir) :
    dir.Rolls limits encodesBlocks clock fault ↔
      (dir.log.active.checkSplit limits (clock.now 0) = true →
        dir.log.active.nextOffset ∉ dir.logFiles) := by
  constructor
  · intro hrolls hdue hfile
    exact not_rolls hdue hfile hrolls
  · intro habsent
    by_cases hdue : dir.log.active.checkSplit limits (clock.now 0) = true
    · exact rolls_of_absent hdue (habsent hdue)
    · refine ⟨1, (.ok false, dir), ?_, ?_, by simp⟩
      · simp only [checkAndPerformSplit, if_neg hdue]
      · simp [LogView.checkAndPerformSplit, hdue]

/-- A full segment with one record, alone in its directory. -/
def fullDir : RollDir :=
  ⟨⟨[], Segment.writeEach 0 false [storedFrame 0], fun _ => none⟩, [0], [], false⟩

/-- The log file of the next segment is made and the rest of it fails: the
append fails, and the next one never returns. -/
theorem second_roll_goes_on : ∃ left,
    fullDir.checkAndPerformSplit ⟨1, 0, by decide⟩ false ⟨fun _ => 0, fun _ => le_rfl⟩
        (fun _ => some .positions) 1 0 = some (.error (.failed .positions), left) ∧
      ∀ fault, ¬ left.Rolls ⟨1, 0, by decide⟩ false ⟨fun _ => 0, fun _ => le_rfl⟩ fault := by
  refine ⟨{ fullDir with logFiles := [1, 0] }, rfl, fun fault => ?_⟩
  exact not_rolls (by decide +kernel) (by decide +kernel)

end RollDir

end CommitLog
