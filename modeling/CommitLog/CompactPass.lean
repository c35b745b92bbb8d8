import CommitLog.CleanSegments

/-!
# One compaction pass

A pass loads or builds the digest of every segment, merges them, and gives
each sealed segment a disposition.  The segments that want a rewrite are
visited in drop-density order, those that remove a governing record last and
in offset order, until a budget, a read-only tier or a failing rewrite stops
them.  The segment list is then assembled in offset order together with the
verified floor.
-/

namespace CommitLog

/-! ## Skipping a segment -/

def dropCount (merged : MergeResult) (i : ℕ) : ℕ :=
  match merged.drops i with
  | none => 0
  | some drops => drops.count

def canSkip (spec : CleanSpec) (digest : KeyDigest) (merged : MergeResult) (i : ℕ) : Bool :=
  let covers := digest.stripStampCovers spec.stripBelow spec.stripHeaders
  if 0 < dropCount merged i then false
  else if merged.abortedKeyed i then false
  else if spec.stripActive && digest.control.any fun offset => decide (offset < spec.stripBelow)
    then false
  else if spec.stripActive && (merged.stripKeyed i && !covers) then false
  else if spec.stripActive && digest.unkeyed.any fun rec =>
      decide (rec.offset < spec.stripBelow) && rec.hasHeaders && !covers
    then false
  else if digest.unkeyed.any fun rec =>
      decide (rec.offset < spec.ceiling) && spec.aborted rec.offset
    then false
  else true

inductive SegDisposition
  | keepProtected
  | keepConverged
  | wantRewrite
deriving DecidableEq, Repr

inductive RewriteFault
  | none
  | before
  | after
deriving DecidableEq, Repr

/-- What a pass finds around it: the two clock readings, the age horizon of
the log, whether a deadline has passed when the budget is asked about a
segment (first and second call), which rewrites fail before or after they
installed their result, and which digest writes fail. -/
structure PassEnv where
  now : ℤ
  horizonNow : ℤ
  minAge : ℤ
  pastDeadline : ℕ → Bool → Bool
  fault : ℕ → RewriteFault
  persistFails : ℕ → Bool
  refreshFails : ℕ → Bool

def PassEnv.horizon (env : PassEnv) : ℤ :=
  if 0 < env.minAge then env.horizonNow - env.minAge else 0

def ageProtected (env : PassEnv) (seg : Segment) : Bool :=
  decide (0 < env.horizon) && decide (env.horizon < seg.lastWriteTime)

structure Candidate where
  index : ℕ
  seg : Segment
  digest : KeyDigest

def dispositionOf (spec : CleanSpec) (env : PassEnv) (merged : MergeResult)
    (c : Candidate) : SegDisposition :=
  if ageProtected env c.seg then .keepProtected
  else if canSkip spec c.digest merged c.index && !c.seg.needsBlockConsolidation then
    .keepConverged
  else .wantRewrite

/-- `lateRewrite`: the segment removes a record that governs older ones. -/
def lateRewrite (spec : CleanSpec) (merged : MergeResult) (c : Candidate) :
    Bool :=
  merged.gcSegs c.index || (spec.stripActive &&
      c.digest.control.any fun offset => decide (offset < spec.stripBelow))

/-! ## The order of the rewrites -/

def rewriteBefore (spec : CleanSpec) (merged : MergeResult) (a b : Candidate) : Bool :=
  if lateRewrite spec merged a != lateRewrite spec merged b then
    !lateRewrite spec merged a
  else if lateRewrite spec merged a then decide (a.index < b.index)
  else decide (dropCount merged b.index < dropCount merged a.index)

/-- `sort.SliceStable` on the segments that want a rewrite. -/
def rewriteOrder (spec : CleanSpec) (env : PassEnv) (merged : MergeResult)
    (candidates : List Candidate) : List Candidate :=
  (candidates.filter fun c =>
      dispositionOf spec env merged c == .wantRewrite).insertionSort
    fun a b => rewriteBefore spec merged b a = false

/-! ## Budgets -/

structure RewriteBudget where
  max : ℤ
  hasDeadline : Bool
  spent : ℕ

def newRewriteBudget (max duration : ℤ) : RewriteBudget :=
  ⟨max, decide (0 < duration), 0⟩

def RewriteBudget.allow (budget : RewriteBudget) (past : Bool) : Bool :=
  if 0 < budget.max ∧ budget.max ≤ budget.spent then false
  else !budget.hasDeadline || budget.spent == 0 || !past

def RewriteBudget.note (budget : RewriteBudget) : RewriteBudget :=
  { budget with spent := budget.spent + 1 }

structure Budgets where
  disk : RewriteBudget
  tier : String → RewriteBudget

namespace Budgets

def start (spec : CleanSpec) : Budgets where
  disk := newRewriteBudget spec.maxRewrites spec.rewriteBudget
  tier := fun name => newRewriteBudget spec.maxRewrites
    ((spec.tierBudgets name).getD spec.rewriteBudget)

def of (budgets : Budgets) (seg : Segment) : RewriteBudget :=
  match seg.tier with
  | none => budgets.disk
  | some name => budgets.tier name

def note (budgets : Budgets) (seg : Segment) : Budgets :=
  match seg.tier with
  | none => { budgets with disk := budgets.disk.note }
  | some name =>
    { budgets with
      tier := Function.update budgets.tier name (budgets.tier name).note }

end Budgets

/-! ## The rewrite loop -/

structure LoopState where
  budgets : Budgets
  skipped : Bool
  done : ℕ → Option CleanResult

def LoopState.skip (st : LoopState) : LoopState :=
  { st with skipped := true }

def LoopState.noteDone (st : LoopState) (c : Candidate) (result : CleanResult) : LoopState :=
  { st with
    budgets := st.budgets.note c.seg
    done := Function.update st.done c.index (some result) }

/-- How the loop ended: the rewrites it completed, and the one that failed
with what it had already installed. -/
structure LoopResult where
  done : ℕ → Option CleanResult
  failed : Option (ℕ × Option CleanResult)

def inReadOnlyTier (spec : CleanSpec) (seg : Segment) : Bool :=
  match seg.tier with
  | none => false
  | some name => spec.skipTiers name

def rewriteLoop (spec : CleanSpec) (env : PassEnv) (merged : MergeResult) :
    List Candidate → LoopState → LoopResult
  | [], st => ⟨st.done, none⟩
  | c :: rest, st =>
    let budget := st.budgets.of c.seg
    if inReadOnlyTier spec c.seg then
      rewriteLoop spec env merged rest st.skip
    else if lateRewrite spec merged c &&
        (st.skipped || !budget.allow (env.pastDeadline c.index false)) then
      ⟨st.done, none⟩
    else if !budget.allow (env.pastDeadline c.index true) then
      rewriteLoop spec env merged rest st.skip
    else
      match cleanSegment spec c.seg (merged.drops c.index) with
      | .error _ => ⟨st.done, some (c.index, none)⟩
      | .ok result =>
        match env.fault c.index with
        | .before => ⟨st.done, some (c.index, none)⟩
        | .after => ⟨st.done, some (c.index, some result)⟩
        | .none =>
          rewriteLoop spec env merged rest (st.noteDone c result)

/-- The rewrite that reached the segment's files, completed or not. -/
def LoopResult.installed (loop : LoopResult) (i : ℕ) : Option CleanResult :=
  match loop.done i with
  | some result => some result
  | none =>
    match loop.failed with
    | some (j, result) => if j = i then result else none
    | none => none

/-! ## Assembling the segment list -/

structure Assembly where
  sealedSegs : List Segment
  verified : ℤ
  chain : Bool

/-- `seg.NextOffset() - 1` as the assembly reads it: a rewrite of an offloaded
segment changes that segment in place. -/
def segEnd (c : Candidate) (result : Option CleanResult) : ℤ :=
  match result with
  | none => c.seg.nextOffset - 1
  | some result =>
    match result.outcome with
    | .replaced seg' =>
      if c.seg.isOffloaded then seg'.nextOffset - 1
      else c.seg.nextOffset - 1
    | _ => c.seg.nextOffset - 1

def segmentAfter (loop : LoopResult) (c : Candidate) : List Segment :=
  match loop.installed c.index with
  | none => [c.seg]
  | some result => (result.outcome.segment c.seg).toList

def assembleOne (spec : CleanSpec) (env : PassEnv) (merged : MergeResult)
    (loop : LoopResult) (acc : Assembly) (c : Candidate) : Assembly :=
  match dispositionOf spec env merged c with
  | .keepProtected =>
    { acc with sealedSegs := acc.sealedSegs ++ [c.seg], chain := false }
  | .keepConverged =>
    { acc with
      sealedSegs := acc.sealedSegs ++ [c.seg]
      verified := if acc.chain then segEnd c none else acc.verified }
  | .wantRewrite =>
    match loop.done c.index with
    | none =>
      { acc with
        sealedSegs := acc.sealedSegs ++ segmentAfter loop c
        chain := false }
    | some result =>
      { acc with
        sealedSegs := acc.sealedSegs ++ segmentAfter loop c
        verified :=
          if acc.chain then segEnd c (some result) else acc.verified }

/-- Two's complement wrap-around of a 64-bit integer. -/
def wrapInt64 (x : ℤ) : ℤ := x.bmod (2 ^ 64)

theorem wrapInt64_eq_self {x : ℤ} (hlow : -maxInt64 - 1 ≤ x)
    (hhigh : x ≤ maxInt64) : wrapInt64 x = x := by
  unfold maxInt64 at hlow hhigh
  unfold wrapInt64
  apply Int.bmod_eq_of_le <;> omega

def capFloor (spec : CleanSpec) (verified : ℤ) : ℤ :=
  if wrapInt64 (spec.stripBelow - 1) < verified then
    wrapInt64 (spec.stripBelow - 1)
  else verified

/-! ## Digests around a pass -/

/-- The log as a pass sees it: sealed segments, the active one, and the
digest files by base offset. -/
structure LogView where
  sealedSegs : List Segment
  active : Segment
  keys : ℤ → Option KeyDigest

def LogView.segments (log : LogView) : List Segment :=
  log.sealedSegs ++ [log.active]

def loadOrBuild (keys : ℤ → Option KeyDigest) (seg : Segment) : KeyDigest :=
  (loadKeyDigest (keys seg.baseOffset) seg).getD (buildKeyDigest seg)

def candidatesOf (log : LogView) : List Candidate :=
  log.sealedSegs.zipIdx.map fun entry =>
    ⟨entry.2, entry.1, loadOrBuild log.keys entry.1⟩

/-- A digest that had to be built for a sealed segment is written down. -/
def persistDigest (env : PassEnv) (keys : ℤ → Option KeyDigest)
    (c : Candidate) : ℤ → Option KeyDigest :=
  match loadKeyDigest (keys c.seg.baseOffset) c.seg with
  | some _ => keys
  | none =>
    if env.persistFails c.index then keys
    else Function.update keys c.seg.baseOffset (some (buildKeyDigest c.seg))

/-- Reading an extent of a block out of other block bytes, those that frame
`frames`: the frames that start inside the extent, and how far the last of
them reaches beyond its end. -/
def readExtent : List Frame → ℕ → Option (List Frame × ℕ)
  | _, 0 => some ([], 0)
  | [], _ + 1 => none
  | frame :: frames, n + 1 =>
    if frame.length ≤ n + 1 then
      (readExtent frames (n + 1 - frame.length)).map fun rest =>
        (frame :: rest.1, rest.2)
    else some ([frame], frame.length - (n + 1))

/-- Resuming a scan `n` bytes into the frames: anywhere but at a frame the
header checksum fails. -/
def resumeAt : List Frame → ℕ → Option (List Frame)
  | frames, 0 => some frames
  | [], _ + 1 => none
  | frame :: frames, n + 1 =>
    if frame.length ≤ n + 1 then resumeAt frames (n + 1 - frame.length)
    else none

/-- The scan of `refreshDigest`.  The pass keeps one decode cache, keyed by
segment and block start.  After an offloaded segment was swapped in place the
cache still holds the last block decoded from the old object, and the first
block of the new one starts at the same place when the old one had no other
block. -/
def refreshScan (old new : Segment) : Option (List Frame) :=
  match old.isOffloaded, old.layout, new.layout with
  | true, .blocks [cached], .blocks (first :: rest) =>
    (readExtent cached.frames (framingLen first.frames)).bind fun read =>
      (resumeAt (rest.flatMap Block.frames) read.2).map (read.1 ++ ·)
  | _, _, _ => some new.frames

def refreshDigest (env : PassEnv) (keys : ℤ → Option KeyDigest)
    (c : Candidate) (new : Segment) (result : CleanResult) :
    ℤ → Option KeyDigest :=
  if env.refreshFails c.index then keys
  else
    match refreshScan c.seg new with
    | none => keys
    | some frames =>
      Function.update keys new.baseOffset (some ((digestOfScan new.baseOffset new.position
          new.firstWriteTime frames).withStamp result.stamp result.stampHdrs))

def digestAfter (env : PassEnv) (loop : LoopResult)
    (keys : ℤ → Option KeyDigest) (c : Candidate) : ℤ → Option KeyDigest :=
  match loop.done c.index with
  | some result =>
    match result.outcome with
    | .emptied => Function.update keys c.seg.baseOffset none
    | .converged => refreshDigest env keys c c.seg result
    | .replaced new => refreshDigest env keys c new result
  | none =>
    match loop.installed c.index with
    | some ⟨.emptied, _, _, _⟩ =>
      Function.update keys c.seg.baseOffset none
    | _ => keys

/-! ## The pass -/

structure PassResult where
  log : LogView
  removed : ℕ
  verified : ℤ
  failed : Bool

/-- A strip-only pass takes nothing for its key. -/
def MergeResult.forPass (spec : CleanSpec) (merged : MergeResult) :
    MergeResult :=
  if spec.stripOnly then
    { merged with drops := fun _ => none, gcSegs := fun _ => false }
  else merged

def mergeLog (spec : CleanSpec) (env : PassEnv) (log : LogView) :
    Except MergeError MergeResult :=
  (mergeDigests spec env.now log.segments (log.sealedSegs.map (loadOrBuild log.keys) ++
      [buildKeyDigest log.active])).map (MergeResult.forPass spec)

def runRewrites (spec : CleanSpec) (env : PassEnv) (log : LogView)
    (merged : MergeResult) : LoopResult :=
  rewriteLoop spec env merged (rewriteOrder spec env merged (candidatesOf log))
    ⟨Budgets.start spec, false, fun _ => none⟩

def assemble (spec : CleanSpec) (env : PassEnv) (log : LogView) (merged : MergeResult) : Assembly :=
  (candidatesOf log).foldl (assembleOne spec env merged (runRewrites spec env log merged))
    ⟨[], -1, true⟩

def keysAfter (spec : CleanSpec) (env : PassEnv) (log : LogView)
    (merged : MergeResult) : ℤ → Option KeyDigest :=
  (candidatesOf log).foldl (digestAfter env (runRewrites spec env log merged))
    ((candidatesOf log).foldl (persistDigest env) log.keys)

def removedBy (loop : LoopResult) (candidates : List Candidate) : ℕ :=
  (candidates.map fun c =>
    match loop.done c.index with
    | none => 0
    | some result => result.removed).sum

/-- `compact` on a log with at least one sealed segment. -/
def compact (spec : CleanSpec) (env : PassEnv) (log : LogView) :
    Except MergeError PassResult := do
  let merged ← mergeLog spec env log
  let loop := runRewrites spec env log merged
  let assembly := assemble spec env log merged
  return {
    log := ⟨assembly.sealedSegs, log.active, keysAfter spec env log merged⟩
    removed := removedBy loop (candidatesOf log)
    verified :=
      if loop.failed.isSome then -1 else capFloor spec assembly.verified
    failed := loop.failed.isSome }

/-- `CompactSpec`. -/
def compactSpec (spec : CleanSpec) (env : PassEnv) (log : LogView) :
    Except MergeError PassResult :=
  if log.sealedSegs = [] then .ok ⟨log, 0, -1, false⟩
  else compact spec env log

end CommitLog
