import CommitLog.SegmentReopen

/-!
# A crash between the two renames of an install

Replacing a segment renames the new log over the old one and then the new
index over the old one.  After a crash in between, the new log is opened with
the index of the old one, and perhaps with the block table of the old one.
-/

namespace CommitLog

open OpenSegment

variable {stray : ℕ → Header} {base floor : ℤ} {encodesBlocks : Bool}
  {source installed : LogFile} {sidecarLeft : Bool}

def storedIndex (base : ℤ) (file : LogFile) : List Entry :=
  file.entries.map (Entry.stored base)

theorem storedIndex_fits {file : LogFile} {e : Entry}
    (he : e ∈ storedIndex base file) : e.Fits base := by
  rcases List.mem_map.mp he with ⟨e', _, rfl⟩
  exact Entry.fits_stored base e'

def leftSidecar (source : LogFile) (sidecarLeft : Bool) : Option (List BlockRef) :=
  if sidecarLeft then some source.table else none

def openCrashedInstall (stray : ℕ → Header) (base : ℤ) (encodesBlocks : Bool)
    (source installed : LogFile) (sidecarLeft : Bool) (floor : ℤ) :
    Except OpenError OpenSegment :=
  openSegment stray base encodesBlocks installed
    (leftSidecar source sidecarLeft) (storedIndex base source) floor

/-- The source's index is given up, or is a front part of the installed log's
index. -/
def StaleIndexUsable (stray : ℕ → Header) (base : ℤ) (encodesBlocks : Bool)
    (source installed : LogFile) (sidecarLeft : Bool) : Prop :=
  Rebuilds stray (initPositions base encodesBlocks installed
      (leftSidecar source sidecarLeft)) (storedIndex base source) ∨
    storedIndex base source <+: installed.entries

/-- An install that crashed between its renames opens as the installed log
exactly if the log's entries fit the index, a left sidecar of the log's size
is the log's own table, and the left index either reaches past the log in a
way that is noticed or agrees with the log. -/
theorem crashedInstall_opensAs_iff (hsound : installed.Sound base) (hwhole : installed.tail = []) :
    (∃ seg, openCrashedInstall stray base encodesBlocks source installed
        sidecarLeft floor = .ok seg ∧ OpensAs stray installed seg) ↔
      (∀ e ∈ installed.entries, e.Fits base) ∧
        TableRight installed (leftSidecar source sidecarLeft) ∧
        StaleIndexUsable stray base encodesBlocks source installed
          sidecarLeft := by
  unfold openCrashedInstall
  rw [opensAs_iff hsound fun e he => storedIndex_fits he]
  have hkept : ¬ Refuses base floor installed.frames installed.tail := by
    rintro ⟨hne, _⟩
    exact hne hwhole
  constructor
  · rintro ⟨hfits, htable, husable, _⟩
    exact ⟨hfits, htable, husable⟩
  · rintro ⟨hfits, htable, husable⟩
    exact ⟨hfits, htable, husable, fun h => hkept h.2⟩

/-- Record 0 is dropped and the others are gathered into one block; the three
old anchors all point into it. -/
def gatheredInstall : Except OpenError OpenSegment :=
  openCrashedInstall (fun _ => ⟨0, 0, 0⟩) 0 true (blockFile [(0, []), (1, []), (2, [3, 4])])
    (blockFile [(1, [2, 3, 4])]) true 4

/-- The old index is kept: the segment claims to start at the dropped record,
and a seek to record 2 lands on record 3. -/
theorem crashedInstall_keeps_stale_index :
    gatheredInstall.toOption.map OpenSegment.firstOffset = some 0 ∧
      (gatheredInstall.toOption.bind fun seg =>
        seg.findEntry (fun _ => ⟨0, 0, 0⟩) 2).map Entry.offset = some 3 ∧
      ¬ ∃ seg, gatheredInstall = .ok seg ∧
        OpensAs (fun _ => ⟨0, 0, 0⟩) (blockFile [(1, [2, 3, 4])]) seg := by
  have hfirst : gatheredInstall.toOption.map OpenSegment.firstOffset =
      some 0 := by decide +kernel
  refine ⟨hfirst, by decide +kernel, ?_⟩
  rintro ⟨seg, hok, hopens⟩
  rw [hok] at hfirst
  have heq : seg.firstOffset = 0 := Option.some.inj hfirst
  rw [hopens.firstOffset_eq] at heq
  exact absurd heq (by decide)

/-- A raw segment that lost its first record opens as its log, since the old
index reaches past the new log. -/
theorem crashedInstall_opensAs_rawFile :
    ∃ seg, openCrashedInstall (fun _ => ⟨0, 0, 0⟩) 0 false (rawFile [0, 1, 2])
        (rawFile [1, 2]) false 2 = .ok seg ∧
      OpensAs (fun _ => ⟨0, 0, 0⟩) (rawFile [1, 2]) seg := by
  have hsound : (rawFile [1, 2]).Sound 0 := by
    refine ⟨le_rfl, ?_, ?_, Or.inl rfl⟩
    · simp [rawFile, LogFile.frames, storedFrame, Frame.ofMessage]
    · simp [rawFile, LogFile.frames, storedFrame, Frame.ofMessage]
  apply (crashedInstall_opensAs_iff hsound rfl).mpr
  refine ⟨by decide +kernel, trivial, Or.inl ?_⟩
  exact ⟨_, rfl, by decide +kernel, by decide +kernel, by decide +kernel⟩

end CommitLog
