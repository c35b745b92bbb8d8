import CommitLog.BlockCopyRounds

/-!
# Copying all blocks

A follower gets every record from its start on, and the blocks it takes whole
byte for byte, exactly if the blocks behind the start and the frames of a
block the start lies inside of can be taken.
-/

namespace CommitLog

open List

variable {s : BlockLog} {b : BlockBatch}

open Runs

section Loop

variable {env : BlockEnv} {source : BlockLog} {encodesBlocks : Bool}

/-! ## Sufficient -/

/-- What every round starts from. -/
structure BlockLog.BlockCopyInv (env : BlockEnv) (source : BlockLog)
    (state : ℤ × BlockLog) : Prop where
  carried : source.Carried env.headerCrc state.1
  follows : state.2.Follows env
  behind : state.2.active.logical.nextOffset ≤ state.1

section Advance

variable {state state' : ℤ × BlockLog} {front rest added : List BlockBatch}

theorem CutAt.split {offset : ℤ} (hcut : CutAt source offset front rest)
    {b : BlockBatch} (hb : b ∈ source.batches) :
    (b ∈ front ∧ ∀ ms ∈ b.frames, (setFrame ms).offset < offset) ∨ b ∈ rest ∧ b.From offset := by
  rw [hcut.batches] at hb
  rcases mem_append.mp hb with hb | hb
  · left
    exact ⟨hb, fun ms hms =>
      hcut.below ms (mem_flatMap.mpr ⟨b, hb, hms⟩)⟩
  · right
    exact ⟨hb, fun ms hms =>
      hcut.above ms (mem_flatMap.mpr ⟨b, hb, hms⟩)⟩

theorem CutAt.head {offset : ℤ} (hcut : CutAt source offset front rest) (hb : b ∈ source.batches)
    {inner head : List Bytes} (hframes : b.frames = inner ++ head) (hinner : inner ≠ [])
    (hhead : head ≠ []) (hbelow : ∀ ms ∈ inner, (setFrame ms).offset < offset)
    (habove : ∀ ms ∈ head, offset ≤ (setFrame ms).offset) : False := by
  obtain ⟨low, hlow⟩ := exists_mem_of_ne_nil _ hinner
  obtain ⟨high, hhigh⟩ := exists_mem_of_ne_nil _ hhead
  rcases hcut.split hb with ⟨-, hall⟩ | ⟨-, hall⟩
  · have hlt := hall high (by rw [hframes]; exact mem_append_right _ hhigh)
    have hle := habove high hhigh
    omega
  · have hle := hall low (by rw [hframes]; exact mem_append_left _ hlow)
    have hlt := hbelow low hlow
    omega

theorem Advance.carried (hadvance : Advance env source encodesBlocks state state' front rest added)
    (hcarried : source.Carried env.headerCrc state.1) : source.Carried env.headerCrc state'.1 := by
  constructor
  · intro b hb hfrom
    exact hcarried.whole b hb fun ms hms =>
      hadvance.rises.trans (hfrom ms hms)
  · intro seg hseg b hb inner head hframes hinner hhead hbelow habove
    exact (hadvance.cut.head (mem_flatMap.mpr ⟨seg, hseg, hb⟩) hframes
      hinner hhead hbelow habove).elim

theorem BlockLog.Grown.frames_eq {s' : BlockLog} (hgrown : s.Grown env encodesBlocks s' added) :
    s'.logical.frames = s.logical.frames ++ added.flatMap BlockBatch.frames := by
  rw [BlockLog.frames_logical, BlockLog.frames_logical, hgrown.batches, flatMap_append]

theorem Advance.copied (hadvance : Advance env source encodesBlocks state state' front rest added)
    {r : Option BlockLog} (hcopied : source.CopiedBlocks env encodesBlocks state'.1 state'.2 r) :
    source.CopiedBlocks env encodesBlocks state.1 state.2 r := by
  obtain ⟨copy, more, hresult, hbatches, hframes, hreads, hblocks⟩ := hcopied
  refine ⟨copy, added ++ more, hresult, ?_, ?_, hreads, ?_⟩
  · rw [hbatches, hadvance.grown.batches, append_assoc]
  · rw [flatMap_append, hframes, hadvance.taken, hadvance.cut.framesFrom_eq]
  · intro hencodes hmode b hb hfrom
    rcases hadvance.cut.split hb with ⟨hfront, -⟩ | ⟨-, hrest⟩
    · exact mem_append_left _ (hadvance.blocks hencodes hmode b hfront hfrom)
    · exact mem_append_right _ (hblocks hencodes (hadvance.grown.mode hencodes hmode) b hb hrest)

end Advance

theorem BlockLog.Source.blockRound_step (hsource : source.Source env) (state : ℤ × BlockLog)
    (hinv : source.BlockCopyInv env state) (c : BlockCall encodesBlocks) :
    (∃ r, blockRound env source c state = .stop r ∧
        source.CopiedBlocks env encodesBlocks state.1 state.2 r) ∨
      ∃ state', blockRound env source c state = .more state' ∧ source.BlockCopyInv env state' ∧
        (source.logical.framesFrom state'.1).length < (source.logical.framesFrom state.1).length ∧
        state.2.logical.frames.length < state'.2.logical.frames.length ∧
        ∀ r, source.CopiedBlocks env encodesBlocks state'.1 state'.2 r →
          source.CopiedBlocks env encodesBlocks state.1 state.2 r := by
  obtain ⟨next, s⟩ := state
  by_cases hnone : source.logical.framesFrom next = []
  · left
    refine ⟨some s, ?_, s, [], rfl, by simp, by rw [hnone]; rfl, hinv.follows.reads, ?_⟩
    · rw [blockRound]
      rcases hsource.readBlocks_nil hnone env.headerCrc c.maxBytes with
        hread | hread
      · rw [hread]
      · rw [hread]
        rfl
    · intro _ _ b hb hfrom
      obtain ⟨ms, hms⟩ := exists_mem_of_ne_nil _ (hsource.held b hb).ne_nil
      have hin : ms ∈ source.logical.framesFrom next := by
        refine mem_filter.mpr ⟨?_, by simpa using hfrom ms hms⟩
        rw [BlockLog.frames_logical]
        exact mem_flatMap.mpr ⟨b, hb, hms⟩
      rw [hnone] at hin
      cases hin
  · right
    obtain ⟨cursor⟩ := hsource.cursor hnone
    have hround : ∃ state' front rest added, blockRound env source c (next, s) = .more state' ∧
        Advance env source encodesBlocks (next, s) state' front rest added := by
      by_cases hinner : cursor.inner = []
      · exact cursor.round_whole hsource hinner hinv.carried.whole hinv.follows hinv.behind c
      · exact cursor.round_inside hsource hinner hinv.carried hinv.follows hinv.behind c
    obtain ⟨state', front, rest, added, hmore, hadvance⟩ := hround
    have hpos := length_pos_of_ne_nil hadvance.nonempty
    refine ⟨state', hmore, ⟨hadvance.carried hinv.carried,
      hadvance.grown.follows, hadvance.behind⟩, ?_, ?_,
      fun r => hadvance.copied⟩
    · rw [hadvance.taken, hadvance.cut.framesFrom_eq, length_append]
      omega
    · rw [hadvance.grown.frames_eq, length_append]
      omega

/-! ## Necessary -/

/-- A round with a budget of one byte. -/
def oneByte (encodesBlocks : Bool) : BlockCall encodesBlocks where
  maxBytes := 1
  positive := Nat.one_pos
  opts := fun _ => { byteEnv with encodesBlocks := encodesBlocks }
  mode := fun _ => rfl

theorem blockRound_refused {c : BlockCall encodesBlocks} {next : ℤ} {b : SentBlock}
    (hread : source.readBlocks env.headerCrc next c.maxBytes = .read [] [b])
    (hrefused : s.appendBlock env (c.opts b.firstOffset) b.data = none) :
    blockRound env source c (next, s) = .stop none := by
  rw [blockRound, hread]
  simp [hrefused]

theorem blockRound_head_refused {c : BlockCall encodesBlocks} {next : ℤ} {head : Bytes}
    {sent : List SentBlock}
    (hread : source.readBlocks env.headerCrc next c.maxBytes = .read head sent) (hne : head ≠ [])
    (hrefused : s.appendMessageSet env (c.opts next) head = none) :
    blockRound env source c (next, s) = .stop none := by
  rw [blockRound, hread]
  simp [hne, hrefused]

structure Took (env : BlockEnv) (source : BlockLog)
    (state state' : ℤ × BlockLog) (taken : List Bytes) : Prop where
  nonempty : taken ≠ []
  left : source.logical.framesFrom state.1 = taken ++ source.logical.framesFrom state'.1
  frames : state'.2.logical.frames = state.2.logical.frames ++ taken
  follows : state'.2.Follows env
  behind : state'.2.active.logical.nextOffset ≤ state'.1

section OneByte

variable {next : ℤ} (cursor : source.Cursor next)
  (hsource : source.Source env) {s : BlockLog} (hfollows : s.Follows env)
  (hbehind : s.active.logical.nextOffset ≤ next)
include hsource hfollows hbehind

theorem BlockLog.Cursor.oneByte_whole (hinner : cursor.inner = []) :
    blockRound env source (oneByte encodesBlocks) (next, s) = .stop none ∨
      Admissible cursor.block.frames ∧ ∃ state',
        blockRound env source (oneByte encodesBlocks) (next, s) = .more state' ∧
        CutAt source state'.1 (cursor.ahead ++ (cursor.before ++ [cursor.block]))
          (cursor.after ++ cursor.behind) ∧
        Took env source (next, s) state' cursor.block.frames := by
  have hserved := hsource.served cursor.mem
  have hheld := hsource.held cursor.block (by rw [cursor.allBatches]; simp)
  obtain ⟨firstOffset, hsend⟩ :=
    hserved.sendBlocks_one cursor.segBatches hheld.decodes.1
  have hread := cursor.readBlocks_whole hsource hinner env.headerCrc
    (oneByte encodesBlocks).maxBytes
  have hone : ((oneByte encodesBlocks).maxBytes : ℤ) = 1 := rfl
  rw [hone, hsend] at hread
  simp only at hread
  have hblock : cursor.block.frames = cursor.head := by
    rw [cursor.frames, hinner, nil_append]
    rfl
  have hframes := cursor.framesFrom_eq hsource
  rw [← hblock] at hframes
  have hfits : Fitting s cursor.block.frames := hsource.fitting_behind
    (by rw [hframes]; exact sublist_append_left _ _) hheld.ne_nil hbehind
  cases happend : s.appendBlock env ((oneByte encodesBlocks).opts firstOffset)
      cursor.block.stored.bytes with
  | none =>
    left
    exact blockRound_refused hread happend
  | some u =>
    right
    have hadmissible := hfits.admissible_of_appendBlock hfollows hheld happend
    obtain ⟨last, hlast⟩ : ∃ last, cursor.block.frames.getLast? = some last :=
      ⟨_, getLast?_eq_some_getLast hheld.ne_nil⟩
    obtain ⟨u', b', happend', hgrown, hsame, -, hnext⟩ := hfits.appendBlock
      hfollows hheld hadmissible ((oneByte encodesBlocks).opts firstOffset)
      hlast
    rw [happend, Option.some.injEq] at happend'
    rw [← happend'] at hgrown hnext
    have hcut := cursor.cut_reported hsource (show cursor.seg.batches =
        (cursor.before ++ [cursor.block]) ++ cursor.after by
          rw [cursor.segBatches]
          simp) (by simp)
    have hround := blockRound_read hread (by simp) (if_pos rfl) (show foldlM _ s _ = some u by
        rw [foldlM_cons, happend]
        rfl)
    refine ⟨hadmissible, _, hround, hcut, hheld.ne_nil, ?_, ?_, hgrown.follows, ?_⟩
    · exact hframes.trans (congrArg (cursor.block.frames ++ ·) hcut.framesFrom_eq.symm)
    · change u.logical.frames = _
      rw [hgrown.frames_eq, flatMap_singleton, hsame]
    · change u.active.logical.nextOffset ≤ _
      rw [hnext]
      apply hcut.below
      rw [flatMap_append, flatMap_append, flatMap_singleton]
      exact mem_append_right _ (mem_append_right _ (mem_of_getLast? hlast))

theorem BlockLog.Cursor.oneByte_head {front tail : List Bytes}
    (hhead : cursor.head = front ++ tail) (hne : front ≠ [])
    (hread : source.readBlocks env.headerCrc next
      (oneByte encodesBlocks).maxBytes = .read front.flatten []) {last : Bytes}
    (hlast : front.getLast? = some last) :
    blockRound env source (oneByte encodesBlocks) (next, s) = .stop none ∨ Admissible front ∧ ∃ s',
        blockRound env source (oneByte encodesBlocks) (next, s) =
          .more ((setFrame last).offset + 1, s') ∧
        Took env source (next, s) ((setFrame last).offset + 1, s') front := by
  have hframes : source.logical.framesFrom next = front ++ (tail ++
      (cursor.after ++ cursor.behind).flatMap BlockBatch.frames) := by
    rw [cursor.framesFrom_eq hsource, hhead, append_assoc]
  have hfits : Fitting s front := hsource.fitting_behind
    (by rw [hframes]; exact sublist_append_left _ _) hne hbehind
  have hbytes : front.flatten ≠ [] := by
    have hin := mem_of_getLast? hlast
    intro hnil
    exact (hfits.whole last hin).ne_nil (flatten_eq_nil_iff.mp hnil last hin)
  cases happend : s.appendMessageSet env ((oneByte encodesBlocks).opts next) front.flatten with
  | none =>
    left
    exact blockRound_head_refused hread hbytes happend
  | some u =>
    right
    have hadmissible := hfits.admissible_of_appendMessageSet hfollows happend
    obtain ⟨u', b, happend', hgrown, hsame, hnext⟩ := hfits.appendMessageSet
      hfollows hadmissible ((oneByte encodesBlocks).opts next) hlast
    rw [happend, Option.some.injEq] at happend'
    rw [← happend'] at hgrown hnext
    have hround := blockRound_read hread (fun h => hbytes h.1)
      (by rw [if_neg hbytes]; exact happend) foldlM_nil
    rw [getLast?_nil, Option.map_none, Option.getD_none, hnext] at hround
    refine ⟨hadmissible, u, hround, hne, ?_, ?_, hgrown.follows, hnext.le⟩
    · rw [hframes, hsource.logical.ok.wellFormed.framesFrom_next hframes hlast]
    · change u.logical.frames = _
      rw [hgrown.frames_eq, flatMap_singleton, hsame]

end OneByte

theorem BlockLog.Cursor.framingOf_after {next : ℤ}
    (cursor : source.Cursor next) (hsource : source.Source env)
    (hfinal : cursor.seg.logical.frames.getLast? = cursor.head.getLast?) :
    framingOf cursor.after = [] := by
  have hrising := pairwise_append.mp (cursor.rising hsource)
  by_contra hne
  have hafter : cursor.after.flatMap BlockBatch.frames ≠ [] := by
    intro hnil
    exact hne (by rw [framingOf, hnil]; rfl)
  have hframes : cursor.seg.logical.frames =
      (cursor.before.flatMap BlockBatch.frames ++ cursor.block.frames) ++
        cursor.after.flatMap BlockBatch.frames := by
    rw [BlockSegment.frames_logical, cursor.segBatches, flatMap_append, flatMap_cons, append_assoc]
  rw [hframes, getLast?_append_of_ne_nil _ hafter] at hfinal
  obtain ⟨last, hlast⟩ : ∃ last, cursor.head.getLast? = some last :=
    ⟨_, getLast?_eq_some_getLast (cons_ne_nil _ _)⟩
  rw [hlast] at hfinal
  have hlt := hrising.2.2 last (mem_of_getLast? hlast) last (by
    rw [flatMap_append]
    exact mem_append_left _ (mem_of_getLast? hfinal))
  omega

theorem BlockLog.Cursor.oneByte_inside {next : ℤ} (cursor : source.Cursor next)
    (hsource : source.Source env) {s : BlockLog} (hfollows : s.Follows env)
    (hbehind : s.active.logical.nextOffset ≤ next) (hinner : cursor.inner ≠ []) :
    blockRound env source (oneByte encodesBlocks) (next, s) = .stop none ∨
      blockRound env source (oneByte encodesBlocks) (next, s) = .stop (some s) ∨
      ∃ front tail last s', cursor.head = front ++ tail ∧ front.getLast? = some last ∧
        blockRound env source (oneByte encodesBlocks) (next, s) =
          .more ((setFrame last).offset + 1, s') ∧
        Took env source (next, s) ((setFrame last).offset + 1, s') front ∧
        (tail = [] ∧ HeadCarried env.headerCrc
            (cursor.seg.logical.frames.getLast? = cursor.head.getLast?)
            cursor.head ∨
          ∃ ms, tail = [ms] ∧ ms.length = msgSetHeaderLen ∧
            cursor.seg.logical.frames.getLast? = some ms) := by
  obtain ⟨fuel, hfuel, hread⟩ := cursor.readBlocks_inside hsource hinner
    env.headerCrc (oneByte encodesBlocks).maxBytes
  have hone : ((oneByte encodesBlocks).maxBytes : ℤ) = 1 := rfl
  rw [hone] at hread
  rcases @framesBetween_spec env.headerCrc cursor.head
    (cursor.head_whole hsource) (framingOf cursor.after) fuel hfuel [] with
    ⟨-, hnone⟩ |
    ⟨hheaders, ⟨front, ms, hafter, hhead, hempty, hsome⟩ | ⟨hpayload, hsome⟩⟩
  · -- a wrong header
    left
    rw [hnone] at hread
    simp only at hread
    rw [blockRound, hread]
  · -- an empty frame at the end of the segment
    have hnil : cursor.after = [] := by
      cases hcase : cursor.after with
      | nil => rfl
      | cons b after =>
        have hheld := hsource.held b (by
          rw [cursor.allBatches, hcase]
          simp)
        have hsize := hheld.size
        rw [hcase, framingOf, flatMap_cons, flatten_append, append_eq_nil_iff] at hafter
        rw [hafter.1] at hsize
        simp at hsize
    rw [hsome, hnil] at hread
    have hread' : source.readBlocks env.headerCrc next
        (oneByte encodesBlocks).maxBytes = .read front.flatten [] := by
      rw [hread, nil_append]
      rfl
    have hlastSeg : cursor.seg.logical.frames.getLast? = some ms := by
      rw [cursor.after_nil hsource hafter, hhead]
      simp
    by_cases hfront : front = []
    · right
      left
      rw [blockRound, hread', hfront]
      rfl
    · obtain ⟨last, hlast⟩ : ∃ last, front.getLast? = some last :=
        ⟨_, getLast?_eq_some_getLast hfront⟩
      rcases cursor.oneByte_head hsource hfollows hbehind hhead hfront hread'
        hlast with hstop | ⟨-, s', hmore, htook⟩
      · exact Or.inl hstop
      · right
        right
        exact ⟨front, [ms], last, s', hhead, hlast, hmore, htook,
          Or.inr ⟨ms, rfl, hempty, hlastSeg⟩⟩
  · -- all frames of the block
    have hlong : 1 < cursor.head.flatten.length := by
      have hmin := (cursor.head_whole hsource cursor.ms mem_cons_self).1
      unfold msgSetHeaderLen at hmin
      rw [BlockLog.Cursor.head, flatten_cons, length_append]
      omega
    have hne : cursor.head.flatten ≠ [] := by
      intro hnil
      rw [hnil] at hlong
      simp at hlong
    have hsend : sendBlocks cursor.seg.logical cursor.seg.logical.lastOffset
        (decide (cursor.head.flatten ≠ []))
        (1 - (cursor.head.flatten.length : ℤ))
        (blockRefs (framingOf (cursor.before ++ [cursor.block])).length
          cursor.after) = some [] := by
      cases cursor.after with
      | nil => rfl
      | cons b after =>
        rw [blockRefs, sendBlocks, if_pos]
        rw [Bool.and_eq_true, decide_eq_true_eq, decide_eq_true_eq]
        exact ⟨hne, by omega⟩
    rw [hsome, nil_append] at hread
    simp only at hread
    rw [hsend] at hread
    simp only at hread
    obtain ⟨last, hlast⟩ : ∃ last, cursor.head.getLast? = some last :=
      ⟨_, getLast?_eq_some_getLast (cons_ne_nil _ _)⟩
    rcases cursor.oneByte_head hsource hfollows hbehind
      (append_nil _).symm (cons_ne_nil _ _) hread hlast with
      hstop | ⟨hadmissible, s', hmore, htook⟩
    · exact Or.inl hstop
    · right
      right
      refine ⟨cursor.head, [], last, s', (append_nil _).symm, hlast,
        hmore, htook, Or.inl ⟨rfl, hheaders, hadmissible, ?_⟩⟩
      intro hfinal
      exact hpayload (cursor.framingOf_after hsource hfinal)

theorem BlockLog.Source.same_segment (hsource : source.Source env) {seg seg' : BlockSegment}
    (hseg : seg ∈ source.segments) (hseg' : seg' ∈ source.segments) {ms : Bytes}
    (hms : ms ∈ seg.logical.frames) (hms' : ms ∈ seg'.logical.frames) : seg = seg' := by
  have hapart := hsource.logical.ok.wellFormed.apart
  rw [BlockLog.segments_logical, pairwise_map, pairwise_iff_getElem] at hapart
  have hbase : ∀ other ∈ source.segments, ms ∈ other.logical.frames →
      other.logical.base ≤ (setFrame ms).offset := fun other hother hin =>
    (hsource.served hother).wellFormed.base_le ms hin
  have hle := hbase seg hseg hms
  have hle' := hbase seg' hseg' hms'
  obtain ⟨i, hi, rfl⟩ := getElem_of_mem hseg
  obtain ⟨j, hj, rfl⟩ := getElem_of_mem hseg'
  rcases lt_trichotomy i j with hlt | rfl | hlt
  · have hless := (hapart i j hi hj hlt).2 ms hms
    omega
  · rfl
  · have hless := (hapart j i hj hi hlt).2 ms hms'
    omega

section Carried

variable {next next' : ℤ} (cursor : source.Cursor next) (hsource : source.Source env)
  (hcut : CutAt source next' (cursor.ahead ++ (cursor.before ++ [cursor.block]))
    (cursor.after ++ cursor.behind))
  (hcarried : source.Carried env.headerCrc next')
include hcut hcarried

theorem BlockLog.Cursor.carried_rest (hrest : b ∈ cursor.after ++ cursor.behind) {ms : Bytes}
    (hlast : b.frames.getLast? = some ms) : ms.length ≤ maxInt32 := by
  apply hcarried.whole b _ _ ms hlast
  · rw [hcut.batches]
    exact mem_append_right _ hrest
  · intro other hother
    exact hcut.above other (mem_flatMap.mpr ⟨b, hrest, hother⟩)

include hsource

omit hcut hcarried in
theorem BlockLog.Cursor.from_rest (hrest : b ∈ cursor.after ++ cursor.behind) : b.From next := by
  intro ms hms
  exact cursor.above hsource ms (mem_append_right _ (mem_flatMap.mpr ⟨b, hrest, hms⟩))

theorem BlockLog.Cursor.carried_whole (hinner : cursor.inner = [])
    (hadmissible : Admissible cursor.block.frames) : source.Carried env.headerCrc next := by
  constructor
  · intro b hb hfrom ms hlast
    rcases cursor.from_cases hb ⟨ms, mem_of_getLast? hlast,
      hfrom ms (mem_of_getLast? hlast)⟩ with rfl | hrest
    · exact hadmissible.last ms hlast
    · exact cursor.carried_rest hcut hcarried hrest hlast
  · intro seg hseg b hb inner head hframes hlow hhead hbelow habove
    obtain ⟨ms, hms⟩ := exists_mem_of_ne_nil _ hhead
    obtain ⟨low, hin⟩ := exists_mem_of_ne_nil _ hlow
    have hfrom : b.From next := by
      rcases cursor.from_cases (mem_flatMap.mpr ⟨seg, hseg, hb⟩)
        ⟨ms, by rw [hframes]; exact mem_append_right _ hms, habove ms hms⟩ with rfl | hrest
      · intro other hother
        rw [cursor.frames, hinner, nil_append] at hother
        exact cursor.above hsource other (mem_append_left _ hother)
      · exact cursor.from_rest hsource hrest
    have hle := hfrom low (by
      rw [hframes]
      exact mem_append_left _ hin)
    have hlt := hbelow low hin
    omega

theorem BlockLog.Cursor.carried_inside (hinner : cursor.inner ≠ [])
    (hhead : HeadCarried env.headerCrc (cursor.seg.logical.frames.getLast? = cursor.head.getLast?)
      cursor.head) :
    source.Carried env.headerCrc next := by
  obtain ⟨inside, hinside⟩ := exists_mem_of_ne_nil _ hinner
  have hpast := cursor.below inside (mem_append_right _ hinside)
  constructor
  · intro b hb hfrom ms hlast
    rcases cursor.from_cases hb ⟨ms, mem_of_getLast? hlast,
      hfrom ms (mem_of_getLast? hlast)⟩ with rfl | hrest
    · have hle := hfrom inside (by
        rw [cursor.frames]
        exact mem_append_left _ hinside)
      omega
    · exact cursor.carried_rest hcut hcarried hrest hlast
  · intro seg hseg b hb inner head hframes hlow hne hbelow habove
    obtain ⟨first, others, rfl⟩ := exists_cons_of_ne_nil hne
    obtain ⟨low, hin⟩ := exists_mem_of_ne_nil _ hlow
    rcases cursor.from_cases (mem_flatMap.mpr ⟨seg, hseg, hb⟩)
      ⟨first, by rw [hframes]; simp, habove first mem_cons_self⟩ with
      rfl | hrest
    · -- the same block, cut at the same frame
      have hsplit : inner ++ first :: others = cursor.inner ++ cursor.ms :: cursor.outer := by
        rw [← hframes, cursor.frames]
      have hsame := front_unique hsplit hbelow (habove first mem_cons_self)
        (fun ms hms => cursor.below ms (mem_append_right _ hms))
        cursor.reached
      rw [hsame, append_cancel_left_eq] at hsplit
      rw [hsplit]
      have hmember : ∀ {other : BlockSegment}, cursor.block ∈ other.batches →
          cursor.ms ∈ other.logical.frames := by
        intro other hother
        rw [BlockSegment.frames_logical]
        refine mem_flatMap.mpr ⟨cursor.block, hother, ?_⟩
        rw [cursor.frames]
        simp
      have hsegs := hsource.same_segment hseg cursor.mem (hmember hb)
        (hmember (by rw [cursor.segBatches]; simp))
      rw [hsegs]
      exact hhead
    · have hle := cursor.from_rest hsource hrest low (by
        rw [hframes]
        exact mem_append_left _ hin)
      have hlt := hbelow low hin
      omega

end Carried

theorem BlockLog.Source.carried (hsource : source.Source env) {next : ℤ} (hfollows : s.Follows env)
    (hbehind : s.active.logical.nextOffset ≤ next) {n : ℕ}
    {r : Option BlockLog}
    (hstop : Round.after (blockRound env source)
      (fun _ => oneByte encodesBlocks) n (.more (next, s)) = .stop r)
    (hcopied : ∃ copy, r = some copy ∧ copy.logical.frames =
      s.logical.frames ++ source.logical.framesFrom next) :
    source.Carried env.headerCrc next := by
  induction hcount : (source.logical.framesFrom next).length
    using Nat.strong_induction_on generalizing next s n with
  | _ count ih =>
    obtain ⟨copy, rfl, hcopy⟩ := hcopied
    have hmem : ∀ b ∈ source.batches, ∀ ms ∈ b.frames,
        next ≤ (setFrame ms).offset → ms ∈ source.logical.framesFrom next := by
      intro b hb ms hms hle
      refine mem_filter.mpr ⟨?_, by simpa using hle⟩
      rw [BlockLog.frames_logical]
      exact mem_flatMap.mpr ⟨b, hb, hms⟩
    by_cases hnone : source.logical.framesFrom next = []
    · constructor
      · intro b hb hfrom ms hlast
        have hin := hmem b hb ms (mem_of_getLast? hlast) (hfrom ms (mem_of_getLast? hlast))
        rw [hnone] at hin
        cases hin
      · intro seg hseg b hb inner head hframes _ hhead _ habove
        obtain ⟨ms, hms⟩ := exists_mem_of_ne_nil _ hhead
        have hin := hmem b (mem_flatMap.mpr ⟨seg, hseg, hb⟩) ms
          (by rw [hframes]; exact mem_append_right _ hms)
          (habove ms hms)
        rw [hnone] at hin
        cases hin
    obtain ⟨cursor⟩ := hsource.cursor hnone
    cases n with
    | zero => cases hstop
    | succ n =>
      rw [Round.after] at hstop
      have hrest : ∀ {state' : ℤ × BlockLog} {taken : List Bytes},
          blockRound env source (oneByte encodesBlocks) (next, s) =
            .more state' → Took env source (next, s) state' taken →
          source.Carried env.headerCrc state'.1 := by
        intro state' taken hmore htook
        have hleft : source.logical.framesFrom next =
            taken ++ source.logical.framesFrom state'.1 := htook.left
        have hframes : state'.2.logical.frames = s.logical.frames ++ taken := htook.frames
        have hpos := length_pos_of_ne_nil htook.nonempty
        rw [hmore] at hstop
        refine ih _ ?_ htook.follows htook.behind hstop ⟨copy, rfl, ?_⟩ rfl
        · rw [← hcount, hleft, length_append]
          omega
        · rw [hcopy, hframes, hleft, append_assoc]
      by_cases hinner : cursor.inner = []
      · rcases @BlockLog.Cursor.oneByte_whole env source encodesBlocks next
          cursor hsource s hfollows hbehind hinner with
          hround | ⟨hadmissible, state', hmore, hcut, htook⟩
        · rw [hround, Round.after_stop] at hstop
          cases hstop
        · exact cursor.carried_whole hsource hcut (hrest hmore htook) hinner hadmissible
      · rcases @BlockLog.Cursor.oneByte_inside env source encodesBlocks next
          cursor hsource s hfollows hbehind hinner with
          hround | hround | ⟨front, tail, last, s', hhead, hlast, hmore, htook, hcase⟩
        · rw [hround, Round.after_stop] at hstop
          cases hstop
        · rw [hround, Round.after_stop] at hstop
          cases hstop
          exact absurd (self_eq_append_right.mp hcopy) hnone
        · have hnext := hrest hmore htook
          rcases hcase with ⟨rfl, hcarried⟩ | ⟨ms, rfl, hempty, hfinal⟩
          · rw [append_nil] at hhead
            rw [← hhead] at hlast
            exact cursor.carried_inside hsource
              (cursor.cut_head hsource hlast) hnext hinner hcarried
          · -- the empty frame that is left is read as the end
            have hrising := pairwise_append.mp (cursor.rising hsource)
            have hparts := hrising.1
            rw [hhead, pairwise_append] at hparts
            have hlow := cursor.above hsource last (by
              rw [hhead]
              exact mem_append_left _ (mem_append_left _ (mem_of_getLast? hlast)))
            have hpayload := (hnext.head cursor.seg cursor.mem cursor.block
              (by rw [cursor.segBatches]; simp) (cursor.inner ++ front)
              [ms] (by
                rw [cursor.frames, append_assoc, ← hhead]
                rfl)
              (by simp [hinner]) (by simp) (by
                intro other hother
                rcases mem_append.mp hother with hother | hother
                · have hlt := cursor.below other (mem_append_right _ hother)
                  change _ < (setFrame last).offset + 1
                  omega
                · have hle := le_last_of_rising hparts.1 hlast other hother
                  change _ < (setFrame last).offset + 1
                  omega) (by
                intro other hother
                exact hparts.2.2 last (mem_of_getLast? hlast) other
                  hother)).payload (by rw [hfinal]; rfl) ms rfl
            omega

end Loop

/-! ## A block of two frames -/

/-- A frame at an offset with a payload of one byte, and what it gives as the
checksum of its header. -/
def byteFrame (offset check : Byte) : Bytes :=
  replicate 7 0 ++ [offset] ++ replicate 16 0 ++ [0, 0, 0, 1] ++ [0, 0, 0, check] ++ [7]

/-- Two frames, and the checksum in the header of the second. -/
def twoFrames (check : Byte) : List Bytes := [byteFrame 0 0, byteFrame 1 check]

def emptyBlocks : BlockLog := ⟨[], ⟨0, true, []⟩⟩

/-- What an empty log makes of them. -/
def twoFrameLog (env : BlockEnv) (check : Byte) : BlockLog :=
  ⟨[], ⟨0, true, [⟨twoFrames check, env.appendBlock (twoFrames check).flatten 2⟩]⟩⟩

theorem twoFrames_spec {check : Byte} (hcheck : check = 0 ∨ check = 1) :
    (∀ ms ∈ twoFrames check, WholeFrame ms) ∧
      checkAppendedEntries (-1) (entriesForMessageSet (twoFrames check).flatten)
        (twoFrames check).flatten.length = true ∧
      (entriesForMessageSet (twoFrames check).flatten).length = 2 ∧
      splitFrames (twoFrames check).flatten = twoFrames check ∧
      (twoFrames check).flatten.length = 66 ∧
      (twoFrames check).map (fun ms => (setFrame ms).offset) = [0, 1] ∧
      (entryOf 0 (byteFrame 0 0)).stored 0 = entryOf 0 (byteFrame 0 0) := by
  rcases hcheck with rfl | rfl <;> unfold WholeFrame <;> decide +kernel

theorem twoFrameLog_source (env : BlockEnv) {check : Byte} (hcheck : check = 0 ∨ check = 1) :
    emptyBlocks.appendMessageSet env
        { byteEnv with encodesBlocks := true } (twoFrames check).flatten =
          some (twoFrameLog env check) ∧
      (twoFrameLog env check).Source env := by
  obtain ⟨hwhole, haccepted, hcount, hsplit, hlength, hoffsets, hstored⟩ :=
    twoFrames_spec hcheck
  have hframes : (twoFrameLog env check).logical.active.frames =
      twoFrames check := by
    simp [twoFrameLog, BlockLog.logical, BlockSegment.logical, ByteSegment.frames]
  constructor
  · have hsame : emptyBlocks.checkAndPerformSplit
        { byteEnv with encodesBlocks := true } = emptyBlocks := by
      rw [BlockLog.checkAndPerformSplit, if_neg (by decide +kernel)]
    have haccepts : emptyBlocks.accepts (twoFrames check).flatten = true :=
      haccepted
    rw [BlockLog.appendMessageSet, hsame, if_pos haccepts, hcount, BlockLog.write, hsplit]
    rfl
  · have hoffset : ∀ ms ∈ twoFrames check, 0 ≤ (setFrame ms).offset ∧
        (setFrame ms).offset < maxInt64 := by
      intro ms hms
      have hin := mem_map_of_mem (f := fun ms => (setFrame ms).offset) hms
      rw [hoffsets] at hin
      unfold maxInt64
      simp only [mem_cons, not_mem_nil, or_false] at hin
      omega
    have hrising : (twoFrames check).Pairwise fun a b =>
        (setFrame a).offset < (setFrame b).offset := by
      rw [← pairwise_map (R := fun a b : ℤ => a < b)
        (f := fun ms => (setFrame ms).offset), hoffsets]
      decide
    have hwf : (twoFrameLog env check).logical.active.WellFormed := by
      constructor
      · rwa [hframes]
      · exact le_rfl
      · exact (show (0 : ℤ) ≤ maxInt64 by decide)
      · rw [hframes]
        exact fun ms hms => (hoffset ms hms).1
      · rwa [hframes]
      · rw [hframes]
        exact fun ms hms => (hoffset ms hms).2
    have hindexed : (twoFrameLog env check).logical.active.Indexed := by
      intro e he
      rw [mem_singleton.mp he]
      exact hstored
    constructor
    · refine ⟨⟨⟨?_, pairwise_singleton _ _⟩, ?_⟩, ?_⟩
      · intro seg hseg
        rw [mem_singleton.mp hseg]
        exact hwf
      · intro seg hseg
        rw [mem_singleton.mp hseg]
        exact hindexed
      · intro seg hseg
        cases hseg
    · intro seg hseg
      rw [mem_singleton.mp hseg]
      rfl
    · intro b hb
      rw [mem_singleton.mp hb]
      apply held_appendBlock hwhole
      · rw [hlength]
        decide
      · rw [hlength]
        decide

theorem emptyBlocks_follows (env : BlockEnv) : emptyBlocks.Follows env := by
  refine ⟨⟨?_, pairwise_singleton _ _⟩, ?_⟩
  · intro seg hseg
    rw [mem_singleton.mp hseg]
    constructor <;> simp [emptyBlocks, BlockLog.logical, BlockSegment.logical,
      ByteSegment.frames, maxInt64]
  · intro seg hseg _ b hb
    rw [mem_singleton.mp hseg] at hb
    cases hb

theorem emptyBlocks_behind : emptyBlocks.active.logical.nextOffset ≤ 1 := by
  decide +kernel

end CommitLog
