import CommitLog.BlockCopies

/-!
# Rounds of block copies

One round cuts the blocks of the source at the offset the next one starts
from, and puts what lies in front of the cut behind the follower.
-/

namespace CommitLog

open BlockLog List Runs

/-! ## Cuts -/

structure CutAt (source : BlockLog) (offset : ℤ)
    (front rest : List BlockBatch) : Prop where
  batches : source.batches = front ++ rest
  below : ∀ ms ∈ front.flatMap BlockBatch.frames, (setFrame ms).offset < offset
  above : ∀ ms ∈ rest.flatMap BlockBatch.frames, offset ≤ (setFrame ms).offset

section Cuts

variable {env : BlockEnv} {source : BlockLog} {next : ℤ}

theorem CutAt.framesFrom_eq {front rest : List BlockBatch} (hcut : CutAt source next front rest) :
    source.logical.framesFrom next = rest.flatMap BlockBatch.frames := by
  apply ByteLog.framesFrom_eq _ hcut.below hcut.above
  rw [frames_logical, hcut.batches, flatMap_append]

namespace BlockLog.Cursor

variable (cursor : source.Cursor next) (hsource : source.Source env)

theorem frames_eq : source.logical.frames =
    ((cursor.ahead ++ cursor.before).flatMap BlockBatch.frames ++ cursor.inner) ++ (cursor.head ++
        (cursor.after ++ cursor.behind).flatMap BlockBatch.frames) := by
  rw [frames_logical, cursor.allBatches]
  simp only [flatMap_append, flatMap_cons, cursor.frames, Cursor.head, append_assoc, cons_append]

theorem from_cases {b : BlockBatch} (hb : b ∈ source.batches)
    (hfrom : ∃ ms ∈ b.frames, next ≤ (setFrame ms).offset) :
    b = cursor.block ∨ b ∈ cursor.after ++ cursor.behind := by
  obtain ⟨ms, hms, hle⟩ := hfrom
  rw [cursor.allBatches] at hb
  have hsplit : b ∈ cursor.ahead ++ cursor.before ∨ b = cursor.block ∨
      b ∈ cursor.after ++ cursor.behind := by
    simpa [or_assoc] using hb
  rcases hsplit with hfront | hrest
  · have hlt := cursor.below ms (mem_append_left _ (mem_flatMap.mpr ⟨b, hfront, hms⟩))
    omega
  · exact hrest

include hsource

theorem rising : (cursor.head ++ (cursor.after ++ cursor.behind).flatMap BlockBatch.frames).Pairwise
      fun a b => (setFrame a).offset < (setFrame b).offset := by
  have hrising := hsource.logical.ok.wellFormed.rising
  rw [cursor.frames_eq, pairwise_append] at hrising
  exact hrising.2.1

theorem not_from {b : BlockBatch} (hb : b ∈ cursor.ahead ++ cursor.before) : ¬ b.From next := by
  intro hfrom
  have hheld := hsource.held b (by
    rw [cursor.allBatches]
    rcases mem_append.mp hb with h | h <;> simp [h])
  obtain ⟨ms, hms⟩ := exists_mem_of_ne_nil _ hheld.ne_nil
  have hlt := cursor.below ms (mem_append_left _ (mem_flatMap.mpr ⟨b, hb, hms⟩))
  have hle := hfrom ms hms
  omega

theorem above : ∀ ms ∈ cursor.head ++ (cursor.after ++ cursor.behind).flatMap BlockBatch.frames,
      next ≤ (setFrame ms).offset := by
  have hrising := cursor.rising hsource
  rw [Cursor.head, cons_append, pairwise_cons] at hrising
  intro ms hms
  rw [Cursor.head, cons_append] at hms
  rcases mem_cons.mp hms with rfl | hms
  · exact cursor.reached
  · exact cursor.reached.trans (hrising.1 ms hms).le

theorem framesFrom_eq : source.logical.framesFrom next = cursor.head ++
    (cursor.after ++ cursor.behind).flatMap BlockBatch.frames :=
  ByteLog.framesFrom_eq cursor.frames_eq cursor.below (cursor.above hsource)

theorem after_nil (hnone : framingOf cursor.after = []) :
    cursor.seg.logical.frames.getLast? = cursor.head.getLast? := by
  have hempty : cursor.after = [] := by
    by_contra hne
    obtain ⟨b, hb⟩ := exists_mem_of_ne_nil _ hne
    have hheld := hsource.held b (by
      rw [cursor.allBatches]
      simp [hb])
    obtain ⟨ms, hms⟩ := exists_mem_of_ne_nil _ hheld.ne_nil
    exact (hheld.whole ms hms).ne_nil (flatten_eq_nil_iff.mp hnone ms
      (mem_flatMap.mpr ⟨b, hb, hms⟩))
  have hframes : cursor.seg.logical.frames =
      (cursor.before.flatMap BlockBatch.frames ++ cursor.inner) ++
        cursor.head := by
    rw [BlockSegment.frames_logical, cursor.segBatches, hempty, flatMap_append, flatMap_singleton,
      cursor.frames, ← append_assoc]
    rfl
  have hne : cursor.head ≠ [] := cons_ne_nil _ _
  rw [hframes, getLast?_append_of_ne_nil _ hne]

theorem head_carried (hinner : cursor.inner ≠ []) {headerCrc : Bytes → Fin (2 ^ 32)}
    (hcarried : source.Carried headerCrc next) :
    HeadCarried headerCrc (cursor.seg.logical.frames.getLast? =
      cursor.head.getLast?) cursor.head := by
  apply hcarried.head cursor.seg cursor.mem cursor.block
    (by rw [cursor.segBatches]; simp) cursor.inner cursor.head cursor.frames
    hinner (cons_ne_nil _ _)
  · exact fun ms hms => cursor.below ms (mem_append_right _ hms)
  · exact fun ms hms =>
      cursor.above hsource ms (mem_append_left _ hms)

theorem cut_reported {upTo left : List BlockBatch} (hbatches : cursor.seg.batches = upTo ++ left)
    (hblock : cursor.block ∈ upTo) :
    CutAt source (reportedLast cursor.seg.logical left + 1)
      (cursor.ahead ++ upTo) (left ++ cursor.behind) := by
  have hserved := hsource.served cursor.mem
  obtain ⟨hupTo, hleft⟩ := hserved.reportedLast_spec hbatches
  have hall : source.batches = cursor.ahead ++ (upTo ++ left) ++ cursor.behind := by
    rw [← hbatches, cursor.segBatches, cursor.allBatches]
  have hms : cursor.ms ∈ upTo.flatMap BlockBatch.frames := by
    refine mem_flatMap.mpr ⟨cursor.block, hblock, ?_⟩
    rw [cursor.frames]
    simp
  have hrising := hsource.logical.ok.wellFormed.rising
  rw [frames_logical, hall, flatMap_append, pairwise_append] at hrising
  have hlow : ∀ ms ∈ (upTo ++ left).flatMap BlockBatch.frames,
      ∀ other ∈ cursor.behind.flatMap BlockBatch.frames,
      (setFrame ms).offset < (setFrame other).offset := by
    intro ms hms other hother
    apply hrising.2.2 ms _ other hother
    rw [flatMap_append]
    exact mem_append_right _ hms
  constructor
  · rw [hall]
    simp only [append_assoc]
  · intro ms hin
    rw [flatMap_append] at hin
    rcases mem_append.mp hin with hin | hin
    · have hlt := cursor.below ms (by
        rw [flatMap_append]
        exact mem_append_left _ (mem_append_left _ hin))
      have hreached := cursor.reached
      have hbound := hupTo cursor.ms hms
      omega
    · exact hupTo ms hin
  · intro ms hin
    rw [flatMap_append] at hin
    rcases mem_append.mp hin with hin' | hbehind
    · exact hleft ms hin'
    · cases left with
      | nil =>
        obtain ⟨last, hlast⟩ : ∃ last, cursor.seg.logical.frames.getLast? = some last := by
          refine ⟨_, getLast?_eq_some_getLast ?_⟩
          rw [BlockSegment.frames_logical, hbatches, append_nil]
          exact ne_nil_of_mem hms
        have hreported : reportedLast cursor.seg.logical [] = (setFrame last).offset := by
          rw [reportedLast, ByteSegment.lastOffset, hlast, Option.map_some, Option.getD_some]
        rw [hreported]
        apply hlow last _ ms hbehind
        rw [← hbatches, ← BlockSegment.frames_logical]
        exact mem_of_getLast? hlast
      | cons c left =>
        obtain ⟨first, hfirst⟩ := exists_mem_of_ne_nil _
          (hserved.nonempty c (by rw [hbatches]; simp))
        have hle := hleft first (by simp [hfirst])
        have hlt := hlow first (by simp [hfirst]) ms hbehind
        omega

theorem cut_head {last : Bytes} (hlast : cursor.head.getLast? = some last) :
    CutAt source ((setFrame last).offset + 1) (cursor.ahead ++ (cursor.before ++ [cursor.block]))
      (cursor.after ++ cursor.behind) := by
  have hin := mem_of_getLast? hlast
  have hrising := pairwise_append.mp (cursor.rising hsource)
  have hlow := cursor.above hsource last (mem_append_left _ hin)
  constructor
  · rw [cursor.allBatches]
    simp only [append_assoc, cons_append, nil_append]
  · intro ms hms
    have hsplit : ms ∈ ((cursor.ahead ++ cursor.before).flatMap
        BlockBatch.frames ++ cursor.inner) ++ cursor.head := by
      simpa [cursor.frames, Cursor.head, or_assoc] using hms
    rcases mem_append.mp hsplit with hms | hms
    · have hlt := cursor.below ms hms
      omega
    · have hle := le_last_of_rising hrising.1 hlast ms hms
      omega
  · intro ms hms
    exact hrising.2.2 last hin ms hms

end BlockLog.Cursor

theorem BlockLog.Source.fitting (hsource : source.Source env) {frames : List Bytes}
    (hsub : frames.Sublist (source.logical.framesFrom next)) (hne : frames ≠ [])
    {s : BlockLog} (habove : ∀ ms ∈ frames, s.active.logical.nextOffset ≤ (setFrame ms).offset) :
    Fitting s frames := by
  have hwf := hsource.logical.ok.wellFormed
  refine ⟨hne, ?_, (hwf.framesFrom_rising next).sublist hsub, habove, ?_⟩
  · exact fun ms hms => (hwf.of_mem_framesFrom (hsub.subset hms)).1
  · exact fun ms hms => (hwf.of_mem_framesFrom (hsub.subset hms)).2.2

theorem BlockLog.Source.fitting_behind (hsource : source.Source env) {frames : List Bytes}
    (hsub : frames.Sublist (source.logical.framesFrom next)) (hne : frames ≠ []) {s : BlockLog}
    (hbehind : s.active.logical.nextOffset ≤ next) : Fitting s frames := by
  apply hsource.fitting hsub hne
  intro ms hms
  exact hbehind.trans (hsource.logical.ok.wellFormed.of_mem_framesFrom (hsub.subset hms)).2.1

end Cuts

/-! ## Rounds -/

section Rounds

variable {env : BlockEnv} {source : BlockLog} {encodesBlocks : Bool}

/-- What a round makes of a follower. -/
structure Advance (env : BlockEnv) (source : BlockLog) (encodesBlocks : Bool)
    (state state' : ℤ × BlockLog) (front rest added : List BlockBatch) :
    Prop where
  cut : CutAt source state'.1 front rest
  taken : source.logical.framesFrom state.1 =
    added.flatMap BlockBatch.frames ++ rest.flatMap BlockBatch.frames
  nonempty : added.flatMap BlockBatch.frames ≠ []
  grown : state.2.Grown env encodesBlocks state'.2 added
  blocks : encodesBlocks = true → state.2.active.blockMode = true →
    ∀ b ∈ front, b.From state.1 → b ∈ added
  behind : state'.2.active.logical.nextOffset ≤ state'.1
  rises : state.1 ≤ state'.1

theorem blockRound_read {c : BlockCall encodesBlocks} {next : ℤ}
    {s t u : BlockLog} {head : Bytes} {sent : List SentBlock}
    (hread : source.readBlocks env.headerCrc next c.maxBytes = .read head sent)
    (hne : ¬ (head = [] ∧ sent = []))
    (hhead : (if head = [] then some s
      else s.appendMessageSet env (c.opts next) head) = some t)
    (hfold : sent.foldlM (fun follower b =>
      appendBlock env (c.opts b.firstOffset) follower b.data) t = some u) :
    blockRound env source c (next, s) = .more ((sent.getLast?.map fun b => b.lastOffset + 1).getD
        u.active.logical.nextOffset, u) := by
  rw [blockRound, hread]
  simp only
  rw [if_neg hne, hhead]
  simp only
  rw [hfold]

theorem BlockLog.Source.admissible (hsource : source.Source env) {next : ℤ}
    (hwhole : ∀ b ∈ source.batches, b.From next →
      ∀ ms, b.frames.getLast? = some ms → ms.length ≤ maxInt32)
    {b : BlockBatch} (hb : b ∈ source.batches) (hfrom : b.From next) :
    Admissible b.frames :=
  ⟨(hsource.held b hb).size, hwhole b hb hfrom⟩

theorem BlockLog.Cursor.round_whole {next : ℤ} (cursor : source.Cursor next)
    (hsource : source.Source env) (hinner : cursor.inner = [])
    (hwhole : ∀ b ∈ source.batches, b.From next →
      ∀ ms, b.frames.getLast? = some ms → ms.length ≤ maxInt32)
    {s : BlockLog} (hfollows : s.Follows env)
    (hbehind : s.active.logical.nextOffset ≤ next)
    (c : BlockCall encodesBlocks) :
    ∃ state' front rest added, blockRound env source c (next, s) = .more state' ∧
      Advance env source encodesBlocks (next, s) state' front rest added := by
  have hserved := hsource.served cursor.mem
  obtain ⟨taken, left, sent, hrest, hsend, hdata, htaken, hfinal⟩ :=
    hserved.sendBlocks_spec cursor.segBatches false c.maxBytes
  have hne : taken ≠ [] := htaken rfl (cons_ne_nil _ _)
  have hread := cursor.readBlocks_whole hsource hinner env.headerCrc c.maxBytes
  rw [hsend] at hread
  simp only at hread
  have hframes : source.logical.framesFrom next = taken.flatMap BlockBatch.frames ++
        (left ++ cursor.behind).flatMap BlockBatch.frames := by
    have hblock : cursor.block.frames = cursor.head := by
      rw [cursor.frames, hinner, nil_append]
      rfl
    rw [cursor.framesFrom_eq hsource, ← hblock, ← flatMap_cons,
      ← cons_append, hrest, append_assoc, flatMap_append]
  have hin : ∀ b ∈ taken, b ∈ source.batches ∧ b.From next := by
    intro b hb
    constructor
    · rw [cursor.allBatches, hrest]
      simp [hb]
    · intro ms hms
      apply (hsource.logical.ok.wellFormed.of_mem_framesFrom _).2.1
      rw [hframes]
      exact mem_append_left _ (mem_flatMap.mpr ⟨b, hb, hms⟩)
  have hsub : (taken.flatMap BlockBatch.frames).Sublist (source.logical.framesFrom next) := by
    rw [hframes]
    exact sublist_append_left _ _
  have hadded : taken.flatMap BlockBatch.frames ≠ [] := by
    obtain ⟨b, hb⟩ := exists_mem_of_ne_nil _ hne
    obtain ⟨ms, hms⟩ := exists_mem_of_ne_nil _ (hsource.held b (hin b hb).1).ne_nil
    exact ne_nil_of_mem (mem_flatMap.mpr ⟨b, hb, hms⟩)
  have hfits := hsource.fitting_behind hsub hadded hbehind
  obtain ⟨u, added, hfold, hgrown, hsame, hblocks, hbound⟩ :=
    Fitting.appendBlocks (fun b hb => hsource.held b (hin b hb).1)
      (fun b hb => hsource.admissible hwhole (hin b hb).1 (hin b hb).2) hdata
      hfollows (fun _ => hfits) c.mode
  have hsent : sent ≠ [] := by
    rintro rfl
    exact hne (by simpa using hdata.symm)
  obtain ⟨final, hlast⟩ : ∃ final, sent.getLast? = some final :=
    ⟨_, getLast?_eq_some_getLast hsent⟩
  have hround := blockRound_read hread (fun h => hsent h.2) (if_pos rfl) hfold
  rw [hlast, Option.map_some, Option.getD_some, hfinal final hlast] at hround
  have hcut := cursor.cut_reported hsource
    (show cursor.seg.batches = (cursor.before ++ taken) ++ left by
      rw [cursor.segBatches, hrest, append_assoc])
    (by
      obtain ⟨first, others, rfl⟩ := exists_cons_of_ne_nil hne
      rw [cons_append, cons.injEq] at hrest
      simp [hrest.1])
  have hfront : ∀ ms ∈ taken.flatMap BlockBatch.frames,
      (setFrame ms).offset < reportedLast cursor.seg.logical left + 1 := by
    intro ms hms
    apply hcut.below
    rw [flatMap_append, flatMap_append]
    exact mem_append_right _ (mem_append_right _ hms)
  have hrises : next ≤ reportedLast cursor.seg.logical left + 1 := by
    obtain ⟨ms, hms⟩ := exists_mem_of_ne_nil _ hadded
    have hlt := hfront ms hms
    have hle := (hsource.logical.ok.wellFormed.of_mem_framesFrom (hsub.subset hms)).2.1
    omega
  refine ⟨_, _, _, added, hround, hcut, ?_, ?_, hgrown, ?_, ?_, ?_⟩
  · rw [hframes, hsame]
  · rw [hsame]
    exact hadded
  · intro hencodes hmode b hb hfrom
    rw [hblocks hencodes hmode]
    have hsplit : b ∈ cursor.ahead ++ cursor.before ∨ b ∈ taken := by
      simpa [or_assoc] using hb
    rcases hsplit with hpast | hb
    · exact absurd hfrom (cursor.not_from hsource hpast)
    · exact hb
  · apply hbound _ (hbehind.trans hrises)
    intro ms hms
    exact hfront ms hms
  · exact hrises

theorem BlockLog.Cursor.round_inside {next : ℤ} (cursor : source.Cursor next)
    (hsource : source.Source env) (hinner : cursor.inner ≠ [])
    (hcarried : source.Carried env.headerCrc next) {s : BlockLog} (hfollows : s.Follows env)
    (hbehind : s.active.logical.nextOffset ≤ next) (c : BlockCall encodesBlocks) :
    ∃ state' front rest added, blockRound env source c (next, s) = .more state' ∧
      Advance env source encodesBlocks (next, s) state' front rest added := by
  have hserved := hsource.served cursor.mem
  have hframes := cursor.framesFrom_eq hsource
  obtain ⟨last, hlast⟩ : ∃ last, cursor.head.getLast? = some last :=
    ⟨_, getLast?_eq_some_getLast (cons_ne_nil _ _)⟩
  have hhead := cursor.head_carried hsource hinner hcarried
  -- the frames up to the end of the block
  obtain ⟨fuel, hfuel, hread⟩ :=
    cursor.readBlocks_inside hsource hinner env.headerCrc c.maxBytes
  have hbetween : framesBetween env.headerCrc true fuel
      cursor.head.flatten.length (cursor.head.flatten ++
        framingOf cursor.after) [] = some cursor.head.flatten := by
    rcases @framesBetween_spec env.headerCrc cursor.head
      (cursor.head_whole hsource) (framingOf cursor.after) fuel hfuel [] with
      ⟨⟨ms, hms, hwrong⟩, -⟩ | ⟨-, ⟨front, final, hnone, hsplit, hempty, -⟩ | ⟨-, hsome⟩⟩
    · rw [hhead.headers ms hms] at hwrong
      cases hwrong
    · have hpayload := hhead.payload (cursor.after_nil hsource hnone) final (by rw [hsplit]; simp)
      omega
    · exact hsome
  have hnonempty : cursor.head.flatten ≠ [] := by
    have hms := (cursor.head_whole hsource cursor.ms mem_cons_self).ne_nil
    simp [Cursor.head, hms]
  obtain ⟨taken, left, sent, hrest, hsend, hdata, -, hfinal⟩ :=
    hserved.sendBlocks_spec (show cursor.seg.batches =
      (cursor.before ++ [cursor.block]) ++ cursor.after by
        rw [cursor.segBatches, append_assoc]
        rfl) (decide (cursor.head.flatten ≠ []))
      ((c.maxBytes : ℤ) - cursor.head.flatten.length)
  rw [hbetween] at hread
  simp only at hread
  rw [hsend] at hread
  simp only at hread
  have hheadSub : cursor.head.Sublist (source.logical.framesFrom next) := by
    rw [hframes]
    exact sublist_append_left _ _
  have hheadFits := hsource.fitting_behind hheadSub (cons_ne_nil _ _) hbehind
  obtain ⟨t, hb, happend, hgrown, hbframes, hnext⟩ :=
    hheadFits.appendMessageSet hfollows hhead.admissible (c.opts next) hlast
  rw [c.mode] at hgrown
  -- the blocks behind it
  have hcutHead := cursor.cut_head hsource hlast
  have htakenSub : (taken.flatMap BlockBatch.frames).Sublist (source.logical.framesFrom next) := by
    rw [hframes, hrest, append_assoc, flatMap_append]
    exact (sublist_append_left _ _).trans (sublist_append_right _ _)
  have hin : ∀ b ∈ taken, b ∈ source.batches ∧ b.From next := by
    intro b hb
    constructor
    · rw [cursor.allBatches, hrest]
      simp [hb]
    · intro ms hms
      exact (hsource.logical.ok.wellFormed.of_mem_framesFrom
        (htakenSub.subset (mem_flatMap.mpr ⟨b, hb, hms⟩))).2.1
  have htakenFits : taken ≠ [] → Fitting t (taken.flatMap BlockBatch.frames) := by
    intro hne
    apply hsource.fitting htakenSub
    · obtain ⟨b, hb⟩ := exists_mem_of_ne_nil _ hne
      obtain ⟨ms, hms⟩ := exists_mem_of_ne_nil _ (hsource.held b (hin b hb).1).ne_nil
      exact ne_nil_of_mem (mem_flatMap.mpr ⟨b, hb, hms⟩)
    · intro ms hms
      rw [hnext]
      apply hcutHead.above
      rw [hrest, append_assoc, flatMap_append]
      exact mem_append_left _ hms
  obtain ⟨u, added, hfold, hgrown', hsame, hblocks, hbound⟩ :=
    Fitting.appendBlocks (fun b hb => hsource.held b (hin b hb).1)
      (fun b hb => hsource.admissible hcarried.whole (hin b hb).1 (hin b hb).2)
      hdata hgrown.follows htakenFits c.mode
  have hround := blockRound_read hread (fun h => hnonempty h.1)
    (by rw [if_neg hnonempty]; exact happend) hfold
  have hadvance : ∀ next', next ≤ next' → CutAt source next' (cursor.ahead ++ (cursor.before ++
        cursor.block :: taken)) (left ++ cursor.behind) →
      u.active.logical.nextOffset ≤ next' →
      Advance env source encodesBlocks (next, s) (next', u)
        (cursor.ahead ++ (cursor.before ++ cursor.block :: taken))
        (left ++ cursor.behind) ([hb] ++ added) := by
    intro next' hrises hcut hle
    refine ⟨hcut, ?_, ?_, hgrown.trans hgrown', ?_, hle, hrises⟩
    · change source.logical.framesFrom next = _
      simp only [hframes, hrest, flatMap_append, hsame, flatMap_singleton, hbframes, append_assoc]
    · rw [flatMap_append, flatMap_singleton, hbframes]
      simp [Cursor.head]
    · intro hencodes hmode b hbIn hfrom
      rw [hblocks hencodes (hgrown.mode hencodes hmode)]
      have hsplit : b ∈ cursor.ahead ++ cursor.before ∨ b = cursor.block ∨ b ∈ taken := by
        simpa [or_assoc] using hbIn
      rcases hsplit with hpast | rfl | hb
      · exact absurd hfrom (cursor.not_from hsource hpast)
      · obtain ⟨ms, hms⟩ := exists_mem_of_ne_nil _ hinner
        have hlt := cursor.below ms (mem_append_right _ hms)
        have hle : next ≤ _ := hfrom ms (by
          rw [cursor.frames]
          exact mem_append_left _ hms)
        omega
      · exact mem_append_right _ hb
  have hlow : next ≤ (setFrame last).offset :=
    cursor.above hsource last (mem_append_left _ (mem_of_getLast? hlast))
  cases sent with
  | nil =>
    have hnone : taken = [] := by simpa using hdata.symm
    rw [hnone] at hadvance
    rw [foldlM_nil] at hfold
    have hu : t = u := Option.some.inj hfold
    rw [getLast?_nil, Option.map_none, Option.getD_none] at hround
    rw [hnone, nil_append] at hrest
    refine ⟨_, _, _, _, hround, hadvance _ ?_ ?_ le_rfl⟩
    · rw [← hu, hnext]
      omega
    · rw [← hu, hnext, ← hrest]
      exact hcutHead
  | cons first sent =>
    obtain ⟨final, hfinalEq⟩ : ∃ final, (first :: sent).getLast? = some final :=
      ⟨_, getLast?_eq_some_getLast (cons_ne_nil _ _)⟩
    rw [hfinalEq, Option.map_some, Option.getD_some, hfinal final hfinalEq] at hround
    have hcut := cursor.cut_reported hsource (show cursor.seg.batches =
        (cursor.before ++ cursor.block :: taken) ++ left by
          rw [cursor.segBatches, hrest]
          simp)
      (by simp)
    have hfront : ∀ ms ∈ cursor.head ++ taken.flatMap BlockBatch.frames,
        (setFrame ms).offset < reportedLast cursor.seg.logical left + 1 := by
      intro ms hms
      apply hcut.below
      rw [flatMap_append, flatMap_append, flatMap_cons, cursor.frames]
      simp only [mem_append] at hms ⊢
      rcases hms with hms | hms
      · exact Or.inr (Or.inr (Or.inl (Or.inr hms)))
      · exact Or.inr (Or.inr (Or.inr hms))
    have hlastFront := hfront last (mem_append_left _ (mem_of_getLast? hlast))
    refine ⟨_, _, _, _, hround, hadvance _ (by omega) hcut ?_⟩
    apply hbound
    · rw [hnext]
      omega
    · intro ms hms
      exact hfront ms (mem_append_right _ hms)

end Rounds

end CommitLog
