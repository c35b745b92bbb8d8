import CommitLog.Runs

/-!
# Waiting for the high watermark

A committed reader serves up to the smaller of the watermark and the tail.
When it has served that much it compares the bound once more and, if it has
not moved, registers to be woken.  A change of the watermark wakes it, and so
does an append that lands under a watermark above the tail.  The registration
compares the watermark only, so an append that lands and notifies between the
comparison of the bound and the registration is heard by nobody.
-/

namespace CommitLog

open Option

variable {s s' : WaitState}

open Runs

inductive ReaderPhase
  /-- Outside of a wait. -/
  | running
  /-- Has read the watermark. -/
  | sampled (raw : ℤ)
  /-- Has a snapshot of the segments, `last` the place of its last one. -/
  | snapped (raw : ℤ) (last : ℕ)
  /-- Found that the bound moved. -/
  | moved (raw : ℤ) (last : ℕ)
  /-- Found that the bound did not move, and is about to register. -/
  | caughtUp (raw : ℤ)
  | parked
deriving DecidableEq

/-- An append between its write and its notification: its first offset and
the tail it extended. -/
structure LandedAppend where
  first : ℤ
  before : ℤ
deriving DecidableEq

/-- The log and one reader.  `older` are the ends of the segments before the
active one and `tail` is the end of that; `bound` is what the reader serves up
to. -/
structure WaitState where
  older : List ℤ
  tail : ℤ
  hw : ℤ
  readonly : Bool
  switching : ℕ
  append : Option LandedAppend
  bound : ℤ
  reader : ReaderPhase
deriving DecidableEq

inductive WaitEvent
  | roll
  | write (first last : ℤ)
  | finish
  /-- The epoch of a record that landed could not be stored. -/
  | abandon
  | setHighWatermark (hw : ℤ)
  | overrideHighWatermark (hw : ℤ)
  | storeReadonly (readonly : Bool)
  | notifyReadonly
  | sample
  | snapshot
  | compare
  | advance
  | register
  | cancel
deriving DecidableEq

def clampHW (tail hw : ℤ) : ℤ :=
  if hw > tail then tail else hw

theorem clampHW_eq_min (tail hw : ℤ) : clampHW tail hw = min hw tail := by
  unfold clampHW
  split <;> omega

namespace WaitState

/-- The end of a segment of a snapshot, read now: segments are shared, so the
active one's end moves until the next roll. -/
def endAt (s : WaitState) (last : ℕ) : ℤ :=
  (s.older[last]?).getD s.tail

theorem endAt_active (s : WaitState) : s.endAt s.older.length = s.tail := by
  simp [endAt]

/-- `notifyHWChange` and `notifyReadonly`, as the reader sees them. -/
def wake (s : WaitState) : WaitState :=
  if s.reader = .parked then { s with reader := .running } else s

def step (s : WaitState) : WaitEvent → Option WaitState
  | .roll =>
    if s.append = none then
      some { s with older := s.older ++ [s.tail] }
    else none
  | .write first last =>
    if s.append = none ∧ s.tail < first ∧ first ≤ last then
      some { s with tail := last, append := some ⟨first, s.tail⟩ }
    else none
  | .finish =>
    match s.append with
    | none => none
    | some landed =>
      let done := { s with append := none }
      some (if s.hw ≥ landed.first then done.wake else done)
  | .abandon =>
    if s.append = none then none else some { s with append := none }
  | .setHighWatermark hw =>
    some (if hw > s.hw then { s with hw := hw }.wake else s)
  | .overrideHighWatermark hw => some { s with hw := hw }.wake
  | .storeReadonly readonly =>
    some { s with
      readonly := readonly
      switching := if readonly then s.switching + 1 else s.switching }
  | .notifyReadonly =>
    match s.switching with
    | 0 => none
    | rest + 1 =>
      let done := { s with switching := rest }
      some (if s.hw < s.tail then done else done.wake)
  | .sample =>
    if s.reader = .running then
      some { s with reader := .sampled s.hw }
    else none
  | .snapshot =>
    match s.reader with
    | .sampled raw =>
      some { s with reader := .snapped raw s.older.length }
    | _ => none
  | .compare =>
    match s.reader with
    | .snapped raw last =>
      if clampHW (s.endAt last) raw = s.bound then
        some { s with reader := .caughtUp raw }
      else some { s with reader := .moved raw last }
    | _ => none
  | .advance =>
    match s.reader with
    | .moved raw last =>
      some { s with
        bound := clampHW (s.endAt last) raw
        reader := .running }
    | _ => none
  | .register =>
    match s.reader with
    | .caughtUp raw =>
      if s.hw ≠ raw then some { s with reader := .running }
      else if s.hw ≥ s.tail ∧ s.readonly = true then
        some { s with reader := .running }
      else some { s with reader := .parked }
    | _ => none
  | .cancel =>
    if s.reader = .parked then some { s with reader := .running } else none

/-- A reader that waits has served what it could serve, once the append in
progress, if any, is over. -/
def Settled (s : WaitState) : Prop :=
  s.append = none → s.reader = .parked → min s.hw s.tail = s.bound

/-- What the reader holds for the bound between its snapshot and its
registration is still the bound. -/
def UpToDate (s : WaitState) : Prop :=
  match s.reader with
  | .snapped raw last => min raw (s.endAt last) = min raw s.tail
  | .caughtUp raw => s.bound = min raw s.tail
  | _ => True

/-- An append ends where it can be heard: a reader on its way to the
registration has nothing out of date, and a parked one is woken or the
watermark was not above the tail the append extended. -/
def Heard (s : WaitState) : WaitEvent → Prop
  | .finish => s.UpToDate ∧ ∀ landed, s.append = some landed →
      s.reader = .parked → landed.first ≤ s.hw ∨ s.hw ≤ landed.before
  | .abandon => s.UpToDate ∧ ∀ landed, s.append = some landed →
      s.reader = .parked → s.hw ≤ landed.before
  | _ => True

def Seen (s : WaitState) (raw bound : ℤ) : Prop :=
  bound = min raw s.tail ∨ ∃ landed, s.append = some landed ∧ bound = min raw landed.before

/-- What a run keeps. -/
structure Ok (s : WaitState) : Prop where
  parked : s.reader = .parked → s.Seen s.hw s.bound
  caughtUp : ∀ raw, s.reader = .caughtUp raw → s.Seen raw s.bound
  snapped : ∀ raw last, s.reader = .snapped raw last →
    last ≤ s.older.length ∧ s.Seen raw (min raw (s.endAt last))
  landed : ∀ landed, s.append = some landed → landed.before < landed.first ∧ landed.first ≤ s.tail

namespace Ok

theorem idle (hok : s.Ok) (hidle : s'.reader = .running ∨ (∃ raw, s'.reader = .sampled raw) ∨
      ∃ raw last, s'.reader = .moved raw last)
    (htail : s'.tail = s.tail)
    (happend : s'.append = s.append ∨ s'.append = none) : s'.Ok := by
  constructor
  · intro hparked
    rcases hidle with hidle | ⟨_, hidle⟩ | ⟨_, _, hidle⟩ <;>
      rw [hidle] at hparked <;> cases hparked
  · intro raw hcaught
    rcases hidle with hidle | ⟨_, hidle⟩ | ⟨_, _, hidle⟩ <;>
      rw [hidle] at hcaught <;> cases hcaught
  · intro raw last hsnapped
    rcases hidle with hidle | ⟨_, hidle⟩ | ⟨_, _, hidle⟩ <;>
      rw [hidle] at hsnapped <;> cases hsnapped
  · intro landed hlanded
    rw [htail]
    cases happend with
    | inl hsame => exact hok.landed landed (hsame ▸ hlanded)
    | inr hnone =>
      rw [hnone] at hlanded
      cases hlanded

theorem unparked (hok : s.Ok) (hparked : s.reader ≠ .parked) (hreader : s'.reader = s.reader)
    (holder : s'.older = s.older) (htail : s'.tail = s.tail) (happend : s'.append = s.append)
    (hbound : s'.bound = s.bound) : s'.Ok := by
  have hseen : ∀ raw bound, s.Seen raw bound → s'.Seen raw bound := by
    intro raw bound hseen
    simpa only [Seen, htail, happend] using hseen
  have hend : ∀ last, s'.endAt last = s.endAt last := by
    intro last
    simp only [endAt, holder, htail]
  constructor
  · intro hwaits
    exact absurd (hreader ▸ hwaits) hparked
  · intro raw hcaught
    rw [hbound]
    exact hseen _ _ (hok.caughtUp raw (hreader ▸ hcaught))
  · intro raw last hsnapped
    obtain ⟨hlast, hview⟩ := hok.snapped raw last (hreader ▸ hsnapped)
    rw [holder, hend]
    exact ⟨hlast, hseen _ _ hview⟩
  · intro landed hlanded
    rw [htail]
    exact hok.landed landed (happend ▸ hlanded)

theorem woken (hok : s.Ok) (hreader : s'.reader = s.reader) (holder : s'.older = s.older)
    (htail : s'.tail = s.tail) (happend : s'.append = s.append)
    (hbound : s'.bound = s.bound) : s'.wake.Ok := by
  by_cases hparked : s.reader = .parked
  · have hwake : s'.wake = { s' with reader := .running } := by
      rw [wake, if_pos (hreader.trans hparked)]
    rw [hwake]
    exact hok.idle (.inl rfl) htail (.inl happend)
  · have hwake : s'.wake = s' := by
      rw [wake, if_neg (hreader ▸ hparked)]
    rw [hwake]
    exact hok.unparked hparked hreader holder htail happend hbound

theorem roll (hok : s.Ok) : Ok { s with older := s.older ++ [s.tail] } := by
  constructor
  · exact hok.parked
  · exact hok.caughtUp
  · intro raw last hsnapped
    obtain ⟨hlast, hview⟩ := hok.snapped raw last hsnapped
    have hend : endAt { s with older := s.older ++ [s.tail] } last =
        s.endAt last := by
      rcases Nat.lt_or_eq_of_le hlast with hlt | rfl
      · simp only [endAt]
        rw [List.getElem?_append_left hlt]
      · simp [endAt]
    constructor
    · rw [List.length_append]
      omega
    · rw [hend]
      exact hview
  · exact hok.landed

theorem seen_write (hnone : s.append = none) {raw bound : ℤ}
    (hseen : s.Seen raw bound) (first last : ℤ) :
    Seen { s with tail := last, append := some ⟨first, s.tail⟩ } raw
      bound := by
  cases hseen with
  | inl htail => exact .inr ⟨_, rfl, htail⟩
  | inr hlanded =>
    obtain ⟨landed, hlanded, _⟩ := hlanded
    rw [hnone] at hlanded
    cases hlanded

theorem write (hok : s.Ok) (hnone : s.append = none) {first last : ℤ} (hfirst : s.tail < first)
    (hlast : first ≤ last) : Ok { s with tail := last, append := some ⟨first, s.tail⟩ } := by
  constructor
  · intro hparked
    exact seen_write hnone (hok.parked hparked) first last
  · intro raw hcaught
    exact seen_write hnone (hok.caughtUp raw hcaught) first last
  · intro raw place hsnapped
    obtain ⟨hplace, hview⟩ := hok.snapped raw place hsnapped
    refine ⟨hplace, ?_⟩
    rcases Nat.lt_or_eq_of_le hplace with hlt | rfl
    · -- a roll came between: the end of the older segment stays
      have hend : endAt { s with
          tail := last, append := some ⟨first, s.tail⟩ } place =
            s.endAt place := by
        simp only [endAt, List.getElem?_eq_getElem hlt, getD_some]
      rw [hend]
      exact seen_write hnone hview first last
    · left
      simp [endAt]
  · intro landed hlanded
    cases hlanded
    exact ⟨hfirst, hlast⟩

theorem seen_done (hok : s.Ok) {landed : LandedAppend} (hlanded : s.append = some landed)
    (hparked : s.reader = .parked) (hbelow : s.hw ≤ landed.before) : s.bound = min s.hw s.tail := by
  obtain ⟨hbefore, hfirst⟩ := hok.landed landed hlanded
  rcases hok.parked hparked with hseen | ⟨other, hother, hseen⟩
  · exact hseen
  · rw [hlanded] at hother
    cases hother
    omega

theorem unheard (hok : s.Ok) (hcurrent : s.UpToDate)
    (hparked : s.reader = .parked → s.bound = min s.hw s.tail) : Ok { s with append := none } := by
  constructor
  · intro hwaits
    exact .inl (hparked hwaits)
  · intro raw hcaught
    change s.reader = .caughtUp raw at hcaught
    simp only [UpToDate, hcaught] at hcurrent
    exact .inl hcurrent
  · intro raw last hsnapped
    change s.reader = .snapped raw last at hsnapped
    refine ⟨(hok.snapped raw last hsnapped).1, ?_⟩
    simp only [UpToDate, hsnapped] at hcurrent
    exact .inl hcurrent
  · intro landed hlanded
    cases hlanded

theorem finish (hok : s.Ok) {landed : LandedAppend}
    (hlanded : s.append = some landed) (hheard : s.Heard .finish) :
    Ok (if s.hw ≥ landed.first then WaitState.wake { s with append := none }
      else { s with append := none }) := by
  obtain ⟨hcurrent, hwoken⟩ := hheard
  split
  · by_cases hparked : s.reader = .parked
    · have hwake : WaitState.wake { s with append := none } =
          { s with append := none, reader := .running } := by
        rw [wake, if_pos hparked]
      rw [hwake]
      exact hok.idle (.inl rfl) rfl (.inr rfl)
    · have hwake : WaitState.wake { s with append := none } = { s with append := none } := by
        rw [wake, if_neg hparked]
      rw [hwake]
      exact hok.unheard hcurrent fun hwaits => absurd hwaits hparked
  · rename_i habove
    apply hok.unheard hcurrent
    intro hparked
    cases hwoken landed hlanded hparked with
    | inl hreached => exact absurd hreached habove
    | inr hbelow => exact hok.seen_done hlanded hparked hbelow

theorem step {event : WaitEvent} (hok : s.Ok)
    (hstep : s.step event = some s') (hheard : s.Heard event) : s'.Ok := by
  cases event with
  | roll =>
    simp only [WaitState.step, ite_none_right_eq_some, some.injEq] at hstep
    obtain ⟨_, rfl⟩ := hstep
    exact hok.roll
  | write first last =>
    simp only [WaitState.step, ite_none_right_eq_some, some.injEq] at hstep
    obtain ⟨⟨hnone, hfirst, hlast⟩, rfl⟩ := hstep
    exact hok.write hnone hfirst hlast
  | finish =>
    simp only [WaitState.step] at hstep
    split at hstep
    · cases hstep
    · rename_i landed hlanded
      rw [← some.inj hstep]
      exact hok.finish hlanded hheard
  | abandon =>
    simp only [WaitState.step, ite_none_left_eq_some, some.injEq] at hstep
    obtain ⟨hsome, rfl⟩ := hstep
    obtain ⟨landed, hlanded⟩ := ne_none_iff_exists'.mp hsome
    apply hok.unheard hheard.1
    intro hparked
    exact hok.seen_done hlanded hparked (hheard.2 landed hlanded hparked)
  | setHighWatermark hw =>
    simp only [WaitState.step, some.injEq] at hstep
    rw [← hstep]
    split
    · exact hok.woken rfl rfl rfl rfl rfl
    · exact hok
  | overrideHighWatermark hw =>
    simp only [WaitState.step, some.injEq] at hstep
    rw [← hstep]
    exact hok.woken rfl rfl rfl rfl rfl
  | storeReadonly readonly =>
    simp only [WaitState.step, some.injEq] at hstep
    rw [← hstep]
    exact ⟨hok.parked, hok.caughtUp, hok.snapped, hok.landed⟩
  | notifyReadonly =>
    simp only [WaitState.step] at hstep
    split at hstep
    · cases hstep
    · rw [← some.inj hstep]
      split
      · exact ⟨hok.parked, hok.caughtUp, hok.snapped, hok.landed⟩
      · exact hok.woken rfl rfl rfl rfl rfl
  | sample =>
    simp only [WaitState.step, ite_none_right_eq_some, some.injEq] at hstep
    obtain ⟨_, rfl⟩ := hstep
    exact hok.idle (.inr (.inl ⟨_, rfl⟩)) rfl (.inl rfl)
  | snapshot =>
    simp only [WaitState.step] at hstep
    split at hstep
    · cases hstep
      constructor
      · intro hparked
        cases hparked
      · intro raw hcaught
        cases hcaught
      · intro raw last hsnapped
        cases hsnapped
        exact ⟨le_refl _, .inl (congrArg _ s.endAt_active)⟩
      · exact hok.landed
    · cases hstep
  | compare =>
    simp only [WaitState.step] at hstep
    split at hstep
    · rename_i raw last hsnapped
      split at hstep
      · rename_i hsame
        cases hstep
        constructor
        · intro hparked
          cases hparked
        · intro raw' hcaught
          cases hcaught
          change s.Seen raw s.bound
          rw [← hsame, clampHW_eq_min]
          exact (hok.snapped raw last hsnapped).2
        · intro raw' last' hsnapped'
          cases hsnapped'
        · exact hok.landed
      · cases hstep
        exact hok.idle (.inr (.inr ⟨_, _, rfl⟩)) rfl (.inl rfl)
    · cases hstep
  | advance =>
    simp only [WaitState.step] at hstep
    split at hstep
    · cases hstep
      exact hok.idle (.inl rfl) rfl (.inl rfl)
    · cases hstep
  | register =>
    simp only [WaitState.step] at hstep
    split at hstep
    · rename_i raw hcaught
      split at hstep
      · cases hstep
        exact hok.idle (.inl rfl) rfl (.inl rfl)
      · rename_i hsame
        split at hstep
        · cases hstep
          exact hok.idle (.inl rfl) rfl (.inl rfl)
        · cases hstep
          have hraw : s.hw = raw := not_not.mp hsame
          constructor
          · intro _
            change s.Seen s.hw s.bound
            rw [hraw]
            exact hok.caughtUp raw hcaught
          · intro raw' hcaught'
            cases hcaught'
          · intro raw' last hsnapped
            cases hsnapped
          · exact hok.landed
    · cases hstep
  | cancel =>
    simp only [WaitState.step, ite_none_right_eq_some, some.injEq] at hstep
    obtain ⟨_, rfl⟩ := hstep
    exact hok.idle (.inl rfl) rfl (.inl rfl)

theorem settled (hok : s.Ok) : s.Settled := by
  intro hnone hparked
  rcases hok.parked hparked with hseen | ⟨landed, hlanded, _⟩
  · exact hseen.symm
  · rw [hnone] at hlanded
    cases hlanded

theorem start (hnone : s.append = none) (hrunning : s.reader = .running) : s.Ok := by
  constructor
  · intro hparked
    rw [hrunning] at hparked
    cases hparked
  · intro raw hcaught
    rw [hrunning] at hcaught
    cases hcaught
  · intro raw last hsnapped
    rw [hrunning] at hsnapped
    cases hsnapped
  · intro landed hlanded
    rw [hnone] at hlanded
    cases hlanded

end Ok

/-- Whatever the interleaving, a parked reader has served what it could, as
long as every append ends where it can be heard. -/
theorem settled_of_heard {start s : WaitState} {events : List WaitEvent}
    (hnone : start.append = none) (hrunning : start.reader = .running)
    (hrun : Run (fun s event s' => s.step event = some s' ∧ s.Heard event) start events s) :
    s.Settled := by
  have hok : s.Ok := hrun.invariant
    (fun _ _ _ hok hstep => hok.step hstep.1 hstep.2) (.start hnone hrunning)
  exact hok.settled

/-- A reader that served up to the tail, under a watermark above it. -/
def drained : WaitState where
  older := []
  tail := 0
  hw := 5
  readonly := false
  switching := 0
  append := none
  bound := 0
  reader := .running

/-- An append lands between the reader's comparison and its registration. -/
theorem append_before_registration_lost :
    ∃ s, [WaitEvent.sample, .snapshot, .compare, .write 1 1, .finish,
        .register].foldlM WaitState.step drained = some s ∧
      s.append = none ∧ s.reader = .parked ∧ s.bound = 0 ∧ min s.hw s.tail = 1 ∧ ¬ s.Settled := by
  refine ⟨⟨[], 1, 5, false, 0, none, 0, .parked⟩, by decide, rfl, rfl, rfl, by decide, ?_⟩
  intro hsettled
  have hbound := hsettled rfl rfl
  revert hbound
  decide

/-- A parked reader hears an append, serves it and parks again. -/
theorem settled_of_heard_served : Settled ⟨[], 1, 5, false, 0, none, 1, .parked⟩ := by
  have hrun : Run (fun s event s' => s.step event = some s' ∧ s.Heard event) drained
      [.sample, .snapshot, .compare, .register, .write 1 1, .finish,
        .sample, .snapshot, .compare, .advance,
        .sample, .snapshot, .compare, .register]
      ⟨[], 1, 5, false, 0, none, 1, .parked⟩ := by
    apply Run.cons ⟨rfl, trivial⟩
    apply Run.cons ⟨rfl, trivial⟩
    apply Run.cons ⟨rfl, trivial⟩
    apply Run.cons ⟨rfl, trivial⟩
    apply Run.cons ⟨rfl, trivial⟩
    -- the watermark is above the first offset, so the append wakes the reader
    apply Run.cons ⟨rfl, trivial, fun landed hlanded _ =>
      .inl (by cases hlanded; decide)⟩
    apply Run.cons ⟨rfl, trivial⟩
    apply Run.cons ⟨rfl, trivial⟩
    apply Run.cons ⟨rfl, trivial⟩
    apply Run.cons ⟨rfl, trivial⟩
    apply Run.cons ⟨rfl, trivial⟩
    apply Run.cons ⟨rfl, trivial⟩
    apply Run.cons ⟨rfl, trivial⟩
    exact Run.single ⟨rfl, trivial⟩
  exact settled_of_heard rfl rfl hrun

end WaitState

end CommitLog
