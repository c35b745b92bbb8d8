import CommitLog.AcceptedBytes

/-!
# Damaged payloads

A scan checks the header of a frame and hands on its payload unseen.  The
digest, the rewrite and the prefix scan then take the key and the headers from
it by the lengths it states; only what is handed to a caller, or signed anew, is
checked against its checksum first.
-/

namespace CommitLog

open List Option Serialized

variable (crc headerCrc : Bytes → Fin (2 ^ 32))

/-! ## The prefix scan -/

structure PrefixSpec where
  keyPrefix : Bytes
  skipSuperseded : Bool
  includeControl : Bool
  next : ℤ
  bound : ℤ

structure PrefixHit where
  /-- None for a control record. -/
  key : Option Bytes
  frame : SetFrame

/-- How the scan can fail over the records of a segment. -/
inductive PrefixEnd
  | outside
  | corrupt

/-- The prefix speaks to data records only. -/
def PrefixSpec.passes (spec : PrefixSpec) (control : Bool) (key : Option Bytes) : Bool :=
  if control then spec.includeControl else key.any spec.keyPrefix.isPrefixOf

/-- A record of the window whose key was read; its checksum comes last. -/
def PrefixSpec.filter (spec : PrefixSpec) (ms m : Bytes) (control : Bool)
    (key : Option Bytes) : Except PrefixEnd (Option PrefixHit) :=
  if !spec.passes control key then .ok none
  else if crcMatches crc m then
    .ok (some ⟨key.filter fun _ => !control,
      (setFrame ms).offset, (setFrame ms).timestamp, (setFrame ms).leaderEpoch, m⟩)
  else .error .corrupt

/-- One turn of the loop of `scanSegmentFiltered`. -/
def PrefixSpec.admit (spec : PrefixSpec) (ms : Bytes) : Except PrefixEnd (Option PrefixHit) :=
  if (setFrame ms).offset < spec.next ∨ (0 ≤ spec.bound ∧ spec.bound < (setFrame ms).offset) then
    .ok none
  else
    ((setMessage ms).bind fun m =>
      m[5]?.bind fun attributes =>
        (key m).map fun key =>
          spec.filter crc ms m (hasAttribute attributes attrControl) key).getD
      (.error .outside)

/-- An earlier copy of a key goes, in its place. -/
def dropRetired : List PrefixHit → List PrefixHit
  | [] => []
  | hit :: rest =>
    if hit.key.isSome && rest.any fun later => later.key == hit.key then dropRetired rest
    else hit :: dropRetired rest

/-- The loop of `scanSegmentFiltered` over the frames of a segment. -/
def PrefixSpec.scanLoop (spec : PrefixSpec) : List Bytes → Except PrefixEnd (List PrefixHit)
  | [] => .ok []
  | ms :: rest =>
    match spec.admit crc ms with
    | .error e => .error e
    | .ok hit => (spec.scanLoop rest).map (hit.toList ++ ·)

/-- `scanSegmentFiltered`. -/
def PrefixSpec.scan (spec : PrefixSpec) (frames : List Bytes) : Except PrefixEnd (List PrefixHit) :=
  (spec.scanLoop crc frames).map fun out => if spec.skipSuperseded then dropRetired out else out

/-! ## What the passes ask of a record -/

/-- The encoder gives an error: the record was read whole. -/
def StripRefused (drop : List Bytes) (order : List (Bytes × Option Bytes)) (ms : Bytes) : Prop :=
  ∃ m msg, setMessage ms = some m ∧ readBack m = some msg ∧
    (msg.withoutHeaders drop).produced.encode crc order = none

/-- What a pass does with a record, whatever the pass is asked for, reaches no
byte outside it. -/
structure StaysInside (ms : Bytes) : Prop where
  digest : (digestRecord ms).isSome = true
  clean : ∀ spec drops order, keepBytes crc headerCrc spec drops order ms = none →
    StripRefused crc spec.stripHeaders order ms
  prefixes : ∀ spec : PrefixSpec, spec.admit crc ms ≠ .error .outside

/-- The lengths a payload states, where a pass follows them, lie within it: the
key's and, unless it is a control record, the headers'; the value's if its
checksum lets a pass take headers out. -/
def Inspectable (ms : Bytes) : Prop :=
  ∃ m attributes key, setMessage ms = some m ∧ m[5]? = some attributes ∧
    Serialized.key m = some key ∧
    (hasAttribute attributes attrControl = false → ∃ headers, Serialized.headers m = some headers ∧
      (crcMatches crc m = true → headers.entries ≠ [] → (Serialized.value m).isSome = true))

section Records

variable {crc headerCrc} {ms : Bytes}

theorem stripFrameBytes_none {m : Bytes} {headers : Headers} {attributes : Byte}
    {key : Option Bytes} (hm : setMessage ms = some m) (hattributes : m[5]? = some attributes)
    (hkey : Serialized.key m = some key) (hheaders : Serialized.headers m = some headers)
    (hvalue : headers.entries ≠ [] → (value m).isSome = true)
    (hmatch : crcMatches crc m = true) {drop : List Bytes} {order : List (Bytes × Option Bytes)}
    (hnone : stripFrameBytes crc headerCrc ms drop order = none) :
    StripRefused crc drop order ms := by
  unfold stripFrameBytes at hnone
  rw [hm, bind_some, if_pos hmatch, hheaders, bind_some] at hnone
  split at hnone
  next hany =>
    have hentries : headers.entries ≠ [] := by
      intro hnil
      simp [Headers.names, hnil] at hany
    rcases isSome_iff_exists.mp (hvalue hentries) with ⟨value, hread⟩
    have hlen : 5 < m.length := (List.getElem?_eq_some_iff.mp hattributes).1
    have hback : readBack m = some ⟨m[4], attributes, key, value, headers⟩ := by
      simp [readBack, hattributes, hkey, hread, hheaders, hlen.trans' (by omega : 4 < 5)]
    refine ⟨m, _, hm, hback, ?_⟩
    rw [hback, bind_some, map_eq_none_iff] at hnone
    exact hnone
  next => cases hnone

theorem Inspectable.keepBytes (hms : Inspectable crc ms) (spec : CleanSpec)
    (drops : Option DropSet) (order : List (Bytes × Option Bytes))
    (hnone : keepBytes crc headerCrc spec drops order ms = none) :
    StripRefused crc spec.stripHeaders order ms := by
  have ⟨m, attributes, key, hm, hattributes, hkey, hdata⟩ := hms
  have hlen : 5 < m.length := (List.getElem?_eq_some_iff.mp hattributes).1
  have ⟨disposition, hclass, hstrip⟩ :=
    classifyBytes_some hattributes (fun _ => ⟨key, hkey⟩) spec drops (setFrame ms).offset
  unfold CommitLog.keepBytes at hnone
  rw [hm, bind_some, hclass, bind_some] at hnone
  cases disposition with
  | remove => cases hnone
  | strip =>
    have ⟨headers, hheaders, hvalue⟩ := hdata (hstrip rfl)
    simp only [if_neg (show ¬ m.length < 4 by omega)] at hnone
    split at hnone
    · cases hnone
    next hmatch =>
      have hmatch : crcMatches crc m = true := by simpa using hmatch
      exact stripFrameBytes_none hm hattributes hkey hheaders (hvalue hmatch) hmatch
        (map_eq_none_iff.mp hnone)
  | retain =>
    simp only [hattributes, bind_some] at hnone
    split_ifs at hnone with hactive hplain
    rw [Bool.and_eq_true] at hplain
    have ⟨headers, hheaders, _⟩ := hdata (by simpa using hplain.1)
    simp [hheaders] at hnone

theorem Inspectable.staysInside (hms : Inspectable crc ms) : StaysInside crc headerCrc ms := by
  constructor
  · have ⟨m, attributes, key, hm, hattributes, hkey, hdata⟩ := hms
    unfold digestRecord
    rw [hm, bind_some, hattributes, bind_some]
    cases hcontrol : hasAttribute attributes attrControl with
    | true => rfl
    | false =>
      have ⟨headers, hheaders, _⟩ := hdata hcontrol
      simp [hheaders, hkey]
  · exact hms.keepBytes
  · intro spec
    have ⟨m, attributes, key, hm, hattributes, hkey, _⟩ := hms
    unfold PrefixSpec.admit
    rw [hm, bind_some, hattributes, bind_some, hkey, map_some]
    split
    · simp
    · simp only [getD_some, PrefixSpec.filter]
      split_ifs <;> simp

theorem StaysInside.inspectable (hstays : StaysInside crc headerCrc ms) : Inspectable crc ms := by
  have hdigest := hstays.digest
  have hadmit := hstays.prefixes ⟨[], false, false, (setFrame ms).offset, -1⟩
  unfold digestRecord at hdigest
  unfold PrefixSpec.admit at hadmit
  rw [if_neg (by simp)] at hadmit
  cases hm : setMessage ms with
  | none => simp [hm] at hdigest
  | some m =>
    cases hattributes : m[5]? with
    | none => simp [hm, hattributes] at hdigest
    | some attributes =>
      cases hkey : key m with
      | none => simp [hm, hattributes, hkey] at hadmit
      | some key =>
        refine ⟨m, attributes, key, hm, hattributes, hkey, fun hplain => ?_⟩
        cases hheaders : Serialized.headers m with
        | none => simp [hm, hattributes, hplain, hheaders] at hdigest
        | some headers =>
          refine ⟨headers, rfl, fun hmatch hentries => ?_⟩
          by_contra hvalue
          rw [Bool.not_eq_true, isSome_eq_false_iff, isNone_iff_eq_none] at hvalue
          -- taking out a header that is there makes a pass read the value
          rcases exists_mem_of_ne_nil _ hentries with ⟨header, hheader⟩
          have hnone := hstays.clean (stripAt (setFrame ms).offset [header.1]) none [] (by
            have hlen := length_of_crcMatches hmatch
            have hname : header.1 ∈ headers.names := mem_map_of_mem hheader
            simp [CommitLog.keepBytes, hm, classifyBytes, stripAt, hattributes, hplain, hkey,
              CleanSpec.aborted, DropSet.getOf, hlen.not_gt, hmatch, stripFrameBytes, hheaders,
              hname, readBack, hvalue])
          rcases hnone with ⟨m', msg, hm', hback, _⟩
          rw [hm, some.injEq] at hm'
          rw [← hm', readBack_eq_some_iff, hvalue] at hback
          cases hback.2.2.2.1

theorem keepBytes_corrupt {m : Bytes} (hm : setMessage ms = some m)
    (hcorrupt : crcMatches crc m = false) {spec : CleanSpec} {drops : Option DropSet}
    {order : List (Bytes × Option Bytes)} {out : Option Bytes}
    (hout : keepBytes crc headerCrc spec drops order ms = some out) :
    out = none ∨ out = some ms := by
  unfold keepBytes at hout
  rw [hm, bind_some] at hout
  have ⟨disposition, _, hkept⟩ := bind_eq_some_iff.mp hout
  cases disposition with
  | remove =>
    cases hkept
    exact Or.inl rfl
  | strip =>
    right
    simp only [hcorrupt] at hkept
    split at hkept
    · cases hkept
    · cases hkept
      rfl
  | retain =>
    right
    simp only at hkept
    split at hkept
    · have ⟨attributes, _, hkept⟩ := bind_eq_some_iff.mp hkept
      split at hkept
      · have ⟨headers, _, heq⟩ := map_eq_some_iff.mp hkept
        exact heq.symm
      · cases hkept
        rfl
    · cases hkept
      rfl

theorem readMessages_crc {fuel : ℕ} {bytes : Bytes} {read : List SetFrame}
    (hread : readMessages crc headerCrc fuel bytes = some read) :
    ∀ frame ∈ read, crcMatches crc frame.payload = true := by
  induction fuel generalizing bytes read with
  | zero =>
    cases hread
    simp
  | succ fuel ih =>
    simp only [readMessages] at hread
    split_ifs at hread with hshort hheader htorn hcorrupt
    · cases hread
      simp
    · cases hread
      simp
    · rcases map_eq_some_iff.mp hread with ⟨rest, hrest, heq⟩
      rw [← heq, forall_mem_cons]
      exact ⟨by simpa using hcorrupt, ih hrest⟩

theorem PrefixSpec.crc_of_admit {spec : PrefixSpec} {hit : PrefixHit}
    (hok : spec.admit crc ms = .ok (some hit)) : crcMatches crc hit.frame.payload = true := by
  unfold PrefixSpec.admit at hok
  split at hok
  · cases hok
  · cases hread : ((setMessage ms).bind fun m => m[5]?.bind fun attributes =>
        (key m).map fun key =>
          spec.filter crc ms m (hasAttribute attributes attrControl) key) with
    | none => simp [hread] at hok
    | some result =>
      rw [hread, getD_some] at hok
      simp only [bind_eq_some_iff, map_eq_some_iff] at hread
      have ⟨m, _, attributes, _, key, _, hfilter⟩ := hread
      rw [hok, PrefixSpec.filter] at hfilter
      split at hfilter
      · cases hfilter
      · split at hfilter
        next hmatch =>
          cases hfilter
          exact hmatch
        · cases hfilter

theorem PrefixSpec.scanLoop_spec (spec : PrefixSpec) (frames : List Bytes) :
    (spec.scanLoop crc frames = .error .outside →
        ∃ ms ∈ frames, spec.admit crc ms = .error .outside) ∧
      ∀ out, spec.scanLoop crc frames = .ok out →
        ∀ hit ∈ out, crcMatches crc hit.frame.payload = true := by
  induction frames with
  | nil => simp [PrefixSpec.scanLoop]
  | cons ms rest ih =>
    unfold PrefixSpec.scanLoop
    cases hadmit : spec.admit crc ms with
    | error e =>
      refine ⟨fun heq => ⟨ms, mem_cons_self, ?_⟩, by simp⟩
      cases heq
      exact hadmit
    | ok hit =>
      cases hrest : spec.scanLoop crc rest with
      | error e =>
        refine ⟨fun heq => ?_, by simp [Except.map]⟩
        cases heq
        have ⟨other, hmem, hother⟩ := ih.1 hrest
        exact ⟨other, mem_cons_of_mem _ hmem, hother⟩
      | ok found =>
        refine ⟨by simp [Except.map], fun out hout other hmem => ?_⟩
        cases hout
        cases mem_append.mp hmem with
        | inl hfirst =>
          rw [mem_toList.mp hfirst] at hadmit
          exact PrefixSpec.crc_of_admit hadmit
        | inr hlater => exact ih.2 found hrest other hlater

theorem dropRetired_subset (hits : List PrefixHit) : dropRetired hits ⊆ hits := by
  induction hits with
  | nil => exact Subset.refl _
  | cons hit rest ih =>
    unfold dropRetired
    split
    · exact subset_cons_of_subset _ ih
    · exact cons_subset_cons _ ih

theorem PrefixSpec.scan_spec (spec : PrefixSpec) (frames : List Bytes) :
    (spec.scan crc frames = .error .outside → ∃ ms ∈ frames, spec.admit crc ms = .error .outside) ∧
      ∀ out, spec.scan crc frames = .ok out →
        ∀ hit ∈ out, crcMatches crc hit.frame.payload = true := by
  have ⟨houtside, hsound⟩ := @scanLoop_spec crc spec frames
  unfold PrefixSpec.scan
  cases hloop : spec.scanLoop crc frames with
  | error e =>
    refine ⟨fun heq => houtside ?_, by simp [Except.map]⟩
    cases heq
    exact hloop
  | ok found =>
    refine ⟨by simp [Except.map], fun out hout hit hhit => hsound found hloop hit ?_⟩
    cases hout
    split at hhit
    · exact dropRetired_subset found hhit
    · exact hhit

end Records

/-- Over the frames of a segment with sound headers, the passes stay inside the
records exactly when the records can be inspected.  Whatever the payloads are,
what a reader or a prefix scan returns has a matching checksum, and a record
without one leaves a cleaning pass as it came, or not at all. -/
theorem damaged_payloads_iff {blockMode : Bool} {bytes : Bytes} {frames : List Bytes}
    (hscan : scanFrames headerCrc blockMode bytes.length bytes = some frames) :
    (((buildDigestBytes headerCrc blockMode bytes).isSome = true ∧
        (∀ ms ∈ frames, StaysInside crc headerCrc ms) ∧
        ∀ spec : PrefixSpec, spec.scan crc frames ≠ .error .outside) ↔
      ∀ ms ∈ frames, Inspectable crc ms) ∧
    (∀ read, readMessages crc headerCrc bytes.length bytes = some read →
      ∀ frame ∈ read, crcMatches crc frame.payload = true) ∧
    (∀ (spec : PrefixSpec) out, spec.scan crc frames = .ok out →
      ∀ hit ∈ out, crcMatches crc hit.frame.payload = true) ∧
    ∀ ms ∈ frames, ∀ m, setMessage ms = some m → crcMatches crc m = false →
      ∀ spec drops order out, keepBytes crc headerCrc spec drops order ms = some out →
        out = none ∨ out = some ms := by
  refine ⟨⟨?_, ?_⟩, fun read => readMessages_crc, fun spec => (spec.scan_spec frames).2, ?_⟩
  · intro hstays ms hms
    exact (hstays.2.1 ms hms).inspectable
  · intro hall
    have hstays : ∀ ms ∈ frames, StaysInside crc headerCrc ms :=
      fun ms hms => (hall ms hms).staysInside
    refine ⟨?_, hstays, fun spec houtside => ?_⟩
    · rw [buildDigestBytes, hscan, bind_some, Runs.isSome_mapM_iff]
      exact fun ms hms => (hstays ms hms).digest
    · have ⟨ms, hms, hadmit⟩ := (spec.scan_spec frames).1 houtside
      exact (hstays ms hms).prefixes spec hadmit
  · intro ms _ m hm hcorrupt spec drops order out
    exact keepBytes_corrupt hm hcorrupt

/-- A record of one byte: its header is sound, and the digest reaches for an
attribute byte that is not there. -/
theorem short_payload_outside :
    scanFrames (fun _ => 0) false (shortSet 0).length (shortSet 0) = some [shortSet 0] ∧
      buildDigestBytes (fun _ => 0) false (shortSet 0) = none ∧
      ¬ ((buildDigestBytes (fun _ => 0) false (shortSet 0)).isSome = true ∧
        ∀ ms ∈ [shortSet 0], StaysInside (fun _ => 0) (fun _ => 0) ms) := by
  have hnone : buildDigestBytes (fun _ => 0) false (shortSet 0) = none := by decide +kernel
  refine ⟨by decide +kernel, hnone, ?_⟩
  rw [hnone]
  simp

theorem damaged_payloads_iff_plainSet :
    scanFrames (fun _ => 0) false plainSet.length plainSet = some [plainSet] ∧
      (buildDigestBytes (fun _ => 0) false plainSet).isSome = true ∧
      ∀ read, readMessages (fun _ => 0) (fun _ => 0) plainSet.length plainSet = some read →
        ∀ frame ∈ read, crcMatches (fun _ => 0) frame.payload = true := by
  have hscan : scanFrames (fun _ => 0) false plainSet.length plainSet = some [plainSet] := by
    decide +kernel
  have hwhole := damaged_payloads_iff (fun _ => 0) (fun _ => 0) hscan
  refine ⟨hscan, (hwhole.1.mpr ?_).1, hwhole.2.1⟩
  intro ms hms
  rw [mem_singleton.mp hms]
  refine ⟨plainSet.drop msgSetHeaderLen, 0, none, by decide +kernel, by decide +kernel,
    by decide +kernel, fun _ => ⟨Headers.empty, by decide +kernel, fun _ hentries => ?_⟩⟩
  exact absurd rfl hentries

end CommitLog
