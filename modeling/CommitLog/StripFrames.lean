import CommitLog.BatchFormats

/-!
# Taking headers out of a frame

A frame is stripped by reading its message whole, leaving out the named headers
and encoding the rest under the frame's own offset, timestamp and epoch.  That
keeps everything else as long as the message reads, and what stays encodes.
-/

namespace CommitLog

open List

variable (crc headerCrc : Bytes → Fin (2 ^ 32))

/-- What `stripFrame` comes to: it slices outside the payload, reports a failed
checksum or an encoder's refusal, or has a result. -/
inductive StripOutcome
  | outside
  | corrupt
  | refused
  | unchanged
  | stripped (frame : Bytes)

/-- The re-encoding of `stripFrame`, when a name was found. -/
def reencode (ms m : Bytes) (drop : List Bytes) (order : List (Bytes × Option Bytes)) :
    StripOutcome :=
  match readBack m with
  | none => .outside
  | some msg =>
    match (msg.withoutHeaders drop).produced.encode crc order with
    | none => .refused
    | some data => .stripped (frameBytes headerCrc (setFrame ms).offset (setFrame ms).timestamp
        (setFrame ms).leaderEpoch data)

def stripOutcome (ms : Bytes) (drop : List Bytes) (order : List (Bytes × Option Bytes)) :
    StripOutcome :=
  match setMessage ms with
  | none => .outside
  | some m =>
    if m.length < 4 then .outside
    else if !crcMatches crc m then .corrupt
    else
      match Serialized.headers m with
      | none => .outside
      | some headers =>
        if drop.any fun name => headers.names.contains name then reencode crc headerCrc ms m drop order
        else .unchanged

/-- The result a pass goes on with. -/
def StripOutcome.result : StripOutcome → Option (Option Bytes)
  | stripped frame => some (some frame)
  | unchanged => some none
  | _ => none

structure HoldsAs (ms : Bytes) (frame : SetFrame) (sent : Produced) : Prop where
  offset : (setFrame ms).offset = frame.offset
  timestamp : (setFrame ms).timestamp = frame.timestamp
  leaderEpoch : (setFrame ms).leaderEpoch = frame.leaderEpoch
  message : ∃ m msg, setMessage ms = some m ∧ crcMatches crc m = true ∧ readBack m = some msg ∧
    GivesBack sent msg

/-- Whatever order the headers are written in, the outcome says what is the
case, and a new frame is the old one without the named headers. -/
def StripsSurgically (ms : Bytes) (drop : List Bytes) : Prop :=
  ∃ m, setMessage ms = some m ∧ ∀ order,
    (∀ msg, readBack m = some msg → order.Perm (msg.produced.without drop).headers) →
    match stripOutcome crc headerCrc ms drop order with
    | .corrupt => crcMatches crc m = false
    | .unchanged => crcMatches crc m = true ∧
      ∃ headers, Serialized.headers m = some headers ∧ ∀ name ∈ drop, name ∉ headers.names
    | .stripped ms' => headerCrcMatches headerCrc ms' = true ∧
      (∃ msg, readBack m = some msg ∧ (∃ name ∈ drop, name ∈ msg.headers.names) ∧
        HoldsAs crc ms' (setFrame ms) (msg.produced.without drop)) ∧
      ∀ order', stripOutcome crc headerCrc ms' drop order' = .unchanged
    | _ => False

/-- Both orders of two lists end in frames that hold the same. -/
def StripsCommute (ms : Bytes) (drop drop' : List Bytes) : Prop :=
  ∀ sent, HoldsAs crc ms (setFrame ms) sent → ∀ order order' order₂ order₂' : List _,
    order.Perm (sent.without drop).headers →
    order'.Perm ((sent.without drop).without drop').headers →
    order₂.Perm (sent.without drop').headers →
    order₂'.Perm ((sent.without drop').without drop).headers →
    ∀ r r' r₂ r₂', stripFrameBytes crc headerCrc ms drop order = some r →
      stripFrameBytes crc headerCrc (r.getD ms) drop' order' = some r' →
      stripFrameBytes crc headerCrc ms drop' order₂ = some r₂ →
      stripFrameBytes crc headerCrc (r₂.getD ms) drop order₂' = some r₂' →
      ∃ left, HoldsAs crc (r'.getD (r.getD ms)) (setFrame ms) left ∧
        HoldsAs crc (r₂'.getD (r₂.getD ms)) (setFrame ms) left

/-- The payload holds its checksum.  If it matches, the headers read, and if
one is to go, the message reads and the rest of it encodes. -/
def StripFits (ms : Bytes) (drop : List Bytes) : Prop :=
  ∃ m, setMessage ms = some m ∧ 4 ≤ m.length ∧
    (crcMatches crc m = true → ∃ headers, Serialized.headers m = some headers ∧
      ((∃ name ∈ drop, name ∈ headers.names) →
        ∃ msg, readBack m = some msg ∧ (msg.withoutHeaders drop).produced.fits = true))

section Strip

variable {crc headerCrc} {ms : Bytes} {drop : List Bytes} {order : List (Bytes × Option Bytes)}

theorem stripFrameBytes_eq : stripFrameBytes crc headerCrc ms drop order =
      (stripOutcome crc headerCrc ms drop order).result := by
  unfold stripFrameBytes stripOutcome reencode
  cases setMessage ms with
  | none => rfl
  | some m =>
    simp only [Option.bind_some]
    cases hcrc : crcMatches crc m with
    | false =>
      simp only [Bool.false_eq_true, if_false, Bool.not_false, if_true]
      split <;> rfl
    | true =>
      have hlen := length_of_crcMatches hcrc
      simp only [if_true, if_neg (show ¬ m.length < 4 by omega), Bool.not_true,
        Bool.false_eq_true, if_false]
      cases Serialized.headers m with
      | none => rfl
      | some headers =>
        simp only [Option.bind_some]
        split
        · cases readBack m with
          | none => rfl
          | some msg =>
            simp only [Option.bind_some]
            cases (msg.withoutHeaders drop).produced.encode crc order <;> rfl
        · rfl

def restamped (frame : SetFrame) (sent : Produced) (order : List (Bytes × Option Bytes)) :
    FramedMessage :=
  ⟨.ofInt 64 frame.offset, .ofInt 64 frame.timestamp, .ofNat 64 frame.leaderEpoch, sent, order⟩

theorem restamped_read (sent : Produced) : (restamped (setFrame ms) sent order).read crc =
      { setFrame ms with payload := (restamped (setFrame ms) sent order).payload crc } := by
  have hepoch : (setFrame ms).leaderEpoch < 2 ^ 64 := by
    have hlt := bigEndian_lt ((ms.drop 16).take 8)
    have hlen : ((ms.drop 16).take 8).length ≤ 8 := by simp
    calc bigEndian ((ms.drop 16).take 8) < 256 ^ ((ms.drop 16).take 8).length := hlt
      _ ≤ 256 ^ 8 := Nat.pow_le_pow_right (by norm_num) hlen
      _ = 2 ^ 64 := by norm_num
  simp only [FramedMessage.read, restamped, BitVec.toInt_ofInt, BitVec.toNat_ofNat,
    Nat.mod_eq_of_lt hepoch]
  simp only [setFrame, wrapInt64, Int.bmod_bmod]

theorem restamped_bytes (sent : Produced) :
    (restamped (setFrame ms) sent order).bytes crc headerCrc =
      frameBytes headerCrc (setFrame ms).offset (setFrame ms).timestamp (setFrame ms).leaderEpoch
        ((restamped (setFrame ms) sent order).payload crc) := by
  have hread := congrArg
    (fun frame : SetFrame => (frame.offset, frame.timestamp, frame.leaderEpoch))
    (@restamped_read crc ms order sent)
  simp only [FramedMessage.read, Prod.mk.injEq] at hread
  rw [FramedMessage.bytes, hread.1, hread.2.1, hread.2.2]

theorem reencode_holds {sent : Produced} {m data : Bytes} {msg : Message}
    (hm : setMessage ms = some m) (hread : readBack m = some msg) (hback : GivesBack sent msg)
    (horder : order.Perm (sent.without drop).headers)
    (hdata : (msg.withoutHeaders drop).produced.encode crc order = some data) :
    headerCrcMatches headerCrc (frameBytes headerCrc (setFrame ms).offset (setFrame ms).timestamp
        (setFrame ms).leaderEpoch data) = true ∧
      HoldsAs crc (frameBytes headerCrc (setFrame ms).offset (setFrame ms).timestamp
        (setFrame ms).leaderEpoch data) (setFrame ms) (sent.without drop) := by
  rw [hback.produced_without] at hdata
  have hrep := (hback.representable hm hread).without drop
  have hpayload : data = (restamped (setFrame ms) (sent.without drop) order).payload crc := by
    unfold Produced.encode at hdata
    split at hdata
    · cases hdata
      rfl
    · cases hdata
  have hsized : (restamped (setFrame ms) (sent.without drop) order).Sized := ⟨horder, hrep.length⟩
  have hset := @FramedMessage.Sized.setFrame_bytes crc headerCrc _ hsized
  have hheader := @FramedMessage.headerCrcMatches_bytes crc headerCrc
    (restamped (setFrame ms) (sent.without drop) order)
  rw [restamped_bytes, ← hpayload] at hset hheader
  rw [restamped_read] at hset
  have ⟨msg', hm', hcrc', hread', hback', _⟩ := @decodes_of_representable crc headerCrc _ _ order
    horder hdata hrep (setFrame ms).offset (setFrame ms).timestamp (setFrame ms).leaderEpoch
  refine ⟨hheader, ?_, ?_, ?_, data, msg', hm', hcrc', hread', hback'⟩
  all_goals rw [hset]

theorem without_eq_self {sent : Produced}
    (hnone : (sent.headers.any fun header => drop.contains header.1) = false) :
    sent.without drop = sent := by
  have hfilter : (sent.headers.filter fun header => !drop.contains header.1) = sent.headers := by
    rw [filter_eq_self]
    simpa using hnone
  simp only [Produced.without, hfilter]

theorem HoldsAs.strip {frame : SetFrame} {sent : Produced} (hholds : HoldsAs crc ms frame sent)
    (horder : order.Perm (sent.without drop).headers) {r : Option Bytes}
    (hresult : stripFrameBytes crc headerCrc ms drop order = some r) :
    HoldsAs crc (r.getD ms) frame (sent.without drop) := by
  have ⟨m, msg, hm, hcrc, hread, hback⟩ := hholds.message
  have hany := hback.hasAnyHeader drop
  unfold Message.hasAnyHeader at hany
  unfold stripFrameBytes at hresult
  rw [hm, Option.bind_some, if_pos hcrc, (readBack_eq_some_iff.mp hread).2.2.2.2,
    Option.bind_some, hany, hread, Option.bind_some] at hresult
  split at hresult
  · have ⟨data, hdata, heq⟩ := Option.map_eq_some_iff.mp hresult
    have ⟨_, hnew⟩ := @reencode_holds crc headerCrc ms drop order sent m data msg hm hread hback
      horder hdata
    rw [← heq]
    exact ⟨hnew.offset.trans hholds.offset, hnew.timestamp.trans hholds.timestamp,
      hnew.leaderEpoch.trans hholds.leaderEpoch, hnew.message⟩
  next hnone =>
    cases hresult
    rw [without_eq_self (by simpa using hnone)]
    exact hholds

theorem HoldsAs.unchanged {frame : SetFrame} {sent : Produced}
    (hholds : HoldsAs crc ms frame (sent.without drop)) (order : List (Bytes × Option Bytes)) :
    stripOutcome crc headerCrc ms drop order = .unchanged := by
  have ⟨m, msg, hm, hcrc, hread, hback⟩ := hholds.message
  have hnone : (drop.any fun name => msg.headers.names.contains name) = false := by
    have hany := hback.hasAnyHeader drop
    unfold Message.hasAnyHeader at hany
    rw [hany, any_eq_false]
    intro header hheader
    simpa [Produced.without] using (mem_filter.mp hheader).2
  have hlen := length_of_crcMatches hcrc
  simp only [stripOutcome, hm, if_neg hlen.not_gt, hcrc, Bool.not_true, Bool.false_eq_true,
    if_false, (readBack_eq_some_iff.mp hread).2.2.2.2, hnone]

theorem Message.givesBack (msg : Message) : GivesBack msg.produced msg :=
  ⟨rfl, rfl, rfl, rfl, Perm.refl _⟩

theorem strips_of_fits (hfits : StripFits crc ms drop) :
    StripsSurgically crc headerCrc ms drop := by
  have ⟨m, hm, hlen, hreads⟩ := hfits
  refine ⟨m, hm, fun order horder => ?_⟩
  cases hcrc : crcMatches crc m with
  | false =>
    have houtcome : stripOutcome crc headerCrc ms drop order = .corrupt := by
      simp [stripOutcome, hm, hlen.not_gt, hcrc]
    rw [houtcome]
  | true =>
    have ⟨headers, hheaders, hdrop⟩ := hreads hcrc
    have hfound : stripOutcome crc headerCrc ms drop order =
        if drop.any fun name => headers.names.contains name then
          reencode crc headerCrc ms m drop order else .unchanged := by
      simp [stripOutcome, hm, hlen.not_gt, hcrc, hheaders]
    by_cases hany : (drop.any fun name => headers.names.contains name) = true
    · have hsome : ∃ name ∈ drop, name ∈ headers.names := by simpa using hany
      have ⟨msg, hread, hfits⟩ := hdrop hsome
      have hencode : (msg.withoutHeaders drop).produced.encode crc order = some _ := if_pos hfits
      have ⟨hheader, hholds⟩ := @reencode_holds crc headerCrc ms drop order msg.produced m _ msg hm
        hread msg.givesBack (horder msg hread) hencode
      have hsame := (readBack_eq_some_iff.mp hread).2.2.2.2
      rw [hheaders, Option.some.injEq] at hsame
      rw [hsame] at hsome
      rw [hfound, if_pos hany, reencode, hread]
      simp only [hencode]
      exact ⟨hheader, ⟨msg, rfl, hsome, hholds⟩, hholds.unchanged⟩
    · rw [hfound, if_neg hany]
      exact ⟨rfl, headers, hheaders, by simpa using hany⟩

theorem fits_of_strips (hstrips : StripsSurgically crc headerCrc ms drop) :
    StripFits crc ms drop := by
  have ⟨m, hm, hall⟩ := hstrips
  have hright := hall ((readBack m).elim [] fun msg => (msg.produced.without drop).headers) (by
    intro msg hread
    rw [hread]
    exact Perm.refl _)
  unfold stripOutcome at hright
  simp only [hm] at hright
  refine ⟨m, hm, ?_⟩
  by_cases hlen : m.length < 4
  · rw [if_pos hlen] at hright
    exact hright.elim
  · refine ⟨by omega, fun hcrc => ?_⟩
    rw [if_neg hlen, hcrc, Bool.not_true, if_neg Bool.false_ne_true] at hright
    cases hheaders : Serialized.headers m with
    | none =>
      rw [hheaders] at hright
      exact hright.elim
    | some headers =>
      refine ⟨headers, rfl, fun hsome => ?_⟩
      simp only [hheaders] at hright
      rw [if_pos (by simpa using hsome), reencode] at hright
      cases hread : readBack m with
      | none =>
        rw [hread] at hright
        exact hright.elim
      | some msg =>
        refine ⟨msg, rfl, ?_⟩
        simp only [hread] at hright
        generalize Option.elim (some msg) _ _ = order at hright
        cases hencode : (msg.withoutHeaders drop).produced.encode crc order with
        | none =>
          rw [hencode] at hright
          exact hright.elim
        | some data => exact Produced.fits_of_encode hencode

end Strip

def nilHeaderPayload : Bytes :=
  [0, 0, 0, 0, 0, 0, 255, 255, 255, 255, 0, 0, 0, 1, 7, 0, 1, 0, 1, 1, 255, 255, 255, 255]

/-- The frame of a message whose header has no value.  The log takes it, and
taking out the header slices outside the payload. -/
def nilHeaderFrame : Bytes :=
  frameBytes (fun _ => 0) 0 0 0 nilHeaderPayload

end CommitLog
