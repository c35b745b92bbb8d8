import CommitLog.MessageCodec

/-!
# Messages come back as they were sent

The encoder refuses fields that are too long for their lengths.  It does not
refuse a header without a value, more headers than 16 bits count, or a message
that is too long for its frame; exactly these are not read back.
-/

namespace CommitLog

open List

variable {sent : Produced} {msg : Message} {order : List (Bytes × Option Bytes)}

/-! ## Frames -/

section Frames

variable {headerCrc : Bytes → Fin (2 ^ 32)} {offset timestamp : ℤ}
    {leaderEpoch : ℕ} {payload : Bytes}

theorem length_frameBytes : (frameBytes headerCrc offset timestamp leaderEpoch payload).length =
      msgSetHeaderLen + payload.length := by
  simp only [frameBytes, msgSetHeaderLen, length_append, length_putUint]

theorem setMessage_frameBytes (hne : payload ≠ [])
    (hlen : msgSetHeaderLen + payload.length ≤ maxInt32) :
    setMessage (frameBytes headerCrc offset timestamp leaderEpoch payload) =
      some payload := by
  have hpos := length_pos_of_ne_nil hne
  have hsize : uintAt 4 (frameBytes headerCrc offset timestamp leaderEpoch
      payload) 24 = some payload.length := by
    have hread := @uintAt_append (putUint 8 (offset % 2 ^ 64).toNat ++
      putUint 8 (timestamp % 2 ^ 64).toNat ++ putUint 8 leaderEpoch)
      (putUint 4 (headerCrc (putUint 8 (offset % 2 ^ 64).toNat ++
        putUint 8 (timestamp % 2 ^ 64).toNat ++ putUint 8 leaderEpoch ++
        putUint 4 payload.length)).val ++ payload) 4 payload.length
    rw [Nat.mod_eq_of_lt (by unfold maxInt32 at hlen; omega)] at hread
    simpa [frameBytes] using hread
  have hcut : slice (frameBytes headerCrc offset timestamp leaderEpoch
      payload) msgSetHeaderLen (msgSetHeaderLen + payload.length) =
      some payload := by
    have hslice := @slice_append (putUint 8 (offset % 2 ^ 64).toNat ++
      putUint 8 (timestamp % 2 ^ 64).toNat ++ putUint 8 leaderEpoch ++
      putUint 4 payload.length ++
      putUint 4 (headerCrc (putUint 8 (offset % 2 ^ 64).toNat ++
        putUint 8 (timestamp % 2 ^ 64).toNat ++ putUint 8 leaderEpoch ++
        putUint 4 payload.length)).val) [] payload
    simpa [frameBytes, msgSetHeaderLen] using hslice
  unfold setMessage
  rw [length_frameBytes, if_neg (by omega), hsize, Option.bind_some,
    int32_natCast (by omega), int32_eq_self (by omega) (by omega), hcut]

end Frames

theorem setMessage_length {ms m : Bytes} (hm : setMessage ms = some m)
    (hne : m ≠ []) : msgSetHeaderLen + m.length ≤ maxInt32 := by
  unfold setMessage at hm
  split_ifs at hm with hshort
  · cases hm
    exact absurd rfl hne
  · rcases Option.bind_eq_some_iff.mp hm with ⟨size, -, hcut⟩
    have hlength := slice_length hcut
    have hle := int32_le (msgSetHeaderLen + int32 size)
    omega

/-! ## The property and its condition -/

namespace Produced

def without (sent : Produced) (drop : List Bytes) : Produced :=
  { sent with
    headers := sent.headers.filter fun header => !drop.contains header.1
    nodup := sent.nodup.sublist (filter_sublist.map Prod.fst) }

/-- Every header has a value, there are no more of them than 16 bits count,
and the frame ends below the largest 32-bit number. -/
structure Representable (sent : Produced) : Prop where
  values : ∀ header ∈ sent.headers, header.2 ≠ none
  count : sent.headers.length ≤ 65535
  length : msgSetHeaderLen + sent.encodedLen ≤ maxInt32

end Produced

section RoundTrip

variable (crc headerCrc : Bytes → Fin (2 ^ 32))

/-- A frame whose checksum holds and from which the accessors and the parser
read the message that was sent. -/
def Decodes (sent : Produced) (ms : Bytes) : Prop :=
  ∃ m msg, setMessage ms = some m ∧ crcMatches crc m = true ∧
    readBack m = some msg ∧ GivesBack sent msg ∧
    parseHeadersAfterValue m = some msg.headers

/-- Re-encoding a frame takes out the named headers and nothing else. -/
def StripsRight (sent : Produced) (ms : Bytes) : Prop :=
  ∀ drop order, order.Perm (sent.without drop).headers →
    if sent.headers.any fun header => drop.contains header.1 then
      ∃ ms', stripFrameBytes crc headerCrc ms drop order = some (some ms') ∧
        Decodes crc (sent.without drop) ms'
    else stripFrameBytes crc headerCrc ms drop order = some none

/-- A message that is not refused reads back from its frame, in whatever order
the encoder met its headers. -/
def RoundTrips (sent : Produced) : Prop :=
  ∀ order, order.Perm sent.headers → ∀ payload, sent.encode crc order = some payload →
      ∀ offset timestamp leaderEpoch, Decodes crc sent
            (frameBytes headerCrc offset timestamp leaderEpoch payload) ∧
          StripsRight crc headerCrc sent (frameBytes headerCrc offset timestamp leaderEpoch payload)

variable {crc headerCrc}

theorem GivesBack.encodedLen (hback : GivesBack sent msg) : sent.encodedLen = msg.encodedLen := by
  have hsum := (hback.headers.map fun header : Bytes × Option Bytes =>
    2 + header.1.length + Message.bytesLen header.2).sum_eq
  unfold Produced.encodedLen Message.encodedLen Headers.encodedLen
  rw [← hsum, hback.key, hback.value]
  simp [valued, map_map, Function.comp_def, Message.bytesLen]

theorem GivesBack.representable {ms m : Bytes} (hback : GivesBack sent msg)
    (hm : setMessage ms = some m) (hread : readBack m = some msg) : sent.Representable := by
  have hne : m ≠ [] := by
    rintro rfl
    cases hread
  have hlength := setMessage_length hm hne
  have htakes := readBack_takes (by omega) hread
  constructor
  · intro header hheader
    have hin := hback.headers.symm.subset hheader
    rcases mem_map.mp hin with ⟨entry, -, rfl⟩
    simp
  · rw [← hback.headers.length_eq]
    simpa [valued] using htakes.2
  · rw [hback.encodedLen]
    omega

theorem encode_ne_nil {payload : Bytes} (horder : order.Perm sent.headers)
    (hencode : sent.encode crc order = some payload) : payload ≠ [] := by
  have hlength := Produced.length_encode horder hencode
  unfold Produced.encodedLen at hlength
  intro hnil
  rw [hnil, length_nil] at hlength
  omega

theorem decodes_of_representable {sent : Produced} {payload : Bytes}
    {order : List (Bytes × Option Bytes)} (horder : order.Perm sent.headers)
    (hencode : sent.encode crc order = some payload)
    (hrep : sent.Representable) (offset timestamp : ℤ) (leaderEpoch : ℕ) :
    ∃ msg, setMessage (frameBytes headerCrc offset timestamp leaderEpoch payload) = some payload ∧
      crcMatches crc payload = true ∧ readBack payload = some msg ∧
      GivesBack sent msg ∧
      parseHeadersAfterValue payload = some msg.headers := by
  have hlength := Produced.length_encode horder hencode
  have hlen := hrep.length
  rcases valued_of_perm horder hrep.values with ⟨entries, rfl⟩
  rcases readBack_encode horder hencode hrep.count (by omega) with
    ⟨msg, hread, hback, hparse, hcrc⟩
  exact ⟨msg, setMessage_frameBytes (encode_ne_nil horder hencode) (by omega),
    hcrc, hread, hback, hparse⟩

theorem Produced.encodedLen_without_le (sent : Produced) (drop : List Bytes) :
    (sent.without drop).encodedLen ≤ sent.encodedLen := by
  have hfilter : (sent.headers.filter fun header =>
      !drop.contains header.1).Sublist sent.headers :=
    filter_sublist
  have hsum := (hfilter.map fun header : Bytes × Option Bytes =>
    2 + header.1.length + Message.bytesLen header.2).sum_le_sum
    (fun _ _ => Nat.zero_le _)
  unfold Produced.encodedLen Produced.without
  simp only
  omega

theorem Produced.Representable.without (hrep : sent.Representable) (drop : List Bytes) :
    (sent.without drop).Representable where
  values header hheader := hrep.values header (mem_of_mem_filter hheader)
  count := (length_filter_le _ _).trans hrep.count
  length := by
    have hle := sent.encodedLen_without_le drop
    have hlen := hrep.length
    omega

theorem Produced.fits_without (hfits : sent.fits = true)
    (drop : List Bytes) : (sent.without drop).fits = true := by
  simp only [Produced.fits, Bool.and_eq_true, all_eq_true] at hfits ⊢
  refine ⟨hfits.1, ?_⟩
  intro header hheader
  exact hfits.2 header (mem_of_mem_filter hheader)

theorem GivesBack.produced_without (hback : GivesBack sent msg) (drop : List Bytes)
    (order : List (Bytes × Option Bytes)) :
    (msg.withoutHeaders drop).produced.encode crc order = (sent.without drop).encode crc order := by
  have hperm : (msg.withoutHeaders drop).produced.headers.Perm (sent.without drop).headers := by
    have hfilter := hback.headers.filter fun header =>
      !drop.contains header.1
    simp only [valued, filter_map] at hfilter
    exact hfilter
  have hfits : (msg.withoutHeaders drop).produced.fits = (sent.without drop).fits := by
    unfold Produced.fits
    rw [hperm.all_eq]
    simp only [Message.produced, Message.withoutHeaders, Produced.without, hback.key, hback.value]
  have hbody : (msg.withoutHeaders drop).produced.body order = (sent.without drop).body order := by
    unfold Produced.body
    rw [hperm.length_eq]
    simp only [Message.produced, Message.withoutHeaders, Produced.without,
      hback.magicByte, hback.attributes, hback.key, hback.value]
  unfold Produced.encode
  rw [hfits, hbody]

theorem GivesBack.hasAnyHeader (hback : GivesBack sent msg) (drop : List Bytes) :
    msg.hasAnyHeader drop = sent.headers.any fun header => drop.contains header.1 := by
  rw [Bool.eq_iff_iff, Message.hasAnyHeader_eq_true, any_eq_true]
  constructor
  · rintro ⟨name, hdrop, hname⟩
    rcases mem_map.mp hname with ⟨entry, hentry, rfl⟩
    refine ⟨(entry.1, some entry.2), ?_, by simpa using hdrop⟩
    exact hback.headers.subset (mem_map_of_mem hentry)
  · rintro ⟨header, hheader, hdrop⟩
    rcases mem_map.mp (hback.headers.symm.subset hheader) with
      ⟨entry, hentry, rfl⟩
    exact ⟨entry.1, by simpa using hdrop, mem_map_of_mem hentry⟩

theorem stripsRight_of_representable {payload : Bytes} (horder : order.Perm sent.headers)
    (hencode : sent.encode crc order = some payload)
    (hrep : sent.Representable) (offset timestamp : ℤ) (leaderEpoch : ℕ) :
    StripsRight crc headerCrc sent (frameBytes headerCrc offset timestamp leaderEpoch payload) := by
  rcases @decodes_of_representable crc headerCrc sent payload order horder
    hencode hrep offset timestamp leaderEpoch with
    ⟨msg, hm, hcrc, hread, hback, -⟩
  have hfits := Produced.fits_of_encode hencode
  have hheaders := (readBack_eq_some_iff.mp hread).2.2.2.2
  intro drop order' horder'
  have hany := hback.hasAnyHeader drop
  unfold Message.hasAnyHeader at hany
  unfold stripFrameBytes
  rw [hm, Option.bind_some, if_pos hcrc, hheaders, Option.bind_some, hany,
    hread, Option.bind_some, hback.produced_without drop order']
  split_ifs with hany
  · have hencode' : (sent.without drop).encode crc order' = some _ :=
      if_pos (Produced.fits_without hfits drop)
    refine ⟨_, by rw [hencode']; rfl, ?_⟩
    rcases @decodes_of_representable crc headerCrc _ _ order' horder' hencode'
      (hrep.without drop) _ _ _ with ⟨msg', hm', hcrc', hread', hback', hparse'⟩
    exact ⟨_, msg', hm', hcrc', hread', hback', hparse'⟩
  · rfl

/-- Messages read back unless one of the three limits is passed that the
encoder does not check. -/
theorem roundTrips_iff (crc headerCrc : Bytes → Fin (2 ^ 32)) (sent : Produced) :
    RoundTrips crc headerCrc sent ↔ (sent.fits = true → sent.Representable) := by
  constructor
  · intro htrip hfits
    have hencode : sent.encode crc sent.headers = some _ := if_pos hfits
    rcases (htrip sent.headers (Perm.refl _) _ hencode 0 0 0).1 with
      ⟨m, msg, hm, -, hread, hback, -⟩
    exact hback.representable hm hread
  · intro hrep order horder payload hencode offset timestamp leaderEpoch
    have hfits := Produced.fits_of_encode hencode
    constructor
    · rcases @decodes_of_representable crc headerCrc sent payload order horder
        hencode (hrep hfits) offset timestamp leaderEpoch with
        ⟨msg, hm, hcrc, hread, hback, hparse⟩
      exact ⟨payload, msg, hm, hcrc, hread, hback, hparse⟩
    · exact stripsRight_of_representable horder hencode (hrep hfits) offset timestamp leaderEpoch

/-! ## A header without a value -/

def nilHeader : Produced := ⟨0, 0, none, some [7], [([1], none)], by simp⟩

/-- The message is stored, and neither the accessor nor the parser gets
through its headers. -/
theorem nil_header_unreadable : ∃ payload, nilHeader.encode (fun _ => 0) nilHeader.headers =
        some payload ∧
      Serialized.headers payload = none ∧
      parseHeadersAfterValue payload = none ∧
      ¬ RoundTrips (fun _ => 0) (fun _ => 0) nilHeader := by
  have hencode : nilHeader.encode (fun _ => 0) nilHeader.headers =
      some [0, 0, 0, 0, 0, 0, 255, 255, 255, 255, 0, 0, 0, 1, 7, 0, 1, 0, 1, 1,
        255, 255, 255, 255] := by
    decide +kernel
  refine ⟨_, hencode, by decide +kernel, by decide +kernel, ?_⟩
  intro htrip
  have hdecodes := (htrip _ (Perm.refl _) _ hencode 0 0 0).1
  rcases hdecodes with ⟨m, msg, -, -, -, hback, -⟩
  have hin := hback.headers.symm.subset
    (show (([1] : Bytes), (none : Option Bytes)) ∈ nilHeader.headers by
      simp [nilHeader])
  simp [valued] at hin

end RoundTrip

end CommitLog
