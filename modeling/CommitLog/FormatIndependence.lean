import CommitLog.BatchFormats

/-!
# A batch reads the same from either format

Where both formats take a batch they give it the same offsets.  What is read
differs if a message has attribute bits besides the two a version-3 block
knows, a header without a value, or more headers than one of the formats
takes, if the batch has messages with and without a timestamp, or if the
offsets run out.
-/

namespace CommitLog

open List

variable {a b : Produced} {epoch stamp : BitVec 64} {control : Bool} {i : ℕ} {m : BatchMessage × ℕ}

open Runs

/-! ## Headers -/

theorem valued_injective :
    Function.Injective fun header : Bytes × Bytes =>
      (header.1, some header.2) := by
  rintro ⟨name, value⟩ ⟨name', value'⟩ heq
  simpa using heq

theorem Headers.get_eq_some_iff {headers : Headers} {name value : Bytes} :
    headers.get name = some value ↔ (name, value) ∈ headers.entries := by
  have hnodup := headers.nodup
  rw [Headers.get]
  generalize headers.entries = entries at hnodup ⊢
  induction entries with
  | nil => simp
  | cons header entries ih =>
    obtain ⟨other, found⟩ := header
    rw [map_cons, nodup_cons] at hnodup
    rw [find?_cons, mem_cons]
    by_cases hname : other = name
    · have hnot : (name, value) ∉ entries := by
        intro hin
        apply hnodup.1
        rw [hname]
        exact mem_map.mpr ⟨(name, value), hin, rfl⟩
      simp [hname, hnot, eq_comm]
    · rw [show (other == name) = false by simpa using hname]
      simp only [ih hnodup.2, Prod.mk.injEq]
      constructor
      · exact Or.inr
      · rintro (⟨heq, -⟩ | hin)
        · exact absurd heq.symm hname
        · exact hin

theorem identityFromHeaders_perm {a b : Headers} (hperm : a.entries.Perm b.entries) :
    identityFromHeaders a = identityFromHeaders b := by
  have hget : ∀ name, a.get name = b.get name := by
    intro name
    apply Option.ext
    intro value
    rw [Headers.get_eq_some_iff, Headers.get_eq_some_iff, hperm.mem_iff]
  unfold identityFromHeaders
  rw [hget, hget, hget, hget]

theorem Produced.withHeaders_perm (hperm : a.headers.Perm b.headers) (entries : Headers) :
    (a.withHeaders entries).headers.Perm (b.withHeaders entries).headers :=
  (hperm.filter _).append_right _

theorem Produced.valued_headerMap {sent : Produced}
    (hvalues : ∀ header ∈ sent.headers, header.2 ≠ none) :
    valued sent.headerMap.entries = sent.headers := by
  have hsame : ∀ header ∈ sent.headers, (header.1, some (header.2.getD [])) = id header := by
    rintro ⟨name, value⟩ hheader
    cases value with
    | none => exact absurd rfl (hvalues (name, none) hheader)
    | some value => rfl
  unfold valued Produced.headerMap
  rw [map_map]
  exact (map_congr_left hsame).trans (map_id _)

/-! ## What a frame gives back -/

namespace FramedMessage

variable {crc headerCrc : Bytes → Fin (2 ^ 32)} {f : FramedMessage}

theorem bytesFit_of_le {field : Option Bytes} {n : ℕ} (hle : Message.bytesLen field ≤ n)
    (hn : n ≤ maxInt32) : bytesFit field = true :=
  fit_of_bytesLen (n := 0) (by omega)

theorem Sized.fits (hsized : f.Sized)
    (hnames : ∀ header ∈ f.sent.headers, header.1.length ≤ 32767) :
    f.sent.fits = true := by
  have hlength := hsized.length
  unfold Produced.encodedLen at hlength
  simp only [Produced.fits, Bool.and_eq_true, all_eq_true, decide_eq_true_eq]
  refine ⟨⟨bytesFit_of_le le_rfl (by omega), bytesFit_of_le le_rfl (by omega)⟩, ?_⟩
  intro header hheader
  have hle := single_le_sum (by simp) _ (mem_map_of_mem (f := fun header : Bytes × Option Bytes =>
      2 + header.1.length + Message.bytesLen header.2) hheader)
  exact ⟨hnames header hheader, bytesFit_of_le le_rfl (by omega)⟩

theorem payload_eq_encode (hfits : f.sent.fits = true) :
    f.sent.encode crc f.order = some (f.payload crc) :=
  if_pos hfits

theorem Sized.readBack (hsized : f.Sized)
    (hnames : ∀ header ∈ f.sent.headers, header.1.length ≤ 32767)
    (hcount : f.sent.headers.length ≤ 65535)
    (hvalues : ∀ header ∈ f.sent.headers, header.2 ≠ none) :
    ∃ msg, CommitLog.readBack (f.payload crc) = some msg ∧ GivesBack f.sent msg := by
  have hlength := hsized.length
  obtain ⟨entries, horder⟩ := valued_of_perm hsized.order hvalues
  have hencode : f.sent.encode crc f.order = some (f.payload crc) :=
    payload_eq_encode (hsized.fits hnames)
  have hperm := hsized.order
  rw [horder] at hencode hperm
  obtain ⟨msg, hread, hback, -, -⟩ :=
    readBack_encode hperm hencode hcount (by omega)
  exact ⟨msg, hread, hback⟩

theorem Sized.values_of_readBack (hsized : f.Sized)
    (hnames : ∀ header ∈ f.sent.headers, header.1.length ≤ 32767)
    (hcount : f.sent.headers.length ≤ 65535) {msg : Message}
    (hread : CommitLog.readBack (f.payload crc) = some msg) :
    ∀ header ∈ f.sent.headers, header.2 ≠ none := by
  have hlength := hsized.length
  have hpayload : (f.payload crc).length = f.sent.encodedLen :=
    hsized.length_payload
  have hcount' := hsized.order.length_eq
  obtain ⟨-, -, -, -, hheaders⟩ := readBack_eq_some_iff.mp hread
  have hsplit : f.payload crc = (putUint 4 (crc (f.sent.body f.order)).val ++
        [f.sent.magicByte, f.sent.attributes]) ++
      (putBytes f.sent.key ++ (putBytes f.sent.value ++
        (putUint 2 f.order.length ++ headerBytes f.order))) := by
    unfold payload Produced.body
    rw [hcount']
    simp only [append_assoc]
  have hstart : (putUint 4 (crc (f.sent.body f.order)).val ++
      [f.sent.magicByte, f.sent.attributes]).length = 6 := by
    simp
  generalize putUint 4 (crc (f.sent.body f.order)).val ++
    [f.sent.magicByte, f.sent.attributes] = start at hsplit hstart
  rw [hsplit] at hheaders hpayload
  simp only [length_append, length_putBytes, length_putUint, hstart] at hpayload
  rw [headers_eq_headersLoop hstart (by omega) (by omega)] at hheaders
  intro header hheader
  refine values_of_headersLoop ?_ ?_ hheaders header (hsized.order.mem_iff.mpr hheader)
  · intro other hother
    exact hnames other (hsized.order.mem_iff.mp hother)
  · simp only [length_append, length_putBytes, length_putUint, hstart]
    omega

theorem encodedLen_congr (hkey : a.key = b.key) (hvalue : a.value = b.value)
    (hheaders : a.headers.Perm b.headers) : a.encodedLen = b.encodedLen := by
  unfold Produced.encodedLen
  rw [hkey, hvalue, (hheaders.map _).sum_eq]

theorem same_iff {g : FramedMessage} (hf : f.Sized) (hg : g.Sized)
    (hnames : ∀ header ∈ f.sent.headers, header.1.length ≤ 32767)
    (hcount : f.sent.headers.length ≤ 32767) (hvalues : ∀ header ∈ f.sent.headers, header.2 ≠ none)
    (hoffset : f.offset = g.offset) (hepoch : f.leaderEpoch = g.leaderEpoch)
    (hkey : f.sent.key = g.sent.key) (hvalue : f.sent.value = g.sent.value)
    (hheaders : f.sent.headers.Perm g.sent.headers) :
    (∃ a b, (CommitLog.readBack (f.payload crc)).map (fun msg =>
          (f.read crc, msg)) = some a ∧
        (CommitLog.readBack (g.payload crc)).map (fun msg =>
          (g.read crc, msg)) = some b ∧ SameRecord a b) ↔
      f.timestamp = g.timestamp ∧ f.sent.attributes = g.sent.attributes := by
  have hnames' : ∀ header ∈ g.sent.headers, header.1.length ≤ 32767 :=
    fun header hheader => hnames header (hheaders.mem_iff.mpr hheader)
  have hvalues' : ∀ header ∈ g.sent.headers, header.2 ≠ none :=
    fun header hheader => hvalues header (hheaders.mem_iff.mpr hheader)
  have hcount' := hheaders.length_eq
  obtain ⟨msg, hread, hback⟩ := hf.readBack hnames (by omega) hvalues
  obtain ⟨msg', hread', hback'⟩ := hg.readBack hnames' (by omega) hvalues'
  rw [hread, hread']
  simp only [Option.map_some, Option.some.injEq, exists_eq_left', ↓existsAndEq, true_and]
  constructor
  · intro hsame
    constructor
    · exact BitVec.toInt_inj.mp hsame.timestamp
    · rw [← hback.attributes, ← hback'.attributes]
      exact hsame.attributes
  · rintro ⟨htimestamp, hattributes⟩
    have hperm : msg.headers.entries.Perm msg'.headers.entries := by
      apply (map_perm_map_iff valued_injective).mp
      exact hback.headers.trans (hheaders.trans hback'.headers.symm)
    constructor
    · exact congrArg BitVec.toInt hoffset
    · exact congrArg BitVec.toInt htimestamp
    · exact congrArg BitVec.toNat hepoch
    · rw [hback.attributes, hback'.attributes, hattributes]
    · rw [hback.key, hback'.key, hkey]
    · rw [hback.value, hback'.value, hvalue]
    · exact hperm
    · exact identityFromHeaders_perm hperm

end FramedMessage

/-! ## The blocks -/

namespace BlockEnv

variable {env : BlockEnv}

theorem readBlock_appendBlock (ms : Bytes) (records : ℕ) :
    env.readBlock (env.appendBlock ms records) = some ms := by
  have hdrop : (env.appendBlock ms records).bytes.drop 15 =
      (env.comp.pack (env.codecFor ms) ms).2 := by
    apply drop_left'
    rw [length_putWords]
    rfl
  rw [readBlock, hdrop]
  change Option.filter _ (env.comp.decompress (env.comp.pack (env.codecFor ms) ms).1 _) = _
  rw [env.comp.decompress_pack]
  simp [appendBlock]

theorem reopenBlock_appendBlock {ms : Bytes} {records : ℕ} (hms : ms.length < 2 ^ 32)
    (hpos : 0 < records) (hrecords : records < 2 ^ 32) :
    reopenBlock (env.appendBlock ms records) = some (env.appendBlock ms records) := by
  have hpack := env.comp.length_pack_le (env.codecFor ms) ms
  have hvalid := env.comp.valid_pack (env.codecFor ms) ms
  obtain ⟨packed, hpacked⟩ : ∃ packed, env.comp.pack (env.codecFor ms) ms = packed := ⟨_, rfl⟩
  have hword : ∀ i place width v, [(1, 0xC1), (1, 2), (1, packed.1.val), (4, ms.length),
        (4, packed.2.length), (4, records)][i]? = some (width, v) →
      wordOffset [(1, 0xC1), (1, 2), (1, packed.1.val), (4, ms.length),
        (4, packed.2.length), (4, records)] i = place →
      uintIn (env.appendBlock ms records).bytes place width = v % 256 ^ width := by
    intro i place width v hget hat
    rw [appendBlock, hpacked]
    exact uintIn_putWords hget hat _
  have hlength : (env.appendBlock ms records).bytes.length = 15 + packed.2.length := by
    rw [appendBlock, hpacked, length_append, length_putWords]
    rfl
  rw [hpacked] at hpack hvalid
  have hcodec := hword 2 2 1 packed.1.val rfl rfl
  have hlt := packed.1.isLt
  rw [Nat.mod_eq_of_lt (by omega)] at hcodec
  have hulen := hword 3 3 4 ms.length rfl rfl
  rw [Nat.mod_eq_of_lt (by omega)] at hulen
  have hclen := hword 4 7 4 packed.2.length rfl rfl
  rw [Nat.mod_eq_of_lt (by omega)] at hclen
  have hcount := hword 5 11 4 records rfl rfl
  rw [Nat.mod_eq_of_lt (by omega)] at hcount
  have hfin : (Fin.ofNat 256 packed.1.val : CodecByte) = packed.1 := by
    apply Fin.ext
    rw [Fin.val_ofNat, Nat.mod_eq_of_lt hlt]
  rw [reopenBlock, hlength, hcodec, hulen, hclen, hcount, hfin,
    hword 0 0 1 0xC1 rfl rfl, hword 1 1 1 2 rfl rfl, if_neg (by
      simp [hvalid]
      omega),
    take_of_length_le hlength.le, appendBlock, hpacked]

end BlockEnv

/-! ## Batches -/

structure FollowsRules (msgs : List BatchMessage) : Prop where
  nonempty : msgs ≠ []
  names : ∀ m ∈ msgs, ∀ header ∈ m.sent.headers, header.1 ∉ identityNames
  timestamps : ∃ t, ∀ m ∈ msgs, m.timestamp = 0 ∨ m.timestamp = t
  epochs : ∀ a ∈ msgs, ∀ b ∈ msgs, a.leaderEpoch = b.leaderEpoch
  kinds : ∀ a ∈ msgs, ∀ b ∈ msgs, hasAttribute a.sent.attributes attrControl =
      hasAttribute b.sent.attributes attrControl

variable {msgs : List BatchMessage}

theorem FollowsRules.carriesIdentity_eq
    (hrules : FollowsRules msgs) : carriesIdentity msgs = false := by
  rw [carriesIdentity, any_eq_false]
  intro m hm hany
  obtain ⟨header, hheader, hname⟩ := any_eq_true.mp hany
  exact hrules.names m hm header hheader (by simpa using hname)

theorem checkUniform_spec {t : BitVec 64} (hstamp : stamp = 0 ∨ stamp = t)
    (htimestamps : ∀ m ∈ msgs, m.timestamp = 0 ∨ m.timestamp = t)
    (hepochs : ∀ m ∈ msgs, m.leaderEpoch = epoch)
    (hkinds : ∀ m ∈ msgs, hasAttribute m.sent.attributes attrControl = control) :
    ∃ found, checkUniform epoch control stamp msgs = some found ∧ (stamp ≠ 0 → found = stamp) ∧
      (∀ m ∈ msgs, m.timestamp ≠ 0 → m.timestamp = found) ∧
      (found ≠ 0 → found = stamp ∨ ∃ m ∈ msgs, m.timestamp = found) := by
  induction msgs generalizing stamp with
  | nil => exact ⟨stamp, rfl, fun _ => rfl, by simp, fun _ => Or.inl rfl⟩
  | cons m msgs ih =>
    have hm := htimestamps m mem_cons_self
    have hclash : ¬(m.timestamp ≠ 0 ∧ stamp ≠ 0 ∧ m.timestamp ≠ stamp) := by
      rintro ⟨hset, hother, hne⟩
      apply hne
      rw [hm.resolve_left hset, hstamp.resolve_left hother]
    rw [checkUniform, if_neg hclash, if_neg (not_not.mpr (hepochs m mem_cons_self)),
      if_neg (not_not.mpr (hkinds m mem_cons_self))]
    have hnext : (if m.timestamp ≠ 0 then m.timestamp else stamp) = 0 ∨
        (if m.timestamp ≠ 0 then m.timestamp else stamp) = t := by
      split_ifs
      · exact hm
      · exact hstamp
    obtain ⟨found, hfound, hkeeps, hall, hfrom⟩ := ih hnext
      (fun a ha => htimestamps a (mem_cons_of_mem _ ha))
      (fun a ha => hepochs a (mem_cons_of_mem _ ha))
      (fun a ha => hkinds a (mem_cons_of_mem _ ha))
    refine ⟨found, hfound, ?_, ?_, ?_⟩
    · intro hset
      by_cases hzero : m.timestamp = 0
      · rw [if_neg (not_not.mpr hzero)] at hkeeps
        exact hkeeps hset
      · rw [if_pos hzero] at hkeeps
        rw [hkeeps hzero, hm.resolve_left hzero, hstamp.resolve_left hset]
    · intro a ha hset
      rcases mem_cons.mp ha with rfl | ha
      · rw [if_pos hset] at hkeeps
        exact (hkeeps hset).symm
      · exact hall a ha hset
    · intro hset
      rcases hfrom hset with heq | ⟨a, ha, heq⟩
      · by_cases hzero : m.timestamp = 0
        · rw [if_neg (not_not.mpr hzero)] at heq
          exact Or.inl heq
        · rw [if_pos hzero] at heq
          exact Or.inr ⟨m, mem_cons_self, heq.symm⟩
      · exact Or.inr ⟨a, mem_cons_of_mem _ ha, heq⟩

namespace BatchCall

variable {env : BlockEnv} {call : BatchCall}

/-! ### Messages under an identity -/

theorem stamped_perm (hperm : a.headers.Perm b.headers) (identity : ProducerIdentity) (i : ℕ) :
    (identity.stamped i a).headers.Perm (identity.stamped i b).headers := by
  unfold ProducerIdentity.stamped
  split
  · exact hperm
  · exact Produced.withHeaders_perm hperm _

theorem key_stamped (identity : ProducerIdentity) (i : ℕ) (sent : Produced) :
    (identity.stamped i sent).key = sent.key := by
  unfold ProducerIdentity.stamped
  split <;> rfl

theorem value_stamped (identity : ProducerIdentity) (i : ℕ) (sent : Produced) :
    (identity.stamped i sent).value = sent.value := by
  unfold ProducerIdentity.stamped
  split <;> rfl

theorem attributes_stamped (identity : ProducerIdentity) (i : ℕ) (sent : Produced) :
    (identity.stamped i sent).attributes = sent.attributes := by
  unfold ProducerIdentity.stamped
  split <;> rfl

variable {identity : ProducerIdentity}

theorem mem_headersAt {header : Bytes × Option Bytes}
    (hheader : header ∈ valued (identity.headersAt i).entries) :
    header.1 ∈ identityNames ∧ header.1.length ≤ 32767 ∧ header.2 ≠ none := by
  obtain ⟨entry, hentry, rfl⟩ := mem_map.mp hheader
  have hname : entry.1 ∈ identityNames := by
    unfold ProducerIdentity.headersAt identityMap at hentry
    split_ifs at hentry <;>
      · simp only [Option.toList_none, Option.toList_some, map_nil,
          map_cons, append_nil, cons_append, nil_append,
          mem_cons, not_mem_nil, or_false] at hentry
        rcases hentry with rfl | rfl | rfl | rfl <;> simp [identityNames]
  refine ⟨hname, ?_, by simp⟩
  have hshort : ∀ name ∈ identityNames, name.length ≤ 32767 := by
    decide
  exact hshort _ hname

theorem forall_mem_stamped {sent : Produced} {P : Bytes × Option Bytes → Prop}
    (hnames : ∀ header ∈ sent.headers, header.1 ∉ identityNames)
    (hidentity : ∀ header, header.1 ∈ identityNames →
      header.1.length ≤ 32767 → header.2 ≠ none → P header) :
    (∀ header ∈ (identity.stamped i sent).headers, P header) ↔
      ∀ header ∈ sent.headers, P header := by
  unfold ProducerIdentity.stamped
  split
  · rfl
  · constructor
    · intro hall header hheader
      apply hall
      apply mem_append_left
      rw [mem_filter]
      refine ⟨hheader, ?_⟩
      simp only [Bool.not_eq_eq_eq_not, Bool.not_true, contains_eq_mem, decide_eq_false_iff_not]
      intro htaken
      obtain ⟨entry, hentry, heq⟩ := mem_map.mp htaken
      apply hnames header hheader
      have hin : (entry.1, some entry.2) ∈
          valued (identity.headersAt i).entries := mem_map_of_mem hentry
      rw [← heq]
      exact (mem_headersAt hin).1
    · intro hall header hheader
      rcases mem_append.mp hheader with hkept | hadded
      · exact hall header (mem_filter.mp hkept).1
      · obtain ⟨hname, hshort, hvalue⟩ := mem_headersAt hadded
        exact hidentity header hname hshort hvalue

/-! ### The frames of a block -/

theorem zipIdx_map_zipIdx {α β : Type*} (items : List α) (g : α × ℕ → β) :
    (items.zipIdx.map g).zipIdx = items.zipIdx.map fun m => (g m, m.2) := by
  apply ext_getElem?
  intro i
  simp only [getElem?_zipIdx, getElem?_map, Option.map_map]
  cases items[i]? with
  | none => rfl
  | some a => simp

def frameOf (h : BlockHeader) (m : BatchMessage × ℕ) (r : Produced) :
    FramedMessage :=
  ⟨h.baseOffset + (BitVec.ofNat 32 m.2).setWidth 64, h.baseTimestamp,
    h.leaderEpoch, h.messageAt m.2 r, sortedHeaders (h.messageAt m.2 r).headers⟩

theorem frames_map (h : BlockHeader) (msgs : List BatchMessage) (d : BatchMessage × ℕ → Produced) :
    h.frames (msgs.zipIdx.map fun m => (BitVec.ofNat 32 m.2, d m)) =
      msgs.zipIdx.map fun m => frameOf h m (d m) := by
  rw [BlockHeader.frames, zipIdx_map_zipIdx, map_map]
  rfl

structure Draws (m : BatchMessage × ℕ) (r : Produced) : Prop where
  attributes : r.attributes &&& attrTombstone = m.1.sent.attributes &&& attrTombstone
  key : r.key = m.1.sent.key
  value : r.value = m.1.sent.value
  headers : r.headers.Perm m.1.sent.headers

theorem draws_self (m : BatchMessage × ℕ) : Draws m m.1.sent :=
  ⟨rfl, rfl, rfl, Perm.refl _⟩

theorem tombstone_idem : ∀ a : Byte,
    (a &&& attrTombstone) &&& attrTombstone = a &&& attrTombstone := by
  decide +kernel

theorem draws_record (hvalues : ∀ header ∈ m.1.sent.headers, header.2 ≠ none) :
    Draws m (m.1.record m.2).sorted.produced.2 := by
  constructor
  · exact tombstone_idem m.1.sent.attributes
  · rfl
  · rfl
  · have hsorted := m.1.sent.headerMap.entries_sorted_perm.map
      fun header : Bytes × Bytes => (header.1, some header.2)
    have hvalued := Produced.valued_headerMap hvalues
    rw [← hvalued]
    exact hsorted

section Header

variable {stamp epoch : BitVec 64} {control : Bool}

theorem flags_spec : ∀ control transactional stripped : Bool,
    let flags := (if control then flagControl else 0) |||
      (if transactional = true then flagTransactional else 0) |||
      (if stripped then flagStripped else 0)
    decide (flags &&& flagControl ≠ 0) = control ∧
      decide (flags &&& flagTransactional ≠ 0) = transactional ∧
      decide (flags &&& flagStripped ≠ 0) = stripped := by
  decide

theorem hasFlag_header : (call.header env stamp epoch control).hasFlag flagControl = control ∧
      (call.header env stamp epoch control).hasFlag flagTransactional =
        decide (call.identity.nonce ≠ 0) ∧
      (call.header env stamp epoch control).hasFlag flagStripped =
        call.identity.isNone := by
  have hspec := flags_spec control (decide (call.identity.nonce ≠ 0)) call.identity.isNone
  simp only [decide_eq_true_eq] at hspec
  exact hspec

theorem headers_messageAt (i : ℕ) (r : Produced) :
    ((call.header env stamp epoch control).messageAt i r).headers =
      (call.identity.stamped i r).headers := by
  obtain ⟨-, htransactional, hstripped⟩ :=
    @hasFlag_header env call stamp epoch control
  unfold BlockHeader.messageAt ProducerIdentity.stamped
  simp only [htransactional, hstripped]
  split
  · rfl
  · unfold ProducerIdentity.headersAt
    by_cases hnonce : call.identity.nonce = 0 <;> simp [hnonce] <;> rfl

theorem key_messageAt (h : BlockHeader) (i : ℕ) (r : Produced) : (h.messageAt i r).key = r.key := by
  unfold BlockHeader.messageAt
  split <;> rfl

theorem value_messageAt (h : BlockHeader) (i : ℕ) (r : Produced) :
    (h.messageAt i r).value = r.value := by
  unfold BlockHeader.messageAt
  split <;> rfl

theorem attributes_messageAt (i : ℕ) (r : Produced) :
    ((call.header env stamp epoch control).messageAt i r).attributes =
      (if control then attrControl else 0) ||| (r.attributes &&& attrTombstone) := by
  obtain ⟨hcontrol, -, -⟩ := @hasFlag_header env call stamp epoch control
  unfold BlockHeader.messageAt
  simp only [hcontrol]

variable {m : BatchMessage × ℕ} {r : Produced}

theorem Draws.headers_frameOf (hdraws : Draws m r) :
    (frameOf (call.header env stamp epoch control) m r).sent.headers.Perm
      (call.stampedAt m).headers := by
  change ((call.header env stamp epoch control).messageAt m.2 r).headers.Perm _
  rw [headers_messageAt]
  exact stamped_perm hdraws.headers call.identity m.2

theorem Draws.encodedLen_frameOf (hdraws : Draws m r) :
    (frameOf (call.header env stamp epoch control) m r).sent.encodedLen =
      (call.stampedAt m).encodedLen := by
  apply FramedMessage.encodedLen_congr
  · rw [stampedAt, key_stamped, ← hdraws.key]
    exact key_messageAt _ _ _
  · rw [stampedAt, value_stamped, ← hdraws.value]
    exact value_messageAt _ _ _
  · exact hdraws.headers_frameOf

theorem Draws.sized_frameOf (hdraws : Draws m r)
    (hlength : msgSetHeaderLen + (call.stampedAt m).encodedLen ≤ maxInt32) :
    (frameOf (call.header env stamp epoch control) m r).Sized := by
  constructor
  · exact perm_insertionSort _ _
  · rw [hdraws.encodedLen_frameOf]
    exact hlength

theorem Draws.countable_frameOf (hdraws : Draws m r) :
    (frameOf (call.header env stamp epoch control) m r).countable = true ↔
      (call.stampedAt m).headers.length ≤ 32767 ∧
        ∀ header ∈ (call.stampedAt m).headers, header.1.length ≤ 32767 := by
  have hperm := @Draws.headers_frameOf env call stamp epoch control m r hdraws
  rw [FramedMessage.countable, hperm.length_eq, hperm.all_eq]
  simp

end Header

/-! ### Offsets -/

theorem toInt_offset (hi : i < 2 ^ 32) (next : BitVec 64) : (BitVec.ofNat 64 i + next).toInt =
      if next.toInt + i < 2 ^ 63 then next.toInt + i
      else next.toInt + i - 2 ^ 64 := by
  have hlow := BitVec.le_toInt next
  have hhigh := BitVec.toInt_lt (x := next)
  have hword : (BitVec.ofNat 64 i).toInt = i := by
    rw [BitVec.toInt_eq_toNat_of_lt] <;> rw [BitVec.toNat_ofNat] <;> omega
  rw [BitVec.toInt_add, hword, Int.bmod_def]
  split_ifs <;> omega

theorem offsets_rise_iff {next : BitVec 64} {n : ℕ} (hn : n < 2 ^ 32) (hpos : 0 < n) :
    ((range n).Pairwise fun i j =>
        (BitVec.ofNat 64 i + next).toInt < (BitVec.ofNat 64 j + next).toInt) ↔
      next.toInt + n ≤ 2 ^ 63 := by
  have hlow := BitVec.le_toInt next
  have hhigh := BitVec.toInt_lt (x := next)
  rw [pairwise_iff_getElem]
  simp only [getElem_range, length_range]
  constructor
  · intro hrise
    by_contra hover
    -- the offset behind the largest one is the smallest
    obtain ⟨j, hj⟩ : ∃ j : ℕ, next.toInt + j = 2 ^ 63 - 1 :=
      ⟨(2 ^ 63 - 1 - next.toInt).toNat, by omega⟩
    have hpair := hrise j (j + 1) (by omega) (by omega) (by omega)
    rw [toInt_offset (by omega), toInt_offset (by omega), if_pos (by omega),
      if_neg (by omega)] at hpair
    omega
  · intro hroom i j hi hj hij
    rw [toInt_offset (by omega), toInt_offset (by omega), if_pos (by omega), if_pos (by omega)]
    omega

theorem toInt_pred_lt_iff (next : BitVec 64) :
    (next - 1).toInt < next.toInt ↔ next ≠ BitVec.intMin 64 := by
  have hlow := BitVec.le_toInt next
  have hhigh := BitVec.toInt_lt (x := next)
  have hmin : (BitVec.intMin 64).toInt = -2 ^ 63 := by decide
  have hone : (1 : BitVec 64).toInt = 1 := by decide
  rw [ne_eq, ← BitVec.toInt_inj, hmin, BitVec.toInt_sub, hone, Int.bmod_def]
  split_ifs <;> omega

theorem offset_frameOf (hm : m.2 < 2 ^ 32) (r : Produced) :
    (frameOf (call.header env stamp epoch control) m r).offset =
      BitVec.ofNat 64 m.2 + call.next := by
  have hword : (BitVec.ofNat 32 m.2).setWidth 64 = BitVec.ofNat 64 m.2 := by
    apply BitVec.eq_of_toNat_eq
    rw [BitVec.toNat_setWidth, BitVec.toNat_ofNat, BitVec.toNat_ofNat]
    omega
  change call.next + (BitVec.ofNat 32 m.2).setWidth 64 = _
  rw [hword, BitVec.add_comm]

theorem pairwise_zipIdx_iff {α : Type*} {R : ℕ → ℕ → Prop} (items : List α) :
    (items.zipIdx.Pairwise fun a b => R a.2 b.2) ↔ (range items.length).Pairwise R := by
  rw [← pairwise_map (f := Prod.snd), zipIdx_map_snd, range_eq_range']

/-! ### What both logs hold -/

theorem mem_lt (hm : m ∈ call.msgs.zipIdx) : m.2 < call.msgs.length := by
  obtain ⟨-, hlt, -⟩ := mem_zipIdx hm
  omega

/-- No length of the batch passes what its field holds: the frames, the set in
one version-2 block, and the records in a version-3 block. -/
structure Fits32 (call : BatchCall) : Prop where
  frames : ∀ m ∈ call.msgs.zipIdx, msgSetHeaderLen + (call.stampedAt m).encodedLen ≤ maxInt32
  set : (call.msgs.zipIdx.map fun m =>
    msgSetHeaderLen + (call.stampedAt m).encodedLen).sum < 2 ^ 32
  records : (encodeRecords call.records).length < 2 ^ 32

theorem Fits32.length_lt (hfits : call.Fits32) : call.msgs.length < 2 ^ 32 := by
  have hle := length_le_encodeRecords call.records
  have hlt := hfits.records
  have hcount : call.records.length = call.msgs.length := by
    rw [BatchCall.records, length_map, length_zipIdx]
  omega

def setBytes (env : BlockEnv) (call : BatchCall)
    (order : ℕ → List (Bytes × Option Bytes)) : Bytes :=
  (call.frames order).flatMap (FramedMessage.bytes env.crc env.headerCrc)

section Order

variable {order : ℕ → List (Bytes × Option Bytes)}

theorem Fits32.sized_frames (hfits : call.Fits32)
    (horder : ∀ m ∈ call.msgs.zipIdx, (order m.2).Perm (call.stampedAt m).headers) :
    ∀ f ∈ call.frames order, f.Sized := by
  intro f hf
  obtain ⟨m, hm, rfl⟩ := mem_map.mp hf
  exact ⟨horder m hm, hfits.frames m hm⟩

theorem Fits32.length_setBytes (hfits : call.Fits32)
    (horder : ∀ m ∈ call.msgs.zipIdx, (order m.2).Perm (call.stampedAt m).headers) :
    (call.setBytes env order).length < 2 ^ 32 := by
  rw [setBytes, FramedMessage.length_flatMap_bytes (hfits.sized_frames horder),
    BatchCall.frames, map_map]
  exact hfits.set

end Order

theorem encodeV3Block_spec {recs : List BlockRecord} (hne : recs ≠ [])
    (hshort : (encodeRecords recs).length < 2 ^ 32) (h : BlockHeader) :
    ∃ block stored, env.encodeV3Block h recs = some block ∧
      decodeHeader env.blockCrc block = .ok stored ∧
      block.length = 76 + stored.compressedLen.toNat ∧
      env.decodeV3Block block = env.synthesizeFraming h (recs.map fun r => r.sorted.produced) := by
  have hdescribes := @describes_filled env.blockCrc env.comp recs hne hshort
    { h with codec := if (encodeRecords recs).length < 4096 then 0
      else h.codec }
  have hdecode := hdescribes.decodeBlock
  refine ⟨_, _, encodeBlock_eq hne _,
    decodeHeader_encodeHeader hdescribes.codec hdescribes.records _, ?_, ?_⟩
  · rw [length_append, length_encodeHeader, hdescribes.compressedLen]
  · rw [BlockEnv.decodeV3Block, hdecode]
    simp only [map_map]
    rfl

theorem readV3Block_spec {block : Bytes} {stored : BlockHeader}
    (hheader : decodeHeader env.blockCrc block = .ok stored)
    (hlength : block.length = 76 + stored.compressedLen.toNat) {framing : Option Bytes}
    (hdecode : env.decodeV3Block block = framing) (codec : CodecByte) (logicalLen : ℕ) :
    env.readV3Block ⟨block, codec, logicalLen⟩ =
        framing.filter (fun data => decide (data.length = logicalLen)) ∧
      (env.reopenV3Block ⟨block, codec, logicalLen⟩).bind env.readV3Block =
        framing := by
  constructor
  · rw [BlockEnv.readV3Block, hdecode]
  · rw [BlockEnv.reopenV3Block, hheader]
    simp only
    rw [if_neg (by omega), take_of_length_le (by omega), hdecode]
    cases framing with
    | none => rfl
    | some data =>
      rw [Option.map_some, Option.bind_some, BlockEnv.readV3Block]
      simp only [hdecode]
      simp

theorem appendV3_eq (hrules : FollowsRules call.msgs) (hfits : call.Fits32) :
    ∃ stamp epoch control h block stored,
      h = call.header env (if stamp = 0 then call.clock else stamp) epoch control ∧
      (∀ m ∈ call.msgs, m.timestamp ≠ 0 → m.timestamp = stamp) ∧
      (stamp ≠ 0 → ∃ m ∈ call.msgs, m.timestamp = stamp) ∧
      (∀ m ∈ call.msgs, m.leaderEpoch = epoch) ∧
      (∀ m ∈ call.msgs, hasAttribute m.sent.attributes attrControl = control) ∧
      decodeHeader env.blockCrc block = .ok stored ∧
      block.length = 76 + stored.compressedLen.toNat ∧
      env.decodeV3Block block = env.synthesizeFraming h
        (call.records.map fun r => r.sorted.produced) ∧
      call.appendV3 env = (env.synthesizeFraming h call.drafts).bind fun logical =>
          if checkAppendedEntries (call.next - 1).toInt
              (entriesForMessageSet logical) logical.length then
            some ((entriesForMessageSet logical).map SetFrame.offset,
              ⟨block, stored.codec, logical.length⟩)
          else none := by
  have hcarries := hrules.carriesIdentity_eq
  obtain ⟨first, rest, hmsgs⟩ := exists_cons_of_ne_nil hrules.nonempty
  have hfirst : first ∈ call.msgs := by
    rw [hmsgs]
    exact mem_cons_self
  have hepochs : ∀ m ∈ call.msgs, m.leaderEpoch = first.leaderEpoch :=
    fun m hm => hrules.epochs m hm first hfirst
  have hkinds : ∀ m ∈ call.msgs, hasAttribute m.sent.attributes attrControl =
      hasAttribute first.sent.attributes attrControl :=
    fun m hm => hrules.kinds m hm first hfirst
  obtain ⟨t, htimestamps⟩ := hrules.timestamps
  obtain ⟨stamp, hcheck, -, hall, hfrom⟩ :=
    checkUniform_spec (Or.inl rfl) htimestamps hepochs hkinds
  have hrecords : call.records ≠ [] := by
    rw [records, hmsgs]
    simp
  obtain ⟨block, stored, hencode, hdecode, hlength, hread⟩ :=
    @encodeV3Block_spec env call.records hrecords hfits.records
      (call.header env (if stamp = 0 then call.clock else stamp)
        first.leaderEpoch (hasAttribute first.sent.attributes attrControl))
  refine ⟨stamp, first.leaderEpoch, _, _, block, stored, rfl, hall,
    fun hset => (hfrom hset).resolve_left hset, hepochs, hkinds, hdecode,
    hlength, hread, ?_⟩
  unfold appendV3
  split
  · rename_i hnil
    rw [hmsgs] at hnil
    cases hnil
  · rename_i first' rest' hmsgs'
    rw [hmsgs] at hmsgs'
    cases hmsgs'
    rw [hcarries, if_neg Bool.false_ne_true]
    simp only [hcheck, Option.bind_some]
    rw [hencode, Option.bind_some, writeV3, hdecode]

/-! ### Reading both -/

variable {F : BatchMessage × ℕ → FramedMessage} {items : List (BatchMessage × ℕ)}

theorem records_flatMap (hsized : ∀ m ∈ items, (F m).Sized) :
    env.records ((items.map F).flatMap (FramedMessage.bytes env.crc env.headerCrc)) =
      items.mapM fun m => (readBack ((F m).payload env.crc)).map
        fun msg => ((F m).read env.crc, msg) := by
  have hall : ∀ f ∈ items.map F, f.Sized := by
    intro f hf
    obtain ⟨m, hm, rfl⟩ := mem_map.mp hf
    exact hsized m hm
  rw [BlockEnv.records, FramedMessage.readMessages_flatMap hall,
    Option.bind_some, map_map, mapM_map]
  rfl

theorem readSame_iff {G : BatchMessage × ℕ → FramedMessage}
    (hF : ∀ m ∈ items, (F m).Sized) (hG : ∀ m ∈ items, (G m).Sized) :
    env.ReadSame (some ((items.map F).flatMap (FramedMessage.bytes env.crc env.headerCrc)))
        (some ((items.map G).flatMap (FramedMessage.bytes env.crc env.headerCrc))) ↔
      ∀ m ∈ items, ∃ a b, (readBack ((F m).payload env.crc)).map
          (fun msg => ((F m).read env.crc, msg)) = some a ∧
        (readBack ((G m).payload env.crc)).map (fun msg => ((G m).read env.crc, msg)) = some b ∧
        SameRecord a b := by
  rw [BlockEnv.ReadSame, Option.bind_some, Option.bind_some, records_flatMap hF, records_flatMap hG]
  exact mapM_forall₂_iff

theorem attributes_kept : ∀ a : Byte,
    a = (if hasAttribute a attrControl then attrControl else 0) |||
        (a &&& attrTombstone) ↔ a.val < 4 := by
  decide +kernel

def LongName (call : BatchCall) : Prop :=
  ∃ m ∈ call.msgs, ∃ header ∈ m.sent.headers, 32767 < header.1.length

/-- What the two formats need in order to agree: attributes of the two bits a
version-3 block knows, values for all headers, no more headers than 15 bits
count, no message without a timestamp beside one with another timestamp than
the clock's, and room for the offsets. -/
structure Agrees (call : BatchCall) : Prop where
  attributes : ∀ m ∈ call.msgs, m.sent.attributes.val < 4
  values : ∀ m ∈ call.msgs, ∀ header ∈ m.sent.headers, header.2 ≠ none
  count : ∀ m ∈ call.msgs.zipIdx, (call.stampedAt m).headers.length ≤ 32767
  stamps : ∀ a ∈ call.msgs, ∀ b ∈ call.msgs, a.timestamp = 0 →
    b.timestamp ≠ 0 → b.timestamp = call.clock
  first : call.next ≠ BitVec.intMin 64
  room : call.next.toInt + call.msgs.length ≤ 2 ^ 63

theorem forall_mem_zipIdx {P : BatchMessage → Prop} :
    (∀ m ∈ call.msgs.zipIdx, P m.1) ↔ ∀ m ∈ call.msgs, P m := by
  have hmap : call.msgs.zipIdx.map Prod.fst = call.msgs :=
    zipIdx_map_fst 0 call.msgs
  constructor
  · intro hall m hm
    rw [← hmap] at hm
    obtain ⟨item, hitem, rfl⟩ := mem_map.mp hm
    exact hall item hitem
  · intro hall m hm
    exact hall m.1 (fst_mem_of_mem_zipIdx hm)

theorem names_iff (hrules : FollowsRules call.msgs) :
    (∀ m ∈ call.msgs.zipIdx, ∀ header ∈ (call.stampedAt m).headers,
        header.1.length ≤ 32767) ↔ ¬ call.LongName := by
  have hone : ∀ m ∈ call.msgs.zipIdx,
      (∀ header ∈ (call.stampedAt m).headers, header.1.length ≤ 32767) ↔
        ∀ header ∈ m.1.sent.headers, header.1.length ≤ 32767 :=
    fun m hm => forall_mem_stamped (hrules.names m.1 (fst_mem_of_mem_zipIdx hm))
      (fun header _ hshort _ => hshort)
  rw [forall₂_congr hone, forall_mem_zipIdx
    (P := fun m => ∀ header ∈ m.sent.headers, header.1.length ≤ 32767)]
  simp only [LongName, not_exists, not_and, not_lt]

def framing (env : BlockEnv) (call : BatchCall) (h : BlockHeader)
    (d : BatchMessage × ℕ → Produced) : Bytes :=
  (call.msgs.zipIdx.map fun m => frameOf h m (d m)).flatMap
    (FramedMessage.bytes env.crc env.headerCrc)

section Framing

variable {stamp epoch : BitVec 64} {control : Bool} {d : BatchMessage × ℕ → Produced}

theorem synthesizeFraming_eq_some_iff
    (hdraws : ∀ m ∈ call.msgs.zipIdx, Draws m (d m)) {logical : Bytes} :
    env.synthesizeFraming (call.header env stamp epoch control)
        (call.msgs.zipIdx.map fun m => (BitVec.ofNat 32 m.2, d m)) =
        some logical ↔
      (∀ m ∈ call.msgs.zipIdx, (call.stampedAt m).headers.length ≤ 32767 ∧
        ∀ header ∈ (call.stampedAt m).headers, header.1.length ≤ 32767) ∧
      call.framing env (call.header env stamp epoch control) d = logical := by
  have hall : ((call.msgs.zipIdx.map fun m => frameOf
      (call.header env stamp epoch control) m (d m)).all FramedMessage.countable = true) ↔
      ∀ m ∈ call.msgs.zipIdx, (call.stampedAt m).headers.length ≤ 32767 ∧
        ∀ header ∈ (call.stampedAt m).headers, header.1.length ≤ 32767 := by
    rw [all_map, all_eq_true]
    exact forall₂_congr fun m hm => (hdraws m hm).countable_frameOf
  rw [BlockEnv.synthesizeFraming, frames_map, ← hall]
  simp only [Option.ite_none_right_eq_some, Option.some.injEq]
  rfl

theorem Fits32.sized_frameOf (hfits : call.Fits32)
    (hdraws : ∀ m ∈ call.msgs.zipIdx, Draws m (d m)) :
    ∀ m ∈ call.msgs.zipIdx, (frameOf (call.header env stamp epoch control) m (d m)).Sized :=
  fun m hm => (hdraws m hm).sized_frameOf (hfits.frames m hm)

theorem Fits32.sized_drawn (hfits : call.Fits32) (hdraws : ∀ m ∈ call.msgs.zipIdx, Draws m (d m)) :
    ∀ f ∈ call.msgs.zipIdx.map fun m => frameOf (call.header env stamp epoch control) m (d m),
      f.Sized := by
  intro f hf
  obtain ⟨m, hm, rfl⟩ := mem_map.mp hf
  exact hfits.sized_frameOf hdraws m hm

theorem Fits32.length_framing (hfits : call.Fits32)
    (hdraws : ∀ m ∈ call.msgs.zipIdx, Draws m (d m)) :
    (call.framing env (call.header env stamp epoch control) d).length =
      (call.msgs.zipIdx.map fun m =>
        msgSetHeaderLen + (call.stampedAt m).encodedLen).sum := by
  have hsized := @Fits32.sized_drawn env call stamp epoch control d hfits hdraws
  rw [framing, FramedMessage.length_flatMap_bytes hsized, map_map]
  apply congrArg
  apply map_congr_left
  intro m hm
  exact congrArg _ (hdraws m hm).encodedLen_frameOf

theorem Fits32.offsets_framing (hfits : call.Fits32)
    (hdraws : ∀ m ∈ call.msgs.zipIdx, Draws m (d m)) (order : ℕ → List (Bytes × Option Bytes)) :
    (entriesForMessageSet (call.framing env
        (call.header env stamp epoch control) d)).map SetFrame.offset =
      (call.frames order).map fun f => f.offset.toInt := by
  have hsized := @Fits32.sized_drawn env call stamp epoch control d hfits hdraws
  rw [framing, FramedMessage.entriesForMessageSet_flatMap hsized,
    BatchCall.frames, map_map, map_map, map_map]
  apply map_congr_left
  intro m hm
  exact congrArg BitVec.toInt (offset_frameOf ((mem_lt hm).trans hfits.length_lt) (d m))

theorem Fits32.check_iff (hfits : call.Fits32) (hne : call.msgs ≠ [])
    (hdraws : ∀ m ∈ call.msgs.zipIdx, Draws m (d m)) :
    checkAppendedEntries (call.next - 1).toInt (entriesForMessageSet
          (call.framing env (call.header env stamp epoch control) d))
        (call.framing env (call.header env stamp epoch control) d).length = true ↔
      call.next ≠ BitVec.intMin 64 ∧ call.next.toInt + call.msgs.length ≤ 2 ^ 63 := by
  have hlt := hfits.length_lt
  have hpos := length_pos_of_ne_nil hne
  have hoffset : ∀ m ∈ call.msgs.zipIdx,
      (frameOf (call.header env stamp epoch control) m (d m)).offset =
        BitVec.ofNat 64 m.2 + call.next :=
    fun m hm => offset_frameOf ((mem_lt hm).trans hlt) _
  have hsized := @Fits32.sized_drawn env call stamp epoch control d hfits hdraws
  have hrise : ((call.msgs.zipIdx.map fun m => frameOf
      (call.header env stamp epoch control) m (d m)).Pairwise fun a b =>
        a.offset.toInt < b.offset.toInt) ↔
      call.next.toInt + call.msgs.length ≤ 2 ^ 63 := by
    rw [← offsets_rise_iff hlt hpos, ← pairwise_zipIdx_iff call.msgs, pairwise_map]
    apply Pairwise.iff_of_mem
    intro a b ha hb
    rw [hoffset a ha, hoffset b hb]
  have hhead : ∀ first rest, (call.msgs.zipIdx.map fun m => frameOf
      (call.header env stamp epoch control) m (d m)) = first :: rest →
      first.offset = call.next := by
    intro first rest hcons
    obtain ⟨m, msgs, hmsgs⟩ := exists_cons_of_ne_nil hne
    have hzero : (m, 0) ∈ call.msgs.zipIdx := by
      rw [hmsgs, zipIdx_cons]
      exact mem_cons_self
    have hfirst := hoffset (m, 0) hzero
    rw [hmsgs, zipIdx_cons, map_cons] at hcons
    rw [← (cons.inj hcons).1, hfirst]
    simp
  unfold framing
  cases hframes : call.msgs.zipIdx.map fun m =>
      frameOf (call.header env stamp epoch control) m (d m) with
  | nil =>
    have hempty := congrArg length hframes
    simp only [length_map, length_zipIdx, length_nil] at hempty
    omega
  | cons first rest =>
    rw [hframes] at hsized hrise
    rw [FramedMessage.checkAppendedEntries_iff hsized, hrise,
      hhead first rest hframes, toInt_pred_lt_iff]

end Framing

/-! ### The two appends -/

section Appends

variable {order : ℕ → List (Bytes × Option Bytes)}

theorem appendV2_of_long (hrules : FollowsRules call.msgs)
    (hlong : call.LongName) : call.appendV2 env order = none := by
  have hfits : ((call.frames order).all fun f => f.sent.fits) = false := by
    by_contra hall
    rw [Bool.not_eq_false, all_eq_true] at hall
    apply (names_iff hrules).mp ?_ hlong
    intro m hm header hheader
    have hfit := hall _ (mem_map_of_mem (f := fun m : BatchMessage × ℕ =>
      (⟨BitVec.ofNat 64 m.2 + call.next,
        if m.1.timestamp = 0 then call.clock else m.1.timestamp,
        m.1.leaderEpoch, call.stampedAt m, order m.2⟩ : FramedMessage)) hm)
    simp only [Produced.fits, Bool.and_eq_true, all_eq_true, decide_eq_true_eq] at hfit
    exact (hfit.2 header hheader).1
  unfold appendV2
  simp only [hfits, Bool.false_eq_true, if_false, ite_self]

theorem appendV2_of_short (hrules : FollowsRules call.msgs) (hfits : call.Fits32)
    (horder : ∀ m ∈ call.msgs.zipIdx, (order m.2).Perm (call.stampedAt m).headers)
    (hshort : ¬ call.LongName) :
    call.appendV2 env order = some ((call.frames order).map fun f => f.offset.toInt,
        env.appendBlock (call.setBytes env order) call.msgs.length) := by
  have hnames := (names_iff hrules).mpr hshort
  have hall : ((call.frames order).all fun f => f.sent.fits) = true := by
    rw [all_eq_true]
    intro f hf
    have hsized := hfits.sized_frames horder f hf
    obtain ⟨m, hm, rfl⟩ := mem_map.mp hf
    exact hsized.fits (hnames m hm)
  have hlength : (call.frames order).length = call.msgs.length := by
    rw [frames, length_map, length_zipIdx]
  unfold appendV2
  simp only [hall, if_true, hlength]
  rw [hrules.carriesIdentity_eq, if_neg]
  · rfl
  · simp [hrules.nonempty]

theorem appendV3_of_long (hrules : FollowsRules call.msgs) (hfits : call.Fits32)
    (hlong : call.LongName) : call.appendV3 env = none := by
  obtain ⟨stamp, epoch, control, h, block, stored, rfl, -, -, -, -, -, -, -,
    heq⟩ := @appendV3_eq env call hrules hfits
  have hnone : env.synthesizeFraming (call.header env
      (if stamp = 0 then call.clock else stamp) epoch control) call.drafts =
      none := by
    rw [Option.eq_none_iff_forall_ne_some]
    intro logical hsome
    have hall := (synthesizeFraming_eq_some_iff (fun m _ => draws_self m)).mp hsome
    exact (names_iff hrules).mp (fun m hm => (hall.1 m hm).2) hlong
  rw [heq, hnone, Option.bind_none]

end Appends

end BatchCall

open BatchCall

variable {env : BlockEnv} {call : BatchCall}

theorem frames_agree_iff (hall : ∀ m ∈ call.msgs, m.timestamp ≠ 0 → m.timestamp = stamp)
    (hfrom : stamp ≠ 0 → ∃ m ∈ call.msgs, m.timestamp = stamp)
    (hkinds : ∀ m ∈ call.msgs, hasAttribute m.sent.attributes attrControl = control)
    {d : BatchMessage × ℕ → Produced} (hdraws : ∀ m ∈ call.msgs.zipIdx, Draws m (d m)) :
    (∀ m ∈ call.msgs.zipIdx, (if m.1.timestamp = 0 then call.clock else m.1.timestamp) =
          (if stamp = 0 then call.clock else stamp) ∧
        (call.stampedAt m).attributes =
          (frameOf (call.header env (if stamp = 0 then call.clock else stamp)
            epoch control) m (d m)).sent.attributes) ↔
      (∀ m ∈ call.msgs, m.sent.attributes.val < 4) ∧
      ∀ a ∈ call.msgs, ∀ b ∈ call.msgs, a.timestamp = 0 →
        b.timestamp ≠ 0 → b.timestamp = call.clock := by
  have hattributes : ∀ m ∈ call.msgs.zipIdx, ((call.stampedAt m).attributes =
      (frameOf (call.header env (if stamp = 0 then call.clock else stamp)
        epoch control) m (d m)).sent.attributes ↔
      m.1.sent.attributes.val < 4) := by
    intro m hm
    have hkind := hkinds m.1 (fst_mem_of_mem_zipIdx hm)
    rw [stampedAt, attributes_stamped, frameOf, attributes_messageAt,
      (hdraws m hm).attributes, ← hkind]
    exact attributes_kept m.1.sent.attributes
  constructor
  · intro hagree
    constructor
    · rw [← forall_mem_zipIdx (P := fun m => m.sent.attributes.val < 4)]
      intro m hm
      exact (hattributes m hm).mp (hagree m hm).2
    · intro a ha b hb hzero hset
      have hb' := hall b hb hset
      have ha' := (forall_mem_zipIdx (P := fun m =>
        (if m.timestamp = 0 then call.clock else m.timestamp) =
          (if stamp = 0 then call.clock else stamp))).mp
        (fun m hm => (hagree m hm).1) a ha
      rw [if_pos hzero, if_neg (hb' ▸ hset)] at ha'
      rw [hb', ha']
  · rintro ⟨hbits, hstamps⟩ m hm
    have hmem := fst_mem_of_mem_zipIdx hm
    refine ⟨?_, (hattributes m hm).mpr (hbits m.1 hmem)⟩
    by_cases hzero : m.1.timestamp = 0
    · rw [if_pos hzero]
      split_ifs with hstamp
      · rfl
      · obtain ⟨b, hb, hset⟩ := hfrom hstamp
        rw [← hset]
        exact (hstamps m.1 hmem b hb hzero (hset ▸ hstamp)).symm
    · have hset := hall m.1 hmem hzero
      rw [if_neg hzero, if_neg (hset ▸ hzero), hset]

section Reading

variable {order : ℕ → List (Bytes × Option Bytes)} {stamp epoch : BitVec 64}
    {control : Bool} {d : BatchMessage × ℕ → Produced}

theorem readSame_frames_iff (hrules : FollowsRules call.msgs) (hfits : call.Fits32)
    (horder : ∀ m ∈ call.msgs.zipIdx, (order m.2).Perm (call.stampedAt m).headers)
    (hshort : ¬ call.LongName)
    (hcount : ∀ m ∈ call.msgs.zipIdx, (call.stampedAt m).headers.length ≤ 32767)
    (hvalues : ∀ m ∈ call.msgs, ∀ header ∈ m.sent.headers, header.2 ≠ none)
    (hepochs : ∀ m ∈ call.msgs, m.leaderEpoch = epoch)
    (hdraws : ∀ m ∈ call.msgs.zipIdx, Draws m (d m)) :
    env.ReadSame (some (call.setBytes env order))
        (some (call.framing env (call.header env stamp epoch control) d)) ↔
      ∀ m ∈ call.msgs.zipIdx, (if m.1.timestamp = 0 then call.clock else m.1.timestamp) = stamp ∧
          (call.stampedAt m).attributes = (frameOf (call.header env stamp epoch control) m
              (d m)).sent.attributes := by
  have hnames := (names_iff hrules).mpr hshort
  have hlt := hfits.length_lt
  have hsized : ∀ m ∈ call.msgs.zipIdx, (⟨BitVec.ofNat 64 m.2 + call.next,
        if m.1.timestamp = 0 then call.clock else m.1.timestamp,
        m.1.leaderEpoch, call.stampedAt m, order m.2⟩ : FramedMessage).Sized :=
    fun m hm => ⟨horder m hm, hfits.frames m hm⟩
  rw [setBytes, BatchCall.frames, framing, readSame_iff hsized (hfits.sized_frameOf hdraws)]
  apply forall₂_congr
  intro m hm
  have hmem := fst_mem_of_mem_zipIdx hm
  apply FramedMessage.same_iff (hsized m hm)
    (hfits.sized_frameOf hdraws m hm) (hnames m hm) (hcount m hm)
  · exact (forall_mem_stamped (hrules.names m.1 hmem)
      (fun header _ _ hvalue => hvalue)).mpr (hvalues m.1 hmem)
  · exact (offset_frameOf ((mem_lt hm).trans hlt) _).symm
  · exact hepochs m.1 hmem
  · rw [stampedAt, key_stamped, ← (hdraws m hm).key]
    exact (key_messageAt _ _ _).symm
  · rw [stampedAt, value_stamped, ← (hdraws m hm).value]
    exact (value_messageAt _ _ _).symm
  · exact (hdraws m hm).headers_frameOf.symm

theorem values_of_records (hrules : FollowsRules call.msgs) (hfits : call.Fits32)
    (horder : ∀ m ∈ call.msgs.zipIdx, (order m.2).Perm (call.stampedAt m).headers)
    (hshort : ¬ call.LongName)
    (hcount : ∀ m ∈ call.msgs.zipIdx, (call.stampedAt m).headers.length ≤ 32767)
    {recs : List (SetFrame × Message)}
    (hrecords : env.records (call.setBytes env order) = some recs) :
    ∀ m ∈ call.msgs, ∀ header ∈ m.sent.headers, header.2 ≠ none := by
  have hnames := (names_iff hrules).mpr hshort
  have hsized : ∀ m ∈ call.msgs.zipIdx, (⟨BitVec.ofNat 64 m.2 + call.next,
        if m.1.timestamp = 0 then call.clock else m.1.timestamp,
        m.1.leaderEpoch, call.stampedAt m, order m.2⟩ : FramedMessage).Sized :=
    fun m hm => ⟨horder m hm, hfits.frames m hm⟩
  rw [setBytes, BatchCall.frames, records_flatMap hsized] at hrecords
  have hall := isSome_mapM_iff.mp (Option.isSome_of_eq_some hrecords)
  rw [← forall_mem_zipIdx (P := fun m =>
    ∀ header ∈ m.sent.headers, header.2 ≠ none)]
  intro m hm
  have hmem := fst_mem_of_mem_zipIdx hm
  have hread := hall m hm
  rw [Option.isSome_map] at hread
  obtain ⟨msg, hmsg⟩ := Option.isSome_iff_exists.mp hread
  have hle := hcount m hm
  have hvalues : ∀ header ∈ (call.stampedAt m).headers, header.2 ≠ none :=
    (hsized m hm).values_of_readBack (hnames m hm) (hle.trans (by decide)) hmsg
  exact (forall_mem_stamped (hrules.names m.1 hmem) (fun header _ _ hvalue => hvalue)).mp hvalues

end Reading

theorem records_eq : (call.records.map fun r => r.sorted.produced) = call.msgs.zipIdx.map fun m =>
      (BitVec.ofNat 32 m.2, (m.1.record m.2).sorted.produced.2) := by
  rw [BatchCall.records, map_map]
  rfl

theorem exists_order (call : BatchCall) :
    ∃ order : ℕ → List (Bytes × Option Bytes), ∀ m ∈ call.msgs.zipIdx,
      (order m.2).Perm (call.stampedAt m).headers := by
  refine ⟨fun i => (call.msgs[i]?.map fun m =>
    (call.stampedAt (m, i)).headers).getD [], ?_⟩
  intro m hm
  have hget : call.msgs[m.2]? = some m.1 := mem_zipIdx_iff_getElem?.mp hm
  simp only [hget, Option.map_some, Option.getD_some]
  exact Perm.refl _

theorem agrees_of_formatIndependent (hrules : FollowsRules call.msgs) (hfits : call.Fits32)
    (hshort : ¬ call.LongName) (hindependent : FormatIndependent env call) : call.Agrees := by
  obtain ⟨order, horder⟩ := exists_order call
  have happend := @appendV2_of_short env call order hrules hfits horder hshort
  obtain ⟨stamp, epoch, control, h, block, stored, rfl, hall, hfrom, hepochs,
    hkinds, hheader, hlength, hdecode, happend'⟩ :=
    @appendV3_eq env call hrules hfits
  rcases hindependent order horder with
    ⟨hnone, -⟩ | ⟨offsets, s, s', htaken, htaken', hread, -⟩
  · rw [happend] at hnone
    cases hnone
  · rw [happend] at htaken
    cases htaken
    rw [happend'] at htaken'
    obtain ⟨logical, hlogical, htaken'⟩ := Option.bind_eq_some_iff.mp htaken'
    obtain ⟨hcountable, rfl⟩ := (synthesizeFraming_eq_some_iff
      (fun m _ => draws_self m)).mp hlogical
    obtain ⟨hcheck, htaken'⟩ := Option.ite_none_right_eq_some.mp htaken'
    have hroom := (hfits.check_iff hrules.nonempty (fun m _ => draws_self m)).mp hcheck
    have hcount : ∀ m ∈ call.msgs.zipIdx, (call.stampedAt m).headers.length ≤ 32767 :=
      fun m hm => (hcountable m hm).1
    rw [← (Prod.mk.inj (Option.some.inj htaken')).2] at hread
    rw [BlockEnv.readBlock_appendBlock] at hread
    have hvalues : ∀ m ∈ call.msgs, ∀ header ∈ m.sent.headers, header.2 ≠ none := by
      obtain ⟨recs, -, hrecs, -, -⟩ := hread
      exact values_of_records hrules hfits horder hshort hcount hrecs
    have hdraws : ∀ m ∈ call.msgs.zipIdx, Draws m (m.1.record m.2).sorted.produced.2 :=
      fun m hm => draws_record (hvalues m.1 (fst_mem_of_mem_zipIdx hm))
    -- what the version-3 block is read as
    rw [(readV3Block_spec hheader hlength hdecode _ _).1, records_eq] at hread
    have hframing := hread
    obtain ⟨-, recs', -, hrecs', -⟩ := hframing
    obtain ⟨data, hdata, -⟩ := Option.bind_eq_some_iff.mp hrecs'
    have hsome := (Option.filter_eq_some_iff.mp hdata).1
    rw [hdata, ← ((synthesizeFraming_eq_some_iff hdraws).mp hsome).2,
      readSame_frames_iff hrules hfits horder hshort hcount hvalues hepochs
        hdraws, frames_agree_iff hall hfrom hkinds hdraws] at hread
    exact ⟨hread.1, hvalues, hcount, hread.2, hroom.1, hroom.2⟩

theorem formatIndependent_of_agrees (hrules : FollowsRules call.msgs) (hfits : call.Fits32)
    (hshort : ¬ call.LongName) (hagrees : call.Agrees) : FormatIndependent env call := by
  intro order horder
  obtain ⟨stamp, epoch, control, h, block, stored, rfl, hall, hfrom, hepochs,
    hkinds, hheader, hlength, hdecode, happend'⟩ :=
    @appendV3_eq env call hrules hfits
  have hnames := (names_iff hrules).mpr hshort
  have hcountable : ∀ m ∈ call.msgs.zipIdx, (call.stampedAt m).headers.length ≤ 32767 ∧
        ∀ header ∈ (call.stampedAt m).headers, header.1.length ≤ 32767 :=
    fun m hm => ⟨hagrees.count m hm, hnames m hm⟩
  have hdraws : ∀ m ∈ call.msgs.zipIdx, Draws m (m.1.record m.2).sorted.produced.2 :=
    fun m hm =>
      draws_record (hagrees.values m.1 (fst_mem_of_mem_zipIdx hm))
  have hself : ∀ m ∈ call.msgs.zipIdx, Draws m m.1.sent :=
    fun m _ => draws_self m
  obtain ⟨h, hh⟩ : ∃ h, h = call.header env
    (if stamp = 0 then call.clock else stamp) epoch control := ⟨_, rfl⟩
  -- the framing checked before the write, and the one that is read
  have hlogical : env.synthesizeFraming h call.drafts =
      some (call.framing env h fun m => m.1.sent) := by
    rw [hh]
    exact (synthesizeFraming_eq_some_iff hself).mpr ⟨hcountable, rfl⟩
  have hdata : env.decodeV3Block block = some (call.framing env h
      fun m => (m.1.record m.2).sorted.produced.2) := by
    rw [hdecode, records_eq, hh]
    exact (synthesizeFraming_eq_some_iff hdraws).mpr ⟨hcountable, rfl⟩
  have hcheck : checkAppendedEntries (call.next - 1).toInt
      (entriesForMessageSet (call.framing env h fun m => m.1.sent))
      (call.framing env h fun m => m.1.sent).length = true := by
    rw [hh]
    exact (hfits.check_iff hrules.nonempty hself).mpr ⟨hagrees.first, hagrees.room⟩
  have hsize : (call.framing env h fun m => (m.1.record m.2).sorted.produced.2).length =
      (call.framing env h fun m => m.1.sent).length := by
    rw [hh, hfits.length_framing hdraws, hfits.length_framing hself]
  have hread : env.ReadSame (some (call.setBytes env order)) (some (call.framing env h
        fun m => (m.1.record m.2).sorted.produced.2)) := by
    rw [hh]
    exact (readSame_frames_iff hrules hfits horder hshort hagrees.count
      hagrees.values hepochs hdraws).mpr
      ((frames_agree_iff hall hfrom hkinds hdraws).mpr ⟨hagrees.attributes, hagrees.stamps⟩)
  have hoffsets : (entriesForMessageSet (call.framing env h
      fun m => m.1.sent)).map SetFrame.offset =
      (call.frames order).map fun f => f.offset.toInt := by
    rw [hh]
    exact hfits.offsets_framing hself order
  have hspec := readV3Block_spec hheader hlength hdata stored.codec
    (call.framing env h fun m => m.1.sent).length
  rw [← hh, hlogical, Option.bind_some, if_pos hcheck, hoffsets] at happend'
  refine Or.inr ⟨_, _, _, appendV2_of_short hrules hfits horder hshort, happend', ?_, ?_⟩
  · rw [BlockEnv.readBlock_appendBlock, hspec.1, Option.filter_some, if_pos (by simp [hsize])]
    exact hread
  · rw [BlockEnv.reopenBlock_appendBlock (hfits.length_setBytes horder)
      (length_pos_of_ne_nil hrules.nonempty) hfits.length_lt,
      Option.bind_some, BlockEnv.readBlock_appendBlock, hspec.2]
    exact hread

def plainBlockEnv : BlockEnv := ⟨fun _ => 0, fun _ => 0, fun _ => 0, storedRaw, 0⟩

def plainSent (attributes : Byte) : Produced :=
  ⟨0, attributes, some [7], some [8], [([9], some [10])], by simp⟩

/-- One batch of producer 5, with a message for each pair of attributes and
timestamp. -/
def smallBatch (msgs : List (Byte × BitVec 64)) : BatchCall where
  next := 3
  clock := 100
  identity := ⟨5, 1, 0, 0⟩
  msgs := msgs.map fun m => ⟨plainSent m.1, m.2, 2⟩

theorem smallBatch_rules {msgs : List (Byte × BitVec 64)} (hne : msgs ≠ [])
    {t : BitVec 64} (hstamps : ∀ m ∈ msgs, m.2 = 0 ∨ m.2 = t)
    (hkinds : ∀ m ∈ msgs, hasAttribute m.1 attrControl = false) :
    FollowsRules (smallBatch msgs).msgs := by
  have hforall : ∀ {P : BatchMessage → Prop}, (∀ m ∈ msgs, P ⟨plainSent m.1, m.2, 2⟩) →
        ∀ m ∈ (smallBatch msgs).msgs, P m := by
    intro P hall m hm
    obtain ⟨item, hitem, rfl⟩ := mem_map.mp hm
    exact hall item hitem
  constructor
  · simpa [smallBatch] using hne
  · apply hforall
    intro m _ header hheader
    have hname : header = ([9], some [10]) := by simpa [plainSent] using hheader
    rw [hname]
    decide
  · exact ⟨t, hforall hstamps⟩
  · exact hforall fun a _ => hforall fun b _ => rfl
  · apply hforall
    intro a ha
    apply hforall
    intro b hb
    exact (hkinds a ha).trans (hkinds b hb).symm

theorem smallBatch_short (msgs : List (Byte × BitVec 64)) : ¬ (smallBatch msgs).LongName := by
  rintro ⟨m, hm, header, hheader, hlong⟩
  obtain ⟨item, -, rfl⟩ := mem_map.mp hm
  have hname : header = ([9], some [10]) := by simpa [plainSent] using hheader
  rw [hname] at hlong
  exact absurd hlong (by decide)

theorem smallBatch_fits : (smallBatch [(2, 0)]).Fits32 ∧
    (smallBatch [(4, 0)]).Fits32 ∧ (smallBatch [(0, 50), (0, 0)]).Fits32 := by
  refine ⟨⟨?_, ?_, ?_⟩, ⟨?_, ?_, ?_⟩, ⟨?_, ?_, ?_⟩⟩ <;> decide +kernel

end CommitLog
