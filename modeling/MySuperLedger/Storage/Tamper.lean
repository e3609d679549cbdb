import MySuperLedger.Storage.Reading

/-! # Changed files

Each record has a digest over the index and the bytes of its entry, made with a key
of the node. Someone without the keys may change the data and meta files, but the
digests that they can put there for a message are those that the node made itself.
Which changes do the reads notice?
-/

namespace MySuperLedger.Storage

open Collections Effects List Segment Operation LogMeta
open Program (RunsTo)

variable {Entry : Type} (config : Config Entry)

def toString64 (index : Nat) : List UInt8 :=
  (Nat.toDigits 10 index).map fun digit => UInt8.ofNat digit.toNat

/-- What is signed for an entry: the index, and right behind it the bytes. -/
def messageOf (index : Nat) (bytes : List UInt8) : List UInt8 := toString64 index ++ bytes

def messageFor (entry : Entry) : List UInt8 :=
  messageOf (config.format.index entry) (config.format.serialize entry)

/-- The digest that the node made for the message of an entry. -/
def signatureOf (entry : Entry) : Digest := (recordOf config 0 entry).digest

def Operation.written : Operation Entry → List Entry
  | .append entries => entries
  | _ => []

/-- The HMAC as an ideal function of key and message. The digest of a written entry belongs to
no second message. -/
structure IdealHMAC (mac : Nat → List UInt8 → Digest) (written : List Entry) : Prop where
  hmac_eq : ∀ version index bytes,
    config.crypto.hmac version index bytes = mac version (messageOf index bytes)
  ne_blank : ∀ version message, mac version message ≠ blank.digest
  message_eq : ∀ entry ∈ written, ∀ version ∈ config.crypto.descendingVersions, ∀ message,
    mac version message = signatureOf config entry → message = messageFor config entry

/-- Whatever message a key gives the digest of a changed record to, the node made this digest
for that message when it wrote an entry. -/
def Unforged (mac : Nat → List UInt8 → Digest) (written : List Entry) (disk tampered : Disk) :
    Prop :=
  ∀ (name : SegmentName) (position : Nat) (record : LogMeta),
    (tampered.metaOf name)[position]? = some record →
    (disk.metaOf name)[position]? ≠ some record →
    ∀ version ∈ config.crypto.descendingVersions, ∀ message, mac version message = record.digest →
      ∃ entry ∈ written, messageFor config entry = message ∧
        signatureOf config entry = record.digest

/-- Bytes of the data and meta files are changed, and the files keep their sizes. -/
def BytesChanged (disk tampered : Disk) : Prop :=
  ∀ name, (tampered.dataOf name).length = (disk.dataOf name).length ∧
    (tampered.metaOf name).length = (disk.metaOf name).length

/-- No digest is cleared. -/
def KeepsDigests (disk tampered : Disk) : Prop :=
  ∀ (name : SegmentName) (position : Nat) (record : LogMeta),
    (disk.metaOf name)[position]? = some record →
    record.digest ≠ blank.digest →
    ∃ changed : LogMeta, (tampered.metaOf name)[position]? = some changed ∧
      changed.digest ≠ blank.digest

def KeepsTerms (disk tampered : Disk) : Prop :=
  ∀ name, (tampered.metaOf name).map term = (disk.metaOf name).map term

/-- What was signed under a message of the index reads as `entry`. So no other entry was ever
written at the index, and the digits of the index do not go on in another one's. -/
def SignedAlone (written : List Entry) (index : Nat) (entry : Entry) : Prop :=
  ∀ other ∈ written, ∀ bytes : List UInt8, bytes.length ≤ config.dataSizeLimit →
    messageFor config other = messageOf index bytes → config.format.parse bytes = some entry

/-- Both log objects look for the index in the same file. -/
def SamePlace (reader log : SegmentLog) (index : Nat) : Prop :=
  ∃ looked found, reader.getSegment index = .ok (some looked) ∧
    log.getSegment index = .ok (some found) ∧ looked.name = found.name ∧
    looked.isWithInBoundary index = true

def recordAt (disk : Disk) (segment : Segment) (index : Nat) : LogMeta :=
  ((disk.metaOf segment.name)[index - segment.firstIndex]?).getD .blank

def bytesAt (disk : Disk) (segment : Segment) (index : Nat) : List UInt8 :=
  readAt (disk.dataOf segment.name) (recordAt disk segment index).offset
    (recordAt disk segment index).length

variable {config} {mac : Nat → List UInt8 → Digest} {disk tampered : Disk} {segment : Segment}
  {index : Nat} {written : List Entry}

theorem getMeta_eq (hin : segment.isWithInBoundary index = true) :
    segment.getMeta disk segment.name index = (do
      ensure .metaIndex ((recordAt disk segment index).index = index)
      return recordAt disk segment index) := by
  rw [getMeta, ensure_of hin]
  rfl

theorem bind_eq_ok {α : Type} {check : Except Check Unit} {rest : Except Check α} {x : α} :
    (check >>= fun _ => rest) = .ok x ↔ check = .ok () ∧ rest = .ok x := by
  cases check with
  | error _ | ok _ => simp [bind, Except.bind]

theorem segment_getEntry_eq_ok_iff (hin : segment.isWithInBoundary index = true)
    (result : Option Entry) :
    segment.getEntry config disk index = .ok result ↔
      (recordAt disk segment index).index = index ∧
        (recordAt disk segment index).offset ≤ segment.dataOffset ∧
        verifyHMAC config (recordAt disk segment index) (bytesAt disk segment index) = .ok () ∧
        config.format.parse (bytesAt disk segment index) = result := by
  simp only [getEntry, hin, if_true, getMeta_eq hin, bind_assoc, pure_bind, bind_eq_ok,
    ensure_eq_ok]
  simp [pure, Except.pure, bytesAt]

theorem segment_getTerm_eq_ok_iff (hin : segment.isWithInBoundary index = true)
    (result : Option Nat) :
    segment.getTerm disk index = .ok result ↔ (recordAt disk segment index).index = index ∧
      some (recordAt disk segment index).term = result := by
  simp only [getTerm, hin, if_true, getMeta_eq hin, bind_assoc, pure_bind, bind_eq_ok,
    ensure_eq_ok]
  simp [pure, Except.pure]

variable {log reader : SegmentLog} {entry : Entry} {memory : InMemoryLog Entry} {offset : Nat}

theorem log_getEntry_eq (hs : log.getSegment index = .ok (some segment)) :
    log.getEntry config disk index = segment.getEntry config disk index := by
  simp [SegmentLog.getEntry, hs, bind, Except.bind]

theorem log_getTerm_eq (hs : log.getSegment index = .ok (some segment)) :
    log.getTerm disk index = segment.getTerm disk index := by
  have hnot : ¬ index + 1 = log.firstIndex := by
    intro heq
    have hlt : index < log.firstIndex := by omega
    simp [SegmentLog.getSegment, hlt] at hs
  simp [SegmentLog.getTerm, hnot, hs, bind, Except.bind]

/-- Where the entry of an index lies in the files of the log. -/
structure Placed (config : Config Entry) (disk : Disk) (log : SegmentLog) (index : Nat)
    (entry : Entry) (segment : Segment) (offset : Nat) : Prop where
  getSegment_eq : log.getSegment index = .ok (some segment)
  inside : segment.isWithInBoundary index = true
  index_eq : config.format.index entry = index
  record_eq : (disk.metaOf segment.name)[index - segment.firstIndex]? =
    some (recordOf config offset entry)
  size_eq : (disk.dataOf segment.name).length = config.dataSizeLimit

theorem CoveredBy.placed {stale : List Nat} (h : CoveredBy config stale disk log memory)
    (hp : 1 ≤ index) (he : log.getEntry config disk index = .ok (some entry)) :
    entry ∈ memory.log ∧ ∃ segment offset, Placed config disk log index entry segment offset := by
  rw [h.getEntry_eq entry hp, InMemoryLog.getEntry, if_neg (by omega)] at he
  by_cases hout : index < memory.firstIndex ∨ memory.lastIndex < index
  · rw [if_pos hout] at he
    cases he
  rw [if_neg hout] at he
  have hmem : memory.log[index - memory.firstIndex]? = some entry := Except.ok.inj he
  obtain ⟨isActive, first, block, tail, hpos, hle, hlt, hseg, hhold, hblock⟩ :=
    h.located (Nat.le_of_not_lt fun hl => hout (.inl hl))
      (Nat.le_of_not_lt fun hl => hout (.inr hl))
  rw [hmem] at hblock
  have hindex := Nat.add_sub_cancel' hle
  refine ⟨mem_of_getElem? hmem, _, _, hseg, ?_, ?_, hhold.record hblock, ?_⟩
  · have hin : (segmentOf config isActive first block).isWithInBoundary (first + (index - first)) =
        _ := isWithInBoundary_segmentOf isActive hpos _
    rwa [hindex, decide_eq_true hlt] at hin
  · rw [hhold.numbered.index_eq hblock, hindex]
  · obtain ⟨rest, hdata, hsize⟩ := hhold.data_eq
    rw [Disk.dataOf, hdata, Option.getD_some, length_append, length_bytesOf, hsize]

theorem Operation.Valid.signed {operation : Operation Entry} (h : operation.Valid config memory) :
    ∀ entry ∈ operation.written, CanSign config entry := by
  cases operation with
  | append entries => exact IsBatch.signed h
  | truncateSuffix _ | truncatePrefix _ | setCurrentTerm _ | setVoteFor _ | reopen =>
    simp [written]

theorem Operation.AllValid.signed {operations : List (Operation Entry)}
    (h : Operation.AllValid config memory operations) :
    ∀ entry ∈ operations.flatMap Operation.written, CanSign config entry := by
  induction operations generalizing memory with
  | nil => simp
  | cons operation operations ih =>
    obtain ⟨hf, hr⟩ := h
    rw [flatMap_cons]
    exact forall_mem_append.mpr ⟨hf.signed, ih hr⟩

theorem Operation.Valid.log_subset {operation : Operation Entry}
    (h : operation.Valid config memory) :
    (operation.onMemory config memory).log ⊆ memory.log ++ operation.written := by
  cases operation with
  | append entries =>
    rw [onMemory, InMemoryLog.appendEntries_eq (IsBatch.numbered h)]
    exact Subset.refl _
  | truncateSuffix lastIndexKept =>
    simp only [onMemory, written, append_nil, InMemoryLog.truncateSuffix]
    split_ifs
    · exact Subset.refl _
    · exact nil_subset _
    · exact take_subset _ _
  | truncatePrefix firstIndexKept =>
    simp only [onMemory, written, append_nil, InMemoryLog.truncatePrefix]
    split_ifs
    · exact Subset.refl _
    · exact nil_subset _
    · exact drop_subset _ _
  | setCurrentTerm _ | setVoteFor _ | reopen => exact subset_append_left _ _

theorem Operation.AllValid.log_subset {operations : List (Operation Entry)}
    (h : Operation.AllValid config memory operations) :
    (allOnMemory config memory operations).log ⊆
      memory.log ++ operations.flatMap Operation.written := by
  induction operations generalizing memory with
  | nil => simp [allOnMemory]
  | cons operation operations ih =>
    obtain ⟨hf, hr⟩ := h
    rw [flatMap_cons, ← append_assoc]
    refine Subset.trans (ih hr) (append_subset.mpr ⟨?_, subset_append_right _ _⟩)
    exact Subset.trans hf.log_subset (subset_append_left _ _)

theorem name_firstIndex (segment : Segment) : segment.name.firstIndex = segment.firstIndex := by
  unfold Segment.name
  split <;> rfl

theorem IdealHMAC.signature_ne_blank (hi : IdealHMAC config mac written)
    (hen : config.crypto.isEnabled = true) (entry : Entry) :
    signatureOf config entry ≠ blank.digest := by
  simp only [signatureOf, recordOf, hen, if_true, hi.hmac_eq]
  exact hi.ne_blank _ _

section

variable (hp : Placed config disk log index entry segment offset)
include hp

/-- A record and bytes that pass the check were signed together. -/
theorem Placed.signed (hi : IdealHMAC config mac written) (hmem : entry ∈ written)
    (hu : Unforged config mac written disk tampered) {record : LogMeta}
    (hr : (tampered.metaOf segment.name)[index - segment.firstIndex]? = some record)
    {version : Nat} (hv : version ∈ config.crypto.descendingVersions) {message : List UInt8}
    (hm : mac version message = record.digest) :
    ∃ other ∈ written, messageFor config other = message := by
  by_cases hsame : (disk.metaOf segment.name)[index - segment.firstIndex]? = some record
  · -- the record is as it was written
    obtain rfl : recordOf config offset entry = record :=
      Option.some.inj (hp.record_eq.symm.trans hsame)
    exact ⟨entry, hmem, (hi.message_eq entry hmem version hv message hm).symm⟩
  · obtain ⟨other, ho, heq, -⟩ := hu _ _ _ hr hsame version hv message hm
    exact ⟨other, ho, heq⟩

theorem Placed.getEntry_eq_some (hen : config.crypto.isEnabled = true)
    (hi : IdealHMAC config mac written) (hmem : entry ∈ written)
    (halone : SignedAlone config written index entry) (hb : BytesChanged disk tampered)
    (hu : Unforged config mac written disk tampered) (hk : KeepsDigests disk tampered)
    (hs : SamePlace reader log index) {result : Option Entry}
    (h : reader.getEntry config tampered index = .ok result) : result = some entry := by
  obtain ⟨looked, found, hlook, hfind, hname, hin⟩ := hs
  obtain rfl : segment = found :=
    Option.some.inj (Except.ok.inj (hp.getSegment_eq.symm.trans hfind))
  have hfirst : looked.firstIndex = segment.firstIndex := by
    rw [← name_firstIndex, hname, name_firstIndex]
  rw [log_getEntry_eq hlook, segment_getEntry_eq_ok_iff hin] at h
  obtain ⟨hindex, -, hver, rfl⟩ := h
  obtain ⟨changed, hchanged, hdigest⟩ := hk _ _ _ hp.record_eq (hi.signature_ne_blank hen entry)
  have hrecord : recordAt tampered looked index = changed := by
    rw [recordAt, hname, hfirst, hchanged, Option.getD_some]
  rw [hrecord] at hver hindex
  simp only [verifyHMAC, ensure_eq_ok, hen, Bool.true_eq_false, hdigest, false_or] at hver
  obtain ⟨version, hv, hm⟩ := hver
  rw [hi.hmac_eq, hindex] at hm
  obtain ⟨other, ho, heq⟩ := hp.signed hi hmem hu hchanged hv hm
  refine halone other ho _ ?_ heq
  rw [bytesAt, hname, ← hp.size_eq, ← (hb segment.name).1, readAt]
  exact (length_take_le' _ _).trans (by simp)

theorem Placed.getTerm_eq_some (hk : KeepsTerms disk tampered) (hs : SamePlace reader log index)
    {result : Option Nat} (h : reader.getTerm tampered index = .ok result) :
    result = some (config.format.term entry) := by
  obtain ⟨looked, found, hlook, hfind, hname, hin⟩ := hs
  obtain rfl : segment = found :=
    Option.some.inj (Except.ok.inj (hp.getSegment_eq.symm.trans hfind))
  have hfirst : looked.firstIndex = segment.firstIndex := by
    rw [← name_firstIndex, hname, name_firstIndex]
  rw [log_getTerm_eq hlook, segment_getTerm_eq_ok_iff hin] at h
  obtain ⟨-, rfl⟩ := h
  have hterm : ((tampered.metaOf segment.name)[index - segment.firstIndex]?).map term =
      some (config.format.term entry) := by
    rw [← getElem?_map, hk segment.name, getElem?_map, hp.record_eq]
    rfl
  obtain ⟨record, hr, ht⟩ := Option.map_eq_some_iff.mp hterm
  rw [recordAt, hname, hfirst, hr, Option.getD_some, ht]

end

/-- The front of the data file and the record of the index are overwritten. -/
def forge (disk : Disk) (segment : Segment) (index : Nat) (bytes : List UInt8)
    (record : LogMeta) : Disk :=
  (disk.after (.writeData segment.name 0 bytes)).after
    (.writeMeta segment.name (index - segment.firstIndex) [record])

section

variable (hp : Placed config disk log index entry segment offset) (bytes : List UInt8)
  (record : LogMeta)

theorem dataOf_forge : (forge disk segment index bytes record).dataOf segment.name =
    writeAt (disk.dataOf segment.name) 0 bytes := by
  simp [forge, Disk.after, Disk.dataOf]

theorem forge_of_ne {name : SegmentName} (hne : name ≠ segment.name) :
    (forge disk segment index bytes record).metaOf name = disk.metaOf name ∧
      (forge disk segment index bytes record).dataOf name = disk.dataOf name := by
  simp [forge, Disk.after, Disk.dataOf, Disk.metaOf, AList.lookup_insert_ne hne]

include hp

theorem Placed.metaOf_forge : (forge disk segment index bytes record).metaOf segment.name =
    (disk.metaOf segment.name).set (index - segment.firstIndex) record := by
  rw [set_eq_take_append_cons_drop, if_pos (List.getElem?_eq_some_iff.mp hp.record_eq).1]
  simp [forge, Disk.after, Disk.metaOf, writeAt]

/-- One record differs. -/
theorem Placed.getElem?_forge (name : SegmentName) (position : Nat) :
    ((forge disk segment index bytes record).metaOf name)[position]? =
      if name = segment.name ∧ position = index - segment.firstIndex then some record
      else (disk.metaOf name)[position]? := by
  by_cases hn : name = segment.name
  · subst hn
    rw [hp.metaOf_forge, getElem?_set]
    by_cases heq : position = index - segment.firstIndex
    · simp [heq, (List.getElem?_eq_some_iff.mp hp.record_eq).1]
    · simp [heq, Ne.symm heq]
  · simp [(forge_of_ne bytes record hn).1, hn]

theorem Placed.bytesChanged (hfit : bytes.length ≤ config.dataSizeLimit) :
    BytesChanged disk (forge disk segment index bytes record) := by
  intro name
  by_cases hn : name = segment.name
  · subst hn
    rw [hp.metaOf_forge, dataOf_forge, length_set]
    refine ⟨length_writeAt ?_, rfl⟩
    rw [hp.size_eq, Nat.zero_add]
    exact hfit
  · simp [forge_of_ne bytes record hn]

variable {bytes record}

theorem Placed.keepsDigests (hne : record.digest ≠ blank.digest) :
    KeepsDigests disk (forge disk segment index bytes record) := by
  intro name position original hr hd
  rw [hp.getElem?_forge]
  split_ifs
  · exact ⟨record, rfl, hne⟩
  · exact ⟨original, hr, hd⟩

theorem Placed.unforged (hi : IdealHMAC config mac written)
    (hd : record.digest = blank.digest ∨
      ∃ entry ∈ written, signatureOf config entry = record.digest) :
    Unforged config mac written disk (forge disk segment index bytes record) := by
  intro name position changed hr hne version hv message hm
  rw [hp.getElem?_forge] at hr
  split_ifs at hr
  · cases hr
    rcases hd with hblank | ⟨entry, he, hs⟩
    · exact absurd (hm.trans hblank) (hi.ne_blank version message)
    · exact ⟨entry, he, (hi.message_eq entry he version hv message (hm.trans hs.symm)).symm, hs⟩
  · exact absurd hr hne

theorem Placed.recordAt_forge :
    recordAt (forge disk segment index bytes record) segment index = record := by
  simp [recordAt, hp.getElem?_forge]

theorem Placed.getEntry_forge (hindex : record.index = index) (hoff : record.offset = 0)
    (hlen : record.length = bytes.length) (hv : verifyHMAC config record bytes = .ok ()) :
    log.getEntry config (forge disk segment index bytes record) index =
      .ok (config.format.parse bytes) := by
  have hbytes : bytesAt (forge disk segment index bytes record) segment index = bytes := by
    rw [bytesAt, hp.recordAt_forge, dataOf_forge, hoff, hlen]
    exact readAt_append [] bytes _
  rw [log_getEntry_eq hp.getSegment_eq, segment_getEntry_eq_ok_iff hp.inside, hbytes,
    hp.recordAt_forge]
  exact ⟨hindex, hoff.trans_le (Nat.zero_le _), hv, rfl⟩

theorem Placed.getTerm_forge (hindex : record.index = index) :
    log.getTerm (forge disk segment index bytes record) index = .ok (some record.term) := by
  rw [log_getTerm_eq hp.getSegment_eq, segment_getTerm_eq_ok_iff hp.inside, hp.recordAt_forge]
  exact ⟨hindex, rfl⟩

/-- Another entry with the same message takes the place of the entry, digest and all. -/
theorem Placed.signedAlone (hen : config.crypto.isEnabled = true)
    (hi : IdealHMAC config mac written) (hs : ∀ entry ∈ written, CanSign config entry)
    (h : ∀ tampered reader, BytesChanged disk tampered → Unforged config mac written disk tampered →
      KeepsDigests disk tampered → SamePlace reader log index →
      ∀ result, reader.getEntry config tampered index = .ok result → result = some entry) :
    SignedAlone config written index entry := by
  intro other ho bytes hfit hmsg
  have hsig : mac (signingVersion config other) (messageFor config other) =
      signatureOf config other := by
    simp [signatureOf, recordOf, hen, hi.hmac_eq, messageFor]
  have hver : verifyHMAC config ⟨0, bytes.length, 0, index, signatureOf config other⟩ bytes =
      .ok () := by
    rw [verifyHMAC, ensure_eq_ok]
    refine .inr (.inr ⟨_, signingVersion_mem (hs other ho) hen, ?_⟩)
    rw [hi.hmac_eq, ← hmsg]
    exact hsig
  refine h _ log ?_ ?_ ?_ ⟨segment, segment, hp.getSegment_eq, hp.getSegment_eq, rfl, hp.inside⟩ _
    (hp.getEntry_forge rfl rfl rfl hver)
  · exact hp.bytesChanged bytes _ hfit
  · exact hp.unforged hi (.inr ⟨other, ho, rfl⟩)
  · exact hp.keepsDigests (hi.signature_ne_blank hen other)

end

/-- The digest of the message of entry 1 is that of no other message. -/
def soleMac (message : List UInt8) : Digest :=
  if message = messageOf 1 [0] then .replicate 32 1 else .replicate 32 2

def signedConfig : Config Nat :=
  { unaryConfig true 1 1 Nat.one_pos with
    crypto := {
      isEnabled := true
      descendingVersions := [1]
      versions_ne_nil := fun _ => cons_ne_nil _ _
      hmac := fun _ index bytes => soleMac (messageOf index bytes) } }

theorem idealHMAC_signedConfig : IdealHMAC signedConfig (fun _ => soleMac) [1] where
  hmac_eq _ _ _ := rfl
  ne_blank _ message := by
    unfold soleMac
    split_ifs <;> decide
  message_eq entry he version _ message hm := by
    obtain rfl := mem_singleton.mp he
    by_contra hne
    have hs : signatureOf signedConfig 1 = .replicate 32 1 := rfl
    rw [hs, soleMac, if_neg (show message ≠ messageOf 1 [0] from hne)] at hm
    exact absurd hm (by decide)

theorem signedAlone_signedConfig : SignedAlone signedConfig [1] 1 1 := by
  intro other ho bytes _ hm
  obtain rfl := mem_singleton.mp ho
  obtain rfl : [0] = bytes := append_cancel_left hm
  rfl

theorem allValid_signedConfig : AllValid signedConfig {} [.append [1]] :=
  ⟨⟨⟨by decide, by decide⟩, ⟨rfl, trivial⟩, fun _ _ _ => .inr (mem_singleton.mpr rfl)⟩, trivial⟩

theorem exists_placed : ∃ steps log disk segment offset,
      RunsTo (Operation.start signedConfig [.append [1]]) {} steps log disk ∧
      log.getEntry signedConfig disk 1 = .ok (some 1) ∧
      Placed signedConfig disk log 1 1 segment offset := by
  obtain ⟨steps, disk, hrun, hdir⟩ := exists_run_append signedConfig allValid_signedConfig.1
  have he := hdir.agrees.getEntry_eq 0 1 le_rfl
  obtain ⟨stale, hcov⟩ := coveredBy_of_run allValid_signedConfig hrun
  obtain ⟨-, segment, offset, hp⟩ := hcov.placed le_rfl he
  exact ⟨steps, _, disk, segment, offset, hrun, he, hp⟩

/-- The record of entry 1 with one more byte, another term and no digest. -/
def strippedRecord : LogMeta where
  offset := 0
  length := 2
  term := 7
  index := 1
  digest := blank.digest

end MySuperLedger.Storage
