import MySuperLedger.Storage.SegmentLog

/-! # What the files of a segment hold

A block is the list of entries that one segment stores. `Holds` says that the
two files of a name store a block: the meta file is the records of the entries
followed by a tail at which the scan stops, the data file starts with the bytes
of the entries. From that a recovery finds exactly the block.
-/

namespace MySuperLedger.Storage

open Collections Effects List Option Segment

variable {Entry : Type} (config : Config Entry)

/-- How many records the meta file has room for. -/
def Config.slots : Nat := config.metaSizeLimit / metaSize

/-- The node has the key that the entry names, if it signs at all. -/
def CanSign (entry : Entry) : Prop :=
  config.crypto.isEnabled = true → config.format.secretKeyVersion entry = 0 ∨
    config.format.secretKeyVersion entry ∈ config.crypto.descendingVersions

def recordOf (offset : Nat) (entry : Entry) : LogMeta where
  offset := offset
  length := byteSize config entry
  term := config.format.term entry
  index := config.format.index entry
  digest := if config.crypto.isEnabled then
      config.crypto.hmac (signingVersion config entry) (config.format.index entry)
        (config.format.serialize entry)
    else LogMeta.blank.digest

@[simp] theorem recordOf_offset (offset : Nat) (entry : Entry) :
    (recordOf config offset entry).offset = offset := rfl

@[simp] theorem recordOf_length (offset : Nat) (entry : Entry) :
    (recordOf config offset entry).length = byteSize config entry := rfl

/-- The records of entries that lie one behind the other from `offset` on. -/
def recordsOf (offset : Nat) : List Entry → List LogMeta
  | [] => []
  | entry :: entries =>
    recordOf config offset entry :: recordsOf (offset + byteSize config entry) entries

def Numbered (first : Nat) : List Entry → Prop
  | [] => True
  | entry :: entries => config.format.index entry = first ∧ Numbered (first + 1) entries

def bytesOf (entries : List Entry) : List UInt8 := entries.flatMap config.format.serialize

variable {config}

@[simp] theorem length_recordsOf (offset : Nat) (entries : List Entry) :
    (recordsOf config offset entries).length = entries.length := by
  induction entries generalizing offset with
  | nil => rfl
  | cons entry entries ih => simp [recordsOf, ih]

@[simp] theorem length_bytesOf (entries : List Entry) :
    (bytesOf config entries).length = dataLength config entries := by
  induction entries with
  | nil => rfl
  | cons entry entries ih =>
    simp only [bytesOf, flatMap_cons, length_append] at ih ⊢
    rw [ih]
    simp [dataLength, byteSize]

@[simp] theorem dataLength_nil : dataLength config [] = 0 := rfl

@[simp] theorem dataLength_cons (entry : Entry) (entries : List Entry) :
    dataLength config (entry :: entries) =
      byteSize config entry + dataLength config entries := by
  simp [dataLength]

theorem dataLength_append (entries later : List Entry) : dataLength config (entries ++ later) =
      dataLength config entries + dataLength config later := by
  simp [dataLength]

theorem bytesOf_append (entries later : List Entry) :
    bytesOf config (entries ++ later) = bytesOf config entries ++ bytesOf config later := by
  simp [bytesOf]

theorem recordsOf_append (offset : Nat) (entries later : List Entry) :
    recordsOf config offset (entries ++ later) = recordsOf config offset entries ++
        recordsOf config (offset + dataLength config entries) later := by
  induction entries generalizing offset with
  | nil => simp [recordsOf]
  | cons entry entries ih => simp [recordsOf, ih, Nat.add_assoc]

variable {entries : List Entry} {entry : Entry} {first : Nat}

theorem recordsOf_getElem? {k : Nat} (offset : Nat) (h : entries[k]? = some entry) :
    (recordsOf config offset entries)[k]? =
      some (recordOf config (offset + dataLength config (entries.take k)) entry) := by
  induction entries generalizing offset k with
  | nil => simp at h
  | cons head entries ih =>
    cases k with
    | zero =>
      obtain rfl : head = entry := by simpa using h
      simp [recordsOf]
    | succ k =>
      have h : entries[k]? = some entry := by simpa using h
      simp [recordsOf, ih _ h, Nat.add_assoc]

theorem numbered_append {later : List Entry} : Numbered config first (entries ++ later) ↔
      Numbered config first entries ∧ Numbered config (first + entries.length) later := by
  induction entries generalizing first with
  | nil => simp [Numbered]
  | cons entry entries ih =>
    simp only [cons_append, Numbered, ih, length_cons, and_assoc]
    rw [Nat.add_assoc, Nat.add_comm 1]

theorem Numbered.take (h : Numbered config first entries) (n : Nat) :
    Numbered config first (entries.take n) := by
  rw [← take_append_drop n entries] at h
  exact (numbered_append.mp h).1

theorem Numbered.index_eq {k : Nat} (h : Numbered config first entries)
    (hk : entries[k]? = some entry) : config.format.index entry = first + k := by
  induction entries generalizing first k with
  | nil => simp at hk
  | cons head entries ih =>
    cases k with
    | zero =>
      obtain rfl : head = entry := by simpa using hk
      exact h.1
    | succ k =>
      have hi := ih h.2 (by simpa using hk)
      omega

theorem signingVersion_mem (h : CanSign config entry) (he : config.crypto.isEnabled = true) :
    signingVersion config entry ∈ config.crypto.descendingVersions := by
  have hne := config.crypto.versions_ne_nil he
  by_cases hz : config.format.secretKeyVersion entry = 0
  · rw [signingVersion, if_pos hz, getLastD_eq_getLast?, getLast?_eq_some_getLast hne]
    exact getLast_mem hne
  · rw [signingVersion, if_neg hz]
    exact (h he).resolve_left hz

theorem createHMAC_eq (h : CanSign config entry) (offset : Nat) :
    createHMAC config entry = .ok (recordOf config offset entry).digest := by
  cases he : config.crypto.isEnabled with
  | false => simp [createHMAC, recordOf, he]
  | true => simp [createHMAC, recordOf, he, signingVersion_mem h he]

theorem recordsFor_eq {offset : Nat} (hn : Numbered config first entries)
    (hsign : ∀ entry ∈ entries, CanSign config entry) :
    recordsFor config offset first entries = .ok (recordsOf config offset entries) := by
  induction entries generalizing offset first with
  | nil => rfl
  | cons entry entries ih =>
    obtain ⟨rfl, hr⟩ := hn
    obtain ⟨hf, hs⟩ := forall_mem_cons.mp hsign
    simp only [recordsFor, ensure_of, createHMAC_eq hf offset, ih hr hs]
    rfl

/-- The scan stops at the head of `tail`. -/
def Stops (next : Nat) (tail : List LogMeta) : Prop := ∀ record ∈ tail.head?, record.index ≠ next

theorem scan_recordsOf {lastIndex offset : Nat} {tail : List LogMeta}
    (hnum : Numbered config (lastIndex + 1) entries)
    (hs : Stops (lastIndex + 1 + entries.length) tail) :
    scan lastIndex (recordsOf config offset entries ++ tail) =
      lastIndex + entries.length := by
  induction entries generalizing lastIndex offset with
  | nil =>
    cases tail with
    | nil => rfl
    | cons record tail =>
      have hne : record.index ≠ lastIndex + 1 := hs record rfl
      simp [recordsOf, scan, hne]
  | cons entry entries ih =>
    obtain ⟨hi, hr⟩ := hnum
    have hn : lastIndex + 1 + (entries.length + 1) = lastIndex + 1 + 1 + entries.length := by
      omega
    have hs : Stops (lastIndex + 1 + 1 + entries.length) tail := by
      rwa [length_cons, hn] at hs
    have hscan : scan (lastIndex + 1)
        (recordsOf config (offset + byteSize config entry) entries ++ tail) =
          lastIndex + 1 + entries.length := ih hr hs
    simp only [recordsOf, cons_append, scan, recordOf, hi, if_true, hscan, length_cons]
    omega

variable (config)

def segmentOf (isActive : Bool) (first : Nat) (entries : List Entry) : Segment where
  isActive := isActive
  firstIndex := first
  lastIndex := first + entries.length - 1
  dataSizeLimit := config.dataSizeLimit
  dataOffset := dataLength config entries
  metaSizeLimit := config.metaSizeLimit
  metaOffset := entries.length * metaSize

/-- The files of `name` store the block `entries` from index `first` on. -/
structure Holds (disk : Disk) (name : SegmentName) (first : Nat) (entries : List Entry)
    (tail : List LogMeta) : Prop where
  records_eq : disk.metas.lookup name = some (recordsOf config 0 entries ++ tail)
  length_eq : entries.length + tail.length = config.slots
  data_eq : ∃ rest, disk.datas.lookup name = some (bytesOf config entries ++ rest) ∧
    dataLength config entries + rest.length = config.dataSizeLimit
  numbered : Numbered config first entries
  signed : ∀ entry ∈ entries, CanSign config entry
  stops : Stops (first + entries.length) tail

variable {config}

theorem slots_mul_metaSize : config.slots * metaSize = config.metaSizeLimit := by
  have hd : metaSize ∣ config.metaSizeLimit :=
    Nat.dvd_trans (by decide) config.meta_aligned.2
  exact Nat.div_mul_cancel hd

section

variable {disk : Disk} {name : SegmentName} {first : Nat} {entries : List Entry}
  {tail : List LogMeta}

theorem dataOffset_eq (hpos : 0 < first) :
    (if isEmpty first (first + entries.length - 1) then 0 else
      (((recordsOf config 0 entries ++ tail)[first + entries.length - 1 - first]?).getD
        .blank).offset +
      (((recordsOf config 0 entries ++ tail)[first + entries.length - 1 - first]?).getD
        .blank).length) = dataLength config entries := by
  rcases eq_nil_or_concat' entries with rfl | ⟨front, entry, rfl⟩
  · have hn : Segment.isEmpty first (first + ([] : List Entry).length - 1) = true := by
      simp [Segment.isEmpty]
      omega
    rw [if_pos hn, dataLength_nil]
  · have hn : Segment.isEmpty first (first + (front ++ [entry]).length - 1) = false := by
      simp [Segment.isEmpty]
      omega
    have hp : first + (front ++ [entry]).length - 1 - first = front.length := by simp
    have hr : (recordsOf config 0 (front ++ [entry]))[front.length]? =
        some (recordOf config (0 + dataLength config
          ((front ++ [entry]).take front.length)) entry) :=
      recordsOf_getElem? 0 getElem?_concat_length
    have hlt : front.length < (recordsOf config 0 (front ++ [entry])).length := by simp
    rw [hn, hp, getElem?_append_left hlt, hr]
    simp [recordOf, dataLength_append]

theorem Holds.recover (h : Holds config disk name first entries tail) (hpos : 0 < first)
    (hname : name = .active first ∨ name = .closed first (first + entries.length - 1)) :
    recoverActiveOrClosedSegment disk name =
      .ok (segmentOf config (name = .active first) first entries) := by
  obtain ⟨rest, hdata, hsize⟩ := h.data_eq
  have hfst : name.firstIndex = first := by rcases hname with rfl | rfl <;> rfl
  have hscan : scan (first - 1) (recordsOf config 0 entries ++ tail) =
      first + entries.length - 1 := by
    rw [scan_recordsOf]
    · omega
    · rw [Nat.sub_add_cancel hpos]
      exact h.numbered
    · rw [Nat.sub_add_cancel hpos]
      exact h.stops
  have hoff : first + entries.length - 1 + 1 - first = entries.length := by omega
  have hmeta : (recordsOf config 0 entries ++ tail).length = config.slots := by
    simpa using h.length_eq
  have hlen : (bytesOf config entries ++ rest).length = config.dataSizeLimit := by
    simpa using hsize
  have hroom : entries.length ≤ config.slots := by
    have := h.length_eq
    omega
  unfold recoverActiveOrClosedSegment
  rw [hdata, h.records_eq, hfst]
  simp only [found, bind, Except.bind, hscan, hoff, hmeta, dataOffset_eq hpos, hlen,
    slots_mul_metaSize]
  have hmet : entries.length * metaSize ≤ config.metaSizeLimit := by
    rw [← slots_mul_metaSize]
    exact Nat.mul_le_mul_right _ hroom
  have hdat : dataLength config entries ≤ config.dataSizeLimit := by omega
  simp only [ensure_of hname, ensure_of hmet, ensure_of hdat]
  rfl

theorem Holds.congr {disk' : Disk} {name' : SegmentName}
    (h : Holds config disk name first entries tail)
    (hm : disk'.metas.lookup name' = disk.metas.lookup name)
    (hd : disk'.datas.lookup name' = disk.datas.lookup name) :
    Holds config disk' name' first entries tail :=
  { h with
    records_eq := hm.trans h.records_eq
    data_eq := by
      rw [hd]
      exact h.data_eq }

theorem isWithInBoundary_segmentOf (isActive : Bool) (hp : 0 < first) (k : Nat) :
    (segmentOf config isActive first entries).isWithInBoundary (first + k) =
      decide (k < entries.length) := by
  rw [Bool.eq_iff_iff]
  simp only [Segment.isWithInBoundary, Segment.isEmpty, Bool.and_eq_true, Bool.not_eq_true',
    beq_eq_false_iff_ne, decide_eq_true_eq]
  simp only [segmentOf]
  omega

section

variable {isActive : Bool} {k : Nat} {entry : Entry}

section

variable (h : Holds config disk name first entries tail)
include h

theorem Holds.record
    (hk : entries[k]? = some entry) : (disk.metaOf name)[k]? =
      some (recordOf config (dataLength config (entries.take k)) entry) := by
  have hlt : k < (recordsOf config 0 entries).length := by
    simpa using (List.getElem?_eq_some_iff.mp hk).1
  simp only [Disk.metaOf, h.records_eq, getD_some]
  rw [getElem?_append_left hlt, recordsOf_getElem? 0 hk, Nat.zero_add]

theorem Holds.getMeta (hp : 0 < first) (hk : entries[k]? = some entry) :
    getMeta disk (segmentOf config isActive first entries) name (first + k) =
      .ok (recordOf config (dataLength config (entries.take k)) entry) := by
  have hlt : k < entries.length := (List.getElem?_eq_some_iff.mp hk).1
  have hb : (segmentOf config isActive first entries).isWithInBoundary (first + k) = true :=
    (isWithInBoundary_segmentOf isActive hp k).trans (decide_eq_true hlt)
  have hi : (recordOf config (dataLength config (entries.take k)) entry).index =
      first + k := h.numbered.index_eq hk
  have hf : first + k - (segmentOf config isActive first entries).firstIndex = k :=
    Nat.add_sub_cancel_left first k
  simp only [Segment.getMeta, ensure_of hb, bind, Except.bind, hf, h.record hk, getD_some,
    ensure_of hi]
  rfl

theorem Holds.readAt (hk : entries[k]? = some entry) :
    Collections.readAt (disk.dataOf name) (dataLength config (entries.take k))
      (byteSize config entry) = config.format.serialize entry := by
  obtain ⟨rest, hd, -⟩ := h.data_eq
  obtain ⟨hlt, rfl⟩ := List.getElem?_eq_some_iff.mp hk
  have hs : bytesOf config entries = bytesOf config (entries.take k) ++
      config.format.serialize entries[k] ++ bytesOf config (entries.drop (k + 1)) := by
    conv_lhs => rw [← take_append_drop k entries, drop_eq_getElem_cons hlt]
    rw [bytesOf_append, append_assoc]
    rfl
  rw [Disk.dataOf, hd, getD_some, hs, ← length_bytesOf, byteSize, append_assoc _ _ rest]
  exact readAt_append _ _ _

end

theorem verifyHMAC_recordOf (hs : CanSign config entry) (offset : Nat) :
    verifyHMAC config (recordOf config offset entry) (config.format.serialize entry) =
      .ok () := by
  refine ensure_of ?_
  cases he : config.crypto.isEnabled with
  | false => exact .inl rfl
  | true =>
    refine .inr (.inr ⟨_, signingVersion_mem hs he, ?_⟩)
    simp [recordOf, he]

theorem Holds.getEntry
    (h : Holds config disk (segmentOf config isActive first entries).name first entries tail)
    (hp : 0 < first) (hk : entries[k]? = some entry) :
    (segmentOf config isActive first entries).getEntry config disk (first + k) =
      .ok (some entry) := by
  have hlt : k < entries.length := (List.getElem?_eq_some_iff.mp hk).1
  have hs : CanSign config entry := h.signed entry (List.mem_of_getElem? hk)
  have ho : (recordOf config (dataLength config (entries.take k)) entry).offset ≤
      (segmentOf config isActive first entries).dataOffset := by
    have hspl : dataLength config (entries.take k ++ entries.drop k) = _ :=
      dataLength_append _ _
    rw [take_append_drop] at hspl
    simp only [recordOf, segmentOf]
    omega
  simp only [Segment.getEntry, isWithInBoundary_segmentOf isActive hp k, hlt, decide_true,
    if_true, h.getMeta hp hk, bind, Except.bind, ensure_of ho]
  simp only [recordOf_offset, recordOf_length, h.readAt hk, verifyHMAC_recordOf hs,
    config.format.parse_serialize]
  rfl

end

end

end MySuperLedger.Storage
