import Mathlib.Data.Countable.Basic
import Mathlib.Logic.Equiv.List
import Mathlib.Logic.Relation
import Mathlib.Tactic.DeriveCountable
import MySuperLedger.Ledger.LogEntry
import MySuperLedger.Replica.Replay
import MySuperLedger.Storage.Tamper

/-! # Key rotation

The keys of a node have versions, and each start of the process may find newer
ones. A leader encrypts under its latest version and says so in the entry; every
node that stores the entry signs it with the key of that version. The digest does
not say which key made it, so a read tries all keys, from the one that fitted last
time on and around.
-/

namespace MySuperLedger.KeyRotation

open List Option Function
open Ledger (Serializer EventEntry Protos.CommandEntry Protos.RaftPayload)
open Storage (Digest EntryFormat LogMeta Segment ensure_eq_ok found messageOf)

abbrev Bytes := List UInt8

/-- What the keys compute. The key of a version is the same on all nodes. -/
structure Cipher where
  encrypt : UInt64 → Bytes → Bytes
  decrypt : UInt64 → Bytes → Option Bytes
  hmac : Bytes → UInt64 → Digest
  decrypt_encrypt : ∀ version bytes, decrypt version (encrypt version bytes) = some bytes

/-- `CryptoUtil` once it is enabled. The versions come from a repeated field of a message, and
an `int` counts its elements. -/
structure CryptoUtil where
  descendingVersions : List UInt64
  latestVersion : UInt64
  latest_mem : latestVersion ∈ descendingVersions
  pos : ∀ version ∈ descendingVersions, version ≠ 0
  length_lt : descendingVersions.length < 2 ^ 31

structure LogEntry where
  term : UInt64
  index : UInt64
  noop : Bool := false
  checksum : UInt64 := 0
  payload : Bytes := []
  secretKeyVersion : UInt64
  specialTag : Option (UInt64 × String) := none
  deriving DecidableEq

theorem foldl_latest_mem (versions : List UInt64) (latest : UInt64) :
    versions.foldl (fun latest version => if latest < version then version else latest) latest ∈
      latest :: versions := by
  induction versions generalizing latest with
  | nil => simp
  | cons version versions ih =>
    rw [foldl_cons]
    rcases mem_cons.mp (ih (if latest < version then version else latest)) with heq | hm
    · rw [heq]
      split <;> simp
    · simp [hm]

/-- `init` on the versions of the key file; `none` is a failed assertion. -/
def CryptoUtil.init (versions : List UInt64) : Option CryptoUtil :=
  let latest := versions.foldl
    (fun latest version => if latest < version then version else latest) 0
  if h : versions ≠ [] ∧ versions.all (· ≠ 0) ∧ versions.length < 2 ^ 31 ∧ latest ≠ 0 then
    some
      { descendingVersions := versions.insertionSort (· ≥ ·)
        latestVersion := latest
        latest_mem := by
          rw [mem_insertionSort]
          exact (mem_cons.mp (foldl_latest_mem versions 0)).resolve_left h.2.2.2
        pos := fun version hversion =>
          of_decide_eq_true (all_eq_true.mp h.2.1 version ((mem_insertionSort _).mp hversion))
        length_lt := by
          rw [length_insertionSort]
          exact h.2.2.1 }
  else none

/-- What the nodes have in common: the keys, and the wire forms of payloads and entries. -/
structure Config where
  cipher : Cipher
  payloadWire : Serializer Bytes (Protos.RaftPayload Bytes)
  entryWire : Serializer Bytes LogEntry
  byteSizeLong : LogEntry → Nat
  maxPayloadSize : Nat

variable (config : Config)

variable (crypto : CryptoUtil)

/-- `RaftLogStore::persistAsync` and `dequeue`; `none` is a failed assertion. -/
def buildCommand (term index : UInt64) (specialTag : Option (UInt64 × String))
    (payload : Protos.RaftPayload Bytes) : Option LogEntry :=
  let version := crypto.latestVersion
  let entry : LogEntry :=
    { term := term
      index := index
      payload := config.cipher.encrypt version (config.payloadWire.serializeAsString payload)
      secretKeyVersion := version
      specialTag := specialTag }
  if config.byteSizeLong entry ≤ config.maxPayloadSize then some entry else none

/-- The entry of `becomeLeader`. -/
def buildNoop (term index checksum : UInt64) : LogEntry where
  term := term
  index := index
  noop := true
  checksum := checksum
  secretKeyVersion := crypto.latestVersion

/-- An entry without a version belongs to the oldest one. -/
def versionOf (entry : LogEntry) : UInt64 :=
  if entry.secretKeyVersion = 0 then crypto.descendingVersions.getLastD 0
  else entry.secretKeyVersion

structure Record where
  index : UInt64
  bytes : Bytes
  digest : Digest
  deriving DecidableEq

def digestOf (index : UInt64) (bytes : Bytes) (version : UInt64) : Digest :=
  config.cipher.hmac (messageOf index.toNat bytes) version

/-- What `Segment::appendEntries` keeps of one entry. A version that is not known ends the
process. -/
def createHMAC (entry : LogEntry) : Option Record :=
  let bytes := config.entryWire.serializeAsString entry
  if versionOf crypto entry ∈ crypto.descendingVersions then
    some ⟨entry.index, bytes, digestOf config entry.index bytes (versionOf crypto entry)⟩
  else none

/-- The position that turn `i` of the loop tries, in 64-bit arithmetic. -/
def tryVersionIndex (recent : UInt64) (i : Nat) : Nat :=
  let versionCnt := UInt64.ofNat crypto.descendingVersions.length
  ((recent + UInt64.ofNat i + versionCnt) % versionCnt).toNat

/-- One turn: the key at `index` makes the digest of the record, and is remembered. -/
def tryKey (record : Record) (index : Nat) : Option UInt64 :=
  if (crypto.descendingVersions[index]?).map (digestOf config record.index record.bytes) =
      some record.digest then some (UInt64.ofNat index)
  else none

/-- The new `mRecentUsedSecKeyIndex`; `none` is the failed assertion. -/
def verifyHMAC (record : Record) (recent : UInt64) : Option UInt64 :=
  if record.digest = LogMeta.blank.digest then some recent
  else
    (List.range crypto.descendingVersions.length).findSome? fun i =>
      tryKey config crypto record (tryVersionIndex crypto recent i)

/-- `decryptEntries`: the entries, decrypted in place, and what is decoded of those that have
events. -/
def decryptEntries (crypto : CryptoUtil) :
    List LogEntry → Option (List LogEntry × List (Protos.RaftPayload Bytes))
  | [] => some ([], [])
  | entry :: entries =>
    if entry.noop then
      (decryptEntries crypto entries).map fun rest => (entry :: rest.1, rest.2)
    else if versionOf crypto entry ∈ crypto.descendingVersions then
      (config.cipher.decrypt (versionOf crypto entry) entry.payload).bind fun plain =>
        let payload := config.payloadWire.parseFromString plain
        (decryptEntries crypto entries).map fun rest =>
          ({ entry with payload := plain } :: rest.1,
            if payload.events = [] then rest.2 else payload :: rest.2)
    else none

/-- An entry as it was built, with what was encrypted unless it is a no-op. -/
structure Built where
  entry : LogEntry
  payload : Option (Protos.RaftPayload Bytes)

/-- Built by any node, at any time. -/
inductive Built.IsGenuine : Built → Prop where
  | command (crypto : CryptoUtil) (term index : UInt64) (specialTag : Option (UInt64 × String))
      {payload : Protos.RaftPayload Bytes} {entry : LogEntry} :
      buildCommand config crypto term index specialTag payload = some entry →
      IsGenuine ⟨entry, some payload⟩
  | noop (crypto : CryptoUtil) (term index checksum : UInt64) :
      IsGenuine ⟨buildNoop crypto term index checksum, none⟩

/-- The entry as the writer had it before the encryption. -/
def Built.plain (built : Built) : LogEntry :=
  { built.entry with
    payload := (built.payload.map config.payloadWire.serializeAsString).getD built.entry.payload }

def Built.bundle (built : Built) : Option (Protos.RaftPayload Bytes) :=
  built.payload.filter fun payload => !payload.events.isEmpty

/-- A start that finds the old versions and newer ones. -/
def CryptoUtil.Restarts (crypto after : CryptoUtil) : Prop :=
  (∃ versions, CryptoUtil.init versions = some after) ∧
    (∀ version ∈ crypto.descendingVersions, version ∈ after.descendingVersions) ∧
    ∀ version ∈ after.descendingVersions, version ∉ crypto.descendingVersions →
      ∀ older ∈ crypto.descendingVersions, older < version

structure Stored where
  record : Record
  origin : Built

/-- Stored at some time by a node that has the keys `now` after any number of restarts. -/
structure Stored.IsOf (now : CryptoUtil) (stored : Stored) : Prop where
  origin : stored.origin.IsGenuine config
  record : ∃ crypto, createHMAC config crypto stored.origin.entry = some stored.record ∧
    Relation.ReflTransGen CryptoUtil.Restarts crypto now

/-- Reads of one segment, each from where the last one left `mRecentUsedSecKeyIndex`. -/
def readAll (recent : UInt64) (records : List Record) : Option UInt64 :=
  records.foldlM (fun recent record => verifyHMAC config crypto record recent) recent

theorem exists_turn {k cnt : Nat} (start : Nat) (hk : k < cnt) :
    ∃ i < cnt, (start + i + cnt) % cnt = k := by
  have hc : 0 < cnt := Nat.zero_lt_of_lt hk
  have hr : start % cnt < cnt := Nat.mod_lt _ hc
  have hs : start + (k + (cnt - start % cnt)) = k + cnt * (start / cnt + 1) := by
    have hd := Nat.mod_add_div start cnt
    rw [Nat.mul_add_one]
    omega
  refine ⟨(k + (cnt - start % cnt)) % cnt, Nat.mod_lt _ hc, ?_⟩
  rw [Nat.add_mod_right, Nat.add_mod_mod, hs, Nat.add_mul_mod_self_left, Nat.mod_eq_of_lt hk]

variable {crypto : CryptoUtil} {recent : UInt64} {record : Record}

theorem tryVersionIndex_eq {i : Nat} (hi : i < crypto.descendingVersions.length)
    (hr : recent.toNat + 2 * crypto.descendingVersions.length ≤ 2 ^ 64) :
    tryVersionIndex crypto recent i = (recent.toNat + i + crypto.descendingVersions.length) %
        crypto.descendingVersions.length := by
  have hc : crypto.descendingVersions.length < 2 ^ 64 := by omega
  have hturn : i < 2 ^ 64 := by omega
  have hs : recent.toNat + i < 2 ^ 64 := by omega
  have ht : recent.toNat + i + crypto.descendingVersions.length < 2 ^ 64 := by omega
  simp only [tryVersionIndex, UInt64.toNat_mod, UInt64.toNat_add, UInt64.toNat_ofNat',
    Nat.mod_eq_of_lt hc, Nat.mod_eq_of_lt hturn, Nat.mod_eq_of_lt hs,
    Nat.mod_eq_of_lt ht]

variable {config}

/-- Wherever the search starts, it ends with a key that made the digest if there is one. -/
theorem verifyHMAC_isSome_iff (hr : recent.toNat + 2 * crypto.descendingVersions.length ≤ 2 ^ 64) :
    (verifyHMAC config crypto record recent).isSome ↔
      record.digest = LogMeta.blank.digest ∨ ∃ version ∈ crypto.descendingVersions,
        digestOf config record.index record.bytes version = record.digest := by
  unfold verifyHMAC
  split
  · rename_i hb
    exact iff_of_true rfl (.inl hb)
  · rename_i hb
    simp only [hb, false_or, findSome?_isSome_iff, mem_range]
    constructor
    · rintro ⟨i, -, hi⟩
      unfold tryKey at hi
      split at hi
      · rename_i hf
        obtain ⟨version, hg, hd⟩ := map_eq_some_iff.mp hf
        exact ⟨version, mem_of_getElem? hg, hd⟩
      · cases hi
    · rintro ⟨version, hkn, hd⟩
      obtain ⟨k, hk, hg⟩ := mem_iff_getElem.mp hkn
      obtain ⟨i, hi, ht⟩ := exists_turn recent.toNat hk
      refine ⟨i, hi, ?_⟩
      rw [tryVersionIndex_eq hi hr, ht, tryKey, getElem?_eq_getElem hk, hg]
      simp [hd]

theorem verifyHMAC_lt {after : UInt64} (hr : recent.toNat < crypto.descendingVersions.length)
    (h : verifyHMAC config crypto record recent = some after) :
    after.toNat < crypto.descendingVersions.length := by
  unfold verifyHMAC at h
  split at h
  · cases h
    exact hr
  · obtain ⟨i, -, hi⟩ := List.exists_of_findSome?_eq_some h
    unfold tryKey at hi
    split at hi
    · rename_i hf
      cases hi
      obtain ⟨version, hg, -⟩ := map_eq_some_iff.mp hf
      have hlt := (List.getElem?_eq_some_iff.mp hg).1
      have hs := crypto.length_lt
      rw [UInt64.toNat_ofNat', Nat.mod_eq_of_lt (by omega)]
      exact hlt
    · exact absurd hi (by simp)

/-- The entries as a segment sees them. -/
def Config.format (config : Config) : EntryFormat LogEntry where
  term entry := entry.term.toNat
  index entry := entry.index.toNat
  secretKeyVersion entry := entry.secretKeyVersion.toNat
  serialize := config.entryWire.serializeAsString
  parse bytes := some (config.entryWire.parseFromString bytes)
  parse_serialize entry := by rw [config.entryWire.parse_serialize]

/-- The keys as a segment sees them. -/
def CryptoUtil.keys (config : Config) (crypto : CryptoUtil) : Storage.CryptoUtil where
  isEnabled := true
  descendingVersions := crypto.descendingVersions.map UInt64.toNat
  versions_ne_nil _ := by simpa using ne_nil_of_mem crypto.latest_mem
  hmac version index bytes := config.cipher.hmac (messageOf index bytes) (UInt64.ofNat version)

theorem signingVersion_eq {segments : Storage.Config LogEntry}
    (hf : segments.format = config.format) (hc : segments.crypto = crypto.keys config)
    (entry : LogEntry) :
    Segment.signingVersion segments entry = (versionOf crypto entry).toNat := by
  have hz : entry.secretKeyVersion.toNat = 0 ↔ entry.secretKeyVersion = 0 :=
    UInt64.toNat_inj (b := 0)
  simp only [Segment.signingVersion, hf, hc, Config.format, CryptoUtil.keys, versionOf, hz]
  split
  · induction crypto.descendingVersions using reverseRecOn <;> simp
  · rfl

/-- A segment that stores these entries under these keys signs as said here, and its check
of a record has the outcome of the search, wherever that starts. -/
theorem segment_agrees {segments : Storage.Config LogEntry} (hf : segments.format = config.format)
    (hc : segments.crypto = crypto.keys config) :
    (∀ entry, Segment.createHMAC segments entry =
      found .keyVersion ((createHMAC config crypto entry).map Record.digest)) ∧
    ∀ record : Record, ∀ stored : LogMeta, stored.index = record.index.toNat →
      stored.digest = record.digest →
      ∀ recent : UInt64, recent.toNat + 2 * crypto.descendingVersions.length ≤ 2 ^ 64 →
        (Segment.verifyHMAC segments stored record.bytes = .ok () ↔
          (verifyHMAC config crypto record recent).isSome) := by
  have hmem : ∀ version : UInt64, version.toNat ∈ crypto.descendingVersions.map UInt64.toNat ↔
      version ∈ crypto.descendingVersions :=
    fun _ => mem_map_of_injective fun _ _ => UInt64.toNat_inj.mp
  constructor
  · intro entry
    rw [Segment.createHMAC, signingVersion_eq hf hc, hc, hf]
    simp only [CryptoUtil.keys, hmem, createHMAC, Config.format]
    split
    · cases ‹true = false›
    · split
      · simp [found, digestOf]
      · rfl
  · intro record stored hi hd recent hr
    rw [Segment.verifyHMAC, ensure_eq_ok, verifyHMAC_isSome_iff hr, hc, hi, hd]
    simp [CryptoUtil.keys, digestOf]

namespace Built.IsGenuine

variable {built : Built}

theorem version_ne (h : built.IsGenuine config) : built.entry.secretKeyVersion ≠ 0 := by
  cases h with
  | command crypto term index specialTag hb =>
    simp only [buildCommand, ite_none_right_eq_some, some.injEq] at hb
    obtain ⟨-, rfl⟩ := hb
    exact crypto.pos _ crypto.latest_mem
  | noop crypto => exact crypto.pos _ crypto.latest_mem

theorem versionOf_eq (h : built.IsGenuine config) (crypto : CryptoUtil) :
    versionOf crypto built.entry = built.entry.secretKeyVersion :=
  if_neg h.version_ne

end Built.IsGenuine

namespace Stored.IsOf

variable {now : CryptoUtil} {stored : Stored}

/-- The key of the entry's version has signed it and is still there. -/
theorem signed (h : stored.IsOf config now) :
    stored.origin.entry.secretKeyVersion ∈ now.descendingVersions ∧
      stored.record = ⟨stored.origin.entry.index,
        config.entryWire.serializeAsString stored.origin.entry,
        digestOf config stored.origin.entry.index
          (config.entryWire.serializeAsString stored.origin.entry)
          stored.origin.entry.secretKeyVersion⟩ := by
  obtain ⟨crypto, hc, hres⟩ := h.record
  simp only [createHMAC, h.origin.versionOf_eq, ite_none_right_eq_some, some.injEq] at hc
  refine ⟨?_, hc.2.symm⟩
  clear h
  induction hres with
  | refl => exact hc.1
  | tail _ hr ih => exact hr.2.1 _ ih

theorem accepted (h : stored.IsOf config now) {recent : UInt64}
    (hr : recent.toNat + 2 * now.descendingVersions.length ≤ 2 ^ 64) :
    (verifyHMAC config now stored.record recent).isSome := by
  obtain ⟨hk, hrec⟩ := h.signed
  refine (verifyHMAC_isSome_iff hr).mpr (.inr ⟨_, hk, ?_⟩)
  rw [hrec]

theorem parse_eq (h : stored.IsOf config now) :
    config.entryWire.parseFromString stored.record.bytes = stored.origin.entry := by
  rw [h.signed.2]
  exact config.entryWire.parse_serialize _

end Stored.IsOf

section

variable {now : CryptoUtil} {reads : List Stored}

section

variable (h : ∀ stored ∈ reads, stored.IsOf config now)
include h

theorem exists_readAll {recent : UInt64} (hr : recent.toNat < now.descendingVersions.length) :
    ∃ after, readAll config now recent (reads.map Stored.record) = some after ∧
      after.toNat < now.descendingVersions.length := by
  induction reads generalizing recent with
  | nil => exact ⟨recent, rfl, hr⟩
  | cons stored reads ih =>
    obtain ⟨hf, hrest⟩ := forall_mem_cons.mp h
    have hs := now.length_lt
    have hbd : recent.toNat + 2 * now.descendingVersions.length ≤ 2 ^ 64 := by omega
    obtain ⟨next, hn⟩ := isSome_iff_exists.mp (hf.accepted hbd)
    obtain ⟨after, ha, hlt⟩ := ih hrest (verifyHMAC_lt hr hn)
    refine ⟨after, ?_, hlt⟩
    rw [readAll, map_cons, foldlM_cons, hn]
    exact ha

theorem decryptEntries_eq :
    decryptEntries config now (reads.map fun stored => stored.origin.entry) =
      some (reads.map fun stored => stored.origin.plain config,
        reads.filterMap fun stored => stored.origin.bundle) := by
  induction reads with
  | nil => rfl
  | cons stored reads ih =>
    obtain ⟨hf, hr⟩ := forall_mem_cons.mp h
    have hv := hf.origin.versionOf_eq now
    have hkn := hf.signed.1
    have ho := hf.origin
    obtain ⟨record, entry, payload⟩ := stored
    cases ho with
    | noop crypto term index checksum =>
      have hbun : Built.bundle ⟨buildNoop crypto term index checksum, none⟩ = none := rfl
      simp only [map_cons, decryptEntries, ih hr, filterMap_cons, hbun]
      rfl
    | @command crypto term index specialTag payload entry hb =>
      simp only [buildCommand, ite_none_right_eq_some, some.injEq] at hb
      obtain ⟨-, rfl⟩ := hb
      simp only [map_cons, decryptEntries, ih hr, hv, hkn, if_true,
        config.cipher.decrypt_encrypt, config.payloadWire.parse_serialize, bind_some]
      by_cases he : payload.events = [] <;>
        simp [Built.plain, Built.bundle, filter_some, he]

/-- If `encode` is how a leader writes down a payload of the replicated log, the replicas decode
the payloads that are handed on here. -/
theorem decryptEntries_agrees {encode : Replica.RaftPayload → Protos.RaftPayload Bytes}
    (hen : ∀ payload, (encode payload).events = [] ↔ payload.events = []) {log : List Replica.Entry}
    (hlog : reads.map (fun stored => stored.origin.payload) =
      log.map fun entry => if entry.noop then none else some (encode entry.payload)) :
    decryptEntries config now (reads.map fun stored => stored.origin.entry) =
        some (reads.map fun stored => stored.origin.plain config,
          (log.filter fun entry => entry.events ≠ []).map fun entry => encode entry.payload) ∧
      Replica.decryptEntries log =
        (log.filter fun entry => entry.events ≠ []).mapM fun entry => entry.payload.decode := by
  have hhanded : reads.filterMap (fun stored => stored.origin.bundle) =
      (reads.map fun stored => stored.origin.payload).filterMap
        (·.filter fun payload => !payload.events.isEmpty) := by
    rw [filterMap_map]
    rfl
  rw [decryptEntries_eq h, hhanded, hlog]
  clear hlog hhanded h
  induction log with
  | nil => exact ⟨rfl, rfl⟩
  | cons entry log ih =>
    obtain ⟨ih, ih'⟩ := ih
    simp only [Option.some.injEq, Prod.mk.injEq, true_and] at ih ⊢
    rw [map_cons, filterMap_cons, ih, Replica.decryptEntries, ih']
    cases hn : entry.noop with
    | true => simp [Replica.Entry.events, hn]
    | false =>
      by_cases he : entry.payload.events = []
      · simp [Replica.Entry.events, hn, he, hen, Option.filter_some]
      · simp [Replica.Entry.events, hn, he, hen, Option.filter_some, Option.map_eq_bind]

end

/-- What was stored under any version of the past can be read under the keys of today: the
digest is accepted wherever the search starts, in every order of reads the search starts below
the number of keys, and the payloads come back as they were. -/
theorem rotation_keeps_readable (h : ∀ stored ∈ reads, stored.IsOf config now) :
    (∀ stored ∈ reads, ∀ recent : UInt64,
      recent.toNat + 2 * now.descendingVersions.length ≤ 2 ^ 64 →
      (verifyHMAC config now stored.record recent).isSome) ∧
    0 < now.descendingVersions.length ∧
    (∀ recent : UInt64, recent.toNat < now.descendingVersions.length →
      ∃ after, readAll config now recent (reads.map Stored.record) = some after ∧
        after.toNat < now.descendingVersions.length) ∧
    decryptEntries config now
        (reads.map fun stored => config.entryWire.parseFromString stored.record.bytes) =
      some (reads.map fun stored => stored.origin.plain config,
        reads.filterMap fun stored => stored.origin.bundle) := by
  refine ⟨fun stored hm recent hr => (h stored hm).accepted hr,
    length_pos_of_mem now.latest_mem, fun recent hr => exists_readAll h hr, ?_⟩
  rw [← decryptEntries_eq h, map_congr_left fun stored hm => (h stored hm).parse_eq]

end

instance countableUInt64 : Countable UInt64 := Injective.countable fun _ _ => UInt64.toNat_inj.mp

instance countableUInt8 : Countable UInt8 := Injective.countable fun _ _ => UInt8.toNat_inj.mp

instance countableChar : Countable Char := Injective.countable fun _ _ => Char.toNat_inj.mp

instance countableString : Countable String := Injective.countable fun _ _ => String.toList_inj.mp

deriving instance Countable for LogEntry, Protos.CommandEntry, EventEntry, Protos.RaftPayload

/-- Some wire form of countably many messages. -/
noncomputable def serializerOf (Message : Type) [Countable Message] [Nonempty Message] :
    Serializer Bytes Message where
  serializeAsString message := .replicate ((exists_injective_nat Message).choose message) 0
  parseFromString bytes := invFun (exists_injective_nat Message).choose bytes.length
  parse_serialize message := by
    rw [length_replicate]
    exact leftInverse_invFun (exists_injective_nat Message).choose_spec message

def samplePayload : Protos.RaftPayload Bytes := ⟨⟨1, 1, 0, [7], 0, 0, 0, ""⟩, []⟩

instance : Nonempty (Protos.RaftPayload Bytes) := ⟨samplePayload⟩

instance : Nonempty LogEntry := ⟨⟨1, 1, true, 0, [], 1, none⟩⟩

theorem decrypt_encrypt_sample (version : UInt64) (bytes : Bytes) :
    some ((bytes.map (· + version.toUInt8)).map (· - version.toUInt8)) = some bytes := by
  simp [comp_def]

noncomputable def sampleConfig : Config where
  cipher :=
    { encrypt version bytes := bytes.map (· + version.toUInt8)
      decrypt version bytes := some (bytes.map (· - version.toUInt8))
      hmac _ version := .replicate 32 version.toUInt8
      decrypt_encrypt := decrypt_encrypt_sample }
  payloadWire := serializerOf _
  entryWire := serializerOf _
  byteSizeLong _ := 0
  maxPayloadSize := 4000000

theorem sample_mem : (1 : UInt64) ∈ [(1 : UInt64)] := mem_singleton_self _

theorem sample_pos : ∀ version ∈ [(1 : UInt64)], version ≠ 0 := by simp

theorem sample_length : [(1 : UInt64)].length < 2 ^ 31 := by decide

def firstKey : CryptoUtil := ⟨[1], 1, sample_mem, sample_pos, sample_length⟩

theorem exists_secondKey : ∃ now, firstKey.Restarts now ∧ now.descendingVersions = [2, 1] := by
  have hi : (CryptoUtil.init [1, 2]).map CryptoUtil.descendingVersions = some [2, 1] := by
    decide
  obtain ⟨now, hn, hv⟩ := map_eq_some_iff.mp hi
  refine ⟨now, ⟨⟨_, hn⟩, ?_, ?_⟩, hv⟩ <;> rw [hv] <;> simp [firstKey]

/-- The entry of the first version is read, again and again, under two keys. -/
theorem rotated_entry_readable : ∃ now : CryptoUtil, ∃ record : Record,
    now.descendingVersions = [2, 1] ∧ (readAll sampleConfig now 0 [record, record]).isSome := by
  obtain ⟨now, hres, hv⟩ := exists_secondKey
  have hc : ∃ record, createHMAC sampleConfig firstKey (buildNoop firstKey 1 1 0) =
      some record := ⟨_, rfl⟩
  obtain ⟨record, hc⟩ := hc
  have hs : Stored.IsOf sampleConfig now ⟨record, buildNoop firstKey 1 1 0, none⟩ :=
    ⟨.noop .., firstKey, hc, .single hres⟩
  obtain ⟨-, hp, hr, -⟩ := rotation_keeps_readable
    (forall_mem_cons.mpr ⟨hs, forall_mem_singleton.mpr hs⟩)
  obtain ⟨after, ha, -⟩ := hr 0 hp
  exact ⟨now, record, hv, isSome_iff_exists.mpr ⟨after, ha⟩⟩

end MySuperLedger.KeyRotation
