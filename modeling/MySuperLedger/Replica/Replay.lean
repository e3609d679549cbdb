import MySuperLedger.Ledger.Checkpoint
import MySuperLedger.Raft.Log

/-! # The ledger a log stands for

A log entry carries a command and the events it emitted, or nothing if it is the
empty entry of a new leader. Applying the events of a log from the empty state
gives the state the log stands for. A log is genuine if every entry is what its
command emits in the state of the entries before it; such a log never trips an
assertion and records no journal entry twice.

Events are values here. An entry whose events are not of version 1 cannot be
decoded, which ends the process.
-/

namespace MySuperLedger.Replica

open Ledger Raft Collections List

/-- `es::RaftPayload`. Command ids start at 1. -/
structure RaftPayload where
  id : UInt64
  command : Command
  events : List Event
  id_pos : 0 < id
  deriving DecidableEq

abbrev Entry := LogEntry RaftPayload

/-- What an entry makes the ledger do. -/
def Entry.events (entry : Entry) : List Event := if entry.noop then [] else entry.payload.events

def RaftPayload.decode (payload : RaftPayload) : Option Bundle :=
  if h : ∀ event ∈ payload.events, event.payload.IsV1 then
    some ⟨payload.id, payload.events, payload.id_pos, h⟩
  else none

/-- `decryptEntries`: no-ops and commands without events are skipped. -/
def decryptEntries : List Entry → Option (List Bundle)
  | [] => some []
  | entry :: entries =>
    if entry.events = [] then decryptEntries entries
    else
      entry.payload.decode.bind fun bundle =>
        (decryptEntries entries).map fun bundles => bundle :: bundles

def eventsIn (log : List Entry) : List Event := log.flatMap Entry.events

def stateAfter (s : AppState) (events : List Event) : Option AppState :=
  (applyEvents s events).map Prod.fst

/-- The state a log stands for. -/
def replay (log : List Entry) : Option AppState := stateAfter {} (eventsIn log)

def Event.recordedId (event : Event) : Option String :=
  match event.payload with
  | .journalEntryRecorded journalEntry => some journalEntry.id
  | .accountCreated _ => none
  | .accountMetadataConfigured _ => none

/-- The ids of the journal entries a log records, in order. -/
def recordedIds (log : List Entry) : List String := (eventsIn log).filterMap Event.recordedId

@[simp] theorem eventsIn_nil : eventsIn [] = [] := rfl

@[simp] theorem eventsIn_append (log later : List Entry) :
    eventsIn (log ++ later) = eventsIn log ++ eventsIn later := by
  simp [eventsIn]

@[simp] theorem eventsIn_singleton (entry : Entry) : eventsIn [entry] = entry.events := by
  simp [eventsIn]

variable {entry : Entry} {s : AppState} {events : List Event} {log : List Entry}
  {snapshot : DoneMap} {after : AppState} {bundle : Bundle} {entries : List Entry}
  {bundles : List Bundle} {machine : AppState}

theorem events_of_noop (h : entry.noop = true) : entry.events = [] := by
  simp [Entry.events, h]

theorem events_of_not_noop (h : entry.noop = false) : entry.events = entry.payload.events := by
  simp [Entry.events, h]

@[simp] theorem stateAfter_nil (s : AppState) : stateAfter s [] = some s := rfl

theorem stateAfter_cons (s : AppState) (event : Event) (events : List Event) :
    stateAfter s (event :: events) =
      (applyEvent s event).bind fun next => stateAfter next.1 events := by
  rw [stateAfter, applyEvents]
  cases applyEvent s event with
  | none => rfl
  | some next =>
    simp only [Option.bind_some, Option.map_map]
    rfl

theorem stateAfter_append (s : AppState) (events later : List Event) :
    stateAfter s (events ++ later) =
      (stateAfter s events).bind fun next => stateAfter next later := by
  induction events generalizing s with
  | nil => rfl
  | cons event events ih =>
    simp only [cons_append, stateAfter_cons]
    cases applyEvent s event with
    | none => rfl
    | some next => exact ih next.1

theorem absorbEvents_of_stateAfter {next : AppState} (h : stateAfter s events = some next) :
    absorbEvents s events = some next := by
  rcases Option.map_eq_some_iff.mp h with ⟨⟨last, callbacks⟩, ha, rfl⟩
  exact absorbEvents_of_applyEvents ha

theorem stateAfter_stampAll (s : AppState) (commandId nextEventId : UInt64) (events : List Event) :
    stateAfter s (stampAll commandId nextEventId events) = stateAfter s events := by
  induction events generalizing s nextEventId with
  | nil => rfl
  | cons event events ih =>
    simp only [stampAll, stateAfter_cons, ih]
    rfl

theorem replay_append (log later : List Entry) :
    replay (log ++ later) = (replay log).bind fun s => stateAfter s (eventsIn later) := by
  simp only [replay, eventsIn_append, stateAfter_append]

variable {later : List Entry} {now : UInt64} {command : Command} {hint : ProcessHint}

theorem replay_append_of_eventsIn_nil (h : eventsIn later = []) :
    replay (log ++ later) = replay log := by
  unfold replay
  rw [eventsIn_append, h, append_nil]

/-- The entry is what its command emits in the state of the entries before it. -/
def IsOutcome (before : List Entry) (entry : Entry) : Prop :=
  entry.payload.id.toNat = before.length + 1 ∧ entry.payload.events ≠ [] ∧
    ∃ now s hint events after, replay before = some s ∧
      processCommandAndApply now ∅ s entry.payload.command = some (hint, events, after) ∧
      entry.payload.events = stampAll entry.payload.id 0 events

def Genuine (log : List Entry) : Prop :=
  ∀ before entry, before ++ [entry] <+: log → entry.noop = false → IsOutcome before entry

theorem Genuine.nil : Genuine [] := by
  intro before entry hp
  simp at hp

theorem Genuine.of_isPrefix {log' : List Entry} (h : Genuine log) (hpre : log' <+: log) :
    Genuine log' :=
  fun before entry hp => h before entry (hp.trans hpre)

theorem Genuine.concat (h : Genuine log) (he : entry.noop = false → IsOutcome log entry) :
    Genuine (log ++ [entry]) := by
  intro before last hp hn
  rcases prefix_concat_iff.mp hp with heq | hp
  · have hi := append_inj' heq rfl
    rw [hi.1]
    have hl : last = entry := by simpa using hi.2
    rw [hl] at hn ⊢
    exact he hn
  · exact h before last hp hn

theorem processCommandAndApply_stateAfter
    (h : processCommandAndApply now snapshot s command = some (hint, events, after)) :
    processCommand now snapshot s command = some (hint, events) ∧
      stateAfter s events = some after := by
  rcases Option.bind_eq_some_iff.mp h with ⟨⟨hi', events'⟩, hp, h⟩
  rcases Option.map_eq_some_iff.mp h with ⟨⟨last, callbacks⟩, ha, hpair⟩
  simp only [Prod.mk.injEq] at hpair
  rcases hpair with ⟨rfl, rfl, rfl⟩
  exact ⟨hp, by simp [stateAfter, ha]⟩

theorem Genuine.exists_replay (h : Genuine log) : ∃ s, replay log = some s := by
  induction log using reverseRecOn with
  | nil => exact ⟨{}, rfl⟩
  | append_singleton log entry ih =>
    rcases ih (h.of_isPrefix (prefix_append _ _)) with ⟨s, hs⟩
    rw [replay_append, hs, Option.bind_some, eventsIn_singleton]
    cases hn : entry.noop with
    | true => exact ⟨s, by simp [events_of_noop hn]⟩
    | false =>
      rcases h log entry prefix_rfl hn with
        ⟨-, -, now, s', hint, events, after, hs', hp, he⟩
      rw [hs] at hs'
      cases hs'
      refine ⟨after, ?_⟩
      rw [events_of_not_noop hn, he, stateAfter_stampAll]
      exact (processCommandAndApply_stateAfter hp).2

theorem RaftPayload.decode_inv {payload : RaftPayload} (h : payload.decode = some bundle) :
    bundle.id = payload.id ∧ bundle.events = payload.events := by
  unfold RaftPayload.decode at h
  split at h
  · cases h
    exact ⟨rfl, rfl⟩
  · cases h

theorem decryptEntries_append (entries later : List Entry) :
    decryptEntries (entries ++ later) = (decryptEntries entries).bind fun bundles =>
      (decryptEntries later).map fun more => bundles ++ more := by
  induction entries with
  | nil => simp [decryptEntries]
  | cons entry entries ih =>
    simp only [cons_append, decryptEntries, ih]
    split
    · rfl
    · cases entry.payload.decode with
      | none => rfl
      | some bundle =>
        cases decryptEntries entries with
        | none => rfl
        | some bundles => cases decryptEntries later <;> rfl

theorem decryptEntries_append_of_some {more : List Bundle}
    (h : decryptEntries entries = some bundles) (h' : decryptEntries later = some more) :
    decryptEntries (entries ++ later) = some (bundles ++ more) := by
  rw [decryptEntries_append, h, h']
  rfl

theorem decryptEntries_cons_inv (h : decryptEntries (entry :: entries) = some bundles) :
    (entry.events = [] ∧ decryptEntries entries = some bundles) ∨
      ∃ bundle more, entry.events ≠ [] ∧ entry.payload.decode = some bundle ∧
        decryptEntries entries = some more ∧ bundles = bundle :: more := by
  simp only [decryptEntries] at h
  split at h
  · next hn => exact .inl ⟨hn, h⟩
  · rename_i hne
    rcases Option.bind_eq_some_iff.mp h with ⟨bundle, hd, h⟩
    rcases Option.map_eq_some_iff.mp h with ⟨more, hm, rfl⟩
    exact .inr ⟨bundle, more, hne, hd, hm, rfl⟩

theorem not_noop_of_events_ne (h : entry.events ≠ []) : entry.noop = false := by
  cases hn : entry.noop with
  | false => rfl
  | true => exact absurd (events_of_noop hn) h

theorem eventsOf_decryptEntries (h : decryptEntries entries = some bundles) :
    eventsOf bundles = eventsIn entries := by
  induction entries generalizing bundles with
  | nil =>
    cases h
    rfl
  | cons entry entries ih =>
    have hc : eventsIn (entry :: entries) = entry.events ++ eventsIn entries := rfl
    rcases decryptEntries_cons_inv h with ⟨hn, ht⟩ | ⟨bundle, more, hne, hd, ht, rfl⟩
    · rw [hc, hn, nil_append]
      exact ih ht
    · have he := (RaftPayload.decode_inv hd).2
      rw [hc, ← ih ht, events_of_not_noop (not_noop_of_events_ne hne), ← he]
      rfl

theorem exists_entry_of_mem (h : decryptEntries entries = some bundles) (hm : bundle ∈ bundles) :
    ∃ before entry, before ++ [entry] <+: entries ∧ entry.events ≠ [] ∧
      bundle.id = entry.payload.id := by
  induction entries generalizing bundles with
  | nil =>
    cases h
    cases hm
  | cons first entries ih =>
    rcases decryptEntries_cons_inv h with ⟨-, ht⟩ | ⟨head, more, hne, hd, ht, rfl⟩
    · rcases ih ht hm with ⟨before, entry, hp, he⟩
      exact ⟨first :: before, entry, by simpa using hp, he⟩
    · rcases mem_cons.mp hm with rfl | hm
      · exact ⟨[], first, by simp, hne, (RaftPayload.decode_inv hd).1⟩
      · rcases ih ht hm with ⟨before, entry, hp, he⟩
        exact ⟨first :: before, entry, by simpa using hp, he⟩

theorem Genuine.id_of_mem (hg : Genuine entries) (h : decryptEntries entries = some bundles)
    (hm : bundle ∈ bundles) :
    ∃ before entry, before ++ [entry] <+: entries ∧ entry.events ≠ [] ∧
      bundle.id.toNat = before.length + 1 := by
  rcases exists_entry_of_mem h hm with ⟨before, entry, hp, hne, hid⟩
  have hpos := (hg before entry hp (not_noop_of_events_ne hne)).1
  exact ⟨before, entry, hp, hne, by rw [hid, hpos]⟩

theorem Genuine.id_le_length (hg : Genuine entries) (h : decryptEntries entries = some bundles)
    (hm : bundle ∈ bundles) : bundle.id.toNat ≤ entries.length := by
  rcases hg.id_of_mem h hm with ⟨before, entry, hp, -, hid⟩
  have hl := hp.length_le
  simp at hl
  omega

theorem Genuine.increasing (hg : Genuine entries) (h : decryptEntries entries = some bundles) :
    Increasing Bundle.id bundles := by
  induction entries using reverseRecOn generalizing bundles with
  | nil =>
    cases h
    exact List.Pairwise.nil
  | append_singleton entries entry ih =>
    have hfrt := hg.of_isPrefix (prefix_append _ _)
    rw [decryptEntries_append] at h
    rcases Option.bind_eq_some_iff.mp h with ⟨stored, hsto, h⟩
    rcases Option.map_eq_some_iff.mp h with ⟨more, hmore, rfl⟩
    refine pairwise_append.mpr ⟨ih hfrt hsto, ?_, ?_⟩
    · rcases decryptEntries_cons_inv hmore with ⟨-, htail⟩ | ⟨bundle, last, -, -, htail, rfl⟩
      · cases htail
        exact List.Pairwise.nil
      · cases htail
        exact pairwise_singleton _ _
    · intro earlier hearl later hlate
      have hle := hfrt.id_le_length hsto hearl
      rcases decryptEntries_cons_inv hmore with ⟨-, htail⟩ | ⟨bundle, last, hne, hdec, htail, rfl⟩
      · cases htail
        cases hlate
      · cases htail
        have hid := (hg entries entry prefix_rfl (not_noop_of_events_ne hne)).1
        have hlate' : later = bundle := mem_singleton.mp hlate
        rw [UInt64.lt_iff_toNat_lt, hlate', (RaftPayload.decode_inv hdec).1, hid]
        omega

theorem Genuine.split {stored rest : List Bundle} (hg : Genuine entries)
    (h : decryptEntries entries = some (stored ++ rest)) :
    ∃ front back, entries = front ++ back ∧ decryptEntries front = some stored ∧
      decryptEntries back = some rest ∧ front.length = ((lastId stored).getD 0).toNat := by
  induction entries using reverseRecOn generalizing stored rest with
  | nil =>
    have hnil : stored = [] ∧ rest = [] := by simpa [decryptEntries] using h.symm
    rw [hnil.1, hnil.2]
    exact ⟨[], [], rfl, rfl, rfl, rfl⟩
  | append_singleton entries entry ih =>
    have hfrt := hg.of_isPrefix (prefix_append _ _)
    have hall := h
    rw [decryptEntries_append] at h
    rcases Option.bind_eq_some_iff.mp h with ⟨bundles, hbun, h⟩
    rcases Option.map_eq_some_iff.mp h with ⟨more, hmore, hspl⟩
    by_cases hle : stored.length ≤ bundles.length
    · have hpre : stored <+: bundles :=
        prefix_of_prefix_length_le (prefix_append _ _) (hspl ▸ prefix_append _ _)
          hle
      rcases hpre with ⟨middle, rfl⟩
      rcases ih hfrt hbun with ⟨front, back, rfl, hf, hb, hlen⟩
      have hrest : middle ++ more = rest := by simpa using hspl
      exact ⟨front, back ++ [entry], by simp, hf,
        hrest ▸ decryptEntries_append_of_some hb hmore, hlen⟩
    · rcases decryptEntries_cons_inv hmore with ⟨-, htail⟩ | ⟨bundle, last, hne, hdec, htail, rfl⟩
      · cases htail
        have hlen := congrArg length hspl
        simp at hlen
        omega
      · cases htail
        have hlen := congrArg length hspl
        simp at hlen
        have hrest : rest = [] := length_eq_zero_iff.mp (by omega)
        rw [hrest, append_nil] at hspl hall
        have hid := (hg entries entry prefix_rfl (not_noop_of_events_ne hne)).1
        refine ⟨entries ++ [entry], [], by simp, hall, by rw [hrest]; rfl, ?_⟩
        rw [← hspl, lastId_append_singleton, Option.getD_some, (RaftPayload.decode_inv hdec).1, hid]
        simp

/-- The ids that were recorded are the ids that are done, each recorded once. -/
structure RecordsOnce (events : List Event) (s : AppState) : Prop where
  mem_iff : ∀ id, id ∈ s.doneMap ↔ id ∈ events.filterMap Event.recordedId
  nodup : (events.filterMap Event.recordedId).Nodup

theorem RecordsOnce.concat {event : Event} {callbacks : List Callback} (h : RecordsOnce events s)
    (happ : applyEvent s event = some (after, callbacks)) :
    RecordsOnce (events ++ [event]) after := by
  have hdone := absorb_doneMap (absorb_of_applyEvent happ)
  have happl := applyEvent_inv happ
  cases hpay : event.payload with
  | accountCreated account | accountMetadataConfigured accountMetadata =>
    simp only [hpay] at hdone
    have hnone : Event.recordedId event = none := by simp [Event.recordedId, hpay]
    exact ⟨by simpa [hdone, hnone] using h.mem_iff, by simpa [hnone] using h.nodup⟩
  | journalEntryRecorded journalEntry =>
    simp only [hpay] at hdone
    rw [hpay] at happl
    have hsome : Event.recordedId event = some journalEntry.id := by
      simp [Event.recordedId, hpay]
    have hnew := fun hmem => happl.1 ((h.mem_iff journalEntry.id).mpr hmem)
    constructor
    · intro id
      rw [hdone, Finmap.mem_insert, h.mem_iff]
      simp [hsome, or_comm]
    · rw [filterMap_append, nodup_append]
      refine ⟨h.nodup, by simp [hsome], ?_⟩
      intro id hid later hlate heq
      have hlate' : later = journalEntry.id := by simpa [hsome, eq_comm] using hlate
      rw [heq, hlate'] at hid
      exact hnew hid

theorem RecordsOnce.stateAfter {later : List Event} (h : RecordsOnce events s)
    (ha : stateAfter s later = some after) : RecordsOnce (events ++ later) after := by
  induction later generalizing events s with
  | nil =>
    cases ha
    simpa using h
  | cons event later ih =>
    rw [stateAfter_cons] at ha
    rcases Option.bind_eq_some_iff.mp ha with ⟨⟨next, callbacks⟩, happ, hr⟩
    have hn := ih (h.concat happ) hr
    simpa using hn

theorem recordsOnce_replay (h : replay log = some s) : RecordsOnce (eventsIn log) s := by
  have hs : RecordsOnce [] {} :=
    ⟨fun id => by simp [Finmap.notMem_empty], nodup_nil⟩
  simpa using hs.stateAfter h

/-- The machine behaves like `s`: the ids that `s` has done are in its map or in the snapshot
it reads from RocksDB. -/
structure Mirrors (snapshot : DoneMap) (machine s : AppState) : Prop where
  books : SameBooks s machine
  done : ∀ id, id ∈ s.doneMap ↔ id ∈ machine.doneMap ∨ id ∈ snapshot

theorem Mirrors.isDone (h : Mirrors snapshot machine s) (id : String) :
    isDone snapshot machine id = isDone ∅ s id := by
  rw [Bool.eq_iff_iff]
  simp [Ledger.isDone, Finmap.lookup_isSome, h.done]

theorem Mirrors.processCommand (h : Mirrors snapshot machine s) (now : UInt64) (command : Command) :
    processCommand now snapshot machine command = processCommand now ∅ s command := by
  rcases h.books with ⟨hc, hm⟩
  cases command with
  | configureAccountMetadata accountMetadataOpt =>
    simp only [Ledger.processCommand, processConfigureAccountMetadata, hc, hm]
  | createAccount accountOpt =>
    simp only [Ledger.processCommand, processCreateAccount, hc]
  | recordJournalEntry journalEntryOpt =>
    simp only [Ledger.processCommand, processRecordJournalEntry, h.isDone, hc]

/-- What the machine does with a command, the state it mirrors does. -/
theorem Mirrors.processCommandAndApply {machine' : AppState} (h : Mirrors snapshot machine s)
    (hproc : processCommandAndApply now snapshot machine command = some (hint, events, machine')) :
    ∃ s', processCommandAndApply now ∅ s command = some (hint, events, s') ∧
      Mirrors snapshot machine' s' := by
  have hcmd := (processCommandAndApply_stateAfter hproc).1
  rw [h.processCommand] at hcmd
  rcases processCommandAndApply_inv hproc with ⟨rfl, rfl⟩ | ⟨payload, callbacks, rfl, hemit, happ⟩
  · exact ⟨s, by simp [Ledger.processCommandAndApply, hcmd, applyEvents], h⟩
  · -- the check for duplicates has looked at all that is done
    have hfr : ∀ journalEntry,
        (Event.ofPayload now payload).payload = .journalEntryRecorded journalEntry →
        journalEntry.id ∉ s.doneMap := by
      rintro journalEntry rfl hmem
      have hnot := hemit.2.notDone
      rcases (h.done journalEntry.id).mp hmem with hmach | hsnap
      · exact hnot.1 hmach
      · exact hnot.2 hsnap
    rcases applyEvent_of_sameBooks happ ⟨h.books.1.symm, h.books.2.symm⟩ hfr with
      ⟨s', happ', hbk⟩
    refine ⟨s', ?_, ⟨hbk.1.symm, hbk.2.symm⟩, ?_⟩
    · simp [Ledger.processCommandAndApply, hcmd, applyEvents, happ']
    · intro id
      rw [absorb_doneMap (absorb_of_applyEvent happ'), absorb_doneMap (absorb_of_applyEvent happ)]
      cases payload with
      | accountCreated account | accountMetadataConfigured accountMetadata => exact h.done id
      | journalEntryRecorded journalEntry =>
        simp only [Event.ofPayload, Finmap.mem_insert, h.done, or_assoc]

end MySuperLedger.Replica
