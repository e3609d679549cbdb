import Mathlib.Data.List.AList
import MySuperLedger.Ledger.Balances

/-! # The RocksDB-backed state machine

`RocksDBBackedAppStateMachine` applies events to the same three maps and turns
every callback into a `Put` of a write batch, which `commit` flushes from time
to time. A column family is a finite map from keys to messages; a write batch is
a list of puts, written in order, so that a later put of a key wins.
-/

namespace MySuperLedger.Ledger

open Collections List Option AList KeyedMap

/-- The four column families. The two that are read back with an iterator are
association lists. -/
structure RocksDB where
  lastAppliedIndex : Option UInt64 := none
  chartOfAccounts : AList (fun _ : UInt64 => Protos.Account) := ∅
  accountMetadata : AList (fun _ : AccountType => Protos.AccountMetadata) := ∅
  doneIds : DoneMap := ∅

inductive Put where
  | lastAppliedIndex (appliedIndex : UInt64)
  | account (nominalCode : UInt64) (account : Protos.Account)
  | accountMetadata (type : AccountType) (accountMetadata : Protos.AccountMetadata)
  | doneId (dedupId : String) (validTime : UInt64)
  deriving DecidableEq, Repr

def RocksDB.put (db : RocksDB) : Put → RocksDB
  | .lastAppliedIndex appliedIndex => { db with lastAppliedIndex := some appliedIndex }
  | .account nominalCode account =>
    { db with chartOfAccounts := db.chartOfAccounts.insert nominalCode account }
  | .accountMetadata type accountMetadata =>
    { db with accountMetadata := db.accountMetadata.insert type accountMetadata }
  | .doneId dedupId validTime => { db with doneIds := db.doneIds.insert dedupId validTime }

/-- `Write`: the whole batch or nothing. -/
def RocksDB.write (db : RocksDB) (batch : List Put) : RocksDB := batch.foldl RocksDB.put db

@[simp] theorem RocksDB.write_nil (db : RocksDB) : db.write [] = db := rfl

@[simp] theorem RocksDB.write_cons (db : RocksDB) (put : Put) (batch : List Put) :
    db.write (put :: batch) = (db.put put).write batch := rfl

theorem RocksDB.write_append (db : RocksDB) (batch later : List Put) :
    db.write (batch ++ later) = (db.write batch).write later :=
  foldl_append

/-- The overridden callbacks. `onAccountInserted` and `onAccountUpdated` have one
body: encode the account and put it under its nominal code. -/
def Callback.toPut : Callback → Option Put
  | .onAccountInserted account =>
    (account.encodeTo {}).map fun proto => .account account.nominalCode proto
  | .onAccountUpdated account =>
    (account.encodeTo {}).map fun proto => .account account.nominalCode proto
  | .onAccountMetadataUpdated accountMetadata =>
    (accountMetadata.encodeTo {}).map fun proto =>
      .accountMetadata accountMetadata.accountType proto
  | .onBookkeepingProcessed dedupId validTime => some (.doneId dedupId validTime)

structure RocksDBBacked where
  state : AppState := {}
  writeBatch : List Put := []
  lastFlushedIndex : UInt64 := 0
  rocksDB : RocksDB := {}

def maxBatchSize : UInt64 := 500

/-- The iterator loop of `loadFromRocksDB` over one column family: decode the
value, assert that it carries its key and was not loaded yet. -/
def loadColumnFamily {K V Message : Type} [DecidableEq K] {key : V → K}
    (initWith : Message → Option V) (map : KeyedMap key) :
    List (Sigma fun _ : K => Message) → Option (KeyedMap key)
  | [] => some map
  | entry :: entries =>
    (initWith entry.2).bind fun v =>
      if key v = entry.1 ∧ map.find? (key v) = none then
        loadColumnFamily initWith (map.put v) entries
      else none

namespace RocksDBBacked

def applyEvent (machine : RocksDBBacked) (event : Event) : Option RocksDBBacked :=
  (Ledger.applyEvent machine.state event).bind fun (state, callbacks) =>
    (callbacks.mapM Callback.toPut).map fun puts =>
      { machine with state := state, writeBatch := machine.writeBatch ++ puts }

def applyEvents (machine : RocksDBBacked) : List Event → Option RocksDBBacked
  | [] => some machine
  | event :: events => (machine.applyEvent event).bind fun machine => machine.applyEvents events

variable (machine : RocksDBBacked)

def flushToRocksDB : RocksDBBacked :=
  { machine with rocksDB := machine.rocksDB.write machine.writeBatch, writeBatch := [] }

/-- The first half of `commit`: the index goes into the batch. -/
def putAppliedIndex (appliedIndex : UInt64) : RocksDBBacked :=
  { machine with writeBatch := machine.writeBatch ++ [.lastAppliedIndex appliedIndex] }

/-- The second half of `commit`: flush once enough bundles are batched. -/
def flushIfNeeded (appliedIndex : UInt64) : RocksDBBacked :=
  if appliedIndex - machine.lastFlushedIndex < maxBatchSize then machine
  else { machine.flushToRocksDB with lastFlushedIndex := appliedIndex }

def commit (appliedIndex : UInt64) : RocksDBBacked :=
  (machine.putAppliedIndex appliedIndex).flushIfNeeded appliedIndex

/-- `loadFromRocksDB`. The done ids stay on disk. -/
def loadFromRocksDB : Option RocksDBBacked :=
  (loadColumnFamily Account.initWith machine.state.coA
      machine.rocksDB.chartOfAccounts.entries).bind fun coA =>
    (loadColumnFamily AccountMetadata.initWith machine.state.accountMetadata
        machine.rocksDB.accountMetadata.entries).map fun accountMetadata =>
      { machine with
        lastFlushedIndex := machine.rocksDB.lastAppliedIndex.getD 0
        state := { machine.state with coA := coA, accountMetadata := accountMetadata } }

/-- `recoverSelf`: assert an empty batch, `clearState`, `loadFromRocksDB`. -/
def recoverSelf : Option RocksDBBacked :=
  if machine.writeBatch = [] then loadFromRocksDB { machine with state := {} } else none

/-- `MemoryBackedAppStateMachine::swapState`: the maps change hands, then the
batch is flushed. The memory-backed machine goes on with the first component. -/
def swapState (memory : AppState) (machine : RocksDBBacked) : AppState × RocksDBBacked :=
  (machine.state, ({ machine with state := memory } : RocksDBBacked).flushToRocksDB)

/-- What RocksDB would hold after a flush. -/
def flushed : RocksDB := machine.rocksDB.write machine.writeBatch

end RocksDBBacked

structure Stores (db : RocksDB) (s : AppState) : Prop where
  accounts : ∀ nominalCode, db.chartOfAccounts.lookup nominalCode =
    (s.coA.find? nominalCode).bind fun account => account.encodeTo {}
  accountMetadata : ∀ type, db.accountMetadata.lookup type =
    (s.accountMetadata.find? type).bind fun accountMetadata => accountMetadata.encodeTo {}
  doneIds : db.doneIds = s.doneMap

/-- The effect of an event, whatever ids the machine happens to remember:
`applyEvent` without the duplicate assertion. -/
def absorb (s : AppState) (event : Event) : Option AppState :=
  match event.payload with
  | .journalEntryRecorded journalEntry =>
    (applyJournalLines s.coA journalEntry.journalLines).map fun (coA, _) =>
      { s with doneMap := s.doneMap.insert journalEntry.id journalEntry.validTime, coA := coA }
  | .accountCreated _ => (applyEvent s event).map Prod.fst
  | .accountMetadataConfigured _ => (applyEvent s event).map Prod.fst

variable {s after : AppState} {event : Event} {callbacks : List Callback} {coA : ChartOfAccounts}
  {moved : Account}

theorem absorb_of_applyEvent (h : applyEvent s event = some (after, callbacks)) :
    absorb s event = some after := by
  have ha := applyEvent_inv h
  unfold absorb
  cases hp : event.payload with
  | accountCreated account | accountMetadataConfigured accountMetadata => simp [h]
  | journalEntryRecorded journalEntry =>
    rw [hp] at ha
    rcases ha with ⟨-, coA, later, hl, rfl⟩
    simp [hl]

theorem absorb_doneMap (h : absorb s event = some after) : after.doneMap =
      match event.payload with
      | .journalEntryRecorded journalEntry =>
        s.doneMap.insert journalEntry.id journalEntry.validTime
      | _ => s.doneMap := by
  unfold absorb at h
  cases hp : event.payload with
  | accountCreated account =>
    simp only [hp, map_eq_some_iff, Prod.exists, exists_and_right, exists_eq_right] at h
    rcases h with ⟨callbacks, happ⟩
    have ha := applyEvent_inv happ
    rw [hp] at ha
    rw [ha.2]
  | accountMetadataConfigured accountMetadata =>
    simp only [hp, map_eq_some_iff, Prod.exists, exists_and_right, exists_eq_right] at h
    rcases h with ⟨callbacks, happ⟩
    have ha := applyEvent_inv happ
    rw [hp] at ha
    rw [show after = _ from ha]
  | journalEntryRecorded journalEntry =>
    simp only [hp, map_eq_some_iff] at h
    rcases h with ⟨⟨coA, callbacks⟩, -, rfl⟩
    rfl

/-- A state that remembers fewer ids still does after both absorbed an event. -/
theorem absorb_remembers {s' after' : AppState} (h : absorb s event = some after)
    (h' : absorb s' event = some after') (hr : ∀ id ∈ s'.doneMap, id ∈ s.doneMap) :
    ∀ id ∈ after'.doneMap, id ∈ after.doneMap := by
  intro id hid
  rw [absorb_doneMap h'] at hid
  rw [absorb_doneMap h]
  cases hp : event.payload with
  | accountCreated account | accountMetadataConfigured accountMetadata =>
    simp only [hp] at hid ⊢
    exact hr id hid
  | journalEntryRecorded journalEntry =>
    simp only [hp, Finmap.mem_insert] at hid ⊢
    exact hid.imp_right (hr id)

/-- The accounts and the metadata of two states agree. -/
def SameBooks (s s' : AppState) : Prop := s.coA = s'.coA ∧ s.accountMetadata = s'.accountMetadata

variable {account : Account} {K V Message : Type} {key : V → K} {initWith : Message → Option V}

theorem storesAccounts_put {db : RocksDB} {proto : Protos.Account}
    (he : account.encodeTo {} = some proto) (hdb : ∀ code, db.chartOfAccounts.lookup code =
      (coA.find? code).bind fun account => account.encodeTo {}) (code : UInt64) :
    (db.chartOfAccounts.insert account.nominalCode proto).lookup code =
      ((coA.put account).find? code).bind fun account => account.encodeTo {} := by
  by_cases hc : code = account.nominalCode
  · subst hc
    rw [lookup_insert, find?_put_self, bind_some, he]
  · rw [lookup_insert_ne hc, find?_put_of_ne _ hc]
    exact hdb code

theorem mapM_cons_eq_some {α β : Type} {f : α → Option β} {x : α} {xs : List α} {ys : List β}
    (h : (x :: xs).mapM f = some ys) :
    ∃ y later, f x = some y ∧ xs.mapM f = some later ∧ ys = y :: later := by
  rw [mapM_cons] at h
  rcases bind_eq_some_iff.mp h with ⟨y, hy, h⟩
  rcases bind_eq_some_iff.mp h with ⟨later, hl, h⟩
  exact ⟨y, later, hy, hl, (some.inj h).symm⟩

/-- The puts of the line loop touch the chart of accounts only, and leave it as
the loop leaves the map. -/
theorem write_applyJournalLines {after : ChartOfAccounts} {journalLines : List JournalLine}
    {puts : List Put} (db : RocksDB)
    (h : applyJournalLines coA journalLines = some (after, callbacks))
    (hputs : callbacks.mapM Callback.toPut = some puts)
    (hdb : ∀ code, db.chartOfAccounts.lookup code =
      (coA.find? code).bind fun account => account.encodeTo {}) :
    ∃ chartOfAccounts, db.write puts = { db with chartOfAccounts := chartOfAccounts } ∧
      ∀ code, chartOfAccounts.lookup code =
        (after.find? code).bind fun account => account.encodeTo {} := by
  induction journalLines generalizing coA callbacks puts db with
  | nil =>
    have hpair := Prod.mk.inj (some.inj h)
    rw [← hpair.2] at hputs
    have hnil : puts = [] := (some.inj hputs).symm
    subst hnil
    rw [← hpair.1]
    exact ⟨db.chartOfAccounts, rfl, hdb⟩
  | cons line lines ih =>
    rcases bind_eq_some_iff.mp h with ⟨moved, hline, h⟩
    rcases map_eq_some_iff.mp h with ⟨⟨rest, later⟩, hrest, hpair⟩
    have hrest_eq := (Prod.mk.inj hpair).1
    have hcb := (Prod.mk.inj hpair).2
    subst hrest_eq hcb
    rcases mapM_cons_eq_some hputs with ⟨put, laterPuts, hput, hlate, rfl⟩
    rcases map_eq_some_iff.mp hput with ⟨proto, henc, rfl⟩
    rcases ih (db.put (.account moved.nominalCode proto)) hrest hlate
      (storesAccounts_put henc hdb) with ⟨chart, hwr, hchar⟩
    exact ⟨chart, by rw [RocksDB.write_cons, hwr]; rfl, hchar⟩

/-- One event: what the puts do to the database is what `absorb` does to the
state it stores. -/
theorem Stores.applyEvent {db : RocksDB} {reference s after : AppState} {event : Event}
    {callbacks : List Callback} {puts : List Put} (hdb : Stores db reference)
    (hbk : SameBooks reference s) (h : Ledger.applyEvent s event = some (after, callbacks))
    (hputs : callbacks.mapM Callback.toPut = some puts) :
    ∃ reference', absorb reference event = some reference' ∧ SameBooks reference' after ∧
      Stores (db.write puts) reference' ∧
      (db.write puts).lastAppliedIndex = db.lastAppliedIndex := by
  rcases hbk with ⟨hcoA, hmeta⟩
  unfold absorb
  unfold Ledger.applyEvent at h
  cases hpay : event.payload with
  | accountCreated account =>
    simp only [hpay, applyAccountCreated] at h
    cases hfind : s.coA.find? account.nominalCode with
    | some found => simp [hfind] at h
    | none =>
      simp only [hfind, Option.some.injEq, Prod.mk.injEq] at h
      rcases h with ⟨rfl, rfl⟩
      rcases mapM_cons_eq_some hputs with ⟨put, later, hput, hlate, rfl⟩
      rcases map_eq_some_iff.mp hput with ⟨proto, henc, rfl⟩
      have hnil : later = [] := (some.inj hlate).symm
      subst hnil
      have hfind' : reference.coA.find? account.nominalCode = none := by rw [hcoA, hfind]
      refine ⟨{ reference with coA := reference.coA.put account }, ?_, ?_, ?_, rfl⟩
      · simp [Ledger.applyEvent, hpay, applyAccountCreated, hfind']
      · exact ⟨by simp [hcoA], hmeta⟩
      · exact ⟨storesAccounts_put henc hdb.accounts, hdb.accountMetadata, hdb.doneIds⟩
  | accountMetadataConfigured accountMetadata =>
    simp only [hpay, applyAccountMetadataConfigured, Option.some.injEq, Prod.mk.injEq] at h
    rcases h with ⟨rfl, rfl⟩
    rcases mapM_cons_eq_some hputs with ⟨put, later, hput, hlate, rfl⟩
    rcases map_eq_some_iff.mp hput with ⟨proto, henc, rfl⟩
    have hnil : later = [] := (some.inj hlate).symm
    subst hnil
    refine ⟨{ reference with
      accountMetadata := reference.accountMetadata.put accountMetadata }, ?_, ?_, ?_, rfl⟩
    · simp [Ledger.applyEvent, hpay, applyAccountMetadataConfigured]
    · exact ⟨hcoA, by simp [hmeta]⟩
    · refine ⟨hdb.accounts, fun type => ?_, hdb.doneIds⟩
      show (db.accountMetadata.insert accountMetadata.accountType proto).lookup type = _
      by_cases htype : type = accountMetadata.accountType
      · subst htype
        rw [lookup_insert, find?_put_self, bind_some, henc]
      · rw [lookup_insert_ne htype, find?_put_of_ne _ htype]
        exact hdb.accountMetadata type
  | journalEntryRecorded journalEntry =>
    simp only [hpay, applyJournalEntryRecorded, ite_none_left_eq_some, map_eq_some_iff] at h
    rcases h with ⟨-, ⟨coA, later⟩, hlin, hpair⟩
    have haft := (Prod.mk.inj hpair).1
    have hcb := (Prod.mk.inj hpair).2
    subst haft hcb
    rcases mapM_cons_eq_some hputs with ⟨put, laterPuts, hput, hlate, rfl⟩
    have hput_eq := (some.inj hput).symm
    subst hput_eq
    rw [← hcoA] at hlin
    rcases write_applyJournalLines (db.put (.doneId journalEntry.id journalEntry.validTime))
      hlin hlate hdb.accounts with ⟨chart, hwr, hchar⟩
    refine ⟨{ reference with
      doneMap := reference.doneMap.insert journalEntry.id journalEntry.validTime
      coA := coA }, by simp [hlin], ⟨rfl, hmeta⟩, ?_, ?_⟩
    · rw [RocksDB.write_cons, hwr]
      exact ⟨hchar, hdb.accountMetadata, by simp [RocksDB.put, hdb.doneIds]⟩
    · rw [RocksDB.write_cons, hwr]
      rfl

def absorbEvents (s : AppState) : List Event → Option AppState
  | [] => some s
  | event :: events => (absorb s event).bind fun s => absorbEvents s events

theorem absorbEvents_append (s : AppState) (events later : List Event) :
    absorbEvents s (events ++ later) =
      (absorbEvents s events).bind fun s => absorbEvents s later := by
  induction events generalizing s with
  | nil => rfl
  | cons event events ih =>
    simp only [cons_append, absorbEvents]
    cases absorb s event with
    | none => rfl
    | some next => exact ih next

/-- The machine, its batch included, is at `reference` and has put `index` last. Of the ids
it may have forgotten some. -/
structure Tracks (machine : RocksDBBacked) (reference : AppState) (index : Option UInt64) :
    Prop where
  stores : Stores machine.flushed reference
  index_eq : machine.flushed.lastAppliedIndex = index
  books : SameBooks reference machine.state
  remembers : ∀ id ∈ machine.state.doneMap, id ∈ reference.doneMap

namespace RocksDBBacked

variable {machine : RocksDBBacked}

theorem applyEvent_inv {after : RocksDBBacked} (h : machine.applyEvent event = some after) :
    ∃ state callbacks puts, Ledger.applyEvent machine.state event = some (state, callbacks) ∧
      callbacks.mapM Callback.toPut = some puts ∧
      after = { machine with state := state, writeBatch := machine.writeBatch ++ puts } := by
  rcases bind_eq_some_iff.mp h with ⟨⟨state, callbacks⟩, ha, h⟩
  rcases map_eq_some_iff.mp h with ⟨puts, hp, rfl⟩
  exact ⟨state, callbacks, puts, ha, hp, rfl⟩

theorem applyEvent_rocksDB {after : RocksDBBacked} (h : machine.applyEvent event = some after) :
    after.rocksDB = machine.rocksDB := by
  rcases applyEvent_inv h with ⟨state, callbacks, puts, -, -, rfl⟩
  rfl

end RocksDBBacked

namespace Tracks

variable {machine after : RocksDBBacked} {reference : AppState} {index : Option UInt64}

theorem applyEvent {event : Event} (ht : Tracks machine reference index)
    (h : machine.applyEvent event = some after) :
    ∃ reference', absorb reference event = some reference' ∧ Tracks after reference' index := by
  rcases RocksDBBacked.applyEvent_inv h with ⟨state, callbacks, puts, ha, hp, rfl⟩
  rcases ht.stores.applyEvent ht.books ha hp with
    ⟨reference', habs, hbk, hs, hi⟩
  have hf : RocksDBBacked.flushed
      { machine with state := state, writeBatch := machine.writeBatch ++ puts } =
        machine.flushed.write puts :=
    RocksDB.write_append machine.rocksDB machine.writeBatch puts
  refine ⟨reference', habs, ?_, ?_, hbk,
    absorb_remembers habs (absorb_of_applyEvent ha) ht.remembers⟩
  · rw [hf]
    exact hs
  · rw [hf, hi]
    exact ht.index_eq

theorem putAppliedIndex (ht : Tracks machine reference index) (appliedIndex : UInt64) :
    Tracks (machine.putAppliedIndex appliedIndex) reference (some appliedIndex) := by
  have hf : (machine.putAppliedIndex appliedIndex).flushed =
      { machine.flushed with lastAppliedIndex := some appliedIndex } :=
    RocksDB.write_append machine.rocksDB machine.writeBatch [.lastAppliedIndex appliedIndex]
  refine ⟨?_, by rw [hf], ht.books, ht.remembers⟩
  rw [hf]
  exact ⟨ht.stores.accounts, ht.stores.accountMetadata, ht.stores.doneIds⟩

theorem flushIfNeeded (ht : Tracks machine reference index) (appliedIndex : UInt64) :
    Tracks (machine.flushIfNeeded appliedIndex) reference index := by
  unfold RocksDBBacked.flushIfNeeded
  split
  · exact ht
  · exact { ht with }

end Tracks

/-- `flushIfNeeded` either leaves the database alone or writes the whole batch. -/
theorem RocksDBBacked.flushIfNeeded_rocksDB (machine : RocksDBBacked) (appliedIndex : UInt64) :
    (machine.flushIfNeeded appliedIndex).rocksDB = machine.rocksDB ∨
      (machine.flushIfNeeded appliedIndex).rocksDB = machine.flushed := by
  unfold flushIfNeeded
  split
  · exact .inl rfl
  · exact .inr rfl

theorem loadColumnFamily_spec [DecidableEq K] {entries : List (Sigma fun _ : K => Message)}
    (hnd : entries.NodupKeys)
    (hdec : ∀ entry ∈ entries, ∃ v, initWith entry.2 = some v ∧ key v = entry.1)
    (map : KeyedMap key) (hfr : ∀ entry ∈ entries, map.find? entry.1 = none) :
    ∃ loaded, loadColumnFamily initWith map entries = some loaded ∧ ∀ k, loaded.find? k =
        match entries.dlookup k with
        | some message => initWith message
        | none => map.find? k := by
  induction entries generalizing map with
  | nil => exact ⟨map, rfl, fun k => rfl⟩
  | cons entry entries ih =>
    rcases entry with ⟨k₀, message⟩
    rcases hdec ⟨k₀, message⟩ mem_cons_self with ⟨v, hv, hkey⟩
    have hkey : key v = k₀ := hkey
    have hnone : map.find? (key v) = none := by
      rw [hkey]
      exact hfr ⟨k₀, message⟩ mem_cons_self
    have htail := (nodupKeys_cons.mp hnd).2
    have hhead : k₀ ∉ entries.keys := (nodupKeys_cons.mp hnd).1
    have hfr' : ∀ later ∈ entries, (map.put v).find? later.1 = none := by
      intro later hlate
      have hne : later.1 ≠ key v := by
        intro heq
        apply hhead
        rw [← hkey, ← heq]
        exact mem_keys_of_mem hlate
      rw [find?_put_of_ne _ hne]
      exact hfr later (mem_cons_of_mem _ hlate)
    have hdec' : ∀ later ∈ entries, ∃ v, initWith later.2 = some v ∧ key v = later.1 :=
      fun later hlate => hdec later (mem_cons_of_mem _ hlate)
    rcases ih htail hdec' (map.put v) hfr' with ⟨loaded, hload, hfind⟩
    refine ⟨loaded, ?_, ?_⟩
    · have hv : initWith message = some v := hv
      rw [loadColumnFamily, hv, bind_some, if_pos ⟨hkey, hnone⟩, hload]
    · intro k
      rw [hfind k]
      by_cases hk : k = k₀
      · subst hk
        have hlook : entries.dlookup k = none := dlookup_eq_none.mpr hhead
        rw [hlook, dlookup_cons_eq, ← hkey, find?_put_self]
        exact hv.symm
      · rw [dlookup_cons_ne entries ⟨k₀, message⟩ hk, find?_put_of_ne _ (by rw [hkey]; exact hk)]

/-- Every account and every metadata record is of version 1. -/
def AppState.IsV1 (s : AppState) : Prop :=
  (∀ nominalCode account, s.coA.find? nominalCode = some account → account.IsV1) ∧
    ∀ type accountMetadata, s.accountMetadata.find? type = some accountMetadata →
      accountMetadata.IsV1

theorem loadColumnFamily_of_encoded [DecidableEq K] {encode : V → Option Message}
    {family : AList fun _ : K => Message} {map : KeyedMap key}
    (hsto : ∀ k, family.lookup k = (map.find? k).bind encode)
    (hrnd : ∀ k v, map.find? k = some v → (encode v).bind initWith = some v) :
    loadColumnFamily initWith (empty : KeyedMap key) family.entries = some map := by
  have hdec : ∀ entry ∈ family.entries, ∃ v, initWith entry.2 = some v ∧ key v = entry.1 := by
    intro entry hent
    have hlook : family.lookup entry.1 = some entry.2 :=
      mem_lookup_iff.mpr hent
    rw [hsto] at hlook
    rcases bind_eq_some_iff.mp hlook with ⟨v, hfind, henc⟩
    have hv := hrnd _ v hfind
    rw [henc, bind_some] at hv
    exact ⟨v, hv, key_of_find? hfind⟩
  rcases loadColumnFamily_spec family.nodupKeys hdec empty
    (fun entry _ => find?_empty entry.1) with ⟨loaded, hload, hfind⟩
  rw [hload]
  congr 1
  ext1 k
  rw [hfind k]
  have hlook : family.entries.dlookup k = (map.find? k).bind encode := hsto k
  cases hk : map.find? k with
  | none => rw [hlook, hk]; exact find?_empty k
  | some v =>
    have hv := hrnd k v hk
    rcases bind_eq_some_iff.mp hv with ⟨message, henc, hinit⟩
    rw [hlook, hk, bind_some, henc]
    exact hinit

theorem recoverSelf_of_stores {machine : RocksDBBacked} {reference : AppState}
    (hb : machine.writeBatch = []) (hdb : Stores machine.rocksDB reference)
    (hv : reference.IsV1) :
    machine.recoverSelf = some
      { machine with
        lastFlushedIndex := machine.rocksDB.lastAppliedIndex.getD 0
        state := { coA := reference.coA, accountMetadata := reference.accountMetadata } } := by
  have ha : loadColumnFamily Account.initWith (empty : ChartOfAccounts)
      machine.rocksDB.chartOfAccounts.entries = some reference.coA :=
    loadColumnFamily_of_encoded hdb.accounts fun code account hf =>
      Account.initWith_encodeTo (hv.1 code account hf) {}
  have hm : loadColumnFamily AccountMetadata.initWith (empty : AccountMetadataMap)
      machine.rocksDB.accountMetadata.entries = some reference.accountMetadata :=
    loadColumnFamily_of_encoded hdb.accountMetadata fun type accountMetadata hf =>
      AccountMetadata.initWith_encodeTo (hv.2 type accountMetadata hf) {}
  simp [RocksDBBacked.recoverSelf, hb, RocksDBBacked.loadFromRocksDB, ha, hm]

theorem AppState.isV1_empty : AppState.IsV1 {} :=
  ⟨fun code account hf => by simp at hf, fun type metadata hf => by simp at hf⟩

theorem Account.applyBySide_isV1 {debitNormal creditNormal : Balance → Balance} (hv : account.IsV1)
    (hd : (debitNormal account.balance).IsV1) (hc : (creditNormal account.balance).IsV1)
    (h : account.applyBySide debitNormal creditNormal = some moved) : moved.IsV1 := by
  rcases applyBySide_cases h with ⟨-, rfl⟩ | ⟨-, rfl⟩
  · exact ⟨hv.1, hd⟩
  · exact ⟨hv.1, hc⟩

section

variable (hv : ∀ code account, coA.find? code = some account → account.IsV1)
include hv

theorem applyJournalLine_isV1 {line : JournalLine}
    (h : applyJournalLine coA line = some moved) : moved.IsV1 := by
  rcases bind_eq_some_iff.mp h with ⟨account, hf, h⟩
  have ha := hv _ account hf
  cases ht : line.type with
  | unknown => simp [ht] at h
  | debit | credit =>
    simp only [ht] at h
    exact Account.applyBySide_isV1 ha ha.2 ha.2 h

theorem find?_put_isV1 (hm : moved.IsV1) :
    ∀ code account, (coA.put moved).find? code = some account → account.IsV1 := by
  intro code account hf
  rw [find?_put] at hf
  split at hf
  · rw [← some.inj hf]
    exact hm
  · exact hv code account hf

theorem applyJournalLines_isV1 {after : ChartOfAccounts} {lines : List JournalLine}
    (h : applyJournalLines coA lines = some (after, callbacks)) :
    ∀ code account, after.find? code = some account → account.IsV1 := by
  induction lines generalizing coA callbacks with
  | nil =>
    rw [← (Prod.mk.inj (some.inj h)).1]
    exact hv
  | cons line lines ih =>
    rcases bind_eq_some_iff.mp h with ⟨moved, hl, h⟩
    rcases map_eq_some_iff.mp h with ⟨⟨rest, later⟩, hr, hp⟩
    have hrest_eq := (Prod.mk.inj hp).1
    subst hrest_eq
    exact ih (find?_put_isV1 hv (applyJournalLine_isV1 hv hl)) hr

end

theorem absorb_isV1 (hev : event.payload.IsV1) (hv : s.IsV1) (h : absorb s event = some after) :
    after.IsV1 := by
  unfold absorb at h
  cases hpay : event.payload with
  | accountCreated account =>
    rw [hpay] at hev
    simp only [hpay] at h
    rcases map_eq_some_iff.mp h with ⟨⟨next, callbacks⟩, happ, rfl⟩
    have happl := applyEvent_inv happ
    rw [hpay] at happl
    rcases happl with ⟨-, hnext⟩
    have hnext : next = _ := hnext
    subst hnext
    exact ⟨find?_put_isV1 hv.1 hev, hv.2⟩
  | accountMetadataConfigured accountMetadata =>
    rw [hpay] at hev
    simp only [hpay] at h
    rcases map_eq_some_iff.mp h with ⟨⟨next, callbacks⟩, happ, rfl⟩
    have happl := applyEvent_inv happ
    rw [hpay] at happl
    have hnext : next = _ := happl
    subst hnext
    refine ⟨hv.1, ?_⟩
    intro type found hfind
    rw [find?_put] at hfind
    split at hfind
    · rw [← some.inj hfind]
      exact hev
    · exact hv.2 type found hfind
  | journalEntryRecorded journalEntry =>
    simp only [hpay] at h
    rcases map_eq_some_iff.mp h with ⟨⟨coA, callbacks⟩, hlin, rfl⟩
    exact ⟨applyJournalLines_isV1 hv.1 hlin, hv.2⟩

end MySuperLedger.Ledger
