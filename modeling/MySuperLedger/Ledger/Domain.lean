import Mathlib.Data.List.Basic

/-! # Domain objects of the ledger and their protobuf forms

The value classes of `should_be_generated/domain`: amounts, balances, accounts,
account metadata, journal lines and journal entries, each with `initWith` (or
the constructor from a message), `encodeTo` and `isSame` as the headers write
them. `none` is a dead process: a failed `assert` or a call of `exit(1)`.

`ledger.proto` lives in a submodule. A message is a record whose unset fields
hold the proto3 default, and an enum is open: it may carry any other number.
-/

namespace MySuperLedger.Ledger

namespace Protos

inductive AccountType where
  | unknownAccountType
  | asset
  | liability
  | capital
  | income
  | costOfGoodsSold
  | expense
  | unrecognized (number : Int)
  deriving DecidableEq, Repr

inductive TransactionType where
  | unknownTransactionType
  | debit
  | credit
  | unrecognized (number : Int)
  deriving DecidableEq, Repr

structure Amount where
  version : UInt64 := 0
  value : UInt64 := 0
  deriving DecidableEq, Repr

structure Balance where
  version : UInt64 := 0
  value : UInt64 := 0
  deriving DecidableEq, Repr

structure Account where
  version : UInt64 := 0
  type : AccountType := .unknownAccountType
  balance : Balance := {}
  nominalCode : UInt64 := 0
  name : String := ""
  desc : String := ""
  iso4217CurrencyCode : UInt64 := 0
  deriving DecidableEq, Repr

structure AccountMetadata where
  version : UInt64 := 0
  type : AccountType := .unknownAccountType
  lowInclusive : UInt64 := 0
  highInclusive : UInt64 := 0
  deriving DecidableEq, Repr

structure JournalLine where
  version : UInt64 := 0
  nominalCode : UInt64 := 0
  transactionType : TransactionType := .unknownTransactionType
  amount : Amount := {}
  iso4217CurrencyCode : UInt64 := 0
  refData : String := ""
  deriving DecidableEq, Repr

structure JournalEntry where
  version : UInt64 := 0
  id : String := ""
  validTime : UInt64 := 0
  recordTime : UInt64 := 0
  journalLines : List JournalLine := []
  purpose : String := ""
  deriving DecidableEq, Repr

end Protos

inductive AccountType where
  | unknown
  | asset
  | liability
  | capital
  | income
  | costOfGoodsSold
  | expense
  deriving DecidableEq, Repr

inductive TransactionType where
  | unknown
  | debit
  | credit
  deriving DecidableEq, Repr

/-- `AccountTypeUtil::typeOf`: every number the enum does not know is `Unknown`. -/
def AccountType.typeOf : Protos.AccountType → AccountType
  | .unknownAccountType => .unknown
  | .asset => .asset
  | .liability => .liability
  | .capital => .capital
  | .income => .income
  | .costOfGoodsSold => .costOfGoodsSold
  | .expense => .expense
  | .unrecognized _ => .unknown

def AccountType.toType : AccountType → Protos.AccountType
  | .unknown => .unknownAccountType
  | .asset => .asset
  | .liability => .liability
  | .capital => .capital
  | .income => .income
  | .costOfGoodsSold => .costOfGoodsSold
  | .expense => .expense

def TransactionType.typeOf : Protos.TransactionType → TransactionType
  | .unknownTransactionType => .unknown
  | .debit => .debit
  | .credit => .credit
  | .unrecognized _ => .unknown

def TransactionType.toType : TransactionType → Protos.TransactionType
  | .unknown => .unknownTransactionType
  | .debit => .debit
  | .credit => .credit

@[simp] theorem AccountType.typeOf_toType (t : AccountType) : typeOf t.toType = t := by
  cases t <;> rfl

@[simp] theorem TransactionType.typeOf_toType (t : TransactionType) : typeOf t.toType = t := by
  cases t <;> rfl

structure Amount where
  version : UInt64 := 1
  value : UInt64 := 0
  deriving DecidableEq, Repr

namespace Amount

/-- `Amount(const protos::Amount &)`. Any version but 1 ends the process. -/
def ofProto (amount : Protos.Amount) : Option Amount :=
  if amount.version = 1 then some ⟨amount.version, amount.value⟩ else none

def encodeTo (self : Amount) (amount : Protos.Amount) : Option Protos.Amount :=
  if self.version = 1 then some { amount with version := self.version, value := self.value }
  else none

def isSame (self another : Amount) : Bool :=
  self.version == another.version && self.version == 1 && self.value == another.value

/-- `operator+=`: the versions are asserted equal and the values wrap at `2 ^ 64`. -/
def add (self other : Amount) : Option Amount :=
  if other.version = self.version then some { self with value := self.value + other.value }
  else none

end Amount

structure Balance where
  version : UInt64 := 1
  value : UInt64 := 0
  deriving DecidableEq, Repr

namespace Balance

def ofProto (balance : Protos.Balance) : Option Balance :=
  if balance.version = 1 then some ⟨balance.version, balance.value⟩ else none

def encodeTo (self : Balance) (balance : Protos.Balance) : Option Protos.Balance :=
  if self.version = 1 then some { balance with version := self.version, value := self.value }
  else none

def isSame (self another : Balance) : Bool :=
  self.version == another.version && self.version == 1 && self.value == another.value

/-- `operator+=`, wrapping at `2 ^ 64`. -/
def add (self : Balance) (amount : Amount) : Balance :=
  { self with value := self.value + amount.value }

/-- `operator-=`, wrapping below 0. -/
def sub (self : Balance) (amount : Amount) : Balance :=
  { self with value := self.value - amount.value }

end Balance

structure Account where
  version : UInt64
  type : AccountType := .unknown
  nominalCode : UInt64
  name : String
  desc : String
  iso4217CurrencyCode : UInt64
  balance : Balance := {}
  deriving DecidableEq, Repr

namespace Account

def initWith (account : Protos.Account) : Option Account :=
  if account.version = 1 then
    (Balance.ofProto account.balance).map fun balance =>
      { version := account.version
        type := AccountType.typeOf account.type
        nominalCode := account.nominalCode
        name := account.name
        desc := account.desc
        iso4217CurrencyCode := account.iso4217CurrencyCode
        balance := balance }
  else none

def encodeTo (self : Account) (account : Protos.Account) : Option Protos.Account :=
  if self.version = 1 then
    (self.balance.encodeTo account.balance).map fun balance =>
      { account with
        version := self.version
        type := self.type.toType
        balance := balance
        nominalCode := self.nominalCode
        name := self.name
        desc := self.desc
        iso4217CurrencyCode := self.iso4217CurrencyCode }
  else none

def isSame (self another : Account) : Bool :=
  self.version == another.version && self.version == 1 && self.type == another.type &&
    self.balance.isSame another.balance && self.nominalCode == another.nominalCode &&
    self.name == another.name && self.desc == another.desc &&
    self.iso4217CurrencyCode == another.iso4217CurrencyCode

/-- The six-way `switch` shared by `applyCredit` and `applyDebit`, which differ
only in the side each type falls on: `debitNormal` types take the first
operation, `Income` and `Liability` the second, and `Unknown` exits. -/
def applyBySide (self : Account) (debitNormal creditNormal : Balance → Balance) : Option Account :=
  match self.type with
  | .asset | .capital | .costOfGoodsSold | .expense =>
    some { self with balance := debitNormal self.balance }
  | .income | .liability => some { self with balance := creditNormal self.balance }
  | .unknown => none

def applyCredit (self : Account) (amount : Amount) : Option Account :=
  self.applyBySide (·.sub amount) (·.add amount)

def applyDebit (self : Account) (amount : Amount) : Option Account :=
  self.applyBySide (·.add amount) (·.sub amount)

end Account

structure AccountMetadata where
  version : UInt64
  accountType : AccountType := .unknown
  lowInclusive : UInt64
  highInclusive : UInt64
  deriving DecidableEq, Repr

namespace AccountMetadata

def initWith (accountMetadata : Protos.AccountMetadata) : Option AccountMetadata :=
  if accountMetadata.version = 1 then
    some { version := accountMetadata.version
           accountType := AccountType.typeOf accountMetadata.type
           lowInclusive := accountMetadata.lowInclusive
           highInclusive := accountMetadata.highInclusive }
  else none

def encodeTo (self : AccountMetadata) (accountMetadata : Protos.AccountMetadata) :
    Option Protos.AccountMetadata :=
  if self.version = 1 then
    some { accountMetadata with
           version := self.version
           type := self.accountType.toType
           lowInclusive := self.lowInclusive
           highInclusive := self.highInclusive }
  else none

def isSame (self another : AccountMetadata) : Bool :=
  self.version == another.version && self.version == 1 &&
    self.accountType == another.accountType && self.lowInclusive == another.lowInclusive &&
    self.highInclusive == another.highInclusive

end AccountMetadata

structure JournalLine where
  version : UInt64
  nominalCode : UInt64
  type : TransactionType := .unknown
  amount : Amount := {}
  iso4217CurrencyCode : UInt64
  refData : String
  deriving DecidableEq, Repr

namespace JournalLine

def initWith (journalLine : Protos.JournalLine) : Option JournalLine :=
  if journalLine.version = 1 then
    (Amount.ofProto journalLine.amount).map fun amount =>
      { version := journalLine.version
        nominalCode := journalLine.nominalCode
        type := TransactionType.typeOf journalLine.transactionType
        amount := amount
        iso4217CurrencyCode := journalLine.iso4217CurrencyCode
        refData := journalLine.refData }
  else none

def encodeTo (self : JournalLine) (journalLine : Protos.JournalLine) : Option Protos.JournalLine :=
  if self.version = 1 then
    (self.amount.encodeTo journalLine.amount).map fun amount =>
      { journalLine with
        version := self.version
        transactionType := self.type.toType
        nominalCode := self.nominalCode
        amount := amount
        iso4217CurrencyCode := self.iso4217CurrencyCode
        refData := self.refData }
  else none

def isSame (self another : JournalLine) : Bool :=
  self.version == another.version && self.version == 1 &&
    self.nominalCode == another.nominalCode && self.type == another.type &&
    self.amount.isSame another.amount &&
    self.iso4217CurrencyCode == another.iso4217CurrencyCode && self.refData == another.refData

end JournalLine

structure JournalEntry where
  version : UInt64 := 0
  id : String := ""
  validTime : UInt64 := 0
  recordTime : UInt64 := 0
  journalLines : List JournalLine := []
  purpose : String := ""
  deriving DecidableEq, Repr

namespace JournalEntry

/-- `initWith` pushes the decoded lines behind those the object already holds. -/
def initWith (self : JournalEntry) (journalEntry : Protos.JournalEntry) : Option JournalEntry :=
  if journalEntry.version = 1 then
    (journalEntry.journalLines.mapM JournalLine.initWith).map fun journalLines =>
      { version := journalEntry.version
        id := journalEntry.id
        validTime := journalEntry.validTime
        recordTime := journalEntry.recordTime
        purpose := journalEntry.purpose
        journalLines := self.journalLines ++ journalLines }
  else none

/-- `encodeTo`. The id of the message is set from the message itself
(`journalEntry.set_id(journalEntry.id())`), not from the object. -/
def encodeTo (self : JournalEntry) (journalEntry : Protos.JournalEntry) :
    Option Protos.JournalEntry :=
  if self.version = 1 then
    (self.journalLines.mapM (JournalLine.encodeTo · {})).map fun journalLines =>
      { journalEntry with
        version := self.version
        id := journalEntry.id
        validTime := self.validTime
        recordTime := self.recordTime
        purpose := self.purpose
        journalLines := journalEntry.journalLines ++ journalLines }
  else none

/-- The index loop of `isSame`, after the sizes were found equal. -/
def sameLines : List JournalLine → List JournalLine → Bool
  | left :: lefts, right :: rights => left.isSame right && sameLines lefts rights
  | _, _ => true

def isSame (self another : JournalEntry) : Bool :=
  self.version == another.version && self.version == 1 && self.id == another.id &&
    self.validTime == another.validTime && self.recordTime == another.recordTime &&
    self.purpose == another.purpose &&
    self.journalLines.length == another.journalLines.length &&
    sameLines self.journalLines another.journalLines

end JournalEntry

/-! ## Version-1 objects

`initWith` only ever builds version 1, so every object the ledger holds is one. -/

def Amount.IsV1 (self : Amount) : Prop := self.version = 1

def Balance.IsV1 (self : Balance) : Prop := self.version = 1

def Account.IsV1 (self : Account) : Prop := self.version = 1 ∧ self.balance.IsV1

def AccountMetadata.IsV1 (self : AccountMetadata) : Prop := self.version = 1

def JournalLine.IsV1 (self : JournalLine) : Prop := self.version = 1 ∧ self.amount.IsV1

def JournalEntry.IsV1 (self : JournalEntry) : Prop :=
  self.version = 1 ∧ ∀ journalLine ∈ self.journalLines, journalLine.IsV1

instance (self : Amount) : Decidable self.IsV1 := inferInstanceAs (Decidable (_ = _))

instance (self : Balance) : Decidable self.IsV1 := inferInstanceAs (Decidable (_ = _))

instance (self : Account) : Decidable self.IsV1 := inferInstanceAs (Decidable (_ ∧ _))

instance (self : AccountMetadata) : Decidable self.IsV1 := inferInstanceAs (Decidable (_ = _))

instance (self : JournalLine) : Decidable self.IsV1 := inferInstanceAs (Decidable (_ ∧ _))

instance (self : JournalEntry) : Decidable self.IsV1 := inferInstanceAs (Decidable (_ ∧ _))

end MySuperLedger.Ledger
