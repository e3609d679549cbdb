import MySuperLedger.Storage.Segment
import Mathlib.Data.List.Sort

/-! # The segmented log

`storage::SegmentLog`: a chain of closed segments and one active segment, with
three small files for the current term, the vote and the first index. A prefix
is truncated by its index alone, so the files of the segments before it stay in
the directory and are passed over by the next start.
-/

namespace MySuperLedger.Storage

open Collections Effects

structure SegmentLog where
  firstIndex : Nat := 1
  lastIndex : Nat := 0
  currentTerm : Nat := 0
  voteFor : Nat := 0
  /-- `mClosedSegments`, in the order of the map. -/
  closedSegments : List Segment := []
  activeSegment : Option Segment := none
  deriving DecidableEq

/-- The segments that a listing of the directory finds, before they are recovered. -/
structure Listing where
  closed : List (Nat × Nat) := []
  active : Option Nat := none
  deriving DecidableEq

namespace SegmentLog

variable {Entry : Type} (config : Config Entry)

/-- `recoverCurrentTerm`, `recoverVoteFor` and `recoverFirstIndex`: a file that
is not there is written with the initial value. -/
def recoverField (field : Disk → Option Nat) (persist : Nat → Step) (initial : Nat) :
    Action Nat := do
  let disk ← Program.get
  match field disk with
  | some value => return value
  | none =>
    perform (persist initial)
    return initial

/-- One file name of `listSegments`. -/
def addName (listing : Listing) : SegmentName → Except Check Listing
  | .closed firstIndex lastIndex =>
    if listing.closed.any fun range => range.1 == firstIndex then .error .duplicateClosed
    else .ok { listing with
      closed := listing.closed.orderedInsert (fun left right => left.1 ≤ right.1)
        (firstIndex, lastIndex) }
  | .active firstIndex =>
    if listing.active.isSome then .error .duplicateActive
    else .ok { listing with active := some firstIndex }

/-- `listSegments`, over the file names in the order the directory gives them. -/
def listSegments (disk : Disk) : Except Check Listing := disk.metas.keys.foldlM addName {}

/-- `first` goes on where the segment before ended, or is at most the first
index of the log if there is none. -/
def Follows (firstIndex first : Nat) : Option Nat → Prop
  | some previous => first = previous + 1
  | none => first ≤ firstIndex

instance (firstIndex first : Nat) :
    (previous : Option Nat) → Decidable (Follows firstIndex first previous)
  | some _ => inferInstanceAs (Decidable (_ = _))
  | none => inferInstanceAs (Decidable (_ ≤ _))

/-- The loop of `recoverSegments` over the closed segments. `previous` is the
last index of the segment recovered before. -/
def recoverClosed (disk : Disk) (firstIndex : Nat) (previous : Option Nat) :
    List (Nat × Nat) → Except Check (List Segment)
  | [] => .ok []
  | (first, last) :: ranges => do
      ensure .closedEmpty (first ≤ last)
      ensure .closedGap (Follows firstIndex first previous)
      if previous = none ∧ last < firstIndex then
        recoverClosed disk firstIndex none ranges
      else
        let segment ← Segment.recoverActiveOrClosedSegment disk (.closed first last)
        let segments ← recoverClosed disk firstIndex (some segment.lastIndex) ranges
        return segment :: segments

/-- `recoverSegments`: the closed segments, the active one unless all its entries
are truncated, and the last index, 0 if there is no segment. -/
def recoverSegments (disk : Disk) (firstIndex : Nat) (listing : Listing) :
    Except Check (List Segment × Option Segment × Nat) := do
  let closed ← recoverClosed disk firstIndex none listing.closed
  let lastClosed := closed.getLast?.map Segment.lastIndex
  match listing.active with
  | none => return (closed, none, lastClosed.getD 0)
  | some first =>
    ensure .activeGap (Follows firstIndex first lastClosed)
    let active ← Segment.recoverActiveOrClosedSegment disk (.active first)
    if active.lastIndex < firstIndex then
      return (closed, none, lastClosed.getD 0)
    else
      return (closed, some active, active.lastIndex)

/-- There is always an active segment at the end. -/
def ensureActive (active : Option Segment) (nextIndex : Nat) : Action Segment :=
  match active with
  | some active => pure active
  | none => Segment.createActiveSegment config nextIndex

def init : Action SegmentLog := do
  let currentTerm ← recoverField Disk.currentTerm .setCurrentTerm 0
  let voteFor ← recoverField Disk.voteFor .setVoteFor 0
  let firstIndex ← recoverField Disk.firstIndex .setFirstIndex 1
  let disk ← Program.get
  let listing ← Program.lift (listSegments disk)
  let (closed, active, last) ← Program.lift (recoverSegments disk firstIndex listing)
  let lastIndex := if last = 0 then firstIndex - 1 else last
  let active ← ensureActive config active (lastIndex + 1)
  return { firstIndex := firstIndex
           lastIndex := lastIndex
           currentTerm := currentTerm
           voteFor := voteFor
           closedSegments := closed
           activeSegment := some active }

variable (log : SegmentLog)

/-- `getSegment`; `none` is the null pointer. -/
def getSegment (index : Nat) : Except Check (Option Segment) :=
  if Segment.isEmpty log.firstIndex log.lastIndex then .ok none
  else if index < log.firstIndex ∨ log.lastIndex < index then .ok none
  else
    match log.activeSegment.filter fun active => active.firstIndex ≤ index with
    | some active => .ok (some active)
    | none =>
      -- the segment before `upper_bound(index)`
      match (log.closedSegments.filter fun closed => closed.firstIndex ≤ index).getLast? with
      | some closed => .ok (some closed)
      | none => .error .noClosed

def getEntry (disk : Disk) (log : SegmentLog) (index : Nat) : Except Check (Option Entry) := do
  match ← log.getSegment index with
  | none => return none
  | some segment => segment.getEntry config disk index

/-- `getTerm`. The index before the first one has term 0. -/
def getTerm (disk : Disk) (log : SegmentLog) (index : Nat) : Except Check (Option Nat) :=
  if index + 1 = log.firstIndex then .ok (some 0)
  else do
    match ← log.getSegment index with
    | none => return none
    | some segment => segment.getTerm disk index

def setCurrentTerm (log : SegmentLog) (term : Nat) : Action SegmentLog := do
  perform (.setCurrentTerm term)
  return { log with currentTerm := term }

def setVoteFor (log : SegmentLog) (voteFor : Nat) : Action SegmentLog := do
  perform (.setVoteFor voteFor)
  return { log with voteFor := voteFor }

def putClosed (segment : Segment) (closed : List Segment) : List Segment :=
  (closed.filter fun other => other.firstIndex != segment.firstIndex).orderedInsert
    (fun left right => left.firstIndex ≤ right.firstIndex) segment

def rollActiveSegment : Action SegmentLog := do
  let active ← Program.require .noActive log.activeSegment
  let closed ← active.closeActiveSegment
  let active ← Segment.createActiveSegment config (log.lastIndex + 1)
  return { log with
    closedSegments := putClosed closed log.closedSegments
    activeSegment := some active }

/-- The part of `appendEntries` that rolls if needed. -/
def rollIfNeeded (entries : List Entry) : Action SegmentLog := do
  let active ← Program.require .noActive log.activeSegment
  let roll ← active.shouldRoll config entries
  if roll then rollActiveSegment config log else return log

/-- `appendEntries`. A batch that does not follow the log is refused. -/
def appendEntries (log : SegmentLog) (entries : List Entry) : Action (SegmentLog × Bool) := do
  match entries with
  | [] => return (log, true)
  | first :: _ =>
    if config.format.index first ≠ log.lastIndex + 1 then
      return (log, false)
    else
      let log ← rollIfNeeded config log entries
      let active ← Program.require .noActive log.activeSegment
      let active ← active.appendEntries config entries
      return ({ log with
        activeSegment := some active
        lastIndex := log.lastIndex + entries.length }, true)

def truncatePrefix (firstIndexKept : Nat) : Action SegmentLog := do
  if firstIndexKept ≤ log.firstIndex then
    return log
  else
    perform (.setFirstIndex firstIndexKept)
    let closed := log.closedSegments.dropWhile fun segment => segment.lastIndex < firstIndexKept
    let log := { log with firstIndex := firstIndexKept, closedSegments := closed }
    match closed with
    | _ :: _ => return log
    | [] =>
      let active ← Program.require .noActive log.activeSegment
      if active.lastIndex < firstIndexKept then
        let active ← Segment.createActiveSegment config firstIndexKept
        return { log with lastIndex := firstIndexKept - 1, activeSegment := some active }
      else
        return log

/-- Where `truncateSuffix` cuts: the log without the segments behind the cut, the
segment that holds the cut, and the segments to drop, the last one first. -/
def cutSegments (active : Segment) (lastIndexKept : Nat) :
    SegmentLog × Option Segment × List Segment :=
  if active.firstIndex ≤ lastIndexKept then (log, some active, [])
  else
    let behind := log.closedSegments.reverse.takeWhile fun segment =>
      lastIndexKept < segment.firstIndex
    let lastSegment := (log.closedSegments.reverse.dropWhile fun segment =>
      lastIndexKept < segment.firstIndex).head?
    let closed := log.closedSegments.filter fun segment =>
      behind.all fun dropped => dropped.firstIndex != segment.firstIndex
    ({ log with
        activeSegment := none
        closedSegments := closed
        firstIndex := if closed.isEmpty then lastIndexKept + 1 else log.firstIndex },
      lastSegment, active :: behind)

/-- The segment that holds the cut is truncated, or dropped with the others if
the log becomes empty. -/
def cutLastSegment (lastSegment : Segment) (lastIndexKept : Nat)
    (dropped : List Segment) : Action (SegmentLog × List Segment) := do
  if log.firstIndex ≤ lastIndexKept then
    let truncated ← lastSegment.truncateSuffix lastIndexKept
    if log.activeSegment = some lastSegment then
      return ({ log with activeSegment := some truncated }, dropped)
    else
      return ({ log with
        closedSegments := log.closedSegments.map fun segment =>
          if segment.firstIndex = truncated.firstIndex then truncated else segment }, dropped)
  else
    if log.activeSegment = some lastSegment then
      return ({ log with activeSegment := none }, dropped ++ [lastSegment])
    else
      return ({ log with
        closedSegments := log.closedSegments.filter fun segment =>
          segment.firstIndex != lastSegment.firstIndex }, dropped ++ [lastSegment])

def truncateSuffix (lastIndexKept : Nat) : Action SegmentLog := do
  if log.lastIndex ≤ lastIndexKept then
    return log
  else
    let active ← Program.require .noActive log.activeSegment
    let (log, lastSegment, dropped) :=
      cutSegments { log with lastIndex := lastIndexKept } active lastIndexKept
    let (log, dropped) ← match lastSegment with
      | some lastSegment => cutLastSegment log lastSegment lastIndexKept dropped
      | none => pure (log, dropped)
    Program.forEach dropped Segment.dropSegment
    let active ← ensureActive config log.activeSegment (lastIndexKept + 1)
    return { log with activeSegment := some active }

end SegmentLog

end MySuperLedger.Storage
