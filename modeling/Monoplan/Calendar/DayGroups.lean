import Monoplan.Calendar.Agenda

/-!
# The web calendar

`groupByDay`: the same items in groups, Overdue and Unscheduled ahead of Today, with the rows of a
`when` that runs for days on every day it covers.  The loops over the days of a span step by
`addDaysToStamp` and run under fuel: `none` is a loop that has not ended.
-/

namespace Monoplan.Calendar

open Monoplan.Base Monoplan.Doc

/-! ## Items -/

def isClosedState (s : WorkflowState) : Bool := s = .done || s = .cancelled

def isClosed (it : ItemView) : Bool := isClosedState it.state

/-- `isOpen` of the store. -/
def isOpen (it : ItemView) : Bool := !it.isBinned && !isClosedState it.state

/-- A register, where it is truthy. -/
def truthy (o : Option String) : Option String := o.filter fun s => s ≠ ""

def isUnscheduledEvent (it : ItemView) : Bool :=
  it.isEvent && isOpen it && (truthy it.when).isNone && (truthy it.deadline).isNone

/-! ## Rows -/

inductive DayPlacedBy
  | when | deadline | none
  deriving DecidableEq

structure DayRow where
  item : ItemView
  placedBy : DayPlacedBy
  tone : Tone
  /-- Which day of its span the row is, and of how many. -/
  span : Option (ℕ × ℕ)

inductive Urgency
  | overdue | unscheduled | today | future
  deriving DecidableEq

structure DayGroup where
  key : String
  urgency : Urgency
  rows : List DayRow

structure PlacedRow where
  day : String
  raw : String
  row : DayRow

structure OverdueRow where
  raw : String
  row : DayRow

/-- The lists that the loop over the items fills. -/
structure Buckets where
  placed : List PlacedRow
  overdueRows : List OverdueRow
  unscheduled : List ItemView

def OVERDUE_KEY : String := "overdue"

def UNSCHEDULED_KEY : String := "unscheduled"

/-- The position of a day in its span: `for (let d = first; d < day; …) n++`. -/
def spanDay : ℕ → String → String → ℕ → Option ℕ
  | 0, _, _, _ => none
  | fuel + 1, d, day, n =>
    if d < day then spanDay fuel (addDaysToStamp d 1) day (n + 1) else some n

/-- `placeWhen`, from a day on. -/
def placeWhen (it : ItemView) (raw : String) (span : Span) (tone : Tone) :
    ℕ → String → Option (List PlacedRow)
  | 0, _ => none
  | fuel + 1, day =>
    if day ≤ span.last then
      let position :=
        if 1 < span.total then (spanDay fuel span.start day 1).map fun n => some (n, span.total)
        else some none
      position.bind fun position =>
        (placeWhen it raw span tone fuel (addDaysToStamp day 1)).map fun rest =>
          ⟨day, raw, ⟨it, .when, tone, position⟩⟩ :: rest
    else some []

/-- One item: the body of the loop. -/
def Buckets.add (fuel : ℕ) (today : String) (b : Buckets) (it : ItemView) : Option Buckets :=
  if isUnscheduledEvent it then some { b with unscheduled := b.unscheduled ++ [it] }
  else if it.isBinned || ((truthy it.when).isNone && (truthy it.deadline).isNone) then some b
  else
    let span := (truthy it.when).map fun w => (w, whenSpan w it.duration)
    -- a span still running is placed from today
    let wDay := span.bind fun s =>
      if today ≤ s.2.last then some (s.1, s.2, if today ≤ s.2.start then s.2.start else today)
      else none
    let dDay := it.deadline
    let place (tone : Tone) (w : String × Span × String) : Option Buckets :=
      (placeWhen it w.1 w.2.1 tone fuel w.2.2).map fun rows =>
        { b with placed := b.placed ++ rows }
    if isClosed it then
      match wDay with
      | none => some b
      | some w => place .neutral w
    else
      match dDay.filter fun d => decide (d < today) with
      | some d =>
        some { b with overdueRows := b.overdueRows ++ [⟨d, ⟨it, .deadline, .overdue, none⟩⟩] }
      | none =>
        let tone : Tone := if dDay = some today then .warning else .neutral
        match wDay, dDay with
        | none, none => some b
        | some w, none => place tone w
        | none, some d =>
          some { b with placed := b.placed ++ [⟨d, d, ⟨it, .deadline, tone, none⟩⟩] }
        | some w, some d =>
          -- `when` wins a tie
          if d = "" ∨ w.2.2 ≤ d then place tone w
          else some { b with placed := b.placed ++ [⟨d, d, ⟨it, .deadline, tone, none⟩⟩] }

/-! ## Groups -/

section Sorting

variable (localeCompare : String → String → Ordering)

/-- `byRawThenCreated`. -/
def byRawThenCreated (rawA rawB : String) (rowA rowB : DayRow) : Ordering :=
  (localeCompare rawA rawB).then (compare rowA.item.createdAt rowB.item.createdAt)

def cmpOverdue (a b : OverdueRow) : Ordering :=
  byRawThenCreated localeCompare a.raw b.raw a.row b.row

def cmpPlacedRow (a b : PlacedRow) : Ordering :=
  (localeCompare a.day b.day).then (byRawThenCreated localeCompare a.raw b.raw a.row b.row)

def cmpUnscheduled (a b : ItemView) : Ordering :=
  (compare a.createdAt b.createdAt).then (localeCompare a.id b.id)

/-- Push a row onto the last group, or open its own. -/
def pushGroup : List DayGroup → PlacedRow → List DayGroup
  | [], p => [⟨p.day, .future, [p.row]⟩]
  | [last], p =>
    if last.key = p.day then [{ last with rows := last.rows ++ [p.row] }]
    else [last, ⟨p.day, .future, [p.row]⟩]
  | g :: g' :: gs, p => g :: pushGroup (g' :: gs) p

/-- The groups of what the loop collected. -/
def Buckets.groups (today : String) (b : Buckets) : List DayGroup :=
  let overdueRows := sortBy (cmpOverdue localeCompare) b.overdueRows
  let placed := sortBy (cmpPlacedRow localeCompare) b.placed
  let overdue : List DayGroup :=
    if overdueRows = [] then [] else [⟨OVERDUE_KEY, .overdue, overdueRows.map (·.row)⟩]
  let unscheduled : List DayGroup :=
    if b.unscheduled = [] then []
    else
      [⟨UNSCHEDULED_KEY, .unscheduled, (sortBy (cmpUnscheduled localeCompare) b.unscheduled).map
        fun item => ⟨item, .none, .neutral, none⟩⟩]
  placed.foldl pushGroup (overdue ++ unscheduled ++ [⟨today, .today, []⟩])

/-- `groupByDay`. -/
def groupByDay (fuel : ℕ) (items : List ItemView) (today : String) : Option (List DayGroup) :=
  (items.foldlM (Buckets.add fuel today) ⟨[], [], []⟩).map (Buckets.groups localeCompare today)

end Sorting

end Monoplan.Calendar
