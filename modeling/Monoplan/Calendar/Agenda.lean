import Monoplan.Base.StableSort
import Monoplan.Calendar.Stamp

/-!
# The agenda

`monoplan agenda`: dated items by day, from today to a horizon, and the open events without a
date.  Days are compared as strings.
-/

namespace Monoplan.Doc.ItemView

variable (it : ItemView)

def isDone : Bool := it.state = .done

def isCancelled : Bool := it.state = .cancelled

def isBinned : Bool := it.binnedAt.isSome

/-- Located in the reserved list. -/
def isEvent : Bool := it.listId = LIST_EVENTS

end Monoplan.Doc.ItemView

namespace Monoplan.Calendar

open Monoplan.Base Monoplan.Doc

/-- Row tone, least to most urgent.  The web calls it `DayTone`. -/
inductive Tone
  | neutral | warning | overdue
  deriving DecidableEq

/-- Which field put the row on its day. -/
inductive PlacedBy
  | when | deadline
  deriving DecidableEq

variable {ω : Type*}

structure AgendaRow (ω : Type*) where
  item : ItemView
  placedBy : PlacedBy
  tone : Tone
  /-- The row's workspace on a merged agenda. -/
  doc : Option ω

/-- One workspace's items, and the tag their rows carry. -/
abbrev Source (ω : Type*) := Option ω × List ItemView

structure AgendaDay (ω : Type*) where
  day : String
  rows : List (AgendaRow ω)

/-- A row with what it is sorted by: day, fold group, placing raw and creation time. -/
structure Placed (ω : Type*) where
  day : String
  group : ℕ
  raw : String
  createdAt : ℤ
  row : AgendaRow ω

/-- The day, field and raw string of an open item, of its `when` day and its placed deadline. -/
def agendaDay (item : ItemView) (whenDay deadlinePlaced : Option String) :
    Option (String × PlacedBy × String) :=
  match whenDay, deadlinePlaced with
  | some w, some d =>
    -- `when` wins a tie
    if d < w then item.deadline.map fun raw => (d, .deadline, raw)
    else item.when.map fun raw => (w, .when, raw)
  | some w, none => item.when.map fun raw => (w, .when, raw)
  | none, some d => item.deadline.map fun raw => (d, .deadline, raw)
  | none, none => none

/-- What one item adds to the agenda: the body of the loop. -/
def agendaPlace (today horizon : String) (doc : Option ω) (item : ItemView) : Option (Placed ω) :=
  if item.isBinned || item.isCancelled then none
  else
    -- past days are not shown, so a past `when` places nothing
    let whenDay := (item.when.map whenDay).filter fun w => decide (today ≤ w)
    let deadlineDay := item.deadline
    if whenDay.isNone && deadlineDay.isNone then none
    else if item.isDone then
      whenDay.bind fun day =>
        if horizon < day then none
        else item.when.map fun raw => ⟨day, 1, raw, item.createdAt, ⟨item, .when, .neutral, doc⟩⟩
    else
      let deadlinePlaced := deadlineDay.map fun d => if d < today then today else d
      (agendaDay item whenDay deadlinePlaced).bind fun (day, placedBy, raw) =>
        if horizon < day then none
        else
          let deadlineOverdue := deadlineDay.any fun d => decide (d < today)
          let tone : Tone :=
            if deadlineOverdue then .overdue
            else if deadlineDay = some today then .warning
            else .neutral
          -- overdue deadlines lead today, by their own date
          let (group, raw) := if deadlineOverdue then (0, deadlineDay.getD "") else (1, raw)
          some ⟨day, group, raw, item.createdAt, ⟨item, placedBy, tone, doc⟩⟩

/-- The agenda's order. -/
def cmpPlaced : Placed ω → Placed ω → Ordering :=
  compareLex (compareOn (·.day)) (compareLex (compareOn (·.group))
    (compareLex (compareOn (·.raw)) (compareOn (·.createdAt))))

/-- Push a row onto the last day, or open its own. -/
def pushDay : List (AgendaDay ω) → Placed ω → List (AgendaDay ω)
  | [], p => [⟨p.day, [p.row]⟩]
  | [last], p =>
    if last.day = p.day then [{ last with rows := last.rows ++ [p.row] }]
    else [last, ⟨p.day, [p.row]⟩]
  | d :: d' :: ds, p => d :: pushDay (d' :: ds) p

/-- `build_agenda_from`. -/
def buildAgendaFrom (sources : List (Source ω)) (today horizon : String) : List (AgendaDay ω) :=
  let placed := sources.flatMap fun s => s.2.filterMap (agendaPlace today horizon s.1)
  (sortBy cmpPlaced placed).foldl pushDay [⟨today, []⟩]

/-- `build_agenda`. -/
def buildAgenda (items : List ItemView) (today horizon : String) : List (AgendaDay ω) :=
  buildAgendaFrom [(none, items)] today horizon

/-- `unscheduled_events`: open events without a date, oldest first. -/
def unscheduledEvents (items : List ItemView) : List ItemView :=
  sortBy (compareLex (compareOn (·.createdAt)) (compareOn (·.id)))
    (items.filter fun i => i.isEvent && i.isOpen && i.when.isNone && i.deadline.isNone)

end Monoplan.Calendar
