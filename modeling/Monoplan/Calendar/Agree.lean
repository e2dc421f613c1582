import Monoplan.Calendar.DayGroups

/-!
# Two calendars

The agenda of the CLI and the groups of the web place the same items on the same days, in the
same order and tone.

* `Slot`: where an item goes, said once; `agendaPlace_slot` and `add_slot` are the two programs.
* `shownByWeb`: the web's groups read as an agenda: up to the horizon, without what was cancelled,
  Overdue at the head of Today.
* `OnLastDay`: an item placed by a `when` on the last day that a stamp can write, on which the
  web steps through days for ever.
* `agenda_eq_groups`: without such an item the two agree, and with one the web does not answer.
-/

namespace Monoplan.Calendar

open Monoplan.Base Monoplan.Doc

/-! ## Where an item goes -/

/-- What the fields of an item say of its place. -/
inductive Slot
  | nowhere
  /-- Owed by a day before today. -/
  | overdue (deadline : String)
  | on (day raw : String) (tone : Tone)
  deriving DecidableEq

/-- The day of a `when` that is not over. -/
def upcoming (today : String) (it : ItemView) : Option (String × String) :=
  (it.when.map fun w => (whenDay w, w)).filter fun w => decide (today ≤ w.1)

/-- The place of an open item: by an overdue deadline, else by the earlier of `when` and deadline,
and by `when` if they tie. -/
def openSlot (today : String) (upcoming : Option (String × String)) (deadline : Option String) :
    Slot :=
  let tone : Tone := if deadline = some today then .warning else .neutral
  match deadline.filter fun d => decide (d < today) with
  | some d => .overdue d
  | none =>
    match upcoming, deadline with
    | none, none => .nowhere
    | some w, none => .on w.1 w.2 tone
    | none, some d => .on d d tone
    | some w, some d => if w.1 ≤ d then .on w.1 w.2 tone else .on d d tone

/-- The place of an item, where no `when` runs for more than a day. -/
def slot (today : String) (it : ItemView) : Slot :=
  if it.isBinned then .nowhere
  else if isClosed it then
    match upcoming today it with
    | none => .nowhere
    | some w => .on w.1 w.2 .neutral
  else openSlot today (upcoming today it) it.deadline

/-- The last day that a stamp of ten characters can write. -/
def LAST_DAY : String := "9999-12-31"

/-- An item with a `when` on the last day, which places it: it is closed, or nothing is owed
before. -/
def OnLastDay (today : String) (it : ItemView) : Prop :=
  it.isBinned = false ∧ today ≤ LAST_DAY ∧ (∃ w ∈ it.when, whenDay w = LAST_DAY) ∧
    (isClosed it = true ∨ ∀ d ∈ it.deadline, LAST_DAY ≤ d)

/-- The registers hold what the document accepts, and no `when` runs for more than a day. -/
structure SingleDay (it : ItemView) : Prop where
  when : ∀ w ∈ it.when, parseWhen w = some w ∧ spanEndOffset w it.duration = 0
  deadline : ∀ d ∈ it.deadline, parseDeadline d = some d

/-- The strings that stand for days and times. -/
def DateString (s : String) : Prop := validWhen s.toList = true

/-! ## What a row shows -/

/-- An entry of the agenda's order, with what its row shows. -/
structure Entry where
  day : String
  group : ℕ
  raw : String
  createdAt : ℤ
  shown : ItemView × Tone
  deriving DecidableEq

def cmpEntry : Entry → Entry → Ordering :=
  compareLex (compareOn (·.day)) (compareLex (compareOn (·.group))
    (compareLex (compareOn (·.raw)) (compareOn (·.createdAt))))

def Placed.entry {ω : Type*} (p : Placed ω) : Entry :=
  ⟨p.day, p.group, p.raw, p.createdAt, (p.row.item, p.row.tone)⟩

def DayRow.shown (r : DayRow) : ItemView × Tone := (r.item, r.tone)

def OverdueRow.entry (today : String) (r : OverdueRow) : Entry :=
  ⟨today, 0, r.raw, r.row.item.createdAt, r.row.shown⟩

def PlacedRow.entry (r : PlacedRow) : Entry :=
  ⟨r.day, 1, r.raw, r.row.item.createdAt, r.row.shown⟩

/-- The entry of what is owed from before today. -/
def Slot.owed (today : String) (it : ItemView) : Slot → List Entry
  | .overdue d => [⟨today, 0, d, it.createdAt, (it, .overdue)⟩]
  | _ => []

/-- The entry of what has a day of its own. -/
def Slot.placed (it : ItemView) : Slot → List Entry
  | .on day raw tone => [⟨day, 1, raw, it.createdAt, (it, tone)⟩]
  | _ => []

/-- What the agenda shows of a slot. -/
def Slot.entries (today horizon : String) (it : ItemView) (s : Slot) : List Entry :=
  s.owed today it ++ (s.placed it).filter fun e => decide (e.day ≤ horizon)

/-- The day that an agenda shows. -/
def AgendaDay.shown {ω : Type*} (d : AgendaDay ω) : String × List (ItemView × Tone) :=
  (d.day, d.rows.map fun r => (r.item, r.tone))

/-- A group's key and rows. -/
def DayGroup.shown (g : DayGroup) : String × List (ItemView × Tone) :=
  (g.key, g.rows.map DayRow.shown)

/-- The rows of the groups of one kind. -/
def rowsOf (u : Urgency) (groups : List DayGroup) : List (ItemView × Tone) :=
  groups.flatMap fun g => if g.urgency = u then g.rows.map DayRow.shown else []

/-- The web's days as an agenda: up to the horizon, without the rows of cancelled items and the
days that have no other, and with Overdue at the head of Today. -/
def shownByWeb (today horizon : String) (groups : List DayGroup) :
    List (String × List (ItemView × Tone)) :=
  let days := groups.filter fun g => g.urgency = .today || g.urgency = .future
  (prune today horizon (fun r => !r.1.isCancelled) (days.map DayGroup.shown)).map fun d =>
    if d.1 = today then (d.1, rowsOf .overdue groups ++ d.2) else d

section Slots

variable {ω : Type*} {today horizon : String} {it : ItemView} {items : List ItemView}

theorem isClosedState_eq (s : WorkflowState) : isClosedState s = !s.isOpen := by
  cases s <;> rfl

theorem isOpen_eq (it : ItemView) : isOpen it = it.isOpen := by
  rw [isOpen, ItemView.isOpen, ItemView.isBinned, isClosedState_eq, Bool.not_not,
    Option.not_isSome]

theorem upcoming_some {w : String × String} (h : upcoming today it = some w) :
    it.when = some w.2 ∧ whenDay w.2 = w.1 ∧ today ≤ w.1 := by
  unfold upcoming at h
  obtain ⟨hmap, hle⟩ := Option.filter_eq_some_iff.1 h
  obtain ⟨raw, hraw, rfl⟩ := Option.map_eq_some_iff.1 hmap
  exact ⟨hraw, rfl, of_decide_eq_true hle⟩

theorem whenDay_filter (today : String) (it : ItemView) :
    ((it.when.map whenDay).filter fun w => decide (today ≤ w)) =
      (upcoming today it).map Prod.fst := by
  unfold upcoming
  cases it.when with
  | none => rfl
  | some w =>
    rw [Option.map_some, Option.map_some, Option.filter_some, Option.filter_some]
    split <;> rfl

/-- An open item that nothing is overdue of goes where its slot says. -/
theorem agendaDay_openSlot (hdue : it.deadline.filter (fun d => decide (d < today)) = none) :
    (agendaDay it ((upcoming today it).map Prod.fst)
        (it.deadline.map fun d => if d < today then today else d) = none ∧
      openSlot today (upcoming today it) it.deadline = .nowhere) ∨
    ∃ day field raw, agendaDay it ((upcoming today it).map Prod.fst)
        (it.deadline.map fun d => if d < today then today else d) = some (day, field, raw) ∧
      openSlot today (upcoming today it) it.deadline =
        .on day raw (if it.deadline = some today then .warning else .neutral) := by
  unfold agendaDay openSlot
  rw [hdue]
  cases hd : it.deadline with
  | none =>
    cases hu : upcoming today it with
    | none => exact .inl ⟨rfl, rfl⟩
    | some w =>
      obtain ⟨hw, -, -⟩ := upcoming_some hu
      refine .inr ⟨w.1, .when, w.2, ?_, rfl⟩
      simp only [Option.map_some, Option.map_none, hw]
  | some d =>
    have hlt : ¬d < today := by
      intro hlt
      rw [hd, Option.filter_some, if_pos (decide_eq_true hlt)] at hdue
      exact absurd hdue (by simp)
    simp only [Option.map_some, if_neg hlt]
    cases hu : upcoming today it with
    | none => exact .inr ⟨d, .deadline, d, rfl, rfl⟩
    | some w =>
      obtain ⟨hw, -, -⟩ := upcoming_some hu
      simp only [Option.map_some, hw]
      rcases lt_or_ge d w.1 with hw | hw
      · rw [if_pos hw, if_neg (not_le.2 hw)]
        exact .inr ⟨d, .deadline, d, rfl, rfl⟩
      · rw [if_neg (not_lt.2 hw), if_pos hw]
        exact .inr ⟨w.1, .when, w.2, rfl, rfl⟩

/-- An overdue item goes on today, by whichever field. -/
theorem agendaDay_overdue {d : String} (hd : it.deadline = some d) (hlt : d < today) :
    ∃ field raw, agendaDay it ((upcoming today it).map Prod.fst)
      (it.deadline.map fun d => if d < today then today else d) = some (today, field, raw) := by
  unfold agendaDay
  rw [hd, Option.map_some, if_pos hlt]
  cases hu : upcoming today it with
  | none => exact ⟨_, _, rfl⟩
  | some w =>
    obtain ⟨hw, -, hup⟩ := upcoming_some hu
    dsimp only [Option.map_some]
    split
    · exact ⟨_, _, rfl⟩
    · rename_i hnot
      rw [hw, le_antisymm (not_lt.1 hnot) hup]
      exact ⟨_, _, rfl⟩

theorem entries_on (today horizon : String) (it : ItemView) (day raw : String) (tone : Tone) :
    (Slot.on day raw tone).entries today horizon it =
      if horizon < day then [] else [⟨day, 1, raw, it.createdAt, (it, tone)⟩] := by
  show [Entry.mk day 1 raw it.createdAt (it, tone)].filter (fun e => decide (e.day ≤ horizon)) = _
  rw [List.filter_cons, List.filter_nil]
  by_cases h : horizon < day
  · rw [if_pos h, if_neg]
    exact fun hle => not_lt_of_ge (of_decide_eq_true hle) h
  · rw [if_neg h, if_pos (decide_eq_true (not_lt.1 h))]

/-- **The agenda follows the slot.** -/
theorem agendaPlace_slot (hh : today ≤ horizon) (doc : Option ω) (it : ItemView) :
    ((agendaPlace today horizon doc it).map Placed.entry).toList =
      if it.isCancelled then [] else (slot today it).entries today horizon it := by
  unfold agendaPlace slot
  cases hb : it.isBinned with
  | true =>
    rw [Bool.true_or, if_pos rfl, if_pos rfl]
    split <;> rfl
  | false =>
    cases hc : it.isCancelled with
    | true => rfl
    | false =>
      have hclosed : isClosed it = it.isDone := by
        rw [isClosed, isClosedState]
        rw [ItemView.isCancelled] at hc
        rw [hc, Bool.or_false]
        rfl
      rw [hclosed, whenDay_filter]
      simp only [Bool.or_false, Bool.false_eq_true, if_false]
      cases hdone : it.isDone with
      | true =>
        simp only [if_true]
        cases hu : upcoming today it with
        | none => cases it.deadline <;> rfl
        | some w =>
          obtain ⟨hw, -, -⟩ := upcoming_some hu
          simp only [Option.map_some, Option.bind_some, hw, Option.isNone_some, Bool.false_and,
            Bool.false_eq_true, if_false, entries_on]
          split <;> rfl
      | false =>
        simp only [Bool.false_eq_true, if_false]
        cases hdue : it.deadline.filter fun d => decide (d < today) with
        | some d =>
          obtain ⟨hd, hlt⟩ := Option.filter_eq_some_iff.1 hdue
          have hlt : d < today := of_decide_eq_true hlt
          obtain ⟨field, raw, hday⟩ := agendaDay_overdue hd hlt
          have hnone : (((upcoming today it).map Prod.fst).isNone && it.deadline.isNone) = false := by
            rw [hd, Option.isNone_some, Bool.and_false]
          have hslot : openSlot today (upcoming today it) it.deadline = .overdue d := by
            unfold openSlot
            rw [hdue]
          have hany : it.deadline.any (fun d => decide (d < today)) = true := by
            rw [hd]
            exact decide_eq_true hlt
          rw [hnone, hday, hslot, hany]
          simp only [Bool.false_eq_true, if_false, Option.bind_some, if_neg (not_lt.2 hh), if_true,
            hd]
          rfl
        | none =>
          have hany : it.deadline.any (fun d => decide (d < today)) = false := by
            cases hd : it.deadline with
            | none => rfl
            | some d =>
              rw [hd, Option.filter_some] at hdue
              split at hdue
              · exact absurd hdue (by simp)
              · rename_i hlt
                exact Bool.eq_false_iff.2 hlt
          rw [hany]
          simp only [Bool.false_eq_true, if_false]
          rcases agendaDay_openSlot hdue with ⟨hday, hslot⟩ | ⟨day, field, raw, hday, hslot⟩
          · rw [hday, hslot]
            split <;> rfl
          · have hnone : (((upcoming today it).map Prod.fst).isNone && it.deadline.isNone) = false := by
              refine Bool.eq_false_iff.2 fun h => ?_
              rw [Bool.and_eq_true, Option.isNone_iff_eq_none, Option.isNone_iff_eq_none] at h
              rw [h.1, h.2] at hday
              exact absurd hday (by simp [agendaDay])
            rw [hnone, hday, hslot]
            simp only [Bool.false_eq_true, if_false, Option.bind_some, entries_on]
            split <;> rfl

end Slots

/-! ## The web's loop -/

section Web

variable {today horizon : String} {it : ItemView} {items : List ItemView} {fuel : ℕ}

theorem validWhen_of_parseWhen {w : String} (h : parseWhen w = some w) :
    validWhen w.toList = true := by
  unfold parseWhen at h
  split at h
  · rename_i hv
    rwa [Option.some.inj h] at hv
  · exact absurd h (by simp)

theorem validDate_of_parseDeadline {d : String} (h : parseDeadline d = some d) :
    validDate d.toList = true := by
  unfold parseDeadline at h
  split at h
  · rename_i hv
    rwa [Option.some.inj h] at hv
  · exact absurd h (by simp)

theorem dateString_of_validDate {s : String} (h : validDate s.toList = true) : DateString s := by
  have hlen : s.toList.length = 10 := by
    simp only [validDate, Bool.and_eq_true, decide_eq_true_eq] at h
    exact h.1.1.1
  rw [DateString, validWhen, if_pos hlen]
  exact h

/-- The day of a `when` is a day. -/
theorem validDate_whenDay {w : String} (h : parseWhen w = some w) :
    validDate (whenDay w).toList = true := by
  have hv := validWhen_of_parseWhen h
  rw [whenDay, String.toList_ofList]
  unfold validWhen at hv
  split at hv
  · rename_i hlen
    rwa [List.take_of_length_le hlen.le]
  · simp only [Bool.and_eq_true, decide_eq_true_eq] at hv
    obtain ⟨⟨⟨⟨hlen, -⟩, -⟩, hdate⟩, -⟩ := hv
    have hten : (trimmed (w.toList.take 10)).length = 10 := by
      simp only [validDate, Bool.and_eq_true, decide_eq_true_eq] at hdate
      exact hdate.1.1.1
    rwa [(trimmed_sublist _).eq_of_length (by rw [hten, List.length_take, hlen]; rfl)] at hdate

theorem SingleDay.truthy_when (h : SingleDay it) : truthy it.when = it.when := by
  cases hw : it.when with
  | none => rfl
  | some w => exact if_pos (decide_eq_true (parseWhen_ne (h.when w hw).1))

theorem SingleDay.truthy_deadline (h : SingleDay it) : truthy it.deadline = it.deadline := by
  cases hd : it.deadline with
  | none => rfl
  | some d => exact if_pos (decide_eq_true (parseDeadline_ne (h.deadline d hd)))

theorem whenSpan_single {w : String} {duration : Option ℕ} (h : spanEndOffset w duration = 0) :
    whenSpan w duration = ⟨whenDay w, whenDay w, 1⟩ := by
  rw [whenSpan, h]
  rfl

/-- A `when` of one day is placed once, after two tests of the loop, unless it is on the last
day. -/
theorem placeWhen_single {day : String} (raw : String) (tone : Tone)
    (hday : validDate day.toList = true) (hlast : day ≠ LAST_DAY) :
    placeWhen it raw ⟨day, day, 1⟩ tone (fuel + 2) day =
      some [⟨day, raw, ⟨it, .when, tone, none⟩⟩] := by
  have hnext : ¬addDaysToStamp day 1 ≤ day := not_le.2 (lt_addDaysToStamp hday hlast)
  rw [placeWhen, if_pos le_rfl, if_neg (lt_irrefl 1), placeWhen, if_neg hnext]
  rfl

/-- The stamp beyond the last day lies before it, and has no next one. -/
theorem beyond_last : addDaysToStamp LAST_DAY 1 = "10000-01-01" ∧
    addDaysToStamp "10000-01-01" 1 = "10000-01-01" ∧ "10000-01-01" ≤ LAST_DAY := by
  decide +kernel

/-- **The loop over the last day does not end.** -/
theorem placeWhen_last (raw : String) (tone : Tone) (fuel : ℕ) :
    placeWhen it raw ⟨LAST_DAY, LAST_DAY, 1⟩ tone fuel LAST_DAY = none := by
  obtain ⟨hnext, hstuck, hle⟩ := beyond_last
  have hbeyond (fuel : ℕ) :
      placeWhen it raw ⟨LAST_DAY, LAST_DAY, 1⟩ tone fuel "10000-01-01" = none := by
    induction fuel with
    | zero => rfl
    | succ fuel ih => rw [placeWhen, if_pos hle, hstuck, ih]; rfl
  cases fuel with
  | zero => rfl
  | succ fuel => rw [placeWhen, if_pos le_rfl, hnext, hbeyond]; rfl

/-- What the loop adds for one item. -/
structure Adds (today : String) (it : ItemView) (b b' : Buckets) : Prop where
  placed : b'.placed.map PlacedRow.entry =
    b.placed.map PlacedRow.entry ++ (slot today it).placed it
  overdue : b'.overdueRows.map (OverdueRow.entry today) =
    b.overdueRows.map (OverdueRow.entry today) ++ (slot today it).owed today it
  unscheduled : b'.unscheduled = b.unscheduled ++ [it].filter isUnscheduledEvent

/-- The web's day of a `when` is the slot's. -/
theorem wDay_eq (h : SingleDay it) :
    (((truthy it.when).map fun w => (w, whenSpan w it.duration)).bind fun s =>
      if today ≤ s.2.last then
        some (s.1, s.2, if today ≤ s.2.start then s.2.start else today)
      else none) =
      (upcoming today it).map fun w => (w.2, ⟨w.1, w.1, 1⟩, w.1) := by
  rw [h.truthy_when, upcoming]
  cases hw : it.when with
  | none => rfl
  | some w =>
    rw [Option.map_some, Option.bind_some, whenSpan_single (h.when w hw).2, Option.map_some,
      Option.filter_some]
    dsimp only
    by_cases hup : today ≤ whenDay w
    · rw [if_pos hup, if_pos hup, if_pos (decide_eq_true hup)]
      rfl
    · rw [if_neg hup, if_neg fun hd => hup (of_decide_eq_true hd)]
      rfl

theorem adds_nothing {b : Buckets} (hun : isUnscheduledEvent it = false)
    (hs : slot today it = .nowhere) : Adds today it b b := by
  refine ⟨?_, ?_, ?_⟩
  · rw [hs]
    exact (List.append_nil _).symm
  · rw [hs]
    exact (List.append_nil _).symm
  · rw [List.filter_cons, hun]
    exact (List.append_nil _).symm

theorem adds_placed {b : Buckets} {day raw : String} {tone : Tone} {row : PlacedRow}
    (hun : isUnscheduledEvent it = false) (hs : slot today it = .on day raw tone)
    (hrow : row.entry = ⟨day, 1, raw, it.createdAt, (it, tone)⟩) :
    Adds today it b { b with placed := b.placed ++ [row] } := by
  refine ⟨?_, ?_, ?_⟩
  · rw [hs, List.map_append, List.map_singleton, hrow]
    rfl
  · rw [hs]
    exact (List.append_nil _).symm
  · rw [List.filter_cons, hun]
    exact (List.append_nil _).symm

theorem adds_overdue {b : Buckets} {d : String} {row : OverdueRow}
    (hun : isUnscheduledEvent it = false) (hs : slot today it = .overdue d)
    (hrow : row.entry today = ⟨today, 0, d, it.createdAt, (it, .overdue)⟩) :
    Adds today it b { b with overdueRows := b.overdueRows ++ [row] } := by
  refine ⟨?_, ?_, ?_⟩
  · rw [hs]
    exact (List.append_nil _).symm
  · rw [hs, List.map_append, List.map_singleton, hrow]
    rfl
  · rw [List.filter_cons, hun]
    exact (List.append_nil _).symm

/-- An item without dates has no place. -/
theorem slot_undated (hw : it.when = none) (hd : it.deadline = none) :
    slot today it = .nowhere := by
  have hu : upcoming today it = none := by
    rw [upcoming, hw]
    rfl
  unfold slot openSlot
  rw [hu, hd]
  repeat' split
  all_goals first | rfl | contradiction

theorem slot_closed (today : String) (hb : it.isBinned = false) (hc : isClosed it = true) :
    slot today it = (upcoming today it).elim .nowhere fun w => .on w.1 w.2 .neutral := by
  rw [slot, hb, hc, if_neg (by simp), if_pos rfl]
  cases upcoming today it <;> rfl

theorem slot_open (today : String) (hb : it.isBinned = false) (hc : isClosed it = false) :
    slot today it = openSlot today (upcoming today it) it.deadline := by
  rw [slot, hb, hc, if_neg (by simp), if_neg (by simp)]

/-- A `when` that places its item does so on another day than the last. -/
theorem placeWhen_upcoming {w : String × String} (h : SingleDay it)
    (hlast : ¬OnLastDay today it) (hb : it.isBinned = false) (hu : upcoming today it = some w)
    (hwhy : isClosed it = true ∨ ∀ d ∈ it.deadline, w.1 ≤ d) (tone : Tone) :
    placeWhen it w.2 ⟨w.1, w.1, 1⟩ tone (fuel + 2) w.1 =
      some [⟨w.1, w.2, ⟨it, .when, tone, none⟩⟩] := by
  obtain ⟨hw, hday, hup⟩ := upcoming_some hu
  apply placeWhen_single
  · rw [← hday]
    exact validDate_whenDay (h.when _ hw).1
  · intro heq
    rw [heq] at hup hday hwhy
    exact hlast ⟨hb, hup, ⟨w.2, hw, hday⟩, hwhy⟩

/-- **The web follows the slot**, unless the item is on the last day. -/
theorem add_slot (h : SingleDay it) (hlast : ¬OnLastDay today it) (b : Buckets) :
    ∃ b', (∀ fuel, b.add (fuel + 2) today it = some b') ∧ Adds today it b b' := by
  unfold Buckets.add
  cases hun : isUnscheduledEvent it with
  | true =>
    have hnone := hun
    simp only [isUnscheduledEvent, Bool.and_eq_true, h.truthy_when, h.truthy_deadline,
      Option.isNone_iff_eq_none] at hnone
    have hs : slot today it = .nowhere := slot_undated hnone.1.2 hnone.2
    refine ⟨_, fun _ => rfl, ?_, ?_, ?_⟩
    · rw [hs]
      exact (List.append_nil _).symm
    · rw [hs]
      exact (List.append_nil _).symm
    · rw [List.filter_cons, hun]
      rfl
  | false =>
    simp only [Bool.false_eq_true, if_false]
    rw [wDay_eq h, h.truthy_when, h.truthy_deadline]
    cases hb : it.isBinned with
    | true => exact ⟨b, fun _ => rfl, adds_nothing hun (by rw [slot, hb]; rfl)⟩
    | false =>
      cases hnone : it.when.isNone && it.deadline.isNone with
      | true =>
        rw [Bool.and_eq_true, Option.isNone_iff_eq_none, Option.isNone_iff_eq_none] at hnone
        exact ⟨b, fun _ => rfl, adds_nothing hun (slot_undated hnone.1 hnone.2)⟩
      | false =>
        simp only [Bool.or_false, Bool.false_eq_true, if_false]
        cases hc : isClosed it with
        | true =>
          simp only [if_true]
          have hslot := slot_closed today hb hc
          cases hu : upcoming today it with
          | none =>
            rw [hu] at hslot
            exact ⟨b, fun _ => rfl, adds_nothing hun hslot⟩
          | some w =>
            rw [hu] at hslot
            dsimp only [Option.map_some]
            simp only [placeWhen_upcoming h hlast hb hu (.inl hc)]
            exact ⟨_, fun _ => rfl, adds_placed hun hslot rfl⟩
        | false =>
          simp only [Bool.false_eq_true, if_false]
          have hslot := slot_open today hb hc
          unfold openSlot at hslot
          cases hdue : it.deadline.filter fun d => decide (d < today) with
          | some d =>
            rw [hdue] at hslot
            exact ⟨_, fun _ => rfl, adds_overdue hun hslot rfl⟩
          | none =>
            rw [hdue] at hslot
            cases hd : it.deadline with
            | none =>
              cases hu : upcoming today it with
              | none =>
                rw [hu, hd] at hslot
                exact ⟨b, fun _ => rfl, adds_nothing hun hslot⟩
              | some w =>
                rw [hu, hd] at hslot
                dsimp only [Option.map_some]
                have hwhy : ∀ d ∈ it.deadline, w.1 ≤ d := by simp [hd]
                simp only [placeWhen_upcoming h hlast hb hu (.inr hwhy)]
                exact ⟨_, fun _ => rfl, adds_placed hun hslot rfl⟩
            | some d =>
              have hempty : d ≠ "" := parseDeadline_ne (h.deadline d hd)
              cases hu : upcoming today it with
              | none =>
                rw [hu, hd] at hslot
                exact ⟨_, fun _ => rfl, adds_placed hun hslot rfl⟩
              | some w =>
                rw [hu, hd] at hslot
                dsimp only [Option.map_some] at hslot ⊢
                by_cases hle : w.1 ≤ d
                · rw [if_pos hle] at hslot
                  have hwhy : ∀ d ∈ it.deadline, w.1 ≤ d := by
                    rintro d' hd'
                    rw [hd] at hd'
                    exact Option.some.inj hd' ▸ hle
                  simp only [if_pos (Or.inr hle : d = "" ∨ w.1 ≤ d),
                    placeWhen_upcoming h hlast hb hu (.inr hwhy)]
                  exact ⟨_, fun _ => rfl, adds_placed hun hslot rfl⟩
                · rw [if_neg hle] at hslot
                  simp only [if_neg (not_or.2 ⟨hempty, hle⟩)]
                  exact ⟨_, fun _ => rfl, adds_placed hun hslot rfl⟩

/-- **An item on the last day keeps the loop from ending.** -/
theorem add_stuck (h : SingleDay it) (hlast : OnLastDay today it) (b : Buckets) :
    b.add fuel today it = none := by
  obtain ⟨hb, htoday, ⟨w, hw, hday⟩, hwhy⟩ := hlast
  have hw : it.when = some w := hw
  have hun : isUnscheduledEvent it = false := by
    rw [isUnscheduledEvent, h.truthy_when, hw, Option.isNone_some, Bool.and_false, Bool.false_and]
  have hu : upcoming today it = some (LAST_DAY, w) := by
    rw [upcoming, hw, Option.map_some, hday, Option.filter_some, if_pos (decide_eq_true htoday)]
  have hnone : (it.when.isNone && it.deadline.isNone) = false := by
    rw [hw, Option.isNone_some, Bool.false_and]
  unfold Buckets.add
  dsimp only
  rw [wDay_eq h, h.truthy_when, h.truthy_deadline, hun, hb, hnone, hu]
  simp only [Bool.or_false, Bool.false_eq_true, if_false, Option.map_some, placeWhen_last]
  cases hc : isClosed it with
  | true => rfl
  | false =>
    have hdue : ∀ d ∈ it.deadline, LAST_DAY ≤ d := hwhy.resolve_left (by simp [hc])
    cases hd : it.deadline with
    | none => simp only [Bool.false_eq_true, if_false, Option.filter_none, placeWhen_last,
        Option.map_none]
    | some d =>
      have hle : LAST_DAY ≤ d := hdue d hd
      rw [Option.filter_some, if_neg fun hlt => not_lt_of_ge (htoday.trans hle)
        (of_decide_eq_true hlt)]
      simp only [Bool.false_eq_true, if_false, if_pos (Or.inr hle : d = "" ∨ LAST_DAY ≤ d),
        placeWhen_last, Option.map_none]

/-- The loop over items of which none is on the last day. -/
theorem foldlM_add (hall : ∀ it ∈ items, SingleDay it) (hlast : ∀ it ∈ items, ¬OnLastDay today it)
    (b : Buckets) :
    ∃ b', (∀ fuel, items.foldlM (Buckets.add (fuel + 2) today) b = some b') ∧
      b'.placed.map PlacedRow.entry = b.placed.map PlacedRow.entry ++
        items.flatMap (fun it => (slot today it).placed it) ∧
      b'.overdueRows.map (OverdueRow.entry today) = b.overdueRows.map (OverdueRow.entry today) ++
        items.flatMap (fun it => (slot today it).owed today it) ∧
      b'.unscheduled = b.unscheduled ++ items.filter isUnscheduledEvent := by
  induction items generalizing b with
  | nil => exact ⟨b, fun _ => rfl, by simp, by simp, by simp⟩
  | cons it items ih =>
    obtain ⟨hit, hall⟩ := List.forall_mem_cons.1 hall
    obtain ⟨hl, hlast⟩ := List.forall_mem_cons.1 hlast
    obtain ⟨b₁, hb₁, hadds⟩ := add_slot hit hl b
    obtain ⟨b₂, hb₂, hplaced, hoverdue, hun⟩ := ih hall hlast b₁
    refine ⟨b₂, fun fuel => ?_, ?_, ?_, ?_⟩
    · rw [List.foldlM_cons, hb₁]
      exact hb₂ fuel
    · rw [hplaced, hadds.placed, List.flatMap_cons, List.append_assoc]
    · rw [hoverdue, hadds.overdue, List.flatMap_cons, List.append_assoc]
    · rw [hun, hadds.unscheduled, List.append_assoc, ← List.filter_append]
      rfl

theorem foldlM_stuck (hall : ∀ it ∈ items, SingleDay it) (hlast : ∃ it ∈ items, OnLastDay today it)
    (b : Buckets) : items.foldlM (Buckets.add fuel today) b = none := by
  induction items generalizing b with
  | nil => exact absurd hlast (by simp)
  | cons it items ih =>
    obtain ⟨hit, hall⟩ := List.forall_mem_cons.1 hall
    rw [List.foldlM_cons]
    cases hadd : b.add fuel today it with
    | none => rfl
    | some b' =>
      refine ih hall ?_ b'
      obtain ⟨it', hmem, hl⟩ := hlast
      rcases List.mem_cons.1 hmem with rfl | hmem
      · rw [add_stuck hit hl] at hadd
        exact absurd hadd (by simp)
      · exact ⟨it', hmem, hl⟩

end Web

/-! ## Days in order -/

section Order

variable {ω : Type*} {today horizon : String} {it : ItemView} {items : List ItemView}

instance : Std.TransCmp cmpEntry :=
  inferInstanceAs (Std.TransCmp (compareLex (compareOn Entry.day)
    (compareLex (compareOn Entry.group)
      (compareLex (compareOn Entry.raw) (compareOn Entry.createdAt)))))

/-- What is owed by the items. -/
def allOwed (today : String) (items : List ItemView) : List Entry :=
  items.flatMap fun it => (slot today it).owed today it

/-- What the items have on days of their own. -/
def allPlaced (today : String) (items : List ItemView) : List Entry :=
  items.flatMap fun it => (slot today it).placed it

/-- What the agenda shows. -/
def kept (horizon : String) (e : Entry) : Bool :=
  decide (e.day ≤ horizon) && !e.shown.1.isCancelled

/-- A day and what a row on it shows. -/
def Entry.keyed (e : Entry) : String × (ItemView × Tone) := (e.day, e.shown)

theorem mem_allOwed {e : Entry} : e ∈ allOwed today items ↔
    ∃ it ∈ items, ∃ d, slot today it = .overdue d ∧
      e = ⟨today, 0, d, it.createdAt, (it, .overdue)⟩ := by
  rw [allOwed, List.mem_flatMap]
  refine exists_congr fun it => and_congr_right fun _ => ?_
  cases slot today it with
  | overdue d =>
    simp only [Slot.owed, List.mem_singleton, Slot.overdue.injEq, exists_eq_left']
  | nowhere => simp [Slot.owed]
  | on day raw tone => simp [Slot.owed]

theorem mem_allPlaced {e : Entry} : e ∈ allPlaced today items ↔
    ∃ it ∈ items, ∃ day raw tone, slot today it = .on day raw tone ∧
      e = ⟨day, 1, raw, it.createdAt, (it, tone)⟩ := by
  rw [allPlaced, List.mem_flatMap]
  refine exists_congr fun it => and_congr_right fun _ => ?_
  cases slot today it with
  | on day raw tone =>
    simp only [Slot.placed, List.mem_singleton, Slot.on.injEq]
    constructor
    · rintro rfl
      exact ⟨day, raw, tone, ⟨rfl, rfl, rfl⟩, rfl⟩
    · rintro ⟨_, _, _, ⟨rfl, rfl, rfl⟩, rfl⟩
      rfl
  | nowhere => simp [Slot.placed]
  | overdue d => simp [Slot.placed]

/-- Where an item with a day of its own can be, and by which string. -/
theorem slot_on {day raw : String} {tone : Tone} (h : slot today it = .on day raw tone) :
    today ≤ day ∧ ((it.when = some raw ∧ whenDay raw = day) ∨
      (it.deadline = some raw ∧ raw = day)) := by
  have hup {w : String × String} (hu : upcoming today it = some w) (hday : w.1 = day)
      (hraw : w.2 = raw) : today ≤ day ∧ ((it.when = some raw ∧ whenDay raw = day) ∨
        (it.deadline = some raw ∧ raw = day)) := by
    obtain ⟨hw, hd, hle⟩ := upcoming_some hu
    rw [hday] at hd hle
    rw [hraw] at hw hd
    exact ⟨hle, .inl ⟨hw, hd⟩⟩
  cases hb : it.isBinned with
  | true =>
    rw [slot, hb, if_pos rfl] at h
    exact absurd h (by simp)
  | false =>
    cases hc : isClosed it with
    | true =>
      rw [slot_closed today hb hc] at h
      cases hu : upcoming today it with
      | none =>
        rw [hu] at h
        exact absurd h (by simp)
      | some w =>
        rw [hu] at h
        obtain ⟨hday, hraw, -⟩ := Slot.on.inj h
        exact hup hu hday hraw
    | false =>
      rw [slot_open today hb hc] at h
      unfold openSlot at h
      cases hdue : it.deadline.filter fun d => decide (d < today) with
      | some d =>
        rw [hdue] at h
        exact absurd h (by simp)
      | none =>
        rw [hdue] at h
        have hown {d : String} (hd : it.deadline = some d) (hday : d = day) (hraw : d = raw) :
            today ≤ day ∧ ((it.when = some raw ∧ whenDay raw = day) ∨
              (it.deadline = some raw ∧ raw = day)) := by
          subst hday hraw
          rw [hd, Option.filter_some] at hdue
          split at hdue
          · exact absurd hdue (by simp)
          · rename_i hlt
            exact ⟨not_lt.1 fun h => hlt (decide_eq_true h), .inr ⟨hd, rfl⟩⟩
        cases hd : it.deadline with
        | none =>
          cases hu : upcoming today it with
          | none =>
            rw [hu, hd] at h
            exact absurd h (by simp)
          | some w =>
            rw [hu, hd] at h
            obtain ⟨hday, hraw, -⟩ := Slot.on.inj h
            exact hd ▸ hup hu hday hraw
        | some d =>
          cases hu : upcoming today it with
          | none =>
            rw [hu, hd] at h
            obtain ⟨hday, hraw, -⟩ := Slot.on.inj h
            exact hd ▸ hown hd hday hraw
          | some w =>
            rw [hu, hd] at h
            dsimp only at h
            split at h
            · obtain ⟨hday, hraw, -⟩ := Slot.on.inj h
              exact hd ▸ hup hu hday hraw
            · obtain ⟨hday, hraw, -⟩ := Slot.on.inj h
              exact hd ▸ hown hd hday hraw

theorem slot_overdue {d : String} (h : slot today it = .overdue d) :
    it.deadline = some d ∧ isClosed it = false := by
  cases hb : it.isBinned with
  | true =>
    rw [slot, hb, if_pos rfl] at h
    exact absurd h (by simp)
  | false =>
    cases hc : isClosed it with
    | true =>
      rw [slot_closed today hb hc] at h
      cases hu : upcoming today it with
      | none => rw [hu] at h; exact absurd h (by simp)
      | some w => rw [hu] at h; exact absurd h (by simp)
    | false =>
      rw [slot_open today hb hc] at h
      unfold openSlot at h
      cases hdue : it.deadline.filter fun d => decide (d < today) with
      | some d' =>
        rw [hdue] at h
        rw [← Slot.overdue.inj h]
        exact ⟨(Option.filter_eq_some_iff.1 hdue).1, rfl⟩
      | none =>
        rw [hdue] at h
        dsimp only at h
        repeat' split at h
        all_goals exact absurd h (by simp)

/-- The agenda of an item: what it owes, and what it has on a day up to the horizon, unless it is
cancelled. -/
theorem entries_kept (it : ItemView) :
    (if it.isCancelled then [] else (slot today it).entries today horizon it) =
      (slot today it).owed today it ++ ((slot today it).placed it).filter (kept horizon) := by
  cases hs : slot today it with
  | nowhere => split <;> rfl
  | overdue d =>
    have hc : it.isCancelled = false := by
      have hopen := (slot_overdue hs).2
      rw [isClosed, isClosedState, Bool.or_eq_false_iff] at hopen
      exact hopen.2
    rw [hc]
    rfl
  | on day raw tone =>
    rw [entries_on, Slot.placed, List.filter_cons, List.filter_nil, kept]
    cases hc : it.isCancelled with
    | true => simp [Slot.owed]
    | false =>
      by_cases hlt : horizon < day
      · rw [if_neg (by simp), if_pos hlt, decide_eq_false (not_le.2 hlt)]
        rfl
      · rw [if_neg (by simp), if_neg hlt, decide_eq_true (not_lt.1 hlt)]
        rfl

/-- Everything that is owed comes before everything that has a day of its own. -/
theorem owed_first {a b : Entry} (ha : a ∈ allOwed today items) (hb : b ∈ allPlaced today items) :
    cmpEntry a b = .lt := by
  obtain ⟨it, _, d, _, rfl⟩ := mem_allOwed.1 ha
  obtain ⟨it', _, day, raw, tone, hs, rfl⟩ := mem_allPlaced.1 hb
  have hle := (slot_on hs).1
  show (compare today day).then _ = .lt
  rcases lt_or_eq_of_le hle with hlt | rfl
  · rw [compare_lt_iff_lt.2 hlt]
    rfl
  · rw [compare_eq_iff_eq.2 rfl]
    rfl

theorem pushDay_shown (ds : List (AgendaDay ω)) (p : Placed ω) :
    (pushDay ds p).map AgendaDay.shown = pushRun (ds.map AgendaDay.shown) p.entry.keyed := by
  induction ds with
  | nil => rfl
  | cons d ds ih =>
    cases ds with
    | nil =>
      rw [pushDay]
      show _ = if d.day = p.day then _ else _
      split
      · show [(d.day, _)] = [(d.day, _)]
        rw [List.map_append]
        rfl
      · rfl
    | cons d' ds => exact congrArg (d.shown :: ·) ih

theorem foldl_pushDay_shown (ds : List (AgendaDay ω)) (ps : List (Placed ω)) :
    (ps.foldl pushDay ds).map AgendaDay.shown =
      ((ps.map Placed.entry).map Entry.keyed).foldl pushRun (ds.map AgendaDay.shown) := by
  induction ps generalizing ds with
  | nil => rfl
  | cons p ps ih => rw [List.foldl_cons, ih, pushDay_shown]; rfl

/-- The entries of the agenda's loop. -/
theorem filterMap_entries (hh : today ≤ horizon) (doc : Option ω) (items : List ItemView) :
    ((items.filter fun it => !it.isCancelled).filterMap (agendaPlace today horizon doc)).map
        Placed.entry =
      items.flatMap fun it =>
        (slot today it).owed today it ++ ((slot today it).placed it).filter (kept horizon) := by
  induction items with
  | nil => rfl
  | cons it items ih =>
    have hplace := agendaPlace_slot hh doc it
    rw [entries_kept] at hplace
    rw [List.flatMap_cons, ← ih, ← hplace, List.filter_cons]
    cases hc : it.isCancelled with
    | true =>
      have hnone : agendaPlace today horizon doc it = none := by
        rw [agendaPlace, hc, Bool.or_true, if_pos rfl]
      rw [hnone]
      rfl
    | false =>
      rw [if_pos (by simp), List.filterMap_cons]
      cases agendaPlace today horizon doc it <;> rfl

/-- What the agenda's loop collects, by its fold groups. -/
theorem filter_entries (today horizon : String) (items : List ItemView) :
    let es := items.flatMap fun it =>
      (slot today it).owed today it ++ ((slot today it).placed it).filter (kept horizon)
    es.filter (fun e => e.group == 0) = allOwed today items ∧
      es.filter (fun e => !(e.group == 0)) = (allPlaced today items).filter (kept horizon) := by
  dsimp only
  rw [allOwed, allPlaced, List.filter_flatMap, List.filter_flatMap, List.filter_flatMap]
  constructor
  · refine congrArg (List.flatMap · items) (funext fun it => ?_)
    rw [List.filter_append, List.filter_filter]
    cases slot today it <;> simp [Slot.owed, Slot.placed]
  · refine congrArg (List.flatMap · items) (funext fun it => ?_)
    rw [List.filter_append, List.filter_filter]
    cases slot today it <;> simp [Slot.owed, Slot.placed, List.filter_cons]

/-- What the agenda's loop collects, sorted. -/
theorem sortBy_entries (hh : today ≤ horizon) (doc : Option ω) (items : List ItemView) :
    (sortBy cmpPlaced ((items.filter fun it => !it.isCancelled).filterMap
        (agendaPlace today horizon doc))).map Placed.entry =
      sortBy cmpEntry (allOwed today items) ++
        (sortBy cmpEntry (allPlaced today items)).filter (kept horizon) := by
  have hmap (ps : List (Placed ω)) :
      (sortBy cmpPlaced ps).map Placed.entry = sortBy cmpEntry (ps.map Placed.entry) :=
    sortBy_map Placed.entry fun _ _ _ _ => rfl
  obtain ⟨howed, hplaced⟩ := filter_entries today horizon items
  rw [hmap, filterMap_entries hh, sortBy_split fun e => e.group == 0, howed, hplaced, sortBy_filter]
  intro a ha b hb hga hgb
  have ha' : a ∈ allOwed today items := by
    rw [← howed]
    exact List.mem_filter.2 ⟨ha, hga⟩
  have hb' : b ∈ (allPlaced today items).filter (kept horizon) := by
    rw [← hplaced]
    exact List.mem_filter.2 ⟨hb, by rw [hgb]; rfl⟩
  exact owed_first ha' (List.mem_filter.1 hb').1

/-- **The agenda**: what is owed on today, then the days, in order. -/
theorem buildAgenda_shown (hh : today ≤ horizon) :
    (buildAgenda (items.filter fun it => !it.isCancelled) today horizon : List (AgendaDay ω)).map
        AgendaDay.shown =
      runs today ((sortBy cmpEntry (allOwed today items)).map Entry.shown)
        (((sortBy cmpEntry (allPlaced today items)).filter (kept horizon)).map Entry.keyed) := by
  have hkeyed : (sortBy cmpEntry (allOwed today items)).map Entry.keyed =
      ((sortBy cmpEntry (allOwed today items)).map Entry.shown).map fun r => (today, r) := by
    rw [List.map_map]
    refine List.map_congr_left fun e he => ?_
    obtain ⟨it, _, d, _, rfl⟩ := mem_allOwed.1 (mem_sortBy.1 he)
    rfl
  rw [buildAgenda, buildAgendaFrom, List.flatMap_cons, List.flatMap_nil, List.append_nil,
    foldl_pushDay_shown, sortBy_entries hh, List.map_append, hkeyed]
  show List.foldl pushRun [(today, [])] _ = _
  rw [foldl_pushRun, runs_same, List.nil_append]

end Order

/-! ## Groups in order -/

section Groups

variable {today horizon : String} {items : List ItemView}
  {localeCompare : String → String → Ordering}

/-- `localeCompare` orders the strings it is used on as their code units. -/
structure OrdersDates (localeCompare : String → String → Ordering) (items : List ItemView) :
    Prop where
  dates : ∀ s t, DateString s → DateString t → localeCompare s t = compare s t
  ids : ∀ a ∈ items, ∀ b ∈ items, localeCompare a.id b.id = compare a.id b.id

theorem placed_dates (hall : ∀ it ∈ items, SingleDay it) {e : Entry}
    (he : e ∈ allPlaced today items) : DateString e.day ∧ DateString e.raw := by
  obtain ⟨it, hit, day, raw, tone, hs, rfl⟩ := mem_allPlaced.1 he
  rcases (slot_on hs).2 with ⟨hw, rfl⟩ | ⟨hd, rfl⟩
  · have hparse := ((hall it hit).when raw hw).1
    exact ⟨dateString_of_validDate (validDate_whenDay hparse), validWhen_of_parseWhen hparse⟩
  · have hdate := dateString_of_validDate (validDate_of_parseDeadline ((hall it hit).deadline raw hd))
    exact ⟨hdate, hdate⟩

theorem owed_dates (hall : ∀ it ∈ items, SingleDay it) {e : Entry}
    (he : e ∈ allOwed today items) : DateString e.raw := by
  obtain ⟨it, hit, d, hs, rfl⟩ := mem_allOwed.1 he
  have hd := (slot_overdue hs).1
  exact dateString_of_validDate (validDate_of_parseDeadline ((hall it hit).deadline d hd))

theorem sortBy_placedRows (hall : ∀ it ∈ items, SingleDay it)
    (hlc : OrdersDates localeCompare items) {rows : List PlacedRow}
    (hrows : rows.map PlacedRow.entry = allPlaced today items) :
    (sortBy (cmpPlacedRow localeCompare) rows).map PlacedRow.entry =
      sortBy cmpEntry (allPlaced today items) := by
  rw [← hrows]
  apply sortBy_map
  intro a ha b hb
  have hdates : ∀ r ∈ rows, DateString r.day ∧ DateString r.raw := fun r hr =>
    placed_dates hall (hrows ▸ List.mem_map_of_mem hr)
  rw [cmpPlacedRow, byRawThenCreated, hlc.dates _ _ (hdates a ha).1 (hdates b hb).1,
    hlc.dates _ _ (hdates a ha).2 (hdates b hb).2]
  rfl

theorem sortBy_overdueRows (hall : ∀ it ∈ items, SingleDay it)
    (hlc : OrdersDates localeCompare items) {rows : List OverdueRow}
    (hrows : rows.map (OverdueRow.entry today) = allOwed today items) :
    (sortBy (cmpOverdue localeCompare) rows).map (OverdueRow.entry today) =
      sortBy cmpEntry (allOwed today items) := by
  rw [← hrows]
  apply sortBy_map
  intro a ha b hb
  have hdates : ∀ r ∈ rows, DateString r.raw := fun r hr =>
    owed_dates hall (hrows ▸ List.mem_map_of_mem hr)
  rw [cmpOverdue, byRawThenCreated, hlc.dates _ _ (hdates a ha) (hdates b hb)]
  show _ = (compare today today).then _
  rw [compare_eq_iff_eq.2 rfl]
  rfl

theorem isUnscheduledEvent_eq (hall : ∀ it ∈ items, SingleDay it) :
    items.filter isUnscheduledEvent =
      items.filter fun i => i.isEvent && i.isOpen && i.when.isNone && i.deadline.isNone := by
  refine List.filter_congr fun it hit => ?_
  rw [isUnscheduledEvent, isOpen_eq, (hall it hit).truthy_when, (hall it hit).truthy_deadline]

theorem sortBy_unscheduled (hall : ∀ it ∈ items, SingleDay it)
    (hlc : OrdersDates localeCompare items) :
    sortBy (cmpUnscheduled localeCompare) (items.filter isUnscheduledEvent) =
      unscheduledEvents items := by
  rw [unscheduledEvents, isUnscheduledEvent_eq hall]
  apply sortBy_congr
  intro a ha b hb
  rw [cmpUnscheduled, hlc.ids a (List.mem_filter.1 ha).1 b (List.mem_filter.1 hb).1]
  rfl

/-- A group of a day. -/
def OfDay (g : DayGroup) : Prop := g.urgency = .today ∨ g.urgency = .future

theorem pushGroup_append (gs : List DayGroup) (g : DayGroup) (p : PlacedRow) :
    pushGroup (gs ++ [g]) p = gs ++ pushGroup [g] p := by
  induction gs with
  | nil => rfl
  | cons g' gs ih =>
    cases gs with
    | nil => rfl
    | cons g'' gs => exact congrArg (g' :: ·) ih

/-- Pushing rows leaves the groups before the last one alone. -/
theorem foldl_pushGroup (gs : List DayGroup) (g : DayGroup) (hg : OfDay g) (ps : List PlacedRow) :
    ∃ days, ps.foldl pushGroup (gs ++ [g]) = gs ++ days ∧ (∀ d ∈ days, OfDay d) ∧
      days.map DayGroup.shown =
        runs g.key (g.rows.map DayRow.shown) ((ps.map PlacedRow.entry).map Entry.keyed) := by
  induction ps generalizing gs g with
  | nil => exact ⟨[g], rfl, fun d hd => List.mem_singleton.1 hd ▸ hg, rfl⟩
  | cons p ps ih =>
    rw [List.foldl_cons, pushGroup_append, List.map_cons, List.map_cons]
    show ∃ days, _ ∧ _ ∧ _ = runs g.key _ ((p.day, p.row.shown) :: _)
    rw [pushGroup, runs]
    split
    · obtain ⟨days, hdays, hof, hshown⟩ := ih gs { g with rows := g.rows ++ [p.row] } hg
      refine ⟨days, hdays, hof, hshown.trans ?_⟩
      rw [List.map_append]
      rfl
    · obtain ⟨days, hdays, hof, hshown⟩ := ih (gs ++ [g]) ⟨p.day, .future, [p.row]⟩ (.inr rfl)
      refine ⟨g :: days, ?_, List.forall_mem_cons.2 ⟨hg, hof⟩, congrArg (g.shown :: ·) hshown⟩
      simpa only [List.append_assoc, List.cons_append, List.nil_append] using hdays

theorem rowsOf_append (u : Urgency) (gs gs' : List DayGroup) :
    rowsOf u (gs ++ gs') = rowsOf u gs ++ rowsOf u gs' :=
  List.flatMap_append

/-- Days hold no rows of the two groups ahead of them. -/
theorem rowsOf_days {days : List DayGroup} (hof : ∀ d ∈ days, OfDay d) {u : Urgency}
    (hu : u = .overdue ∨ u = .unscheduled) : rowsOf u days = [] := by
  refine List.flatMap_eq_nil_iff.2 fun d hd => if_neg ?_
  rintro rfl
  rcases hof d hd with h | h <;> rcases hu with hu | hu <;> rw [h] at hu <;>
    exact absurd hu (by decide)

/-- What the groups show, of what the loop collected. -/
theorem groups_shown (localeCompare : String → String → Ordering) (today horizon : String)
    (b : Buckets) :
    ∃ days : List DayGroup, (∀ d ∈ days, OfDay d) ∧
      shownByWeb today horizon (b.groups localeCompare today) =
        (prune today horizon (fun r => !r.1.isCancelled) (days.map DayGroup.shown)).map (fun d =>
          if d.1 = today then
            (d.1, (sortBy (cmpOverdue localeCompare) b.overdueRows).map (fun r => r.row.shown) ++ d.2)
          else d) ∧
      days.map DayGroup.shown = runs today []
        (((sortBy (cmpPlacedRow localeCompare) b.placed).map PlacedRow.entry).map Entry.keyed) ∧
      (rowsOf .unscheduled (b.groups localeCompare today)).map Prod.fst =
        sortBy (cmpUnscheduled localeCompare) b.unscheduled := by
  set owed : List DayGroup := if sortBy (cmpOverdue localeCompare) b.overdueRows = [] then []
    else [⟨OVERDUE_KEY, .overdue, (sortBy (cmpOverdue localeCompare) b.overdueRows).map (·.row)⟩]
  set undated : List DayGroup := if b.unscheduled = [] then []
    else [⟨UNSCHEDULED_KEY, .unscheduled, (sortBy (cmpUnscheduled localeCompare) b.unscheduled).map
      fun item => ⟨item, .none, .neutral, none⟩⟩]
  obtain ⟨days, hdays, hof, hshown⟩ := foldl_pushGroup (owed ++ undated) ⟨today, .today, []⟩
    (.inl rfl) (sortBy (cmpPlacedRow localeCompare) b.placed)
  have hgroups : b.groups localeCompare today = owed ++ undated ++ days := hdays
  have howed : owed.filter (fun g => g.urgency = .today || g.urgency = .future) = [] ∧
      rowsOf .unscheduled owed = [] ∧ rowsOf .overdue owed =
        (sortBy (cmpOverdue localeCompare) b.overdueRows).map (fun r => r.row.shown) := by
    by_cases hnil : sortBy (cmpOverdue localeCompare) b.overdueRows = []
    · simp only [owed, if_pos hnil]
      rw [hnil]
      exact ⟨rfl, rfl, rfl⟩
    · simp only [owed, if_neg hnil]
      refine ⟨rfl, rfl, ?_⟩
      show List.map _ (List.map _ _) ++ [] = _
      rw [List.append_nil, List.map_map]
      rfl
  have hundated : undated.filter (fun g => g.urgency = .today || g.urgency = .future) = [] ∧
      rowsOf .overdue undated = [] ∧ (rowsOf .unscheduled undated).map Prod.fst =
        sortBy (cmpUnscheduled localeCompare) b.unscheduled := by
    by_cases hnil : b.unscheduled = []
    · simp only [undated, if_pos hnil]
      rw [hnil]
      exact ⟨rfl, rfl, rfl⟩
    · simp only [undated, if_neg hnil]
      refine ⟨rfl, rfl, ?_⟩
      show List.map _ (List.map _ (List.map _ _) ++ []) = _
      rw [List.append_nil, List.map_map, List.map_map]
      exact List.map_id _
  have hfilter : days.filter (fun g => g.urgency = .today || g.urgency = .future) = days := by
    refine List.filter_eq_self.2 fun d hd => ?_
    rcases hof d hd with h | h <;> rw [h] <;> rfl
  refine ⟨days, hof, ?_, hshown, ?_⟩
  · rw [shownByWeb, hgroups, List.filter_append, List.filter_append, howed.1, hundated.1, hfilter,
      rowsOf_append, rowsOf_append, howed.2.2, hundated.2.1, rowsOf_days hof (.inl rfl)]
    simp only [List.nil_append, List.append_nil]
  · rw [hgroups, rowsOf_append, rowsOf_append, howed.2.1, rowsOf_days hof (.inr rfl),
      List.nil_append, List.append_nil]
    exact hundated.2.2

/-- The days of the web are in order. -/
theorem keyed_sorted (today : String) (items : List ItemView) :
    ((sortBy cmpEntry (allPlaced today items)).map Entry.keyed).Pairwise (fun a b => a.1 ≤ b.1) ∧
      ∀ a ∈ (sortBy cmpEntry (allPlaced today items)).map Entry.keyed, today ≤ a.1 := by
  constructor
  · refine List.pairwise_map.2 (sortBy_pairwise.imp fun {a b} hle => ?_)
    refine not_lt.1 fun hlt => ?_
    have hgt : cmpEntry a b = (Ordering.gt).then _ :=
      congrArg (Ordering.then · _) (compare_gt_iff_gt.2 hlt)
    rw [hgt] at hle
    exact absurd hle (by simp)
  · intro a ha
    obtain ⟨e, he, rfl⟩ := List.mem_map.1 ha
    obtain ⟨it, _, day, raw, tone, hs, rfl⟩ := mem_allPlaced.1 (mem_sortBy.1 he)
    exact (slot_on hs).1

/-- The web's days, pruned and with what is owed ahead of them, are the agenda's. -/
theorem pruned_days (hh : today ≤ horizon) (items : List ItemView) (owed : List (ItemView × Tone)) :
    (prune today horizon (fun r => !r.1.isCancelled) (runs today []
        ((sortBy cmpEntry (allPlaced today items)).map Entry.keyed))).map
          (fun d => if d.1 = today then (d.1, owed ++ d.2) else d) =
      runs today owed
        (((sortBy cmpEntry (allPlaced today items)).filter (kept horizon)).map Entry.keyed) := by
  obtain ⟨hsorted, hle⟩ := keyed_sorted today items
  have hkept : ((sortBy cmpEntry (allPlaced today items)).filter (kept horizon)).map Entry.keyed =
      ((sortBy cmpEntry (allPlaced today items)).map Entry.keyed).filter
        (fun a => decide (a.1 ≤ horizon) && !a.2.1.isCancelled) := by
    rw [List.filter_map]
    rfl
  rw [prune_runs hsorted hle le_rfl hh, if_pos (.inl rfl), hkept, runs_prefix owed
    (hsorted.filter _) fun a ha => hle a (List.mem_filter.1 ha).1]
  rw [List.filter_nil, List.append_nil]

/-- **The two calendars agree**, for items without a span of days, as long as none is placed by a
`when` on the last day; with one that is, the web does not come to an answer. -/
theorem agenda_eq_groups_iff {ω : Type*} (hh : today ≤ horizon)
    (hall : ∀ it ∈ items, SingleDay it) (hlc : OrdersDates localeCompare items) :
    (∃ n groups, (∀ fuel, n ≤ fuel → groupByDay localeCompare fuel items today = some groups) ∧
      (buildAgenda (items.filter fun it => !it.isCancelled) today horizon :
        List (AgendaDay ω)).map AgendaDay.shown = shownByWeb today horizon groups ∧
      unscheduledEvents items = (rowsOf .unscheduled groups).map Prod.fst) ↔
      ∀ it ∈ items, ¬OnLastDay today it := by
  constructor
  · rintro ⟨n, groups, hgroups, -, -⟩ it hit hlast
    have hsome := hgroups n le_rfl
    rw [groupByDay, foldlM_stuck hall ⟨it, hit, hlast⟩] at hsome
    exact absurd hsome (by simp)
  · intro hlast
    obtain ⟨b, hb, hplaced, hoverdue, hun⟩ := foldlM_add hall hlast ⟨[], [], []⟩
    simp only [List.map_nil, List.nil_append] at hplaced hoverdue hun
    obtain ⟨days, hof, hweb, hdays, hundated⟩ := groups_shown localeCompare today horizon b
    refine ⟨2, b.groups localeCompare today, fun fuel hfuel => ?_, ?_, ?_⟩
    · obtain ⟨n, rfl⟩ := Nat.exists_eq_add_of_le' hfuel
      rw [groupByDay, hb]
      rfl
    · have howed : (sortBy (cmpOverdue localeCompare) b.overdueRows).map (fun r => r.row.shown) =
          (sortBy cmpEntry (allOwed today items)).map Entry.shown := by
        rw [← sortBy_overdueRows hall hlc hoverdue, List.map_map]
        rfl
      rw [hweb, hdays, sortBy_placedRows hall hlc hplaced, howed, buildAgenda_shown hh,
        pruned_days hh]
    · rw [hundated, hun, sortBy_unscheduled hall hlc]

end Groups

/-! ## Runs -/

instance (it : ItemView) : Decidable (SingleDay it) :=
  decidable_of_iff ((∀ w ∈ it.when, parseWhen w = some w ∧ spanEndOffset w it.duration = 0) ∧
    ∀ d ∈ it.deadline, parseDeadline d = some d)
    ⟨fun h => ⟨h.1, h.2⟩, fun h => ⟨h.when, h.deadline⟩⟩

instance (today : String) (it : ItemView) : Decidable (OnLastDay today it) :=
  inferInstanceAs (Decidable (_ ∧ _ ∧ _ ∧ _))

/-- An item with a list, a state, a deadline and a `when`. -/
def sampleItem (id listId : String) (state : WorkflowState) (deadline when : Option String) :
    ItemView :=
  { id, text := "", notes := "", listId, state, lifecycleAt := 0, deadline, when,
    duration := none, place := none, createdAt := 0, createdBy := none, startedAt := none,
    doneAt := none, binnedAt := none }

/-- One item of every kind, in January 2026. -/
def sampleItems : List ItemView :=
  [sampleItem "a" "inbox" .todo (some "2026-01-05") (some "2026-01-12"),
    sampleItem "b" "inbox" .done (some "2026-01-01") (some "2026-01-10T09:30"),
    sampleItem "c" "inbox" .backlog (some "2026-01-10") (some "2026-01-11"),
    sampleItem "d" "events" .backlog none none,
    sampleItem "e" "events" .cancelled none (some "2026-01-11"),
    sampleItem "f" "inbox" .review (some "2026-03-01") none,
    sampleItem "g" "inbox" .todo (some "2026-01-13") (some "2026-01-02")]

theorem agenda_eq_groups_iff_sampleItems :
    ∃ n groups, (∀ fuel, n ≤ fuel → groupByDay compare fuel sampleItems "2026-01-10" = some groups) ∧
      (buildAgenda (sampleItems.filter fun it => !it.isCancelled) "2026-01-10" "2026-01-24" :
        List (AgendaDay Unit)).map AgendaDay.shown =
        shownByWeb "2026-01-10" "2026-01-24" groups ∧
      unscheduledEvents sampleItems = (rowsOf .unscheduled groups).map Prod.fst :=
  (agenda_eq_groups_iff (by decide) (by decide +kernel)
    ⟨fun _ _ _ _ => rfl, fun _ _ _ _ => rfl⟩).2 (by decide +kernel)

/-- A `when` on the last day of the year 9999: the agenda answers, and the web does not. -/
theorem groupByDay_lastDay :
    SingleDay (sampleItem "a" "inbox" .todo none (some "9999-12-31")) ∧
      (buildAgenda [sampleItem "a" "inbox" .todo none (some "9999-12-31")] "2026-01-10"
        "2026-01-24" : List (AgendaDay Unit)).map AgendaDay.shown = [("2026-01-10", [])] ∧
      ∀ fuel, groupByDay compare fuel [sampleItem "a" "inbox" .todo none (some "9999-12-31")]
        "2026-01-10" = none := by
  have hsingle : SingleDay (sampleItem "a" "inbox" .todo none (some "9999-12-31")) := by
    decide +kernel
  refine ⟨hsingle, by decide +kernel, fun fuel => ?_⟩
  rw [groupByDay, foldlM_stuck (by simpa using hsingle) ⟨_, List.mem_singleton_self _, ?_⟩]
  · rfl
  · decide +kernel

end Monoplan.Calendar
