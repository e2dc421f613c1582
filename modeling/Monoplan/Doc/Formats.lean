import Mathlib.Data.List.DropRight
import Mathlib.Data.Fintype.Basic
import Monoplan.Doc.Content

/-!
# Textual formats

What a document accepts as an id, a date, a duration, a place and a default view.  Every parser
trims its input first and returns what it accepted, so its output is a fixed point of it
(`parseDeadline_idem`, `parseWhen_idem`, `normalized_idem`).  A default view that names no
cancelled lane is read back from its own encoding (`parse_encode`).
-/

namespace Monoplan.Doc

/-! ## Trimming -/

/-- The characters with the `White_Space` property. -/
def isWhitespace (c : Char) : Bool :=
  let n := c.toNat
  (9 ≤ n && n ≤ 13) || n = 32 || n = 0x85 || n = 0xA0 || n = 0x1680 ||
    (0x2000 ≤ n && n ≤ 0x200A) || n = 0x2028 || n = 0x2029 || n = 0x202F || n = 0x205F || n = 0x3000

/-- The characters without the white space at either end. -/
def trimmed (cs : List Char) : List Char := (cs.dropWhile isWhitespace).rdropWhile isWhitespace

/-- `trim`. -/
def trim (s : String) : String := String.ofList (trimmed s.toList)

theorem trimmed_idem (cs : List Char) : trimmed (trimmed cs) = trimmed cs := by
  have hhead : (trimmed cs).dropWhile isWhitespace = trimmed cs := by
    rw [List.dropWhile_eq_self_iff]
    intro hl
    have hpre : trimmed cs <+: cs.dropWhile isWhitespace := List.rdropWhile_prefix _ _
    have hl' : 0 < (cs.dropWhile isWhitespace).length := hl.trans_le hpre.length_le
    have hget : (trimmed cs)[0] = (cs.dropWhile isWhitespace)[0] := hpre.getElem hl
    rw [hget]
    exact List.dropWhile_get_zero_not _ _ hl'
  unfold trimmed at hhead ⊢
  rw [hhead, List.rdropWhile_idempotent]

theorem trimmed_sublist (cs : List Char) : (trimmed cs).Sublist cs :=
  (List.rdropWhile_prefix _ _).sublist.trans (List.dropWhile_suffix _).sublist

@[simp] theorem trim_idem (s : String) : trim (trim s) = trim s := by
  rw [trim, trim, String.toList_ofList, trimmed_idem]

/-- A string that is trimmed to nothing. -/
theorem trim_empty : trim "" = "" := rfl

/-! ## Ids -/

/-- A digit of an id. -/
def isIdChar (c : Char) : Bool := ('0' ≤ c && c ≤ '9') || ('a' ≤ c && c ≤ 'f')

/-- `is_well_formed_id`: 32 lowercase hexadecimal digits. -/
def isWellFormedId (s : String) : Bool := s.toList.length = 32 && s.toList.all isIdChar

theorem isWellFormedId_plain {s : String} (h : isWellFormedId s = true) : PlainId s := by
  rw [isWellFormedId, Bool.and_eq_true, decide_eq_true_eq, List.all_eq_true] at h
  refine ⟨?_, fun hmem => absurd (h.2 ':' hmem) (by decide)⟩
  rintro rfl
  exact absurd h.1 (by decide)

theorem inbox_not_wellFormed : isWellFormedId LIST_INBOX = false := by decide

theorem events_not_wellFormed : isWellFormedId LIST_EVENTS = false := by decide

/-! ## Dates -/

/-- A run of decimal digits. -/
def digits (cs : List Char) : Option ℕ :=
  if cs.all Char.isDigit then some (cs.foldl (fun n c => 10 * n + (c.toNat - 48)) 0) else none

/-- The length of a month; `none` where there is no such month. -/
def daysInMonth (year month : ℕ) : Option ℕ :=
  let leap := year % 4 = 0 ∧ (year % 100 ≠ 0 ∨ year % 400 = 0)
  if month ∈ [1, 3, 5, 7, 8, 10, 12] then some 31
  else if month ∈ [4, 6, 9, 11] then some 30
  else if month = 2 then some (if leap then 29 else 28)
  else none

/-- `YYYY-MM-DD`, and a day of the calendar. -/
def validDate (cs : List Char) : Bool :=
  cs.length = 10 && cs[4]? = some '-' && cs[7]? = some '-' &&
    match digits (cs.take 4), digits ((cs.drop 5).take 2), digits ((cs.drop 8).take 2) with
    | some year, some month, some day =>
      1 ≤ day && (daysInMonth year month).any fun n => day ≤ n
    | _, _, _ => false

/-- `parse_deadline`. -/
def parseDeadline (raw : String) : Option String :=
  if validDate (trim raw).toList then some (trim raw) else none

/-- `YYYY-MM-DD` or `YYYY-MM-DDTHH:MM`. -/
def validWhen (cs : List Char) : Bool :=
  if cs.length = 10 then validDate cs
  else
    cs.length = 16 && cs[10]? = some 'T' && cs[13]? = some ':' &&
      validDate (trimmed (cs.take 10)) &&
      match digits ((cs.drop 11).take 2), digits ((cs.drop 14).take 2) with
      | some hour, some minute => hour ≤ 23 && minute ≤ 59
      | _, _ => false

/-- `parse_when`. -/
def parseWhen (raw : String) : Option String :=
  if validWhen (trim raw).toList then some (trim raw) else none

theorem parseDeadline_idem {raw s : String} (h : parseDeadline raw = some s) :
    parseDeadline s = some s := by
  unfold parseDeadline at h ⊢
  split at h
  · rename_i hv
    obtain rfl := Option.some.inj h
    rw [trim_idem, if_pos hv]
  · exact absurd h (by simp)

theorem parseWhen_idem {raw s : String} (h : parseWhen raw = some s) : parseWhen s = some s := by
  unfold parseWhen at h ⊢
  split at h
  · rename_i hv
    obtain rfl := Option.some.inj h
    rw [trim_idem, if_pos hv]
  · exact absurd h (by simp)

theorem parseDeadline_ne {raw s : String} (h : parseDeadline raw = some s) : s ≠ "" := by
  unfold parseDeadline at h
  split at h
  · rename_i hv
    obtain rfl := Option.some.inj h
    intro hnil
    rw [hnil] at hv
    exact absurd hv (by decide)
  · exact absurd h (by simp)

theorem parseWhen_ne {raw s : String} (h : parseWhen raw = some s) : s ≠ "" := by
  unfold parseWhen at h
  split at h
  · rename_i hv
    obtain rfl := Option.some.inj h
    intro hnil
    rw [hnil] at hv
    exact absurd hv (by decide)
  · exact absurd h (by simp)

/-! ## Durations and places -/

def MAX_DURATION_MINUTES : ℕ := 365 * 24 * 60

def MAX_PLACE_LABEL_CHARS : ℕ := 200

def MAX_PLACE_DETAIL_CHARS : ℕ := 500

/-- A duration within its bounds. -/
def validDuration (n : ℕ) : Bool := 1 ≤ n && n ≤ MAX_DURATION_MINUTES

/-- Latitude and longitude in range. -/
def validCoordinates (p : ℚ × ℚ) : Bool := -90 ≤ p.1 && p.1 ≤ 90 && -180 ≤ p.2 && p.2 ≤ 180

/-- An optional text: absent where it is trimmed to nothing, an error where it is too long. -/
def placeDetail (v : Option String) : Option {o : Option String // o ≠ some ""} :=
  match v with
  | none => some ⟨none, by simp⟩
  | some s =>
    if h : trim s = "" then some ⟨none, by simp⟩
    else if (trim s).toList.length ≤ MAX_PLACE_DETAIL_CHARS then some ⟨some (trim s), by simpa⟩
    else none

/-- `Place::normalized`. -/
def Place.normalized (p : Place) : Option Place :=
  if h : trim p.label = "" then none
  else if (trim p.label).toList.length ≤ MAX_PLACE_LABEL_CHARS then
    if p.coordinates.all validCoordinates then
      (placeDetail p.address).bind fun address => (placeDetail p.reference).map fun reference =>
        { label := trim p.label, coordinates := p.coordinates, address := address.1,
          reference := reference.1, label_ne := h, address_ne := address.2,
          reference_ne := reference.2 }
    else none
  else none

theorem placeDetail_idem {v : Option String} {o : {o : Option String // o ≠ some ""}}
    (h : placeDetail v = some o) : placeDetail o.1 = some o := by
  unfold placeDetail at h
  split at h
  · obtain rfl := Option.some.inj h
    rfl
  · split at h
    · obtain rfl := Option.some.inj h
      rfl
    · rename_i hne
      split at h
      · rename_i hlen
        obtain rfl := Option.some.inj h
        simp only [placeDetail, trim_idem, dif_neg hne, if_pos hlen]
      · exact absurd h (by simp)

theorem normalized_idem {p q : Place} (h : p.normalized = some q) : q.normalized = some q := by
  unfold Place.normalized at h
  split at h
  · exact absurd h (by simp)
  · rename_i hne
    split at h
    · rename_i hlen
      split at h
      · rename_i hpos
        obtain ⟨address, ha, h⟩ := Option.bind_eq_some_iff.1 h
        obtain ⟨reference, hr, rfl⟩ := Option.map_eq_some_iff.1 h
        simp only [Place.normalized, trim_idem, dif_neg hne, if_pos hlen, if_pos hpos,
          placeDetail_idem ha, placeDetail_idem hr, Option.bind_some, Option.map_some]
      · exact absurd h (by simp)
    · exact absurd h (by simp)

/-! ## Workflow names -/

namespace WorkflowState

/-- The export and event name. -/
def name : WorkflowState → String
  | backlog => "backlog"
  | todo => "todo"
  | inProgress => "in_progress"
  | review => "review"
  | done => "done"
  | cancelled => "cancelled"

/-- `parse_name`. -/
def parseName (s : String) : Option WorkflowState :=
  if s = "backlog" then some backlog
  else if s = "todo" then some todo
  else if s = "in_progress" then some inProgress
  else if s = "review" then some review
  else if s = "done" then some done
  else if s = "cancelled" then some cancelled
  else none

theorem parseName_name (s : WorkflowState) : parseName s.name = some s := by
  cases s <;> decide

end WorkflowState

/-! ## Default views -/

/-- The board lanes in ladder order. -/
def ALL_LANES : List WorkflowState := [.backlog, .todo, .inProgress, .review, .done]

/-- A saved default view: the lens, and the lanes it shows. -/
structure DefaultView where
  board : Bool
  lanes : Finset WorkflowState
  deriving DecidableEq

namespace DefaultView

def LIST : DefaultView := ⟨false, ALL_LANES.toFinset⟩

def BOARD : DefaultView := ⟨true, ALL_LANES.toFinset⟩

/-- The visible lanes in ladder order. -/
def visible (v : DefaultView) : List WorkflowState := ALL_LANES.filter fun s => s ∈ v.lanes

/-- `encode`. -/
def encode (v : DefaultView) : String :=
  if !v.board then "list"
  else if v.lanes = ALL_LANES.toFinset ∨ v.lanes = ∅ then "board"
  else "board:" ++ String.ofList ([','].intercalate (v.visible.map fun s => s.name.toList))

/-- `parse`. -/
def parse (s : String) : Option DefaultView :=
  if s = "list" then some LIST
  else if s = "board" then some BOARD
  else if s.toList.take 6 = "board:".toList then
    let lanes := s.toList.drop 6
    if lanes = [] then none
    else
      ((lanes.splitOn ',').mapM fun cs => WorkflowState.parseName (String.ofList cs)).map
        fun states => ⟨true, states.toFinset⟩
  else none

theorem parse_board (cs : List Char) : parse ("board:" ++ String.ofList cs) =
    if cs = [] then none
    else ((cs.splitOn ',').mapM fun l => WorkflowState.parseName (String.ofList l)).map
      fun states => ⟨true, states.toFinset⟩ := by
  have hlist : ("board:" ++ String.ofList cs).toList = ['b', 'o', 'a', 'r', 'd', ':'] ++ cs := by
    simp
  have hne : ∀ t : String, t.toList.take 6 ≠ ['b', 'o', 'a', 'r', 'd', ':'] →
      "board:" ++ String.ofList cs ≠ t := by
    rintro t ht rfl
    rw [hlist] at ht
    exact ht rfl
  rw [parse, if_neg (hne "list" (by decide)), if_neg (hne "board" (by decide)), hlist]
  exact if_pos (by simp)

theorem comma_not_mem_name (s : WorkflowState) : ',' ∉ s.name.toList := by
  cases s <;> decide

/-- Lane names joined by commas read back as the lanes. -/
theorem parse_lanes {states : List WorkflowState} (h : states ≠ []) :
    parse ("board:" ++ String.ofList ([','].intercalate (states.map fun s => s.name.toList))) =
      some ⟨true, states.toFinset⟩ := by
  have hsplit : ([','].intercalate (states.map fun s => s.name.toList)).splitOn ',' =
      states.map fun s => s.name.toList := by
    refine List.splitOn_intercalate ',' ?_ (by simpa using h)
    intro l hl
    obtain ⟨s, _, rfl⟩ := List.mem_map.1 hl
    exact comma_not_mem_name s
  have hnames : (states.map fun s => s.name.toList).mapM
      (fun l => WorkflowState.parseName (String.ofList l)) = some states := by
    clear hsplit h
    induction states with
    | nil => rfl
    | cons s rest ih => simp [WorkflowState.parseName_name, ih]
  have hne : [','].intercalate (states.map fun s => s.name.toList) ≠ [] := by
    intro hnil
    rw [hnil] at hsplit
    obtain ⟨s, rest, rfl⟩ := List.exists_cons_of_ne_nil h
    have hs := congrArg List.head? hsplit
    simp only [List.map_cons, List.head?_cons] at hs
    exact absurd hs (by cases s <;> decide)
  rw [parse_board, if_neg hne, hsplit, hnames, Option.map_some]

/-- A view that parses is the list lens, or the board lens with a lane. -/
theorem parse_shape {s : String} {v : DefaultView} (h : parse s = some v) :
    v = LIST ∨ (v.board = true ∧ v.lanes ≠ ∅) := by
  unfold parse at h
  split at h
  · exact .inl (Option.some.inj h).symm
  · split at h
    · rw [← Option.some.inj h]
      exact .inr ⟨rfl, by decide⟩
    · split at h
      · dsimp only at h
        split at h
        · exact absurd h (by simp)
        · obtain ⟨states, hstates, rfl⟩ := Option.map_eq_some_iff.1 h
          refine .inr ⟨rfl, fun hnil => ?_⟩
          obtain rfl := (List.toFinset_eq_empty_iff _).1 hnil
          obtain ⟨l, rest, hsplit⟩ := List.exists_cons_of_ne_nil
            (List.splitOn_ne_nil ',' (s.toList.drop 6))
          rw [hsplit, List.mapM_cons] at hstates
          obtain ⟨_, _, hrest⟩ := Option.bind_eq_some_iff.1 hstates
          obtain ⟨_, _, hcons⟩ := Option.bind_eq_some_iff.1 hrest
          exact absurd hcons (by simp)
      · exact absurd h (by simp)

/-- **A view that names no cancelled lane is read back.** -/
theorem parse_encode {v : DefaultView} (hshape : v = LIST ∨ (v.board = true ∧ v.lanes ≠ ∅))
    (hlanes : .cancelled ∉ v.lanes) : parse v.encode = some v := by
  rcases hshape with rfl | ⟨hboard, hne⟩
  · decide
  · have hvisible : v.visible.toFinset = v.lanes := by
      ext s
      simp only [visible, List.mem_toFinset, List.mem_filter, decide_eq_true_eq, and_iff_right_iff_imp]
      intro hs
      cases s with
      | cancelled => exact absurd hs hlanes
      | _ => decide
    obtain ⟨board, lanes⟩ := v
    obtain rfl : board = true := hboard
    unfold encode
    rw [if_neg (by simp)]
    split
    · rename_i hall
      rcases hall with hall | hall
      · dsimp only at hall
        subst hall
        decide
      · exact absurd hall hne
    · rw [parse_lanes, hvisible]
      intro hnil
      rw [hnil] at hvisible
      exact hne hvisible.symm

/-- An encoding never names a cancelled lane. -/
theorem cancelled_not_mem {v w : DefaultView} (h : parse v.encode = some w) :
    .cancelled ∉ w.lanes := by
  unfold encode at h
  split at h
  · obtain rfl := Option.some.inj ((by decide : parse "list" = some LIST).symm.trans h)
    decide
  · split at h
    · obtain rfl := Option.some.inj ((by decide : parse "board" = some BOARD).symm.trans h)
      decide
    · by_cases hnil : v.visible = []
      · have hnone : parse ("board:" ++ String.ofList []) = none := by rw [parse_board, if_pos rfl]
        rw [hnil, List.map_nil, List.intercalate_nil, hnone] at h
        exact absurd h (by simp)
      · rw [parse_lanes hnil] at h
        obtain rfl := Option.some.inj h
        simp [visible, ALL_LANES]

end DefaultView

end Monoplan.Doc
