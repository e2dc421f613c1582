import Monoplan.Base.Delta
import Monoplan.Doc.Patch

/-!
# Change events and captured diffs

* `AppEvent` is what a document tells its consumer; every event carries what a consumer needs
  to bring its own copy up to date.
* `CapturedDiff` is what the CRDT reports of one container that an import or an undo step
  changed.
* `diffLists` compares the lists before and after a frame, `diffItems` the items.
-/

namespace Monoplan.Doc

open Monoplan.Base

/-- The document's settings. -/
structure Settings where
  showListCounts : Bool := true
  inboxView : Option String := none
  docName : Option String := none
  calendarHiddenDocs : List String := []
  doneAmalgamate : Bool := false
  deriving DecidableEq

/-! ## Events -/

/-- `AppEvent`.  An `openIndex` is a position in a list's open projection. -/
inductive AppEvent
  | fullResync
  | itemAdded (item : ItemView) (openIndex : Option ℕ)
  | itemRemoved (id : String)
  | itemMoved (id : String) (openIndex : Option ℕ)
  | itemTextChanged (id text : String)
  | itemNotesChanged (id notes : String)
  | itemDeadlineChanged (id : String) (deadline : Option String)
  | itemWhenChanged (id : String) (when : Option String)
  | itemDurationChanged (id : String) (duration : Option ℕ)
  | itemPlaceChanged (id : String) (place : Option Place)
  | itemLifecycleChanged (id : String) (state : WorkflowState) (lifecycleAt : ℤ)
      (startedAt doneAt binnedAt : Option ℤ) (openIndex : Option ℕ)
  | itemListChanged (id listId : String) (openIndex : Option ℕ)
  | listAdded (id name : String) (createdAt : ℤ) (archivedAt : Option ℤ) (index : ℕ)
  | listRemoved (id : String)
  | listMoved (id : String) (index : ℕ)
  | listRenamed (id name : String)
  | listIconChanged (id : String) (icon : Option String)
  | listDefaultViewChanged (id : String) (view : Option String)
  | listArchivedChanged (id : String) (archivedAt : Option ℤ)
  | settingsChanged (settings : Settings)
  | focusChanged
  deriving DecidableEq

/-- The lifecycle event of an item as it now stands. -/
def ItemView.lifecycleChanged (v : ItemView) (id : String) (openIndex : Option ℕ) : AppEvent :=
  .itemLifecycleChanged id v.state v.lifecycleAt v.startedAt v.doneAt v.binnedAt openIndex

/-- `diff_settings`. -/
def diffSettings (pre post : Settings) : List AppEvent :=
  if pre = post then [] else [.settingsChanged post]

/-- What `diff_lists` reports of a list that was `pre` at `preIdx`. -/
def listChanges (pre : ListView) (preIdx : ℕ) (post : ListView) (postIdx : ℕ) : List AppEvent :=
  (if pre.name = post.name then [] else [.listRenamed post.id post.name]) ++
  (if pre.icon = post.icon then [] else [.listIconChanged post.id post.icon]) ++
  (if pre.defaultView = post.defaultView then []
    else [.listDefaultViewChanged post.id post.defaultView]) ++
  (if pre.archivedAt = post.archivedAt then []
    else [.listArchivedChanged post.id post.archivedAt]) ++
  (if preIdx = postIdx then [] else [.listMoved post.id postIdx])

/-- What `diff_lists` reports of the list that ends up at `postIdx`. -/
def listArrival (pre : List ListView) (post : ListView) (postIdx : ℕ) : List AppEvent :=
  match pre.zipIdx.find? fun p => p.1.id = post.id with
  | none => [.listAdded post.id post.name post.createdAt post.archivedAt postIdx]
  | some (l, preIdx) => listChanges l preIdx post postIdx

/-- `diff_lists`: the lists that are gone, then the others in their new order.  Neither side
names an id twice. -/
def diffLists (pre post : List ListView) : List AppEvent :=
  ((pre.filter fun l => l.id ∉ post.map ListView.id).map fun l => .listRemoved l.id) ++
    post.zipIdx.flatMap fun p => listArrival pre p.1 p.2

/-- The slice that a lifecycle write may change. -/
def ItemView.lifecycle (v : ItemView) :
    WorkflowState × ℤ × Option ℤ × Option ℤ × Option ℤ :=
  (v.state, v.lifecycleAt, v.startedAt, v.doneAt, v.binnedAt)

/-- What `diff_items` reports of an item that was `pre` at `preIdx`. -/
def itemChanges (pre : ItemView) (preIdx : ℕ) (post : ItemView) (postIdx : ℕ)
    (openIndex : Option ℕ) : List AppEvent :=
  (if pre.text = post.text then [] else [.itemTextChanged post.id post.text]) ++
  (if pre.notes = post.notes then [] else [.itemNotesChanged post.id post.notes]) ++
  (if pre.deadline = post.deadline then [] else [.itemDeadlineChanged post.id post.deadline]) ++
  (if pre.when = post.when then [] else [.itemWhenChanged post.id post.when]) ++
  (if pre.duration = post.duration then [] else [.itemDurationChanged post.id post.duration]) ++
  (if pre.place = post.place then [] else [.itemPlaceChanged post.id post.place]) ++
  (if pre.lifecycle = post.lifecycle then []
    else [post.lifecycleChanged post.id openIndex]) ++
  (if pre.listId = post.listId then []
    else [.itemListChanged post.id post.listId openIndex]) ++
  (if preIdx = postIdx then [] else [.itemMoved post.id openIndex])

/-- How many open items of the list a walk has met. -/
def openBefore (walked : List ItemView) (listId : String) : ℕ :=
  (walked.filter fun v => v.isOpen && v.listId == listId).length

/-- What `diff_items` reports of the item that ends up at `postIdx` of the walk. -/
def itemArrival (pre post : List ItemView) (it : ItemView) (postIdx : ℕ) : List AppEvent :=
  let openIndex := if it.isOpen then some (openBefore (post.take postIdx) it.listId) else none
  match pre.zipIdx.find? fun p => p.1.id = it.id with
  | none => [.itemAdded it openIndex]
  | some (old, preIdx) => itemChanges old preIdx it postIdx openIndex

/-- `diff_items`: the items that are gone, then the others in walk order.  Neither side names an
id twice. -/
def diffItems (pre post : List ItemView) : List AppEvent :=
  ((pre.filter fun v => v.id ∉ post.map ItemView.id).map fun v => .itemRemoved v.id) ++
    post.zipIdx.flatMap fun p => itemArrival pre post p.1 p.2

/-! ## Captured diffs -/

/-- The keys of an item map. -/
inductive ItemKey
  | id | text | notes | location | lifecycle | deadline | when | duration | place
  | createdAt | createdBy | startedAt | doneAt | binnedAt
  | other (name : String)
  deriving DecidableEq

/-- `CapturedDiff`. -/
inductive CapturedDiff
  /-- Keys of the root `items` map were set or deleted. -/
  | itemsRoot (upserted removed : List String)
  /-- Keys of one item's map were written.  `owner` is what the map's id register reads once
  the frame is in. -/
  | itemMap (owner : Option String) (keys : List ItemKey)
  /-- A text child of an item's map changed. -/
  | itemText (owner : Option String) (key : ItemKey)
  /-- One `order/<list-id>` container changed. -/
  | order (listId : String) (ops : List (DeltaOp (Option String)))
  /-- The `lists` container or one of its rows changed. -/
  | lists
  | settings
  | focus
  /-- A shape that is not translated. -/
  | untranslated

end Monoplan.Doc
