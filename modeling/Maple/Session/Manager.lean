import Mathlib.Data.List.Sort
import Maple.Lib.Climb
import Maple.Session.Projection

/-!
# The session tree

The entries of a session in the order they were added, and the leaf. The index and the
labels are what the entries say: of two entries with one id the later is found, and a
later label of a target wins. A fork holds one path of the tree: its label entries are
left out, and the labels of what is left are written again at the end.
-/

set_option autoImplicit false

namespace Maple.Session

open Entries Provider Climb

structure SessionManager where
  entries : List Entry
  leaf : Option String
  base : SessionBase
  baseRoot : Option String

inductive SessionError where
  | notFound (id : String)
  | notOnBranch (id : String)
  | notEditable (id : String)
  | unsupported (message : String)
  deriving DecidableEq, Repr

def SessionBase.default : SessionBase := ⟨none, .off, none, none⟩

abbrev Labels := Keyed.Map String String

abbrev LabelTimes := Keyed.Map String ℤ

def setLabel (labels : Labels) (target : String) : Option String → Labels
  | some label => labels.set target label
  | none => labels.remove target

def setLabelTime (times : LabelTimes) (target : String) (timestamp : ℤ) :
    Option String → LabelTimes
  | some _ => times.set target timestamp
  | none => times.remove target

def labelled (labels : Labels) (entry : Entry) : Labels :=
  match entry.kind with
  | .label targetId label => setLabel labels targetId label
  | _ => labels

def labelTimed (times : LabelTimes) (entry : Entry) : LabelTimes :=
  match entry.kind with
  | .label targetId label => setLabelTime times targetId entry.timestamp label
  | _ => times

namespace SessionManager

def labels (session : SessionManager) : Labels := session.entries.foldl labelled .empty

def labelTimes (session : SessionManager) : LabelTimes := session.entries.foldl labelTimed .empty

def entry (session : SessionManager) (id : String) : Option Entry :=
  latest SessionEntry.id session.entries id

/-- The path from the root to an entry, if the climb ends within the fuel. -/
def branchTo (session : SessionManager) (fuel : ℕ) (id : String) : Option (List Entry) :=
  (climb session.entry SessionEntry.parentId fuel id).map List.reverse

def branch (session : SessionManager) (fuel : ℕ) : Option (List Entry) :=
  match session.leaf with
  | some leaf => session.branchTo fuel leaf
  | none => some []

def baseForBranch (session : SessionManager) (branch : List Entry) : Option SessionBase :=
  session.baseRoot.bind (fun root =>
    (branch.head?.filter (fun entry => entry.id = root)).map (fun _ => session.base))

def projection (session : SessionManager) (fuel : ℕ) : Option SessionProjection :=
  (session.branch fuel).map
    (fun branch => projectFromBase branch (session.baseForBranch branch))

end SessionManager

section Forking

def mapKept {P : Payload} (kept : String → String) : EntryKind P → EntryKind P
  | .compaction summary firstKeptEntryId tokensBefore details systemMessage =>
    .compaction summary (kept firstKeptEntryId) tokensBefore details systemMessage
  | kind => kind

/-- The path copied so far, the labels left out since the last copy, and the entry that
stands for each label before it. -/
structure Copying where
  entries : List Entry
  droppedLabels : List String
  keptFrom : Keyed.Map String String

def Copying.start : Copying := ⟨[], [], .empty⟩

def lastId (entries : List Entry) : Option String := entries.getLast?.map SessionEntry.id

def copyEntry (state : Copying) (entry : Entry) : Copying :=
  if isLabel entry then { state with droppedLabels := state.droppedLabels++[entry.id] }
  else
    let keptFrom := state.droppedLabels.foldl (fun kept label => kept.set label entry.id)
      state.keptFrom
    let copy := { entry with
      kind := mapKept (fun id => (keptFrom.get id).getD id) entry.kind
      parentId := lastId state.entries }
    ⟨state.entries++[copy], [], keptFrom⟩

def copyPath (path : List Entry) : List Entry := (path.foldl copyEntry .start).entries

def newEntryId (taken : String → Bool) : List String → Option (String × List String)
  | [] => none
  | candidate::draws => if taken candidate then newEntryId taken draws else some (candidate, draws)

/-- Labels as entries of a chain, each with a new id. -/
def labelEntries (times : LabelTimes) (nowMs : ℤ) (taken : String → Bool) :
    Option String → List (String × String) → List String → Option (List Entry)
  | _, [], _ => some []
  | parent, (target, label)::rest, draws => do
    let (id, draws) ← newEntryId taken draws
    let entries ← labelEntries times nowMs taken (some id) rest draws
    return ⟨id, parent, (times.get target).getD nowMs, .label target (some label)⟩::entries

def labelOrder (a b : String × String) : Prop := a.1 < b.1 ∨ a.1 = b.1 ∧ a.2 ≤ b.2

instance (a b : String × String) : Decidable (labelOrder a b) := by
  unfold labelOrder
  infer_instance

def carriedLabels (labels : Labels) (entries : List Entry) : List (String × String) :=
  (labels.entries.filter (fun label => entries.any (fun entry => entry.id = label.1))).insertionSort
    labelOrder

def incompleteHistory : String :=
  "This operation requires a complete session load; reload the full history first"

def SessionManager.forkPath (session : SessionManager) (fuel : ℕ) :
    Option String → Option (List Entry)
  | some leaf => session.branchTo fuel leaf
  | none => some []

/-- A fork that ends: the climb to the leaf within the fuel, and new ids within the draws. -/
def SessionManager.forkWith (session : SessionManager) (fuel : ℕ) (draws : List String)
    (nowMs : ℤ) (leafId : Option String) : Option (Except SessionError SessionManager) :=
  if session.baseRoot.isSome then some (.error (.unsupported incompleteHistory))
  else if (leafId.any fun leaf => (session.entry leaf).isNone) then
    some (.error (.notFound (leafId.getD "")))
  else do
    let path ← session.forkPath fuel leafId
    let entries := copyPath path
    let labels ← labelEntries session.labelTimes nowMs
      (fun candidate => entries.any (fun entry => entry.id = candidate)) (lastId entries)
      (carriedLabels session.labels entries) draws
    let entries := entries++labels
    return .ok ⟨entries, lastId entries, .default, none⟩

end Forking

end Maple.Session
