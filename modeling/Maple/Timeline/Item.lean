import Maple.Session.Entries

/-!
# Timeline items and their stored form

A stored item is a timeline item with oversized strings cut to a bounded lead and
a reference to the entry that holds the rest. Two items with one key merge; the
merge never changes the key.
-/

set_option autoImplicit false

namespace Maple.Timeline.Item

open Session.Entries

inductive StoreError where
  | busy
  | notFound
  | conflict
  | invalidInput
  | invalidData
  deriving DecidableEq, Repr

structure AgentTimelineLabel where
  kind : String
  name : Option String
  detail : Option String
  deriving DecidableEq, Repr

structure AgentPersistedRowIdentity where
  taskId : String
  rowsEpoch : ℤ
  rowSeq : ℤ
  updateSeq : ℤ
  deriving DecidableEq, Repr

structure AgentLiveRowIdentity where
  runId : String
  occurrence : ℕ
  deriving DecidableEq, Repr

structure AgentTimelineItem where
  label : Option AgentTimelineLabel
  persisted : Option AgentPersistedRowIdentity := none
  live : Option AgentLiveRowIdentity := none
  truncated : Option ℕ := none
  revision : ℕ
  id : String
  itemType : String
  role : Option String
  title : Option String
  text : Option String
  status : Option String
  input : Option Json
  output : Option Json
  createdMs : ℕ
  merge : String

def utf8Length (text : List Char) : ℕ := (text.map Char.utf8Size).sum

/-- The longest lead of at most `budget` bytes. -/
def leadBytes : List Char → ℕ → List Char
  | [], _ => []
  | c::rest, budget => if c.utf8Size ≤ budget then c::leadBytes rest (budget-c.utf8Size) else []

end Maple.Timeline.Item
