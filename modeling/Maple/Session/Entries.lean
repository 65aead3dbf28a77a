import Mathlib.Algebra.Order.Ring.Int

/-!
# Session entries

A session is an append-only tree of entries. An entry names its parent; messages,
content blocks and system states are carried as they are.
-/

set_option autoImplicit false

namespace Maple.Session.Entries

inductive Json where
  | null
  | bool (value : Bool)
  | number (text : String)
  | str (text : String)
  | arr (items : List Json)
  | obj (fields : List (String × Json))

def Json.get : Json → String → Option Json
  | .obj fields, key => (fields.find? (fun field => field.1 = key)).map Prod.snd
  | _, _ => none

def Json.asStr : Json → Option String
  | .str text => some text
  | _ => none

def Json.asArr : Json → Option (List Json)
  | .arr items => some items
  | _ => none

def Json.set : Json → String → Json → Json
  | .obj fields, key, value =>
    .obj (if fields.any (fun field => field.1 = key)
      then fields.map (fun field => if field.1 = key then (key, value) else field)
      else fields++[(key, value)])
  | value, _, _ => value

def Json.pointer : List String → Json → Option Json
  | [], value => some value
  | token::rest, value =>
    match value with
    | .obj _ => (value.get token).bind (pointer rest)
    | .arr items => ((items.zipIdx.find? (fun entry => toString entry.2 = token)).map Prod.fst).bind
        (pointer rest)
    | _ => none

inductive ThinkingLevel where
  | off
  | minimal
  | low
  | medium
  | high
  | xhigh
  | max
  deriving DecidableEq, Repr

structure Payload where
  Message : Type
  Content : Type
  System : Type

inductive EntryKind (P : Payload) where
  | message (message : P.Message)
  | thinkingLevelChange (thinkingLevel : ThinkingLevel)
  | modelChange (provider modelId : String)
  | compaction (summary firstKeptEntryId : String) (tokensBefore : ℕ) (details : Option Json)
      (systemMessage : Option P.System)
  | branchSummary (fromId summary : String) (details : Option Json)
  | custom (customType : String) (data : Option Json)
  | customMessage (customType : String) (content : List P.Content) (display : Bool)
      (details : Option Json)
  | contextEdit (targetId : String) (replacement : Option (List P.Content))
  | label (targetId : String) (label : Option String)
  | sessionInfo (name : Option String)

structure SessionEntry (P : Payload) where
  id : String
  parentId : Option String
  timestamp : ℤ
  kind : EntryKind P

end Maple.Session.Entries
