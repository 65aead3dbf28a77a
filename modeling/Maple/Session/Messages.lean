import Maple.Provider.Messages

/-!
# Messages of a session

A session keeps the messages a model can read, and its own: shell commands of the user,
messages of extensions, and the summaries of compactions and branches.
-/

set_option autoImplicit false

namespace Maple.Session

open Entries Provider

structure CustomMessage where
  customType : String
  content : List Content
  display : Bool
  details : Option Json
  timestamp : ℤ

structure BashExecutionMessage where
  command : String
  output : String
  exitCode : Option ℤ
  cancelled : Bool
  truncated : Bool
  fullOutputPath : Option String
  timestamp : ℤ
  excludeFromContext : Bool

structure CompactionSummaryMessage where
  summary : String
  tokensBefore : ℕ
  timestamp : ℤ

structure BranchSummaryMessage where
  summary : String
  fromId : String
  timestamp : ℤ

inductive SessionMessage where
  | bashExecution (message : BashExecutionMessage)
  | custom (message : CustomMessage)
  | compactionSummary (message : CompactionSummaryMessage)
  | branchSummary (message : BranchSummaryMessage)
  | llm (message : Message)

def SessionMessage.asMessage : SessionMessage → Option Message
  | .llm message => some message
  | _ => none

def SessionMessage.isSystem (message : SessionMessage) : Bool :=
  (message.asMessage.bind Message.asSystem).isSome

abbrev conversation : Payload := ⟨SessionMessage, Content, SystemMessage⟩

abbrev Entry := SessionEntry conversation

def isCompaction (entry : Entry) : Bool :=
  match entry.kind with
  | .compaction _ _ _ _ _ => true
  | _ => false

def isLabel (entry : Entry) : Bool :=
  match entry.kind with
  | .label _ _ => true
  | _ => false

def isSystemEntry (entry : Entry) : Bool :=
  match entry.kind with
  | .message message => SessionMessage.isSystem message
  | _ => false

end Maple.Session
