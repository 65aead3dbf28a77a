import Mathlib.Logic.Function.Basic
import Maple.Lib.Run

/-!
# Ownership of a live response execution

A registration owns an execution and children hold task guards of it. Threads take lock
sections and atomic accesses one at a time; a section that stores or loads the owner flag
is split there, with the lock held across. A waiter enables its notification, reads the
counter under the lock and then loads the owner flag.
-/

set_option autoImplicit false

namespace Maple.Responses.Execution

structure ResponseExecution (Id User : Type) where
  responseId : Id
  userId : User
  acceptingTasks : Bool
  activeTasks : ℕ
  ownerFinished : Bool
  cancelled : Bool
  /-- The thread inside a section of the task state that it has not left. -/
  lock : Option ℕ
  /-- The task guards that exist. -/
  guards : ℕ
  deriving DecidableEq, Repr

inductive Phase where
  | ownerStored
  | guardTaken
  | notifying
  | checking
  | sealing
  | removing
  | cancelling
  | enabling
  | counting (notified : Bool)
  | loading (notified : Bool)
  | waiting (notified : Bool)
  deriving DecidableEq, Repr

inductive Command where
  | beginTask
  | dropRegistration
  | dropGuard
  | cancel
  | waitForQuiescence
  | advance
  deriving DecidableEq, Repr

inductive Action (Id User : Type) where
  | register (responseId : Id) (userId : User)
  | act (thread execution : ℕ) (command : Command)
  deriving DecidableEq, Repr

section Local
variable {Id User : Type}

def newExecution (responseId : Id) (userId : User) : ResponseExecution Id User :=
  ⟨responseId, userId, true, 0, false, false, none, 0⟩

def ResponseExecution.begins (x : ResponseExecution Id User) : Bool :=
  x.lock.isNone && x.acceptingTasks

/-- The thread's own next phase and the execution's state, or nothing while it must wait. -/
def move (thread : ℕ) (x : ResponseExecution Id User) :
    Command → Option Phase → Option (Option Phase × ResponseExecution Id User)
  | .beginTask, none =>
    if x.lock.isSome then none
    else if x.acceptingTasks then
      some (none, { x with activeTasks := x.activeTasks+1, guards := x.guards+1 })
    else some (none, x)
  | .dropRegistration, none =>
    if x.lock.isSome || x.ownerFinished then none
    else some (some .ownerStored, { x with ownerFinished := true, lock := some thread })
  | .dropGuard, none =>
    if x.lock.isSome || x.guards = 0 then none
    else some (some .guardTaken,
      { x with activeTasks := x.activeTasks-1, guards := x.guards-1, lock := some thread })
  | .cancel, none =>
    if x.lock.isSome then none else some (some .cancelling, { x with acceptingTasks := false })
  | .waitForQuiescence, none => some (some .enabling, x)
  | .advance, some .ownerStored =>
    some (some .notifying,
      { x with acceptingTasks := x.acceptingTasks && x.activeTasks ≠ 0, lock := none })
  | .advance, some .guardTaken =>
    some (some .notifying, { x with
      acceptingTasks := x.acceptingTasks && !(x.activeTasks = 0 && x.ownerFinished)
      lock := none })
  | .advance, some .notifying => some (some .checking, x)
  | .advance, some .checking => some (if x.ownerFinished then some .sealing else none, x)
  | .advance, some .sealing =>
    if x.lock.isSome then none
    else if x.activeTasks ≠ 0 then some (none, x)
    else some (some .removing, { x with acceptingTasks := false })
  | .advance, some .removing => some (none, x)
  | .advance, some .cancelling => some (none, { x with cancelled := true })
  | .advance, some .enabling => some (some (.counting false), x)
  | .advance, some (.counting notified) =>
    if x.lock.isSome then none
    else some (some (if x.activeTasks = 0 then .loading notified else .waiting notified), x)
  | .advance, some (.loading notified) =>
    some (if x.ownerFinished then none else some (.waiting notified), x)
  | .advance, some (.waiting true) => some (some .enabling, x)
  | _, _ => none

def Phase.notify : Phase → Phase
  | .counting _ => .counting true
  | .loading _ => .loading true
  | .waiting _ => .waiting true
  | phase => phase

end Local

section Global
variable {Id User : Type} [DecidableEq Id]

structure State (Id User : Type) where
  entries : Id → Option ℕ
  count : ℕ
  executions : ℕ → Option (ResponseExecution Id User)
  threads : ℕ → Option (ℕ × Phase)

def start : State Id User := ⟨fun _ => none, 0, fun _ => none, fun _ => none⟩

def State.phase (s : State Id User) (execution thread : ℕ) : Option Phase :=
  match s.threads thread with
  | some (target, phase) => if target = execution then some phase else none
  | none => none

def State.ready (s : State Id User) (execution thread : ℕ) : Bool :=
  match s.threads thread with
  | some (target, _) => target = execution
  | none => true

def notifyWaiters (execution : ℕ) (threads : ℕ → Option (ℕ × Phase)) : ℕ → Option (ℕ × Phase) :=
  fun thread => (threads thread).map (fun entry =>
    if entry.1 = execution then (entry.1, entry.2.notify) else entry)

def removeEntry (entries : Id → Option ℕ) (responseId : Id) (execution : ℕ) : Id → Option ℕ :=
  if entries responseId = some execution then Function.update entries responseId none else entries

def State.moved (s : State Id User) (thread execution : ℕ) (responseId : Id)
    (phase : Option Phase) (x : ResponseExecution Id User) : State Id User :=
  { s with
    entries := if s.phase execution thread = some .removing
      then removeEntry s.entries responseId execution else s.entries
    executions := Function.update s.executions execution (some x)
    threads := Function.update
      (if s.phase execution thread = some .notifying
        then notifyWaiters execution s.threads else s.threads)
      thread (phase.map (fun phase => (execution, phase))) }

def step (s : State Id User) : Action Id User → Option (State Id User)
  | .register responseId userId =>
    match s.entries responseId with
    | some _ => some s
    | none => some { s with
        entries := Function.update s.entries responseId (some s.count)
        count := s.count+1
        executions := Function.update s.executions s.count (some (newExecution responseId userId)) }
  | .act thread execution command =>
    match s.executions execution with
    | none => none
    | some x =>
      if s.ready execution thread then
        match move thread x command (s.phase execution thread) with
        | none => none
        | some (phase, x') => some (s.moved thread execution x.responseId phase x')
      else none

def State.returns (s : State Id User) (execution thread : ℕ) : Prop :=
  ∃ x notified, s.executions execution = some x ∧
    s.phase execution thread = some (.loading notified) ∧ x.ownerFinished = true

end Global

end Maple.Responses.Execution
