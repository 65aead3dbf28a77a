import Mathlib.Data.List.Sort
import Maple.Compaction.Projection

/-!
# Planning a compaction

`plan` chooses the older part of the window for one history summary and the
finished work behind the current input for one active summary. `completePlan`
turns the generated summaries into the next checkpoint.
-/

set_option autoImplicit false

namespace Maple.Compaction.Plan
open Tiling Items Groups Coverage Units Window Projection

structure CompactionPolicy where
  inputBudget : ℕ
  triggerTokens : ℕ
  keepRecentTokens : ℕ
  summaryInputBudget : ℕ
  deriving DecidableEq, Repr

structure SummaryWork (V : Type) where
  kind : SectionKind
  anchor : Option ContextItemKey
  previousSummary : Option String
  items : List (ContextItem V)
  covered : List ContextItemKey
  foldsPreviousActive : Bool
  dropsPreviousActive : Bool
  activeStart : Option ContextItemKey

structure ContextPlan (V : Type) where
  summaryWork : List (SummaryWork V)

/-- `None` sorts before every position. -/
def positionLt : Option ℕ → Option ℕ → Bool
  | none, some _ => true
  | some a, some b => a < b
  | _, none => false

def positionLe : Option ℕ → Option ℕ → Bool
  | none, _ => true
  | some a, some b => a ≤ b
  | some _, none => false

/-- `Vec::dedup`: of equal neighbours the first stays. -/
def dedupRuns : List ContextItemKey → List ContextItemKey
  | [] => []
  | key::keys =>
    match dedupRuns keys with
    | [] => [key]
    | next::rest => if key = next then key::rest else key::next::rest

def orderCoverage (f : Frame) (keys : List ContextItemKey) : List ContextItemKey :=
  dedupRuns (keys.insertionSort (fun a b => positionLe (f.position a) (f.position b) = true))

def isCurrentInput (f : Frame) (item : ItemMeta) : Bool :=
  item.protectedInput && item.responseUuid = some f.currentResponse

section Selection
variable {V : Type} (lib : Library V) (s : ContextSnapshot V)
variable (checkpoint : Option CheckpointPayload) (active : ActiveContext)
variable (covered : List ContextItemKey)

def retainedLoop (keep : ℕ) : List (AtomicGroup × ℕ) → ℕ → List ℕ
  | [], _ => []
  | (g, index)::rest, recent =>
    let raw := replayedTokens covered active.archived (slice s.items g.start g.stop)
    if 0 < raw && recent < keep then index::retainedLoop keep rest (satAdd recent raw)
    else retainedLoop keep rest recent

def retained (keep : ℕ) (groups : List AtomicGroup) : List ℕ :=
  retainedLoop s active covered keep groups.zipIdx.reverse 0

def foldThrough : Option ℕ :=
  (previousActive s.frame checkpoint).bind (fun part => (sectionPositions s.frame part).max?)

def eligible (f : Frame) (groups : List AtomicGroup) (u : WindowUnit) : Bool :=
  (slice groups u.firstGroup u.lastGroup).all AtomicGroup.complete &&
    (slice f.items u.start u.stop).all (fun item => item.settled && !isCurrentInput f item)

def olderLoop (groups : List AtomicGroup) (kept : List ℕ) : List WindowUnit → List WindowUnit
  | [] => []
  | u::units =>
    if !(slice s.frame.items u.start u.stop).any (isReplayed covered active) then
      olderLoop groups kept units
    else
      let mustFold := (foldThrough s checkpoint).any (fun stop => u.start ≤ stop)
      let keepRaw := (List.range' u.firstGroup (u.lastGroup+1-u.firstGroup)).any
        (fun index => index ∈ kept)
      if !eligible s.frame groups u || (keepRaw && !mustFold) then []
      else u::olderLoop groups kept units

def summaryInputTokens (item : ContextItem V) : ℕ := satAdd item.estimatedTokens 24

def requestOverheadTokens (previous : Option String) : ℕ :=
  satAdd ((previous.map lib.countTokens).getD 0) lib.promptTokens

def replayedItems (u : WindowUnit) : List (ContextItem V) :=
  (slice s.items u.start u.stop).filter (fun item => isReplayed covered active item.toItemMeta)

def unitInput (u : WindowUnit) : ℕ :=
  let source := satSum 0 ((replayedItems s active covered u).map summaryInputTokens)
  match u.carriesActiveMemory, previousActive s.frame checkpoint with
  | true, some part => satAdd source (sectionTokens lib part)
  | _, _ => source

def planHead (budget : ℕ) (older : List WindowUnit) : Option WindowUnit :=
  older.head?.filter (fun u => active.head = keyAt s.frame u.start &&
    unitInput lib s checkpoint active covered u ≤ budget)

/-- Narrow from the old end until the helper has room. -/
def selectLoop (budget : ℕ) (head : Option WindowUnit) : List WindowUnit → ℕ → List WindowUnit
  | [], _ => []
  | u::rest, input =>
    if head.any (fun h => h.start = u.start) then selectLoop budget head rest input
    else
      let input := satAdd input (unitInput lib s checkpoint active covered u)
      if budget < input then [] else u::selectLoop budget head rest input

def selectUnits (budget : ℕ) (older : List WindowUnit) : List WindowUnit :=
  let head := planHead lib s checkpoint active covered budget older
  let input := (head.map (unitInput lib s checkpoint active covered)).getD 0
  (selectLoop lib s checkpoint active covered budget head older.reverse input++head.toList).reverse

def selectedUnits (policy : CompactionPolicy) (groups : List AtomicGroup) (current : ℕ) :
    List WindowUnit :=
  let kept := retained s active covered policy.keepRecentTokens groups
  let older := olderLoop s checkpoint active covered groups kept
    (windowUnits s.frame checkpoint groups current)
  let budget := policy.summaryInputBudget-requestOverheadTokens lib
    ((checkpoint.bind CheckpointPayload.history).map CheckpointSection.summary)
  selectUnits lib s checkpoint active covered budget older

def planHistory (policy : CompactionPolicy) (groups : List AtomicGroup) (current : ℕ) :
    List (ContextItem V) :=
  (selectedUnits lib s checkpoint active covered policy groups current).flatMap
    (replayedItems s active covered)

def activeEligible (f : Frame) (g : AtomicGroup) : Bool :=
  g.complete && (slice f.items g.start g.stop).all (fun item =>
    item.settled && !item.protectedInput && item.responseUuid = some f.currentResponse &&
      item.key.kind ≠ .user)

def activeLoop (current budget : ℕ) (kept : List ℕ) :
    List (AtomicGroup × ℕ) → List (ContextItem V) → ℕ → List (ContextItem V)
  | [], items, _ => items
  | (g, index)::rest, items, input =>
    let part := slice s.items g.start g.stop
    if g.start ≤ current then activeLoop current budget kept rest items input
    else if part.all (fun item => item.key ∈ covered) then
      activeLoop current budget kept rest items input
    else if part.all (fun item => isCurrentInput s.frame item.toItemMeta) then
      activeLoop current budget kept rest items input
    else if !activeEligible s.frame g || index ∈ kept then items
    else
      let fresh := part.filter (fun item => item.key ∉ covered)
      let tokens := satSum 0 (fresh.map summaryInputTokens)
      if !items.isEmpty && budget < satAdd input tokens then items
      else activeLoop current budget kept rest (items++fresh) (satAdd input tokens)

def activePrevious : Option CheckpointSection :=
  (checkpoint.bind CheckpointPayload.active).filter (fun part =>
    part.anchor = some s.currentUser)

def planActive (policy : CompactionPolicy) (groups : List AtomicGroup) (current : ℕ) :
    List (ContextItem V) :=
  let kept := retained s active covered policy.keepRecentTokens groups
  let budget := policy.summaryInputBudget-requestOverheadTokens lib
    ((activePrevious s checkpoint).map CheckpointSection.summary)
  activeLoop s covered current budget kept groups.zipIdx [] 0

def historyKeys (history : List (ContextItem V)) : List ContextItemKey :=
  history.map (fun item => item.key)

def foldsPreviousActive (current : ℕ) (history : List (ContextItem V)) : Bool :=
  (previousActive s.frame checkpoint).any (fun part =>
    part.anchor.any (fun anchor => anchor ∈ historyKeys history) &&
    part.covered.all (fun key => (s.frame.position key).any (fun position =>
      (foldThrough s checkpoint).any (fun stop => position ≤ stop) && position < current)))

def publishedPosition : Except ContextError ℕ :=
  match checkpoint.bind CheckpointPayload.activeStart with
  | none => .ok 0
  | some start => itemPosition s.frame start

/-- The first selected item behind the last uncovered item this summary skips. -/
def historyActiveStart (history : List (ContextItem V)) :
    Except ContextError (Option ContextItemKey) :=
  match history.getLast? with
  | none => .ok none
  | some last =>
    match publishedPosition s checkpoint with
    | .error e => .error e
    | .ok published =>
      match itemPosition s.frame last.key with
      | .error e => .error e
      | .ok last =>
        let gap := (List.range' published (last-published)).reverse.find? (fun index =>
          (keyAt s.frame index).any (fun key => key ∉ covered && key ∉ historyKeys history))
        .ok (gap.bind (fun gap => ((slice s.frame.items (gap+1) last).find? (fun item =>
          item.key ∈ historyKeys history)).map ItemMeta.key))

def dropsPreviousActive (history : List (ContextItem V)) (folds : Bool)
    (start : Option ContextItemKey) : Bool :=
  !history.isEmpty && !folds &&
    ((previousActive s.frame checkpoint).bind CheckpointSection.anchor).any (fun anchor =>
      anchor ∈ active.archived ||
        start.any (fun start => positionLt (s.frame.position anchor) (s.frame.position start)))

def insertMemory (after : Option ContextItemKey) (message : V) :
    List (ContextItem V) → Option (List (ContextItem V))
  | [] => none
  | item::rest =>
    if some item.key = after then
      some ({ item with summaryMessages := item.summaryMessages++[message] }::rest)
    else (insertMemory after message rest).map (fun rest => item::rest)

def foldMemory (folds : Bool) (history : List (ContextItem V)) :
    Except ContextError (List (ContextItem V)) :=
  match folds, previousActive s.frame checkpoint with
  | true, some part =>
    match insertMemory (activeMemoryAfter s.frame part) (summaryMessage lib part) history with
    | some history => .ok history
    | none => .error (.checkpoint "active memory insertion source is absent")
  | _, _ => .ok history

def historyWork (history : List (ContextItem V)) (folds drops : Bool)
    (start : Option ContextItemKey) : Except ContextError (List (SummaryWork V)) :=
  if history.isEmpty then .ok []
  else match foldMemory lib s checkpoint folds history with
    | .error e => .error e
    | .ok items =>
      let previous := checkpoint.bind CheckpointPayload.history
      let closed := if folds || drops then sectionKeys (previousActive s.frame checkpoint) else []
      .ok [⟨.history, none, previous.map CheckpointSection.summary, items,
        orderCoverage s.frame (sectionKeys previous++closed++historyKeys items), folds, drops, start⟩]

def activeWork (items : List (ContextItem V)) (closes : Bool) : List (SummaryWork V) :=
  if !items.isEmpty && ((previousActive s.frame checkpoint).isNone || closes) then
    [⟨.active, some s.currentUser, (activePrevious s checkpoint).map CheckpointSection.summary, items,
      orderCoverage s.frame (sectionKeys (activePrevious s checkpoint)++historyKeys items), false,
      false, none⟩]
  else []

end Selection

def plan {V : Type} (lib : Library V) (s : ContextSnapshot V)
    (checkpoint : Option CheckpointPayload) (active : ActiveContext) (policy : CompactionPolicy)
    (force : Bool) : Except ContextError (ContextPlan V) :=
  match validatedCoverage s.frame checkpoint with
  | .error e => .error e
  | .ok covered =>
    match itemPosition s.frame s.currentUser with
    | .error e => .error e
    | .ok current =>
      if !force && projectedTokenEstimate lib s checkpoint active covered ≤ policy.triggerTokens
      then .ok ⟨[]⟩
      else
        let groups := atomicGroups s.frame
        let history := planHistory lib s checkpoint active covered policy groups current
        let items := planActive lib s checkpoint active covered policy groups current
        let folds := foldsPreviousActive s checkpoint current history
        match historyActiveStart s checkpoint covered history with
        | .error e => .error e
        | .ok start =>
          let drops := dropsPreviousActive s checkpoint active history folds start
          match historyWork lib s checkpoint history folds drops start with
          | .error e => .error e
          | .ok works => .ok ⟨works++activeWork s checkpoint items (folds || drops)⟩

def completeWork {V : Type} (next : CheckpointPayload) (work : SummaryWork V) (summary : String) :
    CheckpointPayload :=
  let part : CheckpointSection := ⟨summary, work.covered, work.anchor⟩
  match work.kind with
  | .history =>
    { next with
      history := some part
      active := if work.foldsPreviousActive || work.dropsPreviousActive then none else next.active
      activeStart := work.activeStart.or next.activeStart }
  | .active => { next with active := some part }

def completeLoop {V : Type} :
    List (SummaryWork V × String) → CheckpointPayload → Except ContextError CheckpointPayload
  | [], next => .ok next
  | (work, summary)::rest, next =>
    if isBlank summary then .error (.summary "empty generated summary")
    else completeLoop rest (completeWork next work summary)

def completePlan {V : Type} (checkpoint : Option CheckpointPayload) (plan : ContextPlan V)
    (summaries : List String) : Except ContextError CheckpointPayload :=
  if summaries.length ≠ plan.summaryWork.length then
    .error (.summary "not every work item completed")
  else completeLoop (plan.summaryWork.zip summaries) (checkpoint.getD CheckpointPayload.default)

end Maple.Compaction.Plan
