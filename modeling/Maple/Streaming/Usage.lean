import Mathlib.Data.Int.Order.Basic
import Maple.Session.Entries

/-!
# Usage totals of a completion stream

Providers report cumulative token totals in some frames. The accumulator keeps the highest
of each and the last cached count, and gives them out once the stream was seen to finish.
-/

set_option autoImplicit false

namespace Maple.Streaming

open Session.Entries

structure CompletionUsage where
  promptTokens : ℤ
  completionTokens : ℤ
  cachedPromptTokens : Option ℤ
  deriving DecidableEq, Repr

structure CompletionUsageObservation where
  promptTokens : Option ℤ
  completionTokens : Option ℤ
  cachedPromptTokens : Option ℤ
  deriving DecidableEq, Repr

def CompletionUsageObservation.isEmpty (observed : CompletionUsageObservation) : Bool :=
  observed.promptTokens.isNone && observed.completionTokens.isNone &&
    observed.cachedPromptTokens.isNone

inductive StreamUsageFinalization where
  | providerDone
  | endOfStream
  | providerError
  | transportError
  | timeout
  | consumerDropped
  | invalidData
  deriving DecidableEq, Repr

def StreamUsageFinalization.isProviderDone (finalization : StreamUsageFinalization) : Bool :=
  finalization = .providerDone

def i32Max : ℤ := 2^31-1

section Observation
variable (asI64 : String → Option ℤ)

def tokenCount (value : Option Json) : Option ℤ :=
  match value with
  | some (.number digits) =>
    ((asI64 digits).filter (fun tokens => 0 ≤ tokens)).map (fun tokens => min tokens i32Max)
  | _ => none

def extractUsageObservation (json : Json) : Option CompletionUsageObservation :=
  match json.get "usage" with
  | some (.obj fields) =>
    let usage := Json.obj fields
    some ⟨tokenCount asI64 (usage.get "prompt_tokens"),
      tokenCount asI64 (usage.get "completion_tokens"),
      tokenCount asI64 ((usage.get "prompt_tokens_details").bind
        (fun details => details.get "cached_tokens"))⟩
  | _ => none

def isNull : Json → Bool
  | .null => true
  | _ => false

def choicesOf (json : Json) : Option (List Json) := (json.get "choices").bind Json.asArr

def hasFinishReason (json : Json) : Bool :=
  match choicesOf json with
  | some choices => choices.any (fun choice => (choice.get "finish_reason").any (fun r => !isNull r))
  | none => false

def hasTerminalStreamSignal (json : Json) : Bool :=
  hasFinishReason json || (choicesOf json).any List.isEmpty

structure StreamUsageAccumulator where
  latestUsage : Option CompletionUsage
  sawTerminalSignal : Bool
  finalized : Bool
  deriving DecidableEq, Repr

def StreamUsageAccumulator.initial : StreamUsageAccumulator := ⟨none, false, false⟩

/-- A total that is reported does not fall; one that is not stays. -/
def mergeTotal (observed previous : Option ℤ) : ℤ :=
  match observed, previous with
  | some tokens, some earlier => max tokens earlier
  | some tokens, none => tokens
  | none, some earlier => earlier
  | none, none => 0

def observe (accumulator : StreamUsageAccumulator) (json : Json) : StreamUsageAccumulator :=
  let seen := accumulator.sawTerminalSignal || hasTerminalStreamSignal json
  match extractUsageObservation asI64 json with
  | none => { accumulator with sawTerminalSignal := seen }
  | some observed =>
    if observed.isEmpty then { accumulator with sawTerminalSignal := seen }
    else
      let latest := accumulator.latestUsage
      { accumulator with
        sawTerminalSignal := seen
        latestUsage := some ⟨
          mergeTotal observed.promptTokens (latest.map CompletionUsage.promptTokens),
          mergeTotal observed.completionTokens (latest.map CompletionUsage.completionTokens),
          observed.cachedPromptTokens.or (latest.bind CompletionUsage.cachedPromptTokens)⟩ }

def takeFinalUsage (accumulator : StreamUsageAccumulator)
    (finalization : StreamUsageFinalization) : Option CompletionUsage :=
  if accumulator.finalized || !(finalization.isProviderDone || accumulator.sawTerminalSignal) then
    none
  else
    match accumulator.latestUsage with
    | none => none
    | some usage =>
      let cached := usage.cachedPromptTokens.map (fun cached => min cached usage.promptTokens)
      if 0 < usage.promptTokens ∨ 0 < usage.completionTokens then
        some { usage with cachedPromptTokens := cached }
      else none

def reported (count : CompletionUsageObservation → Option ℤ) (frames : List Json) : List ℤ :=
  frames.filterMap (fun json => (extractUsageObservation asI64 json).bind count)

def highest (counts : List ℤ) : ℤ := counts.foldl max 0

def totalUsage (frames : List Json) : Option CompletionUsage :=
  let prompt := highest (reported asI64 CompletionUsageObservation.promptTokens frames)
  let completion := highest (reported asI64 CompletionUsageObservation.completionTokens frames)
  let cached := (reported asI64 CompletionUsageObservation.cachedPromptTokens frames).getLast?
  if 0 < prompt ∨ 0 < completion then
    some ⟨prompt, completion, cached.map (fun cached => min cached prompt)⟩
  else none

theorem tokenCount_nonneg {value : Option Json} {tokens : ℤ}
    (h : tokenCount asI64 value = some tokens) : 0 ≤ tokens ∧ tokens ≤ i32Max := by
  unfold tokenCount at h
  split at h
  · obtain ⟨count,hcount,rfl⟩ := Option.map_eq_some_iff.mp h
    have hpos := (Option.filter_eq_some_iff.mp hcount).2
    simp only [decide_eq_true_eq] at hpos
    simp only [i32Max]
    omega
  · cases h

theorem observation_nonneg {json : Json} {observed : CompletionUsageObservation}
    (h : extractUsageObservation asI64 json = some observed) :
    (∀ tokens, observed.promptTokens = some tokens → 0 ≤ tokens) ∧
      (∀ tokens, observed.completionTokens = some tokens → 0 ≤ tokens) := by
  unfold extractUsageObservation at h
  split at h
  · cases h
    exact ⟨fun _ ht => (tokenCount_nonneg asI64 ht).1,
      fun _ ht => (tokenCount_nonneg asI64 ht).1⟩
  · cases h

theorem mergeTotal_some (counts : List ℤ) (count : Option ℤ) :
    mergeTotal count (some (highest counts)) = highest (counts++count.toList) := by
  cases count with
  | none => simp [mergeTotal]
  | some tokens => simp [mergeTotal, highest, List.foldl_append, max_comm]

theorem mergeTotal_none {count : Option ℤ} (h : ∀ tokens, count = some tokens → 0 ≤ tokens) :
    mergeTotal count none = highest count.toList := by
  cases count with
  | none => rfl
  | some tokens => exact (max_eq_right (h tokens rfl)).symm

theorem last_reported (counts : List ℤ) (count : Option ℤ) :
    (counts++count.toList).getLast? = count.or counts.getLast? := by
  cases count <;> simp

theorem reported_append (count : CompletionUsageObservation → Option ℤ) (frames : List Json)
    (json : Json) : reported asI64 count (frames++[json]) =
      reported asI64 count frames++((extractUsageObservation asI64 json).bind count).toList := by
  cases h : (extractUsageObservation asI64 json).bind count <;> simp [reported, h]

structure Accumulated (accumulator : StreamUsageAccumulator) (frames : List Json) : Prop where
  open_ : accumulator.finalized = false
  signal : accumulator.sawTerminalSignal = frames.any hasTerminalStreamSignal
  usage : (accumulator.latestUsage = none ∧
      reported asI64 CompletionUsageObservation.promptTokens frames = [] ∧
      reported asI64 CompletionUsageObservation.completionTokens frames = [] ∧
      reported asI64 CompletionUsageObservation.cachedPromptTokens frames = []) ∨
    accumulator.latestUsage = some ⟨
      highest (reported asI64 CompletionUsageObservation.promptTokens frames),
      highest (reported asI64 CompletionUsageObservation.completionTokens frames),
      (reported asI64 CompletionUsageObservation.cachedPromptTokens frames).getLast?⟩

/-- A frame that reports nothing changes no count. -/
theorem reported_nothing (count : CompletionUsageObservation → Option ℤ) (frames : List Json)
    (json : Json) (h : ((extractUsageObservation asI64 json).bind count) = none) :
    reported asI64 count (frames++[json]) = reported asI64 count frames := by
  rw [reported_append, h]
  simp

variable {accumulator : StreamUsageAccumulator}

theorem observe_accumulated {frames : List Json}
    (json : Json) (h : Accumulated asI64 accumulator frames) :
    Accumulated asI64 (observe asI64 accumulator json) (frames++[json]) := by
  have hsignal : (accumulator.sawTerminalSignal || hasTerminalStreamSignal json) =
      (frames++[json]).any hasTerminalStreamSignal := by
    rw [h.signal]
    simp
  cases ho : extractUsageObservation asI64 json with
  | none =>
    have hsame (count) := reported_nothing asI64 count frames json (by rw [ho]; rfl)
    refine ⟨?_,?_,?_⟩
    · simpa only [observe, ho] using h.open_
    · simpa only [observe, ho] using hsignal
    · simpa only [observe, ho, hsame] using h.usage
  | some observed =>
    by_cases hempty : observed.isEmpty = true
    · have hnone := hempty
      simp only [CompletionUsageObservation.isEmpty, Bool.and_eq_true, Option.isNone_iff_eq_none]
        at hnone
      obtain ⟨⟨hprompt,hcompletion⟩,hcached⟩ := hnone
      refine ⟨?_,?_,?_⟩
      · simpa only [observe, ho, hempty, if_true] using h.open_
      · simpa only [observe, ho, hempty, if_true] using hsignal
      · rw [reported_nothing asI64 _ frames json (by rw [ho]; exact hprompt),
          reported_nothing asI64 _ frames json (by rw [ho]; exact hcompletion),
          reported_nothing asI64 _ frames json (by rw [ho]; exact hcached)]
        simpa only [observe, ho, hempty, if_true] using h.usage
    · obtain ⟨hprompt,hcompletion⟩ := observation_nonneg asI64 ho
      refine ⟨?_,?_,.inr ?_⟩
      · simpa only [observe, ho, hempty, Bool.false_eq_true, if_false] using h.open_
      · simpa only [observe, ho, hempty, Bool.false_eq_true, if_false] using hsignal
      simp only [observe, ho, hempty, Bool.false_eq_true, if_false, reported_append,
        Option.bind_some, last_reported]
      obtain ⟨hl,hp,hc,hk⟩ | hl := h.usage
      · rw [hl, hp, hc, hk]
        simp only [Option.map_none, Option.bind_none, List.nil_append, List.getLast?_nil,
          mergeTotal_none hprompt, mergeTotal_none hcompletion]
      · rw [hl]
        simp only [Option.map_some, Option.bind_some, mergeTotal_some]

theorem accumulated_initial : Accumulated asI64 .initial [] :=
  ⟨rfl,rfl,.inl ⟨rfl,rfl,rfl,rfl⟩⟩

/-- Usage is given out once the stream was seen to finish, and is what was reported. -/
theorem takeFinalUsage_total {frames : List Json}
    (finalization : StreamUsageFinalization) (h : Accumulated asI64 accumulator frames) :
    takeFinalUsage accumulator finalization =
      if finalization = .providerDone ∨ frames.any hasTerminalStreamSignal = true then
        totalUsage asI64 frames
      else none := by
  have hfinal : (accumulator.finalized ||
      !(finalization.isProviderDone || accumulator.sawTerminalSignal)) = true ↔
      ¬(finalization = .providerDone ∨ frames.any hasTerminalStreamSignal = true) := by
    rw [h.open_, h.signal]
    simp [StreamUsageFinalization.isProviderDone]
  by_cases hseen : finalization = .providerDone ∨ frames.any hasTerminalStreamSignal = true
  · rw [takeFinalUsage, if_neg (fun hc => hfinal.mp hc hseen), if_pos hseen]
    obtain ⟨hl,hp,hc,hk⟩ | hl := h.usage
    · simp [hl, totalUsage, hp, hc, highest]
    · simp only [hl, totalUsage]
  · rw [takeFinalUsage, if_pos (hfinal.mpr hseen), if_neg hseen]

end Observation

end Maple.Streaming
