import Maple.Tools.Streaming

/-!
# The spilled output file

Chunks are kept until a limit is passed, and are then written out before the chunk that
passed it. As long as no file error is recorded the open file holds all chunks so far, or
the kept chunks are all of them. An error stays recorded until the file is closed, so
closing succeeds only on a file that misses nothing.
-/

set_option autoImplicit false

namespace Maple.Tools

open Table Utf8 OutputAccumulator List

inductive OutputOp
  | append (data : Bytes)
  | snapshot (persistIfTruncated : Bool)
  | finish
deriving DecidableEq, Repr

def OutputAccumulator.step (host : Host) (a : OutputAccumulator) : OutputOp → OutputAccumulator
  | .append data => a.append host data
  | .snapshot persistIfTruncated => (a.snapshot host persistIfTruncated).2
  | .finish => a.finish host

/-- The chunks taken in: what comes after the end of the output is ignored. -/
def appended : List OutputOp → Bytes
  | [] => []
  | .append data::ops => data++appended ops
  | .snapshot _::ops => appended ops
  | .finish::_ => []

/-- What the file and the kept chunks hold of the bytes `seen`. -/
structure Spilled (host : Host) (a : OutputAccumulator) (seen : Bytes) : Prop where
  refused : a.filePath = none → ∀ attempt < a.attempts, ∃ error, host.create attempt = .error error
  closed : a.filePath = none → a.file = none
  kept : a.filePath = none → a.fileError = none → a.rawChunks.flatten = seen
  saved : a.filePath.isSome → a.fileError = none → a.file = some seen

def Unspilled (a b : OutputAccumulator) : Prop :=
  b.rawChunks = a.rawChunks ∧ b.filePath = a.filePath ∧ b.file = a.file ∧
    b.fileError = a.fileError ∧ b.attempts = a.attempts

theorem append_decoded_unspilled (a : OutputAccumulator) (text : Text) :
    Unspilled a (a.appendDecoded text) := by
  simp only [appendDecoded, countLines,
    pushTail, trimTail]
  split
  · exact ⟨rfl,rfl,rfl,rfl,rfl⟩
  · split
    all_goals
      split
      · split <;> exact ⟨rfl,rfl,rfl,rfl,rfl⟩
      · exact ⟨rfl,rfl,rfl,rfl,rfl⟩

section Steps
variable (host : Host)

theorem spilled_unspilled (a b : OutputAccumulator) (seen : Bytes) (h : Spilled host a seen)
    (hsame : Unspilled a b) : Spilled host b seen := by
  obtain ⟨hchunks,hpath,hfile,herror,hattempts⟩ := hsame
  constructor
  · rw [hpath, hattempts]
    exact h.refused
  · rw [hpath, hfile]
    exact h.closed
  · rw [hpath, herror, hchunks]
    exact h.kept
  · rw [hpath, herror, hfile]
    exact h.saved

theorem write_path (a : OutputAccumulator) (data : Bytes) :
    (a.writeToFile host data).filePath = a.filePath ∧
      (a.writeToFile host data).attempts = a.attempts ∧
      (a.fileError ≠ none → (a.writeToFile host data).fileError ≠ none) := by
  unfold writeToFile
  split
  · exact ⟨rfl,rfl,id⟩
  · split
    · exact ⟨rfl,rfl,id⟩
    · exact ⟨rfl,rfl,fun _ => Option.some_ne_none _⟩

theorem writes_path (chunks : List Bytes) (a : OutputAccumulator) :
    (chunks.foldl (fun a chunk => a.writeToFile host chunk) a).filePath = a.filePath ∧
      (chunks.foldl (fun a chunk => a.writeToFile host chunk) a).attempts = a.attempts ∧
      (a.fileError ≠ none →
        (chunks.foldl (fun a chunk => a.writeToFile host chunk) a).fileError ≠ none) := by
  induction chunks generalizing a with
  | nil => exact ⟨rfl,rfl,id⟩
  | cons chunk chunks ih =>
    obtain ⟨hpath,hattempts,herror⟩ := write_path host a chunk
    obtain ⟨hpaths,hattempts',herrors⟩ := ih (a.writeToFile host chunk)
    exact ⟨hpaths.trans hpath,hattempts'.trans hattempts,fun h => herrors (herror h)⟩

/-- With a path and an error on record nothing is promised any more. -/
theorem spilled_failed (a : OutputAccumulator) (seen : Bytes) (hpath : a.filePath.isSome)
    (herror : a.fileError ≠ none) : Spilled host a seen where
  refused hnone := by simp [hnone] at hpath
  closed hnone := by simp [hnone] at hpath
  kept hnone := by simp [hnone] at hpath
  saved _ hnone := absurd hnone herror

variable {a : OutputAccumulator} {seen : Bytes} (data : Bytes)

theorem write_spilled (hpath : a.filePath.isSome) (h : Spilled host a seen) :
    Spilled host (a.writeToFile host data) (seen++data) := by
  obtain ⟨hsame,_,hsticky⟩ := write_path host a data
  have hpath' : (a.writeToFile host data).filePath.isSome := by rwa [hsame]
  by_cases herror : a.fileError = none
  · have hfile := h.saved hpath herror
    cases hwrite : host.write a.writes with
    | none =>
      constructor
      · exact fun hnone => by simp [hnone] at hpath'
      · exact fun hnone => by simp [hnone] at hpath'
      · exact fun hnone => by simp [hnone] at hpath'
      · intro _ _
        simp only [writeToFile, hfile, hwrite]
    | some error =>
      apply spilled_failed host _ _ hpath'
      simp only [writeToFile, hfile, hwrite]
      exact Option.some_ne_none _
  · exact spilled_failed host _ _ hpath' (hsticky herror)

theorem writes_spilled (chunks : List Bytes) (a : OutputAccumulator) (seen : Bytes)
    (hpath : a.filePath.isSome) (h : Spilled host a seen) :
    Spilled host (chunks.foldl (fun a chunk => a.writeToFile host chunk) a)
      (seen++chunks.flatten) := by
  induction chunks generalizing a seen with
  | nil => simpa using h
  | cons chunk chunks ih =>
    have hnext := ih (a.writeToFile host chunk) (seen++chunk)
      (by rwa [(write_path host a chunk).1]) (write_spilled host chunk hpath h)
    rwa [append_assoc] at hnext

/-- The hand-over: the kept chunks are written first, so the new file holds them all. -/
theorem ensure_spilled (a : OutputAccumulator) (seen : Bytes) (h : Spilled host a seen) :
    Spilled host (a.ensureFile host) seen := by
  unfold ensureFile
  split
  · exact h
  rename_i hpath
  have hnone : a.filePath = none := by simpa using hpath
  split
  · rename_i path hcreate
    by_cases herror : a.fileError = none
    · have hwritten := writes_spilled host a.rawChunks { a with
        filePath := some path
        file := some []
        rawChunks := []
        attempts := a.attempts+1 } [] rfl
        ⟨nofun,nofun,nofun,fun _ _ => rfl⟩
      rwa [nil_append, h.kept hnone herror] at hwritten
    · obtain ⟨hsame,_,hsticky⟩ := writes_path host a.rawChunks { a with
        filePath := some path
        file := some []
        rawChunks := []
        attempts := a.attempts+1 }
      apply spilled_failed
      · rw [hsame]
        rfl
      · exact hsticky herror
  · rename_i error hcreate
    constructor
    · intro _ attempt hattempt
      rcases Nat.lt_succ_iff_lt_or_eq.mp hattempt with hearlier | rfl
      · exact h.refused hnone attempt hearlier
      · exact ⟨error,hcreate⟩
    · exact h.closed
    · exact fun _ => nofun
    · exact fun hsome => absurd hsome hpath

/-- A file is there afterwards, or one more attempt failed. -/
theorem ensure_tries (a : OutputAccumulator) :
    (a.ensureFile host).filePath.isSome ∨
      0 < (a.ensureFile host).attempts ∧ (a.ensureFile host).fileError ≠ none := by
  unfold ensureFile
  split
  · rename_i hpath
    exact Or.inl hpath
  · split
    · apply Or.inl
      rw [(writes_path host a.rawChunks _).1]
      rfl
    · exact Or.inr ⟨Nat.succ_pos _,Option.some_ne_none _⟩

theorem append_spilled (hrunning : a.finished = false) (h : Spilled host a seen) :
    Spilled host (a.append host data) (seen++data) := by
  let decoded := decodeAvailable (a.pending++data) false
  let fed := { a with
    totalRawBytes := a.totalRawBytes+data.length
    pending := decoded.2 }
  have hfed : Spilled host (fed.appendDecoded decoded.1) seen :=
    spilled_unspilled host fed _ seen ⟨h.refused,h.closed,h.kept,h.saved⟩
      (append_decoded_unspilled fed decoded.1)
  have hgoes : ¬a.finished = true := by simp [hrunning]
  simp only [append, if_neg hgoes]
  split
  · have hensured := ensure_spilled host _ seen hfed
    rcases ensure_tries host (fed.appendDecoded decoded.1) with hpath | ⟨_,herror⟩
    · exact write_spilled host data hpath hensured
    by_cases hpath : ((fed.appendDecoded decoded.1).ensureFile host).filePath.isSome
    · exact write_spilled host data hpath hensured
    have hnone : ((fed.appendDecoded decoded.1).ensureFile host).filePath = none := by
      simpa using hpath
    have hskip : ((fed.appendDecoded decoded.1).ensureFile host).writeToFile host data =
        (fed.appendDecoded decoded.1).ensureFile host := by
      simp only [writeToFile, hensured.closed hnone]
    rw [hskip]
    exact ⟨hensured.refused,hensured.closed,fun _ hok => absurd hok herror,
      fun hsome => absurd hsome hpath⟩
  · rename_i hunder
    have hfile : (fed.appendDecoded decoded.1).file = none := by
      simp only [Bool.or_eq_true, not_or, Option.not_isSome_iff_eq_none] at hunder
      exact hunder.1
    -- no open file: either no path, or an error is on record
    have hlost : ∀ seen', (fed.appendDecoded decoded.1).filePath.isSome →
        (fed.appendDecoded decoded.1).fileError = none →
        (fed.appendDecoded decoded.1).file = some seen' := by
      intro seen' hsome hok
      rw [hfed.saved hsome hok] at hfile
      cases hfile
    split
    · refine ⟨hfed.refused,hfed.closed,fun hnone hok => ?_,hlost (seen++data)⟩
      rw [← hfed.kept hnone hok, flatten_append, flatten_singleton]
    · rename_i hempty
      have hdata : data = [] := by simpa using hempty
      have hseen : seen++data = seen := by rw [hdata, append_nil]
      rw [hseen]
      exact hfed

theorem finish_spilled (a : OutputAccumulator) (seen : Bytes) (h : Spilled host a seen) :
    Spilled host (a.finish host) seen := by
  unfold finish
  split
  · exact h
  have hfed := spilled_unspilled host { a with
    finished := true
    pending := (decodeAvailable a.pending true).2 } _ seen
    ⟨h.refused,h.closed,h.kept,h.saved⟩
    (append_decoded_unspilled _ (decodeAvailable a.pending true).1)
  dsimp only
  split
  · exact ensure_spilled host _ seen hfed
  · exact hfed

theorem snapshot_spilled (persistIfTruncated : Bool) (h : Spilled host a seen) :
    Spilled host (a.snapshot host persistIfTruncated).2 seen := by
  simp only [snapshot]
  split
  · exact ensure_spilled host a seen h
  · exact h

/-- Once the output has ended, a file was asked for if the limits were passed. -/
def Offered (a : OutputAccumulator) : Prop :=
  a.finished = true → a.shouldUseFile = true → a.filePath.isSome ∨ 0 < a.attempts

theorem offered_ensure (a : OutputAccumulator) : Offered (a.ensureFile host) := by
  intro _ _
  rcases ensure_tries host a with hpath | ⟨hattempts,_⟩
  · exact Or.inl hpath
  · exact Or.inr hattempts

theorem append_running (hrunning : a.finished = false) : (a.append host data).finished = false := by
  have hgoes : ¬a.finished = true := by simp [hrunning]
  simp only [append, if_neg hgoes]
  have hfed := (append_decoded_frame { a with
    totalRawBytes := a.totalRawBytes+data.length
    pending := (decodeAvailable (a.pending++data) false).2 }
    (decodeAvailable (a.pending++data) false).1).2.1
  split
  · rw [filed_trans _ _ _ (ensure_filed host _) (write_filed host _ data)]
    exact hfed.trans hrunning
  · split <;> exact hfed.trans hrunning

theorem append_ended (hended : a.finished = true) : a.append host data = a := by
  simp only [append, if_pos hended]

theorem finish_ends (a : OutputAccumulator) : (a.finish host).finished = true := by
  unfold finish
  split
  · assumption
  have hfed := (append_decoded_frame { a with
    finished := true
    pending := (decodeAvailable a.pending true).2 } (decodeAvailable a.pending true).1).2.1
  dsimp only
  split
  · rw [ensure_filed host]
    exact hfed
  · exact hfed

theorem snapshot_finished (a : OutputAccumulator) (persistIfTruncated : Bool) :
    (a.snapshot host persistIfTruncated).2.finished = a.finished := by
  simp only [snapshot]
  split
  · rw [ensure_filed host a]
  · rfl

theorem finish_offered (h : Offered a) : Offered (a.finish host) := by
  unfold finish
  split
  · exact h
  · dsimp only
    split
    · exact offered_ensure host _
    · rename_i hunder
      exact fun _ hover => absurd hover hunder

theorem snapshot_offered (persistIfTruncated : Bool) (h : Offered a) :
    Offered (a.snapshot host persistIfTruncated).2 := by
  simp only [snapshot]
  split
  · exact offered_ensure host a
  · exact h

theorem step_offered (op : OutputOp) (h : Offered a) : Offered (a.step host op) := by
  cases op with
  | append data =>
    cases hfinished : a.finished with
    | false =>
      intro hended
      rw [step, append_running host data hfinished] at hended
      cases hended
    | true =>
      rw [step, append_ended host data hfinished]
      exact h
  | snapshot persistIfTruncated => exact snapshot_offered host persistIfTruncated h
  | finish => exact finish_offered host h

theorem run_offered (ops : List OutputOp) (a : OutputAccumulator) (h : Offered a) :
    Offered (ops.foldl (OutputAccumulator.step host) a) := by
  induction ops generalizing a with
  | nil => exact h
  | cons op ops ih => exact ih _ (step_offered host op h)

/-- The bytes of `ops` that an accumulator still takes in. -/
def taken (a : OutputAccumulator) (ops : List OutputOp) : Bytes :=
  if a.finished then [] else appended ops

theorem taken_step (a : OutputAccumulator) (op : OutputOp) (ops : List OutputOp) :
    taken a (op::ops) = taken a [op]++taken (a.step host op) ops := by
  cases hfinished : a.finished with
  | false =>
    cases op with
    | append data =>
      simp [taken, step, append_running host data hfinished, appended, hfinished]
    | snapshot persistIfTruncated =>
      simp [taken, step, snapshot_finished, appended, hfinished]
    | finish => simp [taken, step, finish_ends, appended]
  | true =>
    cases op with
    | append data =>
      simp [taken, step, append_ended host data hfinished, hfinished]
    | snapshot persistIfTruncated =>
      simp [taken, step, snapshot_finished, hfinished]
    | finish => simp [taken, step, finish_ends, hfinished]

theorem step_spilled (op : OutputOp) (h : Spilled host a seen) :
    Spilled host (a.step host op) (seen++taken a [op]) := by
  cases op with
  | append data =>
    cases hfinished : a.finished with
    | false =>
      have hstep := append_spilled host data hfinished h
      simpa [step, taken, hfinished, appended] using hstep
    | true =>
      rw [step, append_ended host data hfinished]
      simpa [taken, hfinished] using h
  | snapshot persistIfTruncated =>
    have hstep := snapshot_spilled host persistIfTruncated h
    simpa [step, taken, appended] using hstep
  | finish =>
    have hstep := finish_spilled host a seen h
    simpa [step, taken, appended] using hstep

theorem run_spilled (ops : List OutputOp) (a : OutputAccumulator) (seen : Bytes)
    (h : Spilled host a seen) :
    Spilled host (ops.foldl (OutputAccumulator.step host) a) (seen++taken a ops) := by
  induction ops generalizing a seen with
  | nil => simpa [taken, appended] using h
  | cons op ops ih =>
    rw [taken_step host a op ops, ← append_assoc]
    exact ih _ _ (step_spilled host op h)

theorem run_ended {ops : List OutputOp} (a : OutputAccumulator)
    (h : a.finished = true ∨ .finish ∈ ops) :
    (ops.foldl (OutputAccumulator.step host) a).finished = true := by
  induction ops generalizing a with
  | nil => simpa using h
  | cons op ops ih =>
    apply ih
    rcases h with hended | hmem
    · cases op with
      | append data =>
        rw [step, append_ended host data hended]
        exact Or.inl hended
      | snapshot persistIfTruncated =>
        exact Or.inl ((snapshot_finished host a persistIfTruncated).trans hended)
      | finish => exact Or.inl (finish_ends host a)
    · rcases mem_cons.mp hmem with rfl | hlater
      · exact Or.inl (finish_ends host a)
      · exact Or.inr hlater

end Steps

theorem snapshot_truncated {host : Host} {a : OutputAccumulator} {persistIfTruncated : Bool}
    (h : (a.snapshot host persistIfTruncated).1.truncation.truncated = true) :
    (a.snapshot host persistIfTruncated).2.shouldUseFile = true := by
  have hover : a.shouldUseFile = true := by
    simp only [snapshot, Bool.or_eq_true, decide_eq_true_eq] at h
    simp only [shouldUseFile, Bool.or_eq_true, decide_eq_true_eq]
    rcases h with hlines | hbytes
    · exact Or.inr hlines
    · exact Or.inl (Or.inr hbytes)
  simp only [snapshot]
  split
  · rw [ensure_filed host a]
    exact hover
  · exact hover

/-- Closing succeeds only without an error on record, and yields what the file holds. -/
theorem close_file_ok {a : OutputAccumulator} {flush : Option String} {content : Option Bytes}
    (h : (a.closeFile flush).1 = .ok content) : a.fileError = none ∧ content = a.file := by
  unfold closeFile at h
  dsimp only at h
  split at h
  · cases h
  cases herror : a.fileError with
  | none =>
    rw [herror] at h
    cases h
    exact ⟨rfl,rfl⟩
  | some error =>
    rw [herror] at h
    cases h

/-- After the end of the output: a file that closes without an error holds every chunk once
and in order, and a truncated output has its file unless every attempt to create one
failed. -/
theorem closed_file_whole (host : Host) (maxLines maxBytes : ℕ) (ops : List OutputOp)
    (persistIfTruncated : Bool) (flush : Option String) (hended : .finish ∈ ops) :
    let a := ops.foldl (OutputAccumulator.step host) (.withLimits maxLines maxBytes)
    let shown := a.snapshot host persistIfTruncated
    (∀ content, (shown.2.closeFile flush).1 = .ok content →
      shown.1.fullOutputPath.isSome → content = some (appended ops)) ∧
    (shown.1.truncation.truncated = true → shown.1.fullOutputPath.isSome ∨
      0 < shown.2.attempts ∧
        ∀ attempt < shown.2.attempts, ∃ error, host.create attempt = .error error) := by
  intro a shown
  have hrun : Spilled host a ([]++taken (.withLimits maxLines maxBytes) ops) :=
    run_spilled host ops _ [] ⟨fun _ _ h => absurd h (Nat.not_lt_zero _), fun _ => rfl,
      fun _ _ => rfl, nofun⟩
  have hshown : Spilled host shown.2 (appended ops) :=
    snapshot_spilled host persistIfTruncated hrun
  have hoffered : Offered shown.2 := snapshot_offered host persistIfTruncated
    (run_offered host ops _ nofun)
  have hfinished : shown.2.finished = true :=
    (snapshot_finished host a persistIfTruncated).trans (run_ended host _ (Or.inr hended))
  constructor
  · intro content hclose hpath
    obtain ⟨hok,rfl⟩ := close_file_ok hclose
    exact hshown.saved hpath hok
  intro htruncated
  cases hpath : shown.2.filePath with
  | some path => exact Or.inl (congrArg Option.isSome hpath)
  | none =>
    apply Or.inr
    rcases hoffered hfinished (snapshot_truncated htruncated) with
      hsome | hattempts
    · rw [hpath] at hsome
      cases hsome
    · exact ⟨hattempts, hshown.refused hpath⟩

/-- The limit is passed by the second of three chunks, and the file is flushed. -/
theorem closed_file_whole_sample :
    let ops := [.append [97, 97], .snapshot true, .append [98, 10], .append [99], .finish]
    let shown := (ops.foldl (OutputAccumulator.step ⟨fun _ => .ok "bash-0.log", fun _ => none⟩)
      (.withLimits 9 3)).snapshot ⟨fun _ => .ok "bash-0.log", fun _ => none⟩ true
    shown.1.fullOutputPath = some "bash-0.log" ∧
      (∀ content, (shown.2.closeFile none).1 = .ok content →
        shown.1.fullOutputPath.isSome → content = some [97, 97, 98, 10, 99]) ∧
      (shown.2.closeFile none).1.toOption = some (some [97, 97, 98, 10, 99]) := by
  intro ops shown
  refine ⟨by decide +kernel, ?_, by decide +kernel⟩
  exact (closed_file_whole _ 9 3 ops true none (by decide)).1

end Maple.Tools
