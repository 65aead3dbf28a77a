import Maple.Lib.Utf8
import Maple.Tools.Truncate

/-!
# Streaming command output

Chunks are decoded as they arrive and only a rolling tail of the text is kept. Once the
output passes the limits all of it goes to a file, whose creation and writes may fail.
-/

set_option autoImplicit false

namespace Maple.Tools

open Table Suffix Utf8

abbrev Bytes := List UInt8

def usizeSize : ℕ := 2^64

/-- The outcomes of the file operations, by the number of the attempt or write. -/
structure Host where
  create : ℕ → Except String String
  write : ℕ → Option String

structure OutputAccumulator where
  maxLines : ℕ
  maxBytes : ℕ
  maxRollingBytes : ℕ
  pending : Bytes
  rawChunks : List Bytes
  tailText : Text
  tailStartsAtLineBoundary : Bool
  totalRawBytes : ℕ
  totalDecodedBytes : ℕ
  completedLines : ℕ
  totalLines : ℕ
  currentLineBytes : ℕ
  hasOpenLine : Bool
  finished : Bool
  filePath : Option String
  file : Option Bytes
  fileError : Option String
  attempts : ℕ
  writes : ℕ
deriving DecidableEq, Repr

structure OutputSnapshot where
  content : Text
  truncation : TruncationResult
  fullOutputPath : Option String
deriving DecidableEq, Repr

def OutputAccumulator.withLimits (maxLines maxBytes : ℕ) : OutputAccumulator where
  maxLines := maxLines
  maxBytes := maxBytes
  maxRollingBytes := max (maxBytes*2%usizeSize) 1
  pending := []
  rawChunks := []
  tailText := []
  tailStartsAtLineBoundary := true
  totalRawBytes := 0
  totalDecodedBytes := 0
  completedLines := 0
  totalLines := 0
  currentLineBytes := 0
  hasOpenLine := false
  finished := false
  filePath := none
  file := none
  fileError := none
  attempts := 0
  writes := 0

theorem strict_invalid_shorter {bytes rest : Bytes} {text : Text}
    (h : strict bytes = .invalid text rest) : rest.length < bytes.length := by
  have hcontinues := strict_continues bytes
  rw [h] at hcontinues
  exact hcontinues.1

/-- The text of the complete characters, and the bytes left for the next chunk. -/
def decodeAvailable (pending : Bytes) (finish : Bool) : Text × Bytes :=
  match _h : strict pending with
  | .valid text => (text, [])
  | .invalid text rest =>
    let more := decodeAvailable rest finish
    (text++replacement::more.1, more.2)
  | .truncated text rest =>
    if finish then (text++[replacement], []) else (text, rest)
termination_by pending.length
decreasing_by exact strict_invalid_shorter _h

def OutputAccumulator.trimTail (a : OutputAccumulator) : OutputAccumulator :=
  if len a.tailText ≤ a.maxRollingBytes then a
  else
    let parts := cut Char.utf8Size a.tailText (len a.tailText-a.maxRollingBytes)
    { a with
      tailText := parts.2
      tailStartsAtLineBoundary := parts.1.getLast? = some '\n' }

def OutputAccumulator.pushTail (a : OutputAccumulator) (text : Text) : OutputAccumulator :=
  let a := { a with
    totalDecodedBytes := a.totalDecodedBytes+len text
    tailText := a.tailText++text }
  if len a.tailText > a.maxRollingBytes*2%usizeSize then a.trimTail else a

def OutputAccumulator.countLines (a : OutputAccumulator) (text : Text) : OutputAccumulator :=
  let newlines := text.count '\n'
  let a :=
    if newlines = 0 then
      { a with
        currentLineBytes := a.currentLineBytes+len text
        hasOpenLine := true }
    else
      let rest := afterLastNewline text
      { a with
        completedLines := a.completedLines+newlines
        currentLineBytes := len rest
        hasOpenLine := !rest.isEmpty }
  { a with totalLines := a.completedLines+a.hasOpenLine.toNat }

def OutputAccumulator.appendDecoded (a : OutputAccumulator) (text : Text) : OutputAccumulator :=
  if text = [] then a else (a.pushTail text).countLines text

def OutputAccumulator.shouldUseFile (a : OutputAccumulator) : Bool :=
  decide (a.totalRawBytes > a.maxBytes) || decide (a.totalDecodedBytes > a.maxBytes) ||
    decide (a.totalLines > a.maxLines)

section Files
variable (host : Host)

def saveError (error : String) : String := "Could not save the full output: "++error

def OutputAccumulator.writeToFile (a : OutputAccumulator) (data : Bytes) : OutputAccumulator :=
  match a.file with
  | none => a
  | some written =>
    match host.write a.writes with
    | none => { a with
        file := some (written++data)
        writes := a.writes+1 }
    | some error => { a with
        fileError := some (saveError error)
        file := none
        writes := a.writes+1 }

def OutputAccumulator.ensureFile (a : OutputAccumulator) : OutputAccumulator :=
  if a.filePath.isSome then a
  else
    match host.create a.attempts with
    | .ok path =>
      a.rawChunks.foldl (fun a chunk => a.writeToFile host chunk)
        { a with
          filePath := some path
          file := some []
          rawChunks := []
          attempts := a.attempts+1 }
    | .error error => { a with
        fileError := some (saveError error)
        attempts := a.attempts+1 }

def OutputAccumulator.append (a : OutputAccumulator) (data : Bytes) : OutputAccumulator :=
  if a.finished then a
  else
    let decoded := decodeAvailable (a.pending++data) false
    let a := { a with
      totalRawBytes := a.totalRawBytes+data.length
      pending := decoded.2 }
    let a := a.appendDecoded decoded.1
    if a.file.isSome || a.shouldUseFile then (a.ensureFile host).writeToFile host data
    else if data ≠ [] then { a with rawChunks := a.rawChunks++[data] }
    else a

def OutputAccumulator.finish (a : OutputAccumulator) : OutputAccumulator :=
  if a.finished then a
  else
    let decoded := decodeAvailable a.pending true
    let a := { a with
      finished := true
      pending := decoded.2 }
    let a := a.appendDecoded decoded.1
    if a.shouldUseFile then a.ensureFile host else a

def OutputAccumulator.snapshotText (a : OutputAccumulator) : Text :=
  if a.tailStartsAtLineBoundary then a.tailText
  else
    match a.tailText.dropWhile (· ≠ '\n') with
    | _::after => after
    | [] => a.tailText

def OutputAccumulator.snapshot (a : OutputAccumulator) (persistIfTruncated : Bool) :
    OutputSnapshot × OutputAccumulator :=
  let tail := truncateTail a.snapshotText a.maxLines a.maxBytes
  let truncated := decide (a.totalLines > a.maxLines) || decide (a.totalDecodedBytes > a.maxBytes)
  let truncatedBy :=
    if truncated then
      match tail.truncatedBy with
      | some reason => some reason
      | none => some (if a.totalDecodedBytes > a.maxBytes then .bytes else .lines)
    else none
  let truncation := { tail with
    truncated := truncated
    truncatedBy := truncatedBy
    totalLines := a.totalLines
    totalBytes := a.totalDecodedBytes
    maxLines := a.maxLines
    maxBytes := a.maxBytes }
  let a := if persistIfTruncated && truncation.truncated then a.ensureFile host else a
  (⟨truncation.content, truncation, a.filePath⟩, a)

/-- A whole command: its chunks in order, then the end of the output. -/
def collect (maxLines maxBytes : ℕ) (chunks : List Bytes) : OutputAccumulator :=
  (chunks.foldl (OutputAccumulator.append host)
    (OutputAccumulator.withLimits maxLines maxBytes)).finish host

end Files

/-- Flushes and closes the file: what it holds then, if a file was open. The outcome of the
flush is `flush`. -/
def OutputAccumulator.closeFile (a : OutputAccumulator) (flush : Option String) :
    Except String (Option Bytes) × OutputAccumulator :=
  let closed := { a with file := none }
  match a.file, flush with
  | some _, some error => (.error error, closed)
  | _, _ =>
    match a.fileError with
    | some error => (.error error, { closed with fileError := none })
    | none => (.ok a.file, closed)

end Maple.Tools
