import ArchiveTarBuilder.CString
import ArchiveTarBuilder.Runs

/-! `match_line_reader.c`: the lines of a file, read through a buffer that grows with them. -/
namespace ArchiveTarBuilder
open CString

/-- How a call of `fread` ends. It falls short of the size it was asked for only at the end of the
file or at an error; a call that takes just the rest of the file may or may not see that end. -/
inductive FreadAnswer
  | deliver (seesEnd : Bool) | fail (n : ℕ)
  deriving DecidableEq, Repr

/-- An open file: what is left to read and the indicators of the stream. -/
structure Stream where
  contents : Bytes
  answers : List FreadAnswer
  eof : Bool
  error : Bool
  deriving DecidableEq, Repr

def Stream.fread (f : Stream) (wanted : ℕ) : Bytes × Stream :=
  match f.answers.headD (.deliver false) with
  | .deliver seesEnd =>
    let left := f.contents.drop wanted
    (f.contents.take wanted,{ f with
      contents := left
      answers := f.answers.tail
      eof := f.eof || decide (f.contents.length < wanted) || (seesEnd && left.isEmpty) })
  | .fail n =>
    let read := min n (wanted-1)
    (f.contents.take read,
      { f with contents := f.contents.drop read,answers := f.answers.tail,error := true })

/-- Every `char *` of the source is an offset into the buffer. `data` is the text up to `buff_end`,
with a NUL behind it. The last two fields say which `realloc` succeeds (all when the list ends) and
what `fread` was asked for. -/
structure LineReader where
  f : Option Stream
  data : Bytes
  lineStart : ℕ
  lineEnd : ℕ
  buffLength : ℕ
  nullSeparator : Bool
  reallocs : List Bool
  requests : List ℕ
  deriving DecidableEq, Repr

def lafeLineReader (f : Stream) (nullSeparator : Bool) (reallocs : List Bool) : LineReader :=
  ⟨some f,[],0,0,8192,nullSeparator,reallocs,[]⟩

def strcspn (s reject : Bytes) : ℕ := ((cstr s).takeWhile fun c => decide (c ∉ reject)).length

namespace LineReader

def findEol (lr : LineReader) : LineReader :=
  let lineEnd := lr.lineEnd+
    strcspn (lr.data.drop lr.lineEnd) (if lr.nullSeparator then [] else [13,10])
  { lr with lineEnd := lineEnd,data := lr.data.set lineEnd 0 }

/-- The next line in the buffer. Every round moves `lineEnd`, so that the length of the text behind
it bounds the rounds. -/
def bufferedLine : ℕ → LineReader → Option Bytes × LineReader
  | 0,lr => (none,lr)
  | rounds+1,lr =>
    if lr.lineEnd < lr.data.length then
      let lineStart := lr.lineStart
      let lr := { lr with lineStart := lr.lineEnd+1,lineEnd := lr.lineEnd+1 }.findEol
      let line := cstr (lr.data.drop lineStart)
      if lr.nullSeparator ∨ line ≠ [] then (some line,lr) else bufferedLine rounds lr
    else (none,lr)

/-- Move a leftover fractional line to the beginning, or enlarge the buffer. -/
def makeRoom (lr : LineReader) : Bool × LineReader :=
  if 0 < lr.lineStart then
    (true,{ lr with
      data := lr.data.drop lr.lineStart
      lineEnd := lr.lineEnd-lr.lineStart
      lineStart := 0 })
  else
    let newBuffSize := lr.buffLength*2 % 2^64
    if newBuffSize ≤ lr.buffLength then (false,lr)
    else (lr.reallocs.headD true,{ lr with
      buffLength := newBuffSize
      reallocs := lr.reallocs.tail })

def fill (lr : LineReader) (f : Stream) : Bool × LineReader :=
  let bytesWanted := lr.buffLength-lr.data.length
  let r := f.fread bytesWanted
  let lr := { lr with
    f := some r.2
    data := lr.data ++ r.1
    requests := lr.requests ++ [bytesWanted] }.findEol
  if r.2.error then (false,lr)
  else (true,if r.2.eof then { lr with f := none } else lr)

end LineReader

/-- What a call gives: a line, `NULL` behind the last one, or a return value of -1. -/
inductive NextLine
  | line (text : Bytes) | done | failed
  deriving DecidableEq, Repr

def lafeLineReaderNext : ℕ → LineReader → Option (NextLine × LineReader)
  | 0,_ => none
  | rounds+1,lr =>
    let buffered := lr.bufferedLine (lr.data.length-lr.lineEnd)
    let lr := buffered.2
    match buffered.1 with
    | some line => some (.line line,lr)
    | none =>
      match lr.f with
      | none =>
        if lr.lineStart = lr.data.length then some (.done,lr)
        else some (.line (cstr (lr.data.drop lr.lineStart)),{ lr with lineStart := lr.data.length })
      | some f =>
        let room := lr.makeRoom
        if room.1 then
          let filled := room.2.fill f
          if filled.1 then lafeLineReaderNext rounds filled.2 else some (.failed,filled.2)
        else some (.failed,room.2)

/-- Calls up to the first that gives no line, as in the loops over a pattern file: the lines and
how the last call ended. -/
def readLines (rounds : ℕ) : ℕ → LineReader → Option (List Bytes × NextLine × LineReader)
  | 0,_ => none
  | calls+1,lr =>
    match lafeLineReaderNext rounds lr with
    | none => none
    | some (.line line,lr) =>
      (readLines rounds calls lr).map fun r => (line::r.1,r.2)
    | some (last,lr) => some ([],last,lr)

end ArchiveTarBuilder
