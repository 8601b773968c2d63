import ArchiveTarBuilder.ErrorRecord

/-! `b_file.c`: long names, pax records and file contents on their way into the buffer. -/
namespace ArchiveTarBuilder
open Region CString

def maxChunkSize : ℕ := 16*1024*1024

/-- The loop shared by the two path writers: one block for every 512 bytes of `rest`. -/
def blocksLoop : ℕ → Bytes → ℕ → Output → Option ℕ × Output
  | 0, _, total, o => (some total,o)
  | fuel+1, rest, total, o =>
    if rest = [] then (some total,o)
    else
      match bBufferGetBlock o bBufferBlockSize with
      | (none,o) => (none,o)
      | (some (off,given),o) =>
        blocksLoop fuel (rest.drop bBufferBlockSize) (total+given)
          (o.store off (rest.take bBufferBlockSize))

def bFileWritePathBlocks (o : Output) (path : Bytes) : Option ℕ × Output :=
  blocksLoop path.length path 0 o

/-- The `malloc`ed text of the records, `total_len` bytes of it. -/
def paxText (path : Bytes) (linkdest : Option Bytes) : Bytes :=
  let fullLen := bHeaderComputePaxLength path pathKey
  let totalLen := paxSize path linkdest
  let first := (paxRecord fullLen pathKey path).take totalLen
  match linkdest with
  | none => first
  | some dest =>
    let linkFullLen := bHeaderComputePaxLength dest linkpathKey
    let second := (paxRecord linkFullLen linkpathKey dest).take
      (if linkFullLen+1 < 2^64 then linkFullLen else 0)
    overwrite first fullLen second

def bFileWritePaxPathBlocks (o : Output) (path : Bytes) (linkdest : Option Bytes) :
    Option ℕ × Output :=
  if bHeaderComputePaxLength path pathKey = 2^64-1 then (none,o)
  else blocksLoop (paxText path linkdest).length (paxText path linkdest) 0 o

/-- The locals of `b_file_write_contents` with the output and the file it reads. -/
structure ContentsState where
  out : Output
  file : File
  total : ℕ
  realTotal : ℕ
  emptiedBuffer : Bool
  spliceTotal : ℕ
  deriving DecidableEq, Repr

/-- How one round of the loop ends: another round, the code behind the loop, or `error_io`. -/
inductive Round
  | again (s : ContentsState)
  | leave (s : ContentsState)
  | errorIo (out : Output) (file : File)

def endRound (s : ContentsState) (rlen : ℕ) : Round :=
  if 0 < rlen then .again { s with realTotal := s.realTotal+rlen } else .leave s

/-- The part of a round that reads into the buffer: all of its free space is taken as one block,
and the whole blocks the chunk does not need are given back. -/
def readRound (s : ContentsState) (maxRead : ℕ) : Round :=
  match bBufferGetBlock s.out s.out.buf.unused with
  | (none,o) => .errorIo o s.file
  | (some (off,blocklen),o) =>
    let maxRead := min maxRead blocklen
    let r := readRetry s.file.contents maxRead s.file.reads o.sys.errno
    let o := (o.store off r.2.1).setErrno r.2.2.2
    if r.1 < maxRead then .errorIo o r.2.2.1
    else
      let given := if blocklen-r.2.1.length = 0 then (0,o) else bBufferReclaim o r.2.1.length blocklen
      endRound { s with
        out := given.2
        file := r.2.2.1
        total := ((s.total : ℤ)+blocklen-given.1).toNat } r.2.1.length

def spliceRound (s : ContentsState) (maxRead : ℕ) : Round :=
  let r := s.out.sys.splice s.file maxRead
  let out := { s.out with sys := r.2.2 }
  if r.1 < 0 then
    readRound { s with out := { out with buf := { out.buf with canSplice := false } } } maxRead
  else
    endRound { s with
      out := out
      file := r.2.1
      total := s.total+r.1.toNat
      spliceTotal := (s.spliceTotal+r.1.toNat) % 2^32 } r.1.toNat

def contentsRound (fileSize : ℕ) (s : ContentsState) : Round :=
  let flushed := if bBufferFull s.out.buf then bBufferFlush s.out else (0,s.out)
  if flushed.1 < 0 then .errorIo flushed.2 s.file
  else
    let s := { s with
      out := flushed.2
      emptiedBuffer := s.emptiedBuffer || bBufferFull s.out.buf }
    let left := fileSize-s.realTotal
    if left = 0 then .leave s
    else
      let maxRead := min left maxChunkSize
      if s.emptiedBuffer && s.out.buf.canSplice then spliceRound s maxRead else readRound s maxRead

def contentsLoop (fileSize : ℕ) : ℕ → ContentsState → Round
  | 0, s => .again s
  | fuel+1, s =>
    match contentsRound fileSize s with
    | .again s => contentsLoop fileSize fuel s
    | r => r

def writePadding (s : ContentsState) : ℤ × Output :=
  if s.spliceTotal ≠ 0 ∧ s.out.buf.canSplice ∧ s.total % bBufferBlockSize ≠ 0 then
    let r := s.out.sys.write (s.out.buf.data.take (bBufferBlockSize-s.total % bBufferBlockSize))
    (r.1,{ s.out with sys := r.2 })
  else (0,s.out)

def errorIo (o : Output) : Option ℕ × Output :=
  (none,if o.sys.errno = .ok then o.setErrno .einval else o)

/-- The value returned, `none` for `-1`. Every round but the last gets at least one of the
`fileSize` bytes, so the fuel is never what ends the loop. -/
def bFileWriteContents (o : Output) (file : File) (fileSize : ℕ) : Option ℕ × Output :=
  match contentsLoop fileSize (fileSize+1) ⟨o,file,0,0,false,0⟩ with
  | .leave s =>
    let r := writePadding s
    if r.1 < 0 then errorIo r.2 else (some s.total,r.2)
  | .errorIo out _ => errorIo out
  | .again s => (none,s.out)

end ArchiveTarBuilder
