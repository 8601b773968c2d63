import ArchiveTarBuilder.FileWriter

/-! `b_builder.c`: one member's header and the writing of one member. The function
`b_builder_write_file` is cut at its three writes; its `goto`s leave with `-1`. -/
namespace ArchiveTarBuilder
open Region CString

structure BBuilderOptions where
  quiet : Bool
  ignoreErrors : Bool
  followSymlinks : Bool
  preserveHardlinks : Bool
  gnuExtensions : Bool
  paxExtensions : Bool
  ignoreSockets : Bool
  deriving DecidableEq, Repr

/-- `HardlinkCache`: the first name seen for a device and inode number. -/
abbrev HardlinkCache := List ((ℕ × ℕ) × Bytes)

def HardlinkCache.lookupPath (cache : HardlinkCache) (dev ino : ℕ) (path : Bytes) :
    Option Bytes × HardlinkCache :=
  match List.lookup (dev,ino) cache with
  | some first => (some first,cache)
  | none => (none,((dev,ino),path)::cache)

/-- The names of a user and a group, each possibly unknown; `none` when the lookup fails. -/
abbrev BUserLookup := ℕ → ℕ → Option (Option Bytes × Option Bytes)

structure BBuilder where
  process : Process
  out : Output
  err : BError
  total : ℕ
  options : BBuilderOptions
  userLookup : Option BUserLookup
  hardlinkCache : Option HardlinkCache

/-- What the file system yields for one member: the target of a symlink, the memory that
`malloc` hands out for it, and the contents behind the descriptor. -/
structure Source where
  target : Except Errno Bytes
  heap : Bytes
  file : File

def bBuilderNew (p : Process) (blockFactor : ℕ) (sys : Sys) (options : BBuilderOptions)
    (userLookup : Option BUserLookup) : BBuilder :=
  { process := p
    out := ⟨bBufferNew (if blockFactor ≠ 0 then blockFactor else bBufferDefaultFactor),sys⟩
    err := bErrorNew
    total := 0
    options := options
    userLookup := userLookup
    hardlinkCache := if options.preserveHardlinks then some [] else none }

def inodeLinktype (st : Stat) : UInt8 :=
  if st.ifmt = sIfreg then 48
  else if st.ifmt = sIfdir then 53
  else if st.ifmt = sIflnk then 50
  else if st.ifmt = sIfifo then 54
  else if st.ifmt = sIfchr then 51
  else if st.ifmt = sIfblk then 52
  else 48

/-- `readlink()` refuses a buffer of no bytes and cuts a longer target; what it leaves of the
buffer is what the heap held. -/
def bReadlink (src : Source) (st : Stat) : Except Errno Bytes :=
  match src.target with
  | .error e => .error e
  | .ok target =>
    if st.size = 0 then .error .einval
    else
      let buf := src.heap.take st.size ++ zeros (st.size-src.heap.length)
      .ok (overwrite buf 0 (target.take st.size))

def isHardlink (st : Stat) : Bool := decide (st.ifmt = sIfreg) && decide (1 < st.nlink)

/-- The header as `header_for_file` fills it in before it looks for a link target. -/
def fileHeader (pathData : PathData) (st : Stat) : BHeader where
  suffix := pathData.suffix
  mode := st.mode
  uid := st.uid
  gid := st.gid
  size := if st.ifmt = sIfreg then st.size else 0
  mtime := st.mtime
  linktype := inodeLinktype st
  linkdest := none
  user := none
  group := none
  major := major st.dev
  minor := minor st.dev
  pathPrefix := pathData.pathPrefix
  truncated := pathData.truncated
  truncatedLink := false

def BHeader.withLinkdest (header : BHeader) (dest : Bytes) : BHeader :=
  { header with
    linkdest := some dest
    truncatedLink := decide (bHeaderLinkdestSize < dest.length) }

/-- The header, and the cache that the lookup of a hard link leaves; an error carries the
`errno` that `header_for_file` leaves, when it sets one. -/
def headerForFile (cache : Option HardlinkCache) (src : Source) (memberName : Bytes) (st : Stat) :
    Except (Option Errno) BHeader × Option HardlinkCache :=
  match pathSplit memberName st with
  | none => (.error none,cache)
  | some pathData =>
    let header := fileHeader pathData st
    if st.ifmt = sIflnk then
      match bReadlink src st with
      | .error e => (.error (some e),cache)
      | .ok dest => (.ok (header.withLinkdest dest),cache)
    else if isHardlink st then
      match cache with
      | none => (.ok header,none)
      | some entries =>
        match entries.lookupPath st.dev st.ino memberName with
        | (some dest,entries) => (.ok ({ header with linktype := 49 }.withLinkdest dest),some entries)
        | (none,entries) => (.ok header,some entries)
    else (.ok header,cache)

namespace BBuilder

def setError (b : BBuilder) (type : BErrorType) (message : String) (path : Bytes) : BBuilder :=
  { b with err := bErrorSet b.err type b.out.sys.errno message path }

def setErrno (b : BBuilder) (e : Errno) : BBuilder := { b with out := b.out.setErrno e }

def encodeAt (b : BBuilder) (off : ℕ) (encode : BHeaderBlock → BHeaderBlock) : BBuilder :=
  let block := BHeaderBlock.ofBytes (slice b.out.buf.data off bHeaderSize)
  { b with out := b.out.store off (encode block).toBytes }

end BBuilder

def encodeLonglink (b : BBuilder) (off : ℕ) (path : Bytes) (type : UInt8) (wrlen : ℕ) :
    Option ℕ × BBuilder :=
  let b := b.encodeAt off (bHeaderEncodeLonglinkBlock · path type)
  let b := { b with total := b.total+wrlen }
  match bFileWritePathBlocks b.out path with
  | (none,out) =>
    (none,{ b with out := out }.setError .fatal "Cannot write long filename header" path)
  | (some n,out) => (some n,{ b with out := out, total := b.total+n })

def longlinkPath (memberName : Bytes) (st : Stat) : Bytes :=
  if st.ifmt = sIfdir then memberName ++ [slash] else memberName

/-- The GNU records of one member: `L` for its name, `K` for its link target, both encoded in
the block at `off`. -/
def writeGnuRecords (b : BBuilder) (header : BHeader) (longPath : Bytes) (off wrlen : ℕ) :
    Bool × BBuilder :=
  let first := if header.truncated then encodeLonglink b off longPath bHeaderLonglinkType wrlen
    else (some wrlen,b)
  match first with
  | (none,b) => (false,b)
  | (some wrlen,b) =>
    match header.linkdest with
    | none => (true,b)
    | some dest =>
      if header.truncatedLink then
        let second := encodeLonglink b off dest bHeaderLongdestType wrlen
        (second.1.isSome,second.2)
      else (true,b)

/-- The pax header in the block at `off`, and the blocks of its records. -/
def writePaxRecords (b : BBuilder) (header : BHeader) (longPath memberName : Bytes)
    (off wrlen : ℕ) : Bool × BBuilder :=
  let b := b.encodeAt off (bHeaderEncodePaxBlock b.process · header longPath)
  let b := { b with total := b.total+wrlen }
  match bFileWritePaxPathBlocks b.out longPath header.linkdest with
  | (none,out) =>
    (false,{ b with out := out }.setError .fatal "Cannot write long filename header" memberName)
  | (some n,out) => (true,{ b with out := out, total := b.total+n })

/-- The extension records in front of a header that does not hold its names. -/
def writeLongRecords (b : BBuilder) (header : BHeader) (memberName : Bytes) (st : Stat) :
    Bool × BBuilder :=
  if header.truncated || header.truncatedLink then
    if !(b.options.gnuExtensions || b.options.paxExtensions) then
      (false,(b.setErrno .enametoolong).setError .warn "File name too long" memberName)
    else
      match bBufferGetBlock b.out bHeaderSize with
      | (none,out) => (false,{ b with out := out })
      | (some (off,wrlen),out) =>
        let b := { b with out := out }
        let longPath := longlinkPath memberName st
        if b.options.gnuExtensions then writeGnuRecords b header longPath off wrlen
        else writePaxRecords b header longPath memberName off wrlen
  else (true,b)

def writeHeader (b : BBuilder) (header : BHeader) : Bool × BBuilder :=
  match bBufferGetBlock b.out bHeaderSize with
  | (none,out) => (false,{ b with out := out })
  | (some (off,wrlen),out) =>
    let b := { b with out := out }.encodeAt off (bHeaderEncodeBlock b.process · header)
    (true,{ b with total := b.total+wrlen })

def writeContents (b : BBuilder) (header : BHeader) (path : Bytes) (fd : ℤ) (file : File) :
    Bool × BBuilder :=
  if header.isIfreg && decide (0 < fd) then
    match bFileWriteContents b.out file header.size with
    | (none,out) =>
      (false,{ b with out := out }.setError .warn "Cannot write file to archive" path)
    | (some n,out) => (true,{ b with out := out, total := b.total+n })
  else (true,b)

def lookupUser (b : BBuilder) (header : BHeader) (path : Bytes) (st : Stat) :
    Option BHeader × BBuilder :=
  match b.userLookup with
  | none => (some header,b)
  | some lookup =>
    match lookup st.uid st.gid with
    | none => (none,b.setError .warn "Cannot lookup user and group for file" path)
    | some (user,group) => (some { header with user := user, group := group },b)

/-- Run the next write unless the one before went to an error label. -/
def andWrite (r : Bool × BBuilder) (next : BBuilder → Bool × BBuilder) : Bool × BBuilder :=
  if r.1 then next r.2 else r

def writeMember (b : BBuilder) (header : BHeader) (path memberName : Bytes) (st : Stat) (fd : ℤ)
    (file : File) : Bool × BBuilder :=
  andWrite (andWrite (writeLongRecords b header memberName st) (writeHeader · header))
    (writeContents · header path fd file)

def bBuilderWriteFile (b : BBuilder) (path memberName : Bytes) (st : Stat) (fd : ℤ)
    (src : Source) : Bool × BBuilder :=
  let b := { b with err := bErrorClear b.err }
  match headerForFile b.hardlinkCache src memberName st with
  | (.error errno,cache) =>
    let b := { b with hardlinkCache := cache, out := (errno.map b.out.setErrno).getD b.out }
    (false,b.setError .fatal "Cannot build header for file" path)
  | (.ok header,cache) =>
    match lookupUser { b with hardlinkCache := cache } header path st with
    | (none,b) => (false,b)
    | (some header,b) => writeMember b header path memberName st fd src.file

end ArchiveTarBuilder
