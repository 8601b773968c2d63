import ArchiveTarBuilder.Find

/-! `Builder.xs`: the methods of an archiver object. Pattern matching is a parameter, an engine
with a state of any type `μ`, so that what is proved here holds for every set of patterns. -/
namespace ArchiveTarBuilder

structure MatchEngine (μ : Type*) where
  excluded : μ → Bytes → Bool × μ

structure Archiver (μ : Type*) where
  builder : BBuilder
  matching : μ

inductive Croak
  | noPaths
  | noFileHandle
  | find (path : Bytes) (e : Errno)
  | flush (e : Errno)
  | delayedStatus
  deriving DecidableEq, Repr

def findFlags (options : BBuilderOptions) : FindFlags :=
  { followSymlinks := options.followSymlinks, ignoreSockets := options.ignoreSockets }

/-- One `path => member_name` argument of `archive_as`, with what lies at the path. -/
structure ArchiveArg where
  path : Bytes
  memberName : Bytes
  tree : Tree

section
variable {μ : Type*} (engine : MatchEngine μ)

/-- `b_find` with `b_builder_write_file` as its callback. The number of a failed call is in `errno`
too when it is reported. -/
def builderWorld : FindWorld (Archiver μ) where
  excluded a path :=
    let r := engine.excluded a.matching path
    (r.1,{ a with matching := r.2 })
  callback a path memberName st fd src :=
    let r := bBuilderWriteFile a.builder path memberName st fd src
    (if r.1 then 1 else -1,{ a with builder := r.2 })
  setError a type errno message path :=
    { a with builder := { a.builder with
        err := bErrorSet a.builder.err type errno message path
        out := a.builder.out.setErrno errno } }
  setErrno a errno := { a with builder := a.builder.setErrno errno }
  fatal a := bErrorFatal a.builder.err

def archiveFind (a : Archiver μ) (arg : ArchiveArg) : ℤ × FindState (Archiver μ) :=
  bFind (builderWorld engine) (findFlags a.builder.options) arg.path arg.memberName arg.tree a

def archiveArgs : List ArchiveArg → Archiver μ → Except Croak ℕ × Archiver μ
  | [], a => (.ok a.builder.total,a)
  | arg::args, a =>
    let r := archiveFind engine a arg
    let a := r.2.world
    if r.1 < 0 then
      (.error (.find (a.builder.err.path.getD arg.path) a.builder.out.sys.errno),a)
    else archiveArgs args a

def builderArchiveAs (args : List ArchiveArg) (a : Archiver μ) : Except Croak ℕ × Archiver μ :=
  if a.builder.out.buf.fd = 0 then (.error .noFileHandle,a) else archiveArgs engine args a

/-- `archive` of `Builder.pm`: `archive_as` under the names that the files have. -/
def builderArchive (files : List (Bytes × Tree)) (a : Archiver μ) : Except Croak ℕ × Archiver μ :=
  if files.isEmpty then (.error .noPaths,a)
  else builderArchiveAs engine (files.map fun file => ⟨file.1,file.1,file.2⟩) a

end

namespace Archiver
variable {μ : Type*}

def setOut (a : Archiver μ) (out : Output) : Archiver μ :=
  { a with builder := { a.builder with out := out } }

end Archiver

section
variable {μ : Type*}

/-- A new handle is a new descriptor, with its own answers and nothing accepted yet. -/
def builderSetHandle (fd : ℤ) (fifo : Bool) (release : Option (ℕ × ℕ × ℕ)) (sys : Sys)
    (a : Archiver μ) : Archiver μ :=
  a.setOut ⟨bBufferSetFd a.builder.out.buf fd fifo release,sys⟩

def builderFlush (a : Archiver μ) : Except Croak ℤ × Archiver μ :=
  if a.builder.out.buf.fd = 0 then (.error .noFileHandle,a)
  else
    let r := bBufferFlush a.builder.out
    if r.1 < 0 then (.error (.flush r.2.sys.errno),a.setOut r.2) else (.ok r.1,a.setOut r.2)

def builderFinish (a : Archiver μ) : Except Croak ℤ × Archiver μ :=
  if a.builder.out.buf.fd = 0 then (.error .noFileHandle,a)
  else
    let r := bBufferFlush a.builder.out
    let a := a.setOut r.2
    if r.1 < 0 then (.error (.flush r.2.sys.errno),a)
    else if bErrorWarn a.builder.err && !a.builder.options.ignoreErrors then
      (.error .delayedStatus,a)
    else (.ok r.1,{ a with builder := { a.builder with err := bErrorReset a.builder.err } })

end

end ArchiveTarBuilder
