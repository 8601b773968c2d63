import ArchiveTarBuilder.Path

/-! `b_error.c`: the one error record of a builder. -/
namespace ArchiveTarBuilder

inductive BErrorType
  | ok | warn | fatal
  deriving DecidableEq, Repr

inductive BErrorEvent
  | set (type : BErrorType) | clear | reset
  deriving DecidableEq, Repr

/-- `log` is a ghost: every call on the record so far, the last one first. -/
structure BError where
  type : BErrorType
  status : ℤ
  errno : Errno
  message : Option String
  path : Option Bytes
  log : List BErrorEvent
  deriving DecidableEq, Repr

def bErrorNew : BError :=
  { type := .ok, status := 0, errno := .ok, message := none, path := none, log := [] }

def bErrorSet (err : BError) (type : BErrorType) (errno : Errno) (message : String)
    (path : Bytes) : BError :=
  { type := type
    status := if type = .fatal then -1 else err.status
    errno := errno
    message := some message
    path := some path
    log := .set type::err.log }

def bErrorClear (err : BError) : BError :=
  { err with type := .ok, errno := .ok, message := none, path := none, log := .clear::err.log }

def bErrorWarn (err : BError) : Bool := err.type = .warn
def bErrorFatal (err : BError) : Bool := err.type = .fatal

def bErrorReset (err : BError) : BError :=
  { err with message := none, path := none, status := 0, errno := .ok, log := .reset::err.log }

@[simp] theorem bErrorSet_type (err : BError) (t : BErrorType) (e : Errno) (m : String) (p : Bytes) :
    (bErrorSet err t e m p).type = t := rfl
@[simp] theorem bErrorSet_log (err : BError) (t : BErrorType) (e : Errno) (m : String)
    (p : Bytes) : (bErrorSet err t e m p).log = .set t::err.log := rfl
@[simp] theorem bErrorClear_type (err : BError) : (bErrorClear err).type = .ok := rfl
@[simp] theorem bErrorClear_log (err : BError) : (bErrorClear err).log = .clear::err.log := rfl
@[simp] theorem bErrorReset_type (err : BError) : (bErrorReset err).type = err.type := rfl
@[simp] theorem bErrorReset_log (err : BError) : (bErrorReset err).log = .reset::err.log := rfl

end ArchiveTarBuilder
