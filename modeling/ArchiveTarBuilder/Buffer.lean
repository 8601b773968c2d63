import ArchiveTarBuilder.SystemCalls

/-! `b_buffer.c`: one shared buffer in front of the output descriptor. A pointer into the buffer
is its offset, so a pointer can go stale exactly as in the source. -/
namespace ArchiveTarBuilder
open Region CString

def bBufferDefaultFactor : ℕ := 20
def bBufferBlockSize : ℕ := 512

def sizeT (n : ℕ) : ℕ := n % 2^64

structure BBuffer where
  fd : ℤ
  canSplice : Bool
  size : ℕ
  unused : ℕ
  data : Bytes
  deriving DecidableEq, Repr

/-- The buffer together with the descriptor behind it. -/
structure Output where
  buf : BBuffer
  sys : Sys
  deriving DecidableEq, Repr

namespace Output

def setErrno (o : Output) (e : Errno) : Output := { o with sys := { o.sys with errno := e } }

def store (o : Output) (off : ℕ) (bytes : Bytes) : Output :=
  { o with buf := { o.buf with data := overwrite o.buf.data off bytes } }

def setUnused (o : Output) (n : ℕ) : Output := { o with buf := { o.buf with unused := n } }

def used (o : Output) : ℕ := o.buf.size-o.buf.unused

/-- The logical stream: what the descriptor accepted, then the used part of the buffer. -/
def stream (o : Output) : Bytes := o.sys.accepted ++ o.buf.data.take o.used

end Output

def bBufferNew (factor : ℕ) : BBuffer :=
  let size := sizeT (if factor ≠ 0 then factor*bBufferBlockSize
    else bBufferDefaultFactor*bBufferBlockSize)
  { fd := 0, canSplice := false, size := size, unused := size, data := zeros size }

/-- `fifo` is `S_ISFIFO` of the descriptor, `release` the kernel's version as `uname()` and the
three `strtok()` calls give it. -/
def bBufferSetFd (buf : BBuffer) (fd : ℤ) (fifo : Bool) (release : Option (ℕ × ℕ × ℕ)) : BBuffer :=
  let splices := match release with
    | some (kernel,major,minor) =>
      decide (3 ≤ kernel) || (decide (kernel = 2) && decide (major = 6) && decide (31 ≤ minor))
    | none => false
  { buf with fd := fd, canSplice := fifo && splices }

def bBufferFull (buf : BBuffer) : Bool := buf.unused = 0

def paddedSize (size : ℕ) : ℕ :=
  if size % bBufferBlockSize = 0 then size
  else size+(bBufferBlockSize-size % bBufferBlockSize)

/-- `given` is at least the padded `used` at every call, so the difference never wraps. -/
def bBufferReclaim (o : Output) (used given : ℕ) : ℤ × Output :=
  if given = 0 ∨ given % bBufferBlockSize ≠ 0 then (-1,o.setErrno .einval)
  else
    let amount := given-paddedSize used
    (amount,o.setUnused (o.buf.unused+amount))

/-- The loop of `b_buffer_flush`. `error` is its early return, `ok` the value of `ret` behind the
loop; the fuel bounds the number of `write()` calls. -/
def flushLoop (buf : BBuffer) : ℕ → ℕ → ℤ → Sys → Except ℤ ℤ × Sys
  | 0, _, ret, sys => (.ok ret,sys)
  | fuel+1, off, ret, sys =>
    if off < buf.size ∨ (ret < 0 ∧ sys.errno = .eintr) then
      let r := sys.write (slice buf.data off (buf.size-off))
      if r.1 < 0 then
        if r.2.errno ≠ .eintr then (.error r.1,r.2) else flushLoop buf fuel off r.1 r.2
      else if r.1 = 0 then (.ok r.1,r.2)
      else flushLoop buf fuel (off+r.1.toNat) r.1 r.2
    else (.ok ret,sys)

/-- Every iteration uses up one scheduled answer or writes all that is left. -/
def flushFuel (sys : Sys) : ℕ := sys.writes.length+2

def bBufferFlush (o : Output) : ℤ × Output :=
  if o.buf.fd = 0 then (-1,o.setErrno .ebadf)
  else if o.buf.size = 0 then (0,o)
  else if o.buf.unused = o.buf.size then (0,o)
  else
    match flushLoop o.buf (flushFuel o.sys) 0 0 o.sys with
    | (.error ret,sys) => (ret,{ o with sys := sys })
    | (.ok ret,sys) =>
      (ret,{ buf := { o.buf with data := zeros o.buf.size, unused := o.buf.size }, sys := sys })

/-- The offset of the block and the value of `*given`, or `none` for `NULL`. -/
def bBufferGetBlock (o : Output) (len : ℕ) : Option (ℕ × ℕ) × Output :=
  let paddedLen := paddedSize len
  if len = 0 then (none,o)
  else if o.buf.fd = 0 then (none,o.setErrno .ebadf)
  else
    let r := if bBufferFull o.buf then bBufferFlush o else (0,o)
    if r.1 < 0 then (none,r.2)
    else if r.2.buf.unused < paddedLen then (none,r.2.setErrno .efbig)
    else (some (r.2.used,paddedLen),r.2.setUnused (r.2.buf.unused-paddedLen))

end ArchiveTarBuilder
