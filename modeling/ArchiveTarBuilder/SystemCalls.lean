import ArchiveTarBuilder.Numeral

/-! The system calls the archiver makes, answered from schedules. A schedule lists the answers
still to come; when it runs out every further call does all that was asked of it, so the finite
schedules cover every run that ends. -/
namespace ArchiveTarBuilder

inductive Errno
  | ok | eintr | einval | ebadf | efbig | enametoolong | eloop | emlink | eacces | other (n : ℕ)
  deriving DecidableEq, Repr

/-- One answer of `write()`: a positive count (at most what was asked), zero, or failure. -/
inductive WriteAnswer
  | accept (n : ℕ) | zero | fail (e : Errno)
  deriving DecidableEq, Repr

/-- One answer of `splice()`; nothing is moved only at the end of the file. -/
inductive SpliceAnswer
  | moved (n : ℕ) | fail (e : Errno)
  deriving DecidableEq, Repr

/-- One answer of `read()`: a count, at most what was asked and what the file still holds. -/
inductive ReadAnswer
  | bytes (n : ℕ) | fail (e : Errno)
  deriving DecidableEq, Repr

/-- The output descriptor: every byte it accepted, and its answers still to come. -/
structure Sys where
  accepted : Bytes
  writes : List WriteAnswer
  splices : List SpliceAnswer
  errno : Errno
  deriving DecidableEq, Repr

/-- An open file: what is left of it from its offset on, and its answers still to come. -/
structure File where
  contents : Bytes
  reads : List ReadAnswer
  deriving DecidableEq, Repr

def Sys.write (sys : Sys) (request : Bytes) : ℤ × Sys :=
  match sys.writes with
  | [] => (request.length,{ sys with accepted := sys.accepted ++ request })
  | .accept n::ws =>
    let k := min (n+1) request.length
    (k,{ sys with accepted := sys.accepted ++ request.take k, writes := ws })
  | .zero::ws => (0,{ sys with writes := ws })
  | .fail e::ws => (-1,{ sys with writes := ws, errno := e })

/-- `splice(file, NULL, fd, NULL, len, 0)`: bytes go from the file to the descriptor. -/
def Sys.splice (sys : Sys) (file : File) (len : ℕ) : ℤ × File × Sys :=
  let move (k : ℕ) (rest : List SpliceAnswer) : ℤ × File × Sys :=
    ((file.contents.take k).length,{ file with contents := file.contents.drop k },
      { sys with accepted := sys.accepted ++ file.contents.take k, splices := rest })
  match sys.splices with
  | [] => move len []
  | .moved n::ss => move (min (n+1) len) ss
  | .fail e::ss => (-1,file,{ sys with splices := ss, errno := e })

/-- The `read_retry` loop of `b_file_write_contents`: `read(file, block, len)`, tried again while
it is interrupted. The bytes read come with the count. -/
def readRetry (contents : Bytes) (len : ℕ) : List ReadAnswer → Errno → ℤ × Bytes × File × Errno
  | [], errno => ((contents.take len).length,contents.take len,⟨contents.drop len,[]⟩,errno)
  | .bytes n::rs, errno =>
    let k := min n len
    ((contents.take k).length,contents.take k,⟨contents.drop k,rs⟩,errno)
  | .fail .eintr::rs, _ => readRetry contents len rs .eintr
  | .fail e::rs, _ => (-1,[],⟨contents,rs⟩,e)

/-- The fields of `struct stat` the archiver reads; `rdev` is what a device node stands for. -/
structure Stat where
  mode : ℕ
  uid : ℕ
  gid : ℕ
  size : ℕ
  mtime : ℤ
  dev : ℕ
  rdev : ℕ
  ino : ℕ
  nlink : ℕ
  deriving DecidableEq, Repr

def sIfmt : ℕ := 0o170000
def sIfreg : ℕ := 0o100000
def sIfdir : ℕ := 0o040000
def sIflnk : ℕ := 0o120000
def sIfifo : ℕ := 0o010000
def sIfchr : ℕ := 0o020000
def sIfblk : ℕ := 0o060000
def sIfsock : ℕ := 0o140000

def Stat.ifmt (st : Stat) : ℕ := st.mode &&& sIfmt

/-- `major()` and `minor()` as the C library splits a 64-bit `dev_t`. -/
def major (dev : ℕ) : ℕ := (dev >>> 8) &&& 0xfff ||| (dev >>> 32) &&& 0xfffff000
def minor (dev : ℕ) : ℕ := dev &&& 0xff ||| (dev >>> 12) &&& 0xffffff00

/-- What the process is: its byte order and its `getpid()`. -/
structure Process where
  bigEndian : Bool
  pid : ℕ
  deriving DecidableEq, Repr

def WriteAnswer.Progress : WriteAnswer → Prop
  | .accept _ => True
  | .zero => False
  | .fail e => e = .eintr

instance (w : WriteAnswer) : Decidable w.Progress := by
  cases w <;> unfold WriteAnswer.Progress <;> infer_instance

/-- Every write succeeds, possibly short or after interruptions. -/
def Sys.Reliable (sys : Sys) : Prop := ∀ w ∈ sys.writes, w.Progress

instance (sys : Sys) : Decidable sys.Reliable := by unfold Sys.Reliable; infer_instance

end ArchiveTarBuilder
