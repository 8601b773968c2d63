import ArchiveTarBuilder.Builder

/-! `b_find.c`: traversal with an explicit stack of half-read directories. The callback, the
exclusion engine and the error record belong to a world of any type `σ`. -/
namespace ArchiveTarBuilder
open CString

def dotDot : Bytes := [46,46]

structure FindFlags where
  followSymlinks : Bool
  ignoreSockets : Bool
  deriving DecidableEq, Repr

/-- What the system calls on one file system object answer, and what lies behind it. For an
entry below the root the source makes the `fcntl()` call on descriptor 0, the value of the root's
variable by then; that the answers for different entries may differ allows more than can happen. -/
structure Probe where
  openAnswer : Except Errno ℤ
  fcntlAnswer : Except Errno Unit
  fstatAnswer : Except Errno Stat
  lstatAnswer : Except Errno Stat
  statAnswer : Except Errno Stat
  opendirAnswer : Except Errno Unit
  source : Source

/-- What `readdir()` still yields for an open directory. The subtree of an entry is what
`opendir()` on it would list. -/
inductive Listing
  | eof
  | failed (e : Errno)
  | entry (name : Bytes) (probe : Probe) (sub rest : Listing)

/-- The number of `readdir()` calls for a listing and everything below it. -/
def Listing.calls : Listing → ℕ
  | .eof => 1
  | .failed _ => 1
  | .entry _ _ sub rest => 1+sub.calls+rest.calls

theorem Listing.calls_pos (l : Listing) : 0 < l.calls := by
  cases l <;> simp only [Listing.calls] <;> omega

structure BDir where
  path : Bytes
  unread : Listing

/-- The world `b_find` acts on. A system call that fails leaves its number in `errno`; `setErrno` is
for those that are not reported. -/
structure FindWorld (σ : Type*) where
  excluded : σ → Bytes → Bool × σ
  callback : σ → Bytes → Bytes → Stat → ℤ → Source → ℤ × σ
  setError : σ → BErrorType → Errno → String → Bytes → σ
  setErrno : σ → Errno → σ
  fatal : σ → Bool

/-- One call of the callback: the world it was made in, its arguments and its result. -/
structure FindCall (σ : Type*) where
  world : σ
  path : Bytes
  memberName : Bytes
  st : Stat
  fd : ℤ
  source : Source
  result : ℤ

/-- The world and the stack of directories (top first); `trace` is a ghost, the calls so far. -/
structure FindState (σ : Type*) where
  world : σ
  dirs : List BDir
  trace : List (FindCall σ)

section
variable {σ : Type*} (w : FindWorld σ) (flags : FindFlags)

def bStat (probe : Probe) : Except Errno Stat :=
  if flags.followSymlinks then probe.statAnswer else probe.lstatAnswer

def bDirItemPath (dir name : Bytes) : Bytes :=
  if dir = [slash] then dir ++ name else dir ++ [slash] ++ name

def substMemberName (path memberName current : Bytes) : Option Bytes :=
  if path ≠ memberName then some (memberName ++ current.drop path.length) else none

/-- What is known of an entry before the callback: skipped, or its inode and descriptor. -/
def findOpen (world : σ) (path : Bytes) (probe : Probe) : Option (Stat × ℤ) × σ :=
  match probe.openAnswer with
  | .error e =>
    if !flags.followSymlinks && (decide (e = .eloop) || decide (e = .emlink)) then
      match probe.lstatAnswer with
      | .error e => (none,w.setError world .warn e "Cannot lstat() file" path)
      | .ok st => (some (st,-1),w.setErrno world e)
    else if flags.ignoreSockets then
      match probe.statAnswer with
      | .error e => (none,w.setError world .warn e "Cannot stat() file" path)
      | .ok st =>
        if st.ifmt ≠ sIfsock then (none,w.setError world .warn e "Cannot open file" path)
        else (none,w.setErrno world e)
    else (none,w.setError world .warn e "Cannot open file" path)
  | .ok fd =>
    match probe.fcntlAnswer with
    | .error e => (none,w.setErrno world e)
    | .ok () =>
      match probe.fstatAnswer with
      | .error e => (none,w.setError world .warn e "Cannot fstat() file descriptor" path)
      | .ok st => (some (st,fd),world)

/-- Where the body of the loop goes: `cleanup_item`, on into a new directory, `error_item`. -/
inductive ItemEnd
  | cleanup
  | descend
  | errorItem
  deriving DecidableEq, Repr

def findItem (root rootMember path name : Bytes) (probe : Probe) (world : σ) :
    ItemEnd × List (FindCall σ) × σ :=
  if name = dot ∨ name = dotDot then (.cleanup,[],world)
  else
    let verdict := w.excluded world path
    if verdict.1 then (.cleanup,[],verdict.2)
    else
      match findOpen w flags verdict.2 path probe with
      | (none,world) => (.cleanup,[],world)
      | (some (st,fd),world) =>
        let member := (substMemberName root rootMember path).getD path
        let r := w.callback world path member st fd probe.source
        let trace := [⟨world,path,member,st,fd,probe.source,r.1⟩]
        if r.1 = 0 then (.cleanup,trace,r.2)
        else if r.1 < 0 then
          if !w.fatal r.2 then (.cleanup,trace,r.2) else (.errorItem,trace,r.2)
        else if st.ifmt = sIfdir then
          match probe.opendirAnswer with
          | .error e =>
            let world := w.setError r.2 .warn e "Unable to open directory" path
            if e = .eacces then (.cleanup,trace,world) else (.errorItem,trace,world)
          | .ok () => (.descend,trace,r.2)
        else (.cleanup,trace,r.2)

/-- One round of `while (1)`: another state, or the end of the loop and its return value. -/
def findStep (root rootMember : Bytes) (s : FindState σ) : FindState σ ⊕ (ℤ × FindState σ) :=
  match s.dirs with
  | [] => .inr (0,s)
  | ⟨_,.eof⟩::dirs => .inl { s with dirs := dirs }
  | ⟨_,.failed _⟩::dirs => .inl { s with dirs := dirs }
  | ⟨dir,.entry name probe sub rest⟩::dirs =>
    let path := bDirItemPath dir name
    match findItem w flags root rootMember path name probe s.world with
    | (.cleanup,trace,world) => .inl ⟨world,⟨dir,rest⟩::dirs,s.trace ++ trace⟩
    | (.descend,trace,world) => .inl ⟨world,⟨path,sub⟩::⟨dir,rest⟩::dirs,s.trace ++ trace⟩
    | (.errorItem,trace,world) => .inr (-1,⟨world,⟨dir,rest⟩::dirs,s.trace ++ trace⟩)

/-- The `readdir()` calls that the open directories can still take. -/
def FindState.measure (s : FindState σ) : ℕ := (s.dirs.map fun d => d.unread.calls).sum

theorem findStep_measure (root rootMember : Bytes) {s t : FindState σ}
    (h : findStep w flags root rootMember s = .inl t) : t.measure < s.measure := by
  obtain ⟨world,dirs,trace⟩ := s
  match dirs with
  | [] => simp [findStep] at h
  | ⟨dir,.eof⟩::dirs =>
    obtain rfl : FindState.mk world dirs trace = t := by simpa [findStep] using h
    simp [FindState.measure,Listing.calls]
  | ⟨dir,.failed e⟩::dirs =>
    obtain rfl : FindState.mk world dirs trace = t := by simpa [findStep] using h
    simp [FindState.measure,Listing.calls]
  | ⟨dir,.entry name probe sub rest⟩::dirs =>
    simp only [findStep] at h
    split at h
    · obtain rfl := Sum.inl.inj h
      have hsub := sub.calls_pos
      simp only [FindState.measure,List.map_cons,List.sum_cons,Listing.calls]
      omega
    · obtain rfl := Sum.inl.inj h
      simp only [FindState.measure,List.map_cons,List.sum_cons,Listing.calls]
      omega
    · cases h

/-- The traversal loop: every round takes one answer of `readdir()`. -/
def findLoop (root rootMember : Bytes) (s : FindState σ) : ℤ × FindState σ :=
  match _h : findStep w flags root rootMember s with
  | .inl t => findLoop root rootMember t
  | .inr r => r
termination_by s.measure
decreasing_by exact findStep_measure w flags root rootMember _h

/-- The file system object named by the path of an `archive` call. -/
structure Tree where
  probe : Probe
  listing : Listing

/-- `b_find`: its return value, with the world and the calls it leaves. -/
def bFind (path memberName : Bytes) (tree : Tree) (world : σ) : ℤ × FindState σ :=
  let root := bPathClean path
  let rootMember := bPathClean memberName
  match bStat flags tree.probe with
  | .error e => (-1,⟨w.setErrno world e,[],[]⟩)
  | .ok st =>
    let opened : Except Errno ℤ :=
      if st.ifmt = sIfreg then
        match tree.probe.openAnswer with
        | .error e => .error e
        | .ok fd => tree.probe.fcntlAnswer.map fun _ => fd
      else .ok 0
    match opened with
    | .error e => (-1,⟨w.setErrno world e,[],[]⟩)
    | .ok fd =>
      let r := w.callback world root rootMember st fd tree.probe.source
      let trace := [⟨world,root,rootMember,st,fd,tree.probe.source,r.1⟩]
      if r.1 = 0 then (0,⟨r.2,[],trace⟩)
      else if r.1 < 0 then (-1,⟨r.2,[],trace⟩)
      else if st.ifmt ≠ sIfdir then (0,⟨r.2,[],trace⟩)
      else
        match tree.probe.opendirAnswer with
        | .error e => (-1,⟨w.setError r.2 .warn e "Unable to open directory" root,[],trace⟩)
        | .ok () => findLoop w flags root rootMember ⟨r.2,[⟨root,tree.listing⟩],trace⟩

end

end ArchiveTarBuilder
