import ArchiveTarBuilder.LiteralPatterns
import ArchiveTarBuilder.PathObjects
import ArchiveTarBuilder.TraversalOrder

/-! `b_find` on its objects: the array of open directories, the streams behind them, and the strings
of the entries. Unless memory is refused it makes the calls that the traversal with lists makes. -/
namespace ArchiveTarBuilder
namespace Objects
open CString Memory BStack

/-- The directory streams that have been opened; a closed one is `none`. -/
abbrev Streams := List (Option Listing)

/-- `b_dir`. -/
structure Dir where
  dp : ℕ
  path : BString

structure DirItem where
  path : BString
  name : BString

def text (string : BString) : Program Bytes :=
  if 0 ∈ string.str then pure (cstr string.str) else fault

def readdir (streams : Streams) (dp : ℕ) : Program (Option (Bytes × Probe × Listing) × Streams) :=
  match streams[dp]? with
  | some (some (.entry name probe sub rest)) =>
    pure (some (name,probe,sub),streams.set dp (some rest))
  | some (some _) => pure (none,streams)
  | _ => fault

def closedir (streams : Streams) (dp : ℕ) : Program Streams :=
  match streams[dp]? with
  | some (some _) => pure (streams.set dp none)
  | _ => fault

def sizeofDir : ℕ := 2*pointerSize

def sizeofDirItem : ℕ := 2*pointerSize

def enomem : Errno := .other 12

/-- `answer` is that of `opendir()`, which opens a stream of `listing`. -/
def bDirOpen (path : BString) (answer : Except Errno Unit) (listing : Listing) (streams : Streams) :
    Program (Except Errno Dir × Streams) := do
  match ← malloc sizeofDir with
  | none => return (.error enomem,streams)
  | some _ =>
    match answer with
    | .error e => return (.error e,streams)
    | .ok () =>
      let dp := streams.length
      let streams := streams ++ [some listing]
      match ← bStringDup path with
      | none =>
        let streams ← closedir streams dp
        return (.error enomem,streams)
      | some path => return (.ok ⟨dp,path⟩,streams)

def bDirDestroy (item : Option Dir) (streams : Streams) : Program Streams :=
  match item with
  | none => pure streams
  | some dir => closedir streams dir.dp

def destroyLoop : ℕ → ℕ → BStack Dir → Streams → Program Streams
  | 0,_,_,streams => pure streams
  | left+1,i,stack,streams =>
    match stack.readItem i with
    | none => fault
    | some item => do
      let streams ← bDirDestroy item streams
      match stack.writeItem i none with
      | none => fault
      | some stack => destroyLoop left (i+1) stack streams

def bStackDestroy (stack : BStack Dir) (streams : Streams) : Program Streams :=
  destroyLoop stack.count 0 stack streams

def dirItem (dir : BString) (dName : Bytes) : Program (Option DirItem) := do
  match ← malloc sizeofDirItem with
  | none => return none
  | some _ =>
    match ← bStringDup dir with
    | none => return none
    | some path =>
      match ← bStringNew dName with
      | none => return none
      | some name =>
        let root ← strEq path.str [slash]
        match ← (if root then pure (some path) else bStringAppendStr path (literal [slash])) with
        | none => return none
        | some path =>
          match ← bStringAppendStr path dName with
          | none => return none
          | some path => return some ⟨path,name⟩

def bDirRead (dir : Dir) (streams : Streams) :
    Program (Option (DirItem × Probe × Listing) × Streams) := do
  match ← readdir streams dir.dp with
  | (none,streams) => return (none,streams)
  | (some (name,probe,sub),streams) =>
    match ← dirItem dir.path (literal name) with
    | none => return (none,streams)
    | some item => return (some (item,probe,sub),streams)

def substMemberName (path memberName current : BString) : Program (Option BString) := do
  let name ← text memberName
  if ← strEq path.str name then return none
  else
    match ← bStringDup memberName with
    | none => return none
    | some newMemberName => bStringAppendStr newMemberName (current.str.drop path.len)

inductive RoundEnd
  | cleanup
  | descend (dir : Dir)
  | errorItem

section
variable {σ : Type} (w : FindWorld σ) (flags : FindFlags)
  (fresh : ℕ → Option (Option BString)) (freshDir : ℕ → Option Dir)

def findItem (root rootMember : BString) (item : DirItem) (probe : Probe) (sub : Listing)
    (streams : Streams) (world : σ) : Program (RoundEnd × Streams × List (FindCall σ) × σ) := do
  let name ← text item.name
  if name = dot ∨ name = dotDot then return (.cleanup,streams,[],world)
  else
    let path ← text item.path
    let verdict := w.excluded world path
    if verdict.1 then return (.cleanup,streams,[],verdict.2)
    else
      match findOpen w flags verdict.2 path probe with
      | (none,world) => return (.cleanup,streams,[],world)
      | (some (st,fd),world) =>
        let newMemberName ← substMemberName root rootMember item.path
        let member ← text (newMemberName.getD item.path)
        let r := w.callback world path member st fd probe.source
        let trace := [⟨world,path,member,st,fd,probe.source,r.1⟩]
        if r.1 = 0 then return (.cleanup,streams,trace,r.2)
        else if r.1 < 0 then
          if !w.fatal r.2 then return (.cleanup,streams,trace,r.2)
          else return (.errorItem,streams,trace,r.2)
        else if st.ifmt = sIfdir then
          match ← bDirOpen item.path probe.opendirAnswer sub streams with
          | (.error e,streams) =>
            let world := w.setError r.2 .warn e "Unable to open directory" path
            if e = .eacces then return (.cleanup,streams,trace,world)
            else return (.errorItem,streams,trace,world)
          | (.ok dir,streams) => return (.descend dir,streams,trace,r.2)
        else return (.cleanup,streams,trace,r.2)

/-- The traversal loop; there are not more rounds than `left`. What it gives are the result of
`b_find`, the calls that have been made, the world, and the streams behind the last of them. -/
def findRounds (root rootMember : BString) : ℕ → BStack Dir → Streams → List (FindCall σ) → σ →
    Program (ℤ × List (FindCall σ) × σ × Streams)
  | 0,_,_,_,_ => fault
  | left+1,dirs,streams,trace,world => do
    match ← stackStep freshDir dirs .top with
    | (none,dirs) =>
      let streams ← bStackDestroy dirs streams
      return (0,trace,world,streams)
    | (some cwd,dirs) =>
      match ← bDirRead cwd streams with
      | (none,streams) =>
        match ← stackStep freshDir dirs .pop with
        | (none,dirs) => findRounds root rootMember left dirs streams trace world
        | (some oldcwd,dirs) =>
          let streams ← bDirDestroy (some oldcwd) streams
          findRounds root rootMember left dirs streams trace world
      | (some (item,probe,sub),streams) =>
        match ← findItem w flags root rootMember item probe sub streams world with
        | (.cleanup,streams,calls,world) =>
          findRounds root rootMember left dirs streams (trace ++ calls) world
        | (.errorItem,streams,calls,world) =>
          let streams ← bStackDestroy dirs streams
          return (-1,trace ++ calls,world,streams)
        | (.descend dir,streams,calls,world) =>
          match ← stackStep freshDir dirs (.push dir) with
          | (none,dirs) =>
            let streams ← bDirDestroy (some dir) streams
            let streams ← bStackDestroy dirs streams
            return (-1,trace ++ calls,world,streams)
          | (some _,dirs) => findRounds root rootMember left dirs streams (trace ++ calls) world

def bFind (path memberName : BString) (tree : Tree) (world : σ) :
    Program (ℤ × List (FindCall σ) × σ × Streams) := do
  match ← bPathClean fresh path with
  | none => return (-1,[],world,[])
  | some cleanPath =>
    match ← bPathClean fresh memberName with
    | none => return (-1,[],world,[])
    | some cleanMemberName =>
      match ← stackNew 0 with
      | none => return (-1,[],world,[])
      | some dirs =>
        let root ← text cleanPath
        let rootMember ← text cleanMemberName
        match bStat flags tree.probe with
        | .error e =>
          let streams ← bStackDestroy dirs []
          return (-1,[],w.setErrno world e,streams)
        | .ok st =>
          let opened : Except Errno ℤ :=
            if st.ifmt = sIfreg then
              match tree.probe.openAnswer with
              | .error e => .error e
              | .ok fd => tree.probe.fcntlAnswer.map fun _ => fd
            else .ok 0
          match opened with
          | .error e =>
            let streams ← bStackDestroy dirs []
            return (-1,[],w.setErrno world e,streams)
          | .ok fd =>
            let r := w.callback world root rootMember st fd tree.probe.source
            let trace := [⟨world,root,rootMember,st,fd,tree.probe.source,r.1⟩]
            if r.1 = 0 then
              let streams ← bStackDestroy dirs []
              return (0,trace,r.2,streams)
            else if r.1 < 0 then
              let streams ← bStackDestroy dirs []
              return (-1,trace,r.2,streams)
            -- the stack is left as it is
            else if st.ifmt ≠ sIfdir then return (0,trace,r.2,[])
            else
              match ← bDirOpen cleanPath tree.probe.opendirAnswer tree.listing [] with
              | (.error e,streams) =>
                let streams ← bStackDestroy dirs streams
                return (-1,trace,w.setError r.2 .warn e "Unable to open directory" root,streams)
              | (.ok dir,streams) =>
                match ← stackStep freshDir dirs (.push dir) with
                | (none,dirs) =>
                  let streams ← bDirDestroy (some dir) streams
                  let streams ← bStackDestroy dirs streams
                  return (-1,trace,r.2,streams)
                | (some _,dirs) =>
                  let left := tree.listing.calls+1
                  findRounds w flags freshDir cleanPath cleanMemberName left dirs streams trace r.2

end

/-- Every name in a listing is a C string that fits an object. -/
def Named : Listing → Prop
  | .eof => True
  | .failed _ => True
  | .entry name _ sub rest => 0 ∉ name ∧ name.length < 2^63-1 ∧ Named sub ∧ Named rest

theorem ends_text {b : BString} {s : Bytes} (h : b.Holds s) (hnul : 0 ∉ s) :
    Ends (text b) fun t r => r = false ∧ t = s := by
  have hreads := h.reads hnul
  rw [text,if_pos hreads.ends,hreads.text]
  exact Ends.pure ⟨rfl,rfl⟩

theorem ends_dirItem {b : BString} {dir name : Bytes} (h : b.Holds dir) (hdir : 0 ∉ dir)
    (hname : 0 ∉ name) (hsize : name.length < 2^63-1) :
    Ends (dirItem b (literal name)) (OrNull fun item =>
      item.path.Holds (bDirItemPath dir name) ∧ item.name.Holds name) := by
  have hslash : (0 : UInt8) ∉ [slash] := by decide
  have hread := reads_literal hname
  unfold dirItem
  refine Ends.bind (ends_malloc _) fun head r hr => ?_
  cases head with
  | none => exact Ends.pure (by simpa [OrNull] using hr)
  | some head =>
    obtain ⟨rfl,-⟩ := hr
    refine Ends.bind (ends_bStringDup h hdir) fun path r hr => ?_
    cases path with
    | none => exact Ends.pure (by simpa [OrNull] using hr)
    | some path =>
      obtain ⟨rfl,hpath⟩ := hr
      refine Ends.bind (ends_bStringNew hread (by omega)) fun item r hr => ?_
      cases item with
      | none => exact Ends.pure (by simpa [OrNull] using hr)
      | some item =>
        obtain ⟨rfl,hitem⟩ := hr
        refine Ends.bind (ends_strEq (hpath.reads hdir) [slash]) fun root r hr => ?_
        obtain ⟨rfl,rfl⟩ := hr
        have hslashed : Ends (if decide (dir = [slash]) then pure (some path)
            else bStringAppendStr path (literal [slash]) : Program (Option BString))
            (OrNull (BString.Holds · (dirPrefix dir))) := by
          by_cases hroot : dir = [slash]
          · simp only [hroot,decide_true,if_true]
            exact Ends.pure ⟨rfl,by simpa [dirPrefix,hroot] using hpath⟩
          · simp only [hroot,decide_false,Bool.false_eq_true,if_false]
            rw [dirPrefix_of_ne hroot]
            exact ends_bStringAppendStr hpath (reads_literal hslash) (by simp)
        refine Ends.bind hslashed fun path' r hr => ?_
        cases path' with
        | none => exact Ends.pure (by simpa [OrNull] using hr)
        | some path' =>
          obtain ⟨rfl,hpath'⟩ := hr
          refine Ends.bind (ends_bStringAppendStr hpath' hread (by omega)) fun full r hr => ?_
          cases full with
          | none => exact Ends.pure (by simpa [OrNull] using hr)
          | some full =>
            obtain ⟨rfl,hfull⟩ := hr
            exact Ends.pure ⟨rfl,by rwa [bDirItemPath_eq],hitem⟩

theorem yields_substMemberName {root rootMember current : BString} {path memberName name : Bytes}
    (hroot : root.Holds path) (hmember : rootMember.Holds memberName) (hcurrent : current.Holds name)
    (hpath : 0 ∉ path) (hmemberName : 0 ∉ memberName) (hname : 0 ∉ name)
    (hlength : path.length ≤ name.length) :
    Yields (substMemberName root rootMember current) fun string =>
      Option.Rel BString.Holds string (ArchiveTarBuilder.substMemberName path memberName name) := by
  unfold substMemberName
  refine Yields.bind (ends_text hmember hmemberName).yields fun member hm => ?_
  obtain ⟨-,rfl⟩ := hm
  refine Yields.bind (ends_strEq (hroot.reads hpath) _).yields fun same hs => ?_
  obtain ⟨-,rfl⟩ := hs
  rw [ArchiveTarBuilder.substMemberName]
  by_cases hsame : path = member
  · simp only [hsame,decide_true,if_true,ne_eq,not_true_eq_false,if_false]
    exact Yields.pure Option.Rel.none
  · simp only [hsame,decide_false,Bool.false_eq_true,if_false,ne_eq,not_false_eq_true,if_true]
    refine Yields.bind (ends_bStringDup hmember hmemberName).gives fun string hstring => ?_
    obtain ⟨string,rfl,hstring⟩ := hstring
    have hrest : Reads (current.str.drop root.len) (name.drop path.length) := by
      obtain ⟨free,hstr⟩ := hcurrent.str
      rw [hstr,hroot.len,List.drop_append_of_le_length hlength]
      exact ⟨by simp,cstr_append_zero _ free fun hmem => hname (List.mem_of_mem_drop hmem)⟩
    have hsize := hcurrent.length_lt
    refine (ends_bStringAppendStr hstring hrest (by rw [List.length_drop]; omega)).gives.mono
      fun string' h => ?_
    obtain ⟨string',rfl,hholds⟩ := h
    exact Option.Rel.some hholds

theorem yields_bDirOpen {b : BString} {path : Bytes} (h : b.Holds path) (hpath : 0 ∉ path)
    (answer : Except Errno Unit) (listing : Listing) (streams : Streams) :
    Yields (bDirOpen b answer listing streams) fun r =>
      match answer with
      | .error e => r = (.error e,streams)
      | .ok () => ∃ d, r = (.ok d,streams ++ [some listing]) ∧ d.dp = streams.length ∧
          d.path.Holds path := by
  unfold bDirOpen
  refine Yields.bind (ends_malloc _).gives fun head hhead => ?_
  obtain ⟨head,rfl,-⟩ := hhead
  cases answer with
  | error e => exact Yields.pure rfl
  | ok u =>
    refine Yields.bind (ends_bStringDup h hpath).gives fun copy hcopy => ?_
    obtain ⟨copy,rfl,hcopy⟩ := hcopy
    exact Yields.pure ⟨_,rfl,rfl,hcopy⟩

/-- The body of the loop ends in the same way; a directory that has been opened lists `sub`. -/
def EndsAs (path : Bytes) (sub : Listing) (streams : Streams) : ItemEnd → RoundEnd → Streams → Prop
  | .cleanup,.cleanup,streams' => streams' = streams
  | .errorItem,.errorItem,streams' => streams' = streams
  | .descend,.descend d,streams' =>
    d.dp = streams.length ∧ d.path.Holds path ∧ streams' = streams ++ [some sub]
  | _,_,_ => False

section
variable {σ : Type} (w : FindWorld σ) (flags : FindFlags)
  (fresh : ℕ → Option (Option BString)) (freshDir : ℕ → Option Dir)
  {root rootMember : BString} {rootPath memberName : Bytes}

theorem holds_getD {a : Option BString} {x : BString} {b : Option Bytes} {y : Bytes}
    (h : Option.Rel BString.Holds a b) (hx : x.Holds y) : (a.getD x).Holds (b.getD y) := by
  cases h with
  | some h => exact h
  | none => exact hx

theorem zero_notMem_memberName {path : Bytes} (hmemberName : 0 ∉ memberName) (hpath : 0 ∉ path) :
    0 ∉ (ArchiveTarBuilder.substMemberName rootPath memberName path).getD path := by
  unfold ArchiveTarBuilder.substMemberName
  split_ifs
  · intro hmem
    rcases List.mem_append.mp hmem with hmem | hmem
    · exact hmemberName hmem
    · exact hpath (List.mem_of_mem_drop hmem)
  · exact hpath

theorem yields_findItem {item : DirItem} {path name : Bytes} (hroot : root.Holds rootPath)
    (hmember : rootMember.Holds memberName) (hrootPath : 0 ∉ rootPath) (hmemberName : 0 ∉ memberName)
    (hpath : item.path.Holds path) (hname : item.name.Holds name) (hpathNul : 0 ∉ path)
    (hnameNul : 0 ∉ name) (hlength : rootPath.length ≤ path.length) (probe : Probe) (sub : Listing)
    (streams : Streams) (world : σ) :
    Yields (findItem w flags root rootMember item probe sub streams world) fun r =>
      let x := ArchiveTarBuilder.findItem w flags rootPath memberName path name probe world
      EndsAs path sub streams x.1 r.1 r.2.1 ∧ r.2.2 = x.2 := by
  unfold findItem ArchiveTarBuilder.findItem
  refine Yields.bind (ends_text hname hnameNul).yields fun name' h => ?_
  obtain ⟨-,rfl⟩ := h
  by_cases hdot : name' = dot ∨ name' = dotDot
  · simp only [if_pos hdot]
    exact Yields.pure ⟨rfl,rfl⟩
  simp only [if_neg hdot]
  refine Yields.bind (ends_text hpath hpathNul).yields fun path' h => ?_
  obtain ⟨-,rfl⟩ := h
  cases hverdict : (w.excluded world path').1 with
  | true =>
    simp only [if_true]
    exact Yields.pure ⟨rfl,rfl⟩
  | false =>
    simp only [Bool.false_eq_true,if_false]
    rcases hopen : findOpen w flags (w.excluded world path').2 path' probe with ⟨- | ⟨st,fd⟩,world'⟩
    · exact Yields.pure ⟨rfl,rfl⟩
    · simp only
      refine Yields.bind (yields_substMemberName hroot hmember hpath hrootPath hmemberName hpathNul
        hlength) fun string hstring => ?_
      refine Yields.bind (ends_text (holds_getD hstring hpath)
        (zero_notMem_memberName hmemberName hpathNul)).yields fun member h => ?_
      obtain ⟨-,rfl⟩ := h
      generalize (ArchiveTarBuilder.substMemberName rootPath memberName path').getD path' = member
      rcases hcall : w.callback world' path' member st fd probe.source with ⟨res,world''⟩
      simp only
      by_cases hzero : res = 0
      · simp only [if_pos hzero]
        exact Yields.pure ⟨rfl,rfl⟩
      by_cases hneg : res < 0
      · simp only [if_neg hzero,if_pos hneg]
        cases w.fatal world'' with
        | true => exact Yields.pure ⟨rfl,rfl⟩
        | false => exact Yields.pure ⟨rfl,rfl⟩
      by_cases hdir : st.ifmt = sIfdir
      · simp only [if_neg hzero,if_neg hneg,if_pos hdir]
        refine Yields.bind (yields_bDirOpen hpath hpathNul probe.opendirAnswer sub streams)
          fun opened hopened => ?_
        cases hanswer : probe.opendirAnswer with
        | error e =>
          simp only [hanswer] at hopened
          subst hopened
          simp only
          by_cases hacces : e = .eacces
          · simp only [if_pos hacces]
            exact Yields.pure ⟨rfl,rfl⟩
          · simp only [if_neg hacces]
            exact Yields.pure ⟨rfl,rfl⟩
        | ok u =>
          simp only [hanswer] at hopened
          obtain ⟨d,rfl,hdp,hd⟩ := hopened
          exact Yields.pure ⟨⟨hdp,hd,rfl⟩,rfl⟩
      · simp only [if_neg hzero,if_neg hneg,if_neg hdir]
        exact Yields.pure ⟨rfl,rfl⟩

/-- An open directory stands for one with lists. -/
structure Dir.Holds (streams : Streams) (root : Bytes) (d : Dir) (e : BDir) : Prop where
  path : d.path.Holds e.path
  nul : 0 ∉ e.path
  length : root.length ≤ e.path.length
  unread : streams[d.dp]? = some (some e.unread)
  named : Named e.unread

theorem Dir.Holds.congr {streams streams' : Streams} {root : Bytes} {d : Dir} {e : BDir}
    (h : d.Holds streams root e) (hsame : streams'[d.dp]? = streams[d.dp]?) :
    d.Holds streams' root e :=
  ⟨h.path,h.nul,h.length,hsame.trans h.unread,h.named⟩

/-- No stream is open but those of `ds`. -/
def OpenOnly (streams : Streams) (ds : List Dir) : Prop :=
  ∀ (dp : ℕ) (unread : Listing), streams[dp]? = some (some unread) → dp ∈ ds.map Dir.dp

theorem OpenOnly.closes {streams : Streams} {d : Dir} {ds : List Dir}
    (h : OpenOnly streams (d::ds)) : OpenOnly (streams.set d.dp none) ds := by
  intro dp unread hdp
  have hne : d.dp ≠ dp := by
    rintro rfl
    simp [List.getElem?_set] at hdp
  rw [List.getElem?_set_ne hne] at hdp
  have hmem := h dp unread hdp
  rw [List.map_cons,List.mem_cons] at hmem
  exact hmem.resolve_left hne.symm

theorem OpenOnly.reads {streams : Streams} {d : Dir} {ds : List Dir}
    (h : OpenOnly streams (d::ds)) (rest : Listing) :
    OpenOnly (streams.set d.dp (some rest)) (d::ds) := by
  intro dp unread hdp
  by_cases hsame : d.dp = dp
  · exact List.mem_map.mpr ⟨d,List.mem_cons_self,hsame⟩
  · rw [List.getElem?_set_ne hsame] at hdp
    exact h dp unread hdp

theorem OpenOnly.opens {streams : Streams} {ds : List Dir} (h : OpenOnly streams ds) {d : Dir}
    (hd : d.dp = streams.length) (listing : Listing) :
    OpenOnly (streams ++ [some listing]) (d::ds) := by
  intro dp unread hdp
  rw [List.map_cons,List.mem_cons]
  rcases Nat.lt_or_ge dp streams.length with hlt | hge
  · rw [List.getElem?_append_left hlt] at hdp
    exact Or.inr (h dp unread hdp)
  · have hlt := (List.getElem?_eq_some_iff.mp hdp).1
    rw [List.length_append,List.length_singleton] at hlt
    exact Or.inl (by omega)

/-- The stack holds the open directories, the last one on top, each with a stream of its own; no
other stream is open. -/
def Opened (root : Bytes) (dirs : BStack Dir) (streams : Streams) (es : List BDir) : Prop :=
  ∃ ds : List Dir, Stands dirs ds.reverse ∧ List.Forall₂ (Dir.Holds streams root) ds es ∧
    (ds.map Dir.dp).Nodup ∧ OpenOnly streams ds

theorem holds_open {streams : Streams} {root : Bytes} {ds : List Dir} {es : List BDir}
    (h : List.Forall₂ (Dir.Holds streams root) ds es) :
    ∀ d ∈ ds,∃ unread,streams[d.dp]? = some (some unread) := by
  induction h with
  | nil => simp
  | @cons d e ds es hd hds ih => exact List.forall_mem_cons.mpr ⟨⟨e.unread,hd.unread⟩,ih⟩

theorem holds_set {streams : Streams} {root : Bytes} {d : Dir} {ds : List Dir} {es : List BDir}
    (h : List.Forall₂ (Dir.Holds streams root) ds es) (hdp : d.dp ∉ ds.map Dir.dp)
    (stream : Option Listing) : List.Forall₂ (Dir.Holds (streams.set d.dp stream) root) ds es := by
  induction h with
  | nil => exact List.Forall₂.nil
  | cons hd hds ih =>
    rw [List.map_cons,List.mem_cons,not_or] at hdp
    exact List.Forall₂.cons (hd.congr (List.getElem?_set_ne hdp.1)) (ih hdp.2)

theorem holds_append {streams : Streams} {root : Bytes} {ds : List Dir} {es : List BDir}
    (h : List.Forall₂ (Dir.Holds streams root) ds es) (stream : Option Listing) :
    List.Forall₂ (Dir.Holds (streams ++ [stream]) root) ds es ∧ streams.length ∉ ds.map Dir.dp := by
  induction h with
  | nil => exact ⟨List.Forall₂.nil,List.not_mem_nil⟩
  | cons hd hds ih =>
    have hlt := (List.getElem?_eq_some_iff.mp hd.unread).1
    refine ⟨List.Forall₂.cons (hd.congr (List.getElem?_append_left hlt)) ih.1,?_⟩
    rw [List.map_cons,List.mem_cons,not_or]
    exact ⟨hlt.ne',ih.2⟩

theorem yields_bDirRead_end {streams : Streams} {d : Dir} {e : BDir}
    (hd : d.Holds streams rootPath e) (hend : e.unread.names = []) :
    Yields (bDirRead d streams) (· = (none,streams)) := by
  have hunread := hd.unread
  have hread : Yields (readdir streams d.dp) (· = (none,streams)) := by
    rw [readdir,hunread]
    cases hlisting : e.unread with
    | eof => exact Yields.pure rfl
    | failed err => exact Yields.pure rfl
    | entry name probe sub rest => simp [hlisting,Listing.names] at hend
  unfold bDirRead
  refine Yields.bind hread fun r hr => ?_
  subst hr
  exact Yields.pure rfl

theorem yields_bDirRead_entry {streams : Streams} {d : Dir} {e : BDir} {name : Bytes} {probe : Probe}
    {sub rest : Listing} (hd : d.Holds streams rootPath e)
    (hentry : e.unread = .entry name probe sub rest) :
    Yields (bDirRead d streams) fun r => ∃ item : DirItem,
      r = (some (item,probe,sub),streams.set d.dp (some rest)) ∧
        item.path.Holds (bDirItemPath e.path name) ∧ item.name.Holds name := by
  have hunread := hd.unread
  have hnamed := hd.named
  rw [hentry] at hunread hnamed
  have hread : Yields (readdir streams d.dp)
      (· = (some (name,probe,sub),streams.set d.dp (some rest))) := by
    rw [readdir,hunread]
    exact Yields.pure rfl
  unfold bDirRead
  refine Yields.bind hread fun r hr => ?_
  subst hr
  refine Yields.bind (ends_dirItem hd.path hd.nul hnamed.1 hnamed.2.1).gives fun item hitem => ?_
  obtain ⟨item,rfl,hitem⟩ := hitem
  exact Yields.pure ⟨item,rfl,hitem⟩

theorem yields_closedir {streams : Streams} {d : Dir} {e : BDir} (hd : d.Holds streams rootPath e) :
    Yields (closedir streams d.dp) (· = streams.set d.dp none) := by
  rw [closedir,hd.unread]
  exact Yields.pure rfl

theorem yields_destroyLoop (ds : List Dir) {stack : BStack Dir} {streams : Streams}
    (hlen : stack.items.length = stack.size) (pre post : List (Option Dir))
    (hitems : stack.items = pre ++ (ds.map some ++ post))
    (hopen : ∀ d ∈ ds,∃ unread,streams[d.dp]? = some (some unread))
    (hnodup : (ds.map Dir.dp).Nodup) (honly : OpenOnly streams ds) :
    Yields (destroyLoop ds.length pre.length stack streams) (OpenOnly · []) := by
  induction ds generalizing stack streams pre with
  | nil => exact Yields.pure honly
  | cons d ds ih =>
    rw [List.map_cons,List.cons_append] at hitems
    rw [List.map_cons,List.nodup_cons] at hnodup
    obtain ⟨unread,hunread⟩ := hopen d List.mem_cons_self
    have hclose : Yields (bDirDestroy (some d) streams) (· = streams.set d.dp none) := by
      rw [bDirDestroy,closedir,hunread]
      exact Yields.pure rfl
    have hlen' : (pre ++ none::(ds.map some ++ post)).length = stack.size := by
      rw [← hlen,hitems]
      simp
    have hopen' : ∀ d' ∈ ds,∃ unread,(streams.set d.dp none)[d'.dp]? = some (some unread) := by
      intro d' hd'
      obtain ⟨unread',hunread'⟩ := hopen d' (List.mem_cons_of_mem _ hd')
      have hne : d.dp ≠ d'.dp := fun heq => hnodup.1 (heq ▸ List.mem_map_of_mem hd')
      exact ⟨unread',by rw [List.getElem?_set_ne hne,hunread']⟩
    rw [List.length_cons,destroyLoop,BStack.readItem_at hlen hitems rfl]
    refine Yields.bind hclose fun streams' h => ?_
    subst h
    rw [BStack.writeItem_at hlen hitems rfl]
    have hrest := @ih { stack with items := pre ++ none::(ds.map some ++ post) }
      (streams.set d.dp none) hlen' (pre ++ [none]) (by simp) hopen' hnodup.2 honly.closes
    rwa [List.length_append,List.length_singleton] at hrest

theorem yields_bStackDestroy {rootPath : Bytes} {dirs : BStack Dir} {streams : Streams}
    {es : List BDir} (h : Opened rootPath dirs streams es) :
    Yields (bStackDestroy dirs streams) (OpenOnly · []) := by
  obtain ⟨ds,hstands,hds,hnodup,honly⟩ := h
  obtain ⟨rest,hitems⟩ := hstands.holds.items
  have hopen : ∀ d ∈ ds.reverse,∃ unread,streams[d.dp]? = some (some unread) := by
    intro d hd
    exact holds_open hds d (List.mem_reverse.mp hd)
  have hall := yields_destroyLoop ds.reverse hstands.sound.length [] rest
    (by rw [hitems,List.nil_append]) hopen (by rw [List.map_reverse]; exact List.nodup_reverse.mpr hnodup)
    (fun dp unread hdp => by
      rw [List.map_reverse,List.mem_reverse]
      exact honly dp unread hdp)
  rwa [← hstands.holds.count] at hall

theorem yields_findRounds (hroot : root.Holds rootPath) (hmember : rootMember.Holds memberName)
    (hrootPath : 0 ∉ rootPath) (hmemberName : 0 ∉ memberName) (left : ℕ) {dirs : BStack Dir}
    {streams : Streams} {s : FindState σ} (h : Opened rootPath dirs streams s.dirs)
    (hleft : s.measure < left) :
    Yields (findRounds w flags freshDir root rootMember left dirs streams s.trace s.world) fun r =>
      let t := findLoop w flags rootPath memberName s
      ∃ streams,r = (t.1,t.2.trace,t.2.world,streams) ∧ OpenOnly streams [] := by
  induction left generalizing dirs streams s with
  | zero => omega
  | succ left ih =>
    obtain ⟨ds,hstands,hds,hnodup,honly⟩ := h
    obtain ⟨world,es,trace⟩ := s
    rw [findRounds]
    refine Yields.bind (yields_stackStep freshDir hstands .top) fun p hp => ?_
    obtain ⟨top,dirs'⟩ := p
    obtain ⟨htop,hstands'⟩ := hp
    simp only [listStep,List.getLast?_reverse] at htop hstands'
    cases hds with
    | nil =>
      obtain rfl : top = none := htop
      have hstep : findStep w flags rootPath memberName ⟨world,[],trace⟩ =
          .inr (0,⟨world,[],trace⟩) := rfl
      rw [findLoop_end w flags rootPath memberName hstep]
      have hopened : Opened rootPath dirs' streams [] :=
        ⟨[],hstands',List.Forall₂.nil,hnodup,honly⟩
      refine Yields.bind (yields_bStackDestroy hopened) fun streams' hclosed => ?_
      exact Yields.pure ⟨streams',rfl,hclosed⟩
    | @cons d e ds es hd hds =>
      obtain rfl : top = some d := htop
      rw [List.map_cons,List.nodup_cons] at hnodup
      obtain ⟨dir,unread⟩ := e
      by_cases hend : unread.names = []
      · -- the directory is read to its end
        have hstep : findStep w flags rootPath memberName ⟨world,⟨dir,unread⟩::es,trace⟩ =
            .inl ⟨world,es,trace⟩ := by
          cases unread with
          | eof => rfl
          | failed err => rfl
          | entry name probe sub rest => simp [Listing.names] at hend
        rw [findLoop_step w flags rootPath memberName hstep]
        refine Yields.bind (yields_bDirRead_end hd hend) fun r hr => ?_
        subst hr
        refine Yields.bind (yields_stackStep freshDir hstands' .pop) fun p hp => ?_
        obtain ⟨popped,dirs''⟩ := p
        obtain ⟨hpopped,hstands''⟩ := hp
        simp only [listStep,List.reverse_cons,List.dropLast_concat,List.getLast?_concat]
          at hpopped hstands''
        subst hpopped
        refine Yields.bind (yields_closedir hd) fun streams' h => ?_
        subst h
        have hmeasure := findStep_measure w flags rootPath memberName hstep
        exact ih (s := ⟨world,es,trace⟩) ⟨ds,hstands'',holds_set hds hnodup.1 none,hnodup.2,
          honly.closes⟩ (by omega)
      · obtain ⟨name,probe,sub,rest,rfl⟩ : ∃ name probe sub rest,unread =
          .entry name probe sub rest := by
          cases unread with
          | eof => exact absurd rfl hend
          | failed err => exact absurd rfl hend
          | entry name probe sub rest => exact ⟨name,probe,sub,rest,rfl⟩
        refine Yields.bind (yields_bDirRead_entry hd rfl) fun r hr => ?_
        obtain ⟨item,rfl,hpath,hname⟩ := hr
        obtain ⟨hnameNul,hnameSize,hsub,hrest⟩ := hd.named
        simp only at hpath
        have hpathNul : 0 ∉ bDirItemPath dir name := by
          rw [bDirItemPath_eq,List.mem_append]
          rintro (hmem | hmem)
          · unfold dirPrefix at hmem
            split_ifs at hmem
            · exact hd.nul hmem
            · exact hd.nul (by simpa [slash] using hmem)
          · exact hnameNul hmem
        have hlength : rootPath.length ≤ (bDirItemPath dir name).length := by
          have hle : rootPath.length ≤ dir.length := hd.length
          rw [bDirItemPath_eq,List.length_append]
          unfold dirPrefix
          split_ifs
          · omega
          · rw [List.length_append]
            omega
        -- the stream of the directory has moved on
        have hrestHolds : List.Forall₂ (Dir.Holds (streams.set d.dp (some rest)) rootPath) (d::ds)
            (⟨dir,rest⟩::es) := by
          have hlt := (List.getElem?_eq_some_iff.mp hd.unread).1
          exact List.Forall₂.cons ⟨hd.path,hd.nul,hd.length,List.getElem?_set_self hlt,hrest⟩
            (holds_set hds hnodup.1 (some rest))
        have hnodup' : ((d::ds).map Dir.dp).Nodup := List.nodup_cons.mpr hnodup
        have honly' := honly.reads rest
        refine Yields.bind (yields_findItem w flags hroot hmember hrootPath hmemberName hpath hname hpathNul
          hnameNul hlength probe sub (streams.set d.dp (some rest)) world) fun r hr => ?_
        obtain ⟨roundEnd,streams',calls,world'⟩ := r
        obtain ⟨hends,hsame⟩ := hr
        rcases hitem : ArchiveTarBuilder.findItem w flags rootPath memberName (bDirItemPath dir name) name
          probe world with ⟨itemEnd,calls',world''⟩
        rw [hitem] at hends hsame
        obtain ⟨rfl,rfl⟩ := Prod.mk.inj hsame
        cases itemEnd with
        | cleanup =>
          have hstep : findStep w flags rootPath memberName ⟨world,⟨dir,.entry name probe sub rest⟩::es,
              trace⟩ = .inl ⟨world',⟨dir,rest⟩::es,trace ++ calls⟩ := by simp only [findStep,hitem]
          have hmeasure := findStep_measure w flags rootPath memberName hstep
          rw [findLoop_step w flags rootPath memberName hstep]
          cases roundEnd with
          | cleanup =>
            obtain rfl : streams' = streams.set d.dp (some rest) := hends
            exact ih (s := ⟨world',⟨dir,rest⟩::es,trace ++ calls⟩) ⟨_,hstands',hrestHolds,hnodup',honly'⟩
              (by omega)
          | descend d' => exact hends.elim
          | errorItem => exact hends.elim
        | errorItem =>
          have hstep : findStep w flags rootPath memberName ⟨world,⟨dir,.entry name probe sub rest⟩::es,
              trace⟩ = .inr (-1,⟨world',⟨dir,rest⟩::es,trace ++ calls⟩) := by
            simp only [findStep,hitem]
          rw [findLoop_end w flags rootPath memberName hstep]
          cases roundEnd with
          | cleanup => exact hends.elim
          | descend d' => exact hends.elim
          | errorItem =>
            obtain rfl : streams' = streams.set d.dp (some rest) := hends
            have hopened : Opened rootPath dirs' (streams.set d.dp (some rest)) (⟨dir,rest⟩::es) :=
              ⟨_,hstands',hrestHolds,hnodup',honly'⟩
            refine Yields.bind (yields_bStackDestroy hopened) fun streams' hclosed => ?_
            exact Yields.pure ⟨streams',rfl,hclosed⟩
        | descend =>
          have hstep : findStep w flags rootPath memberName ⟨world,⟨dir,.entry name probe sub rest⟩::es,
              trace⟩ = .inl ⟨world',⟨bDirItemPath dir name,sub⟩::⟨dir,rest⟩::es,trace ++ calls⟩ := by
            simp only [findStep,hitem]
          have hmeasure := findStep_measure w flags rootPath memberName hstep
          rw [findLoop_step w flags rootPath memberName hstep]
          cases roundEnd with
          | cleanup => exact hends.elim
          | errorItem => exact hends.elim
          | descend d' =>
            obtain ⟨hdp,hd',rfl⟩ := hends
            refine Yields.bind (yields_stackStep freshDir hstands' (.push d')) fun p hp => ?_
            obtain ⟨pushed,dirs''⟩ := p
            obtain ⟨hpushed,hstands''⟩ := hp
            simp only [listStep] at hpushed hstands''
            subst hpushed
            obtain ⟨hbelow,hnew⟩ := holds_append hrestHolds (some sub)
            refine ih (s := ⟨world',⟨bDirItemPath dir name,sub⟩::⟨dir,rest⟩::es,trace ++ calls⟩)
              ⟨d'::d::ds,by simpa using hstands'',List.Forall₂.cons ⟨hd',hpathNul,hlength,?_,hsub⟩ hbelow,
                ?_,honly'.opens hdp sub⟩ (by omega)
            · simp [hdp]
            · rw [List.map_cons,List.nodup_cons,hdp]
              exact ⟨hnew,hnodup'⟩

end

theorem zero_notMem_bPathClean (path : Bytes) : 0 ∉ ArchiveTarBuilder.bPathClean path := by
  have hnul := zero_notMem_cstr path
  rw [← bPathClean_cstr,bPathClean_eq hnul,List.mem_append,not_or]
  refine ⟨?_,zero_notMem_joinPath fun x hx => zero_notMem_components hnul hx⟩
  split_ifs <;> simp [slash]

/-- Unless memory is refused, `b_find` stays in its objects, uses no stream that is not open,
returns what the traversal with lists does, with the same calls and the same world behind them, and
leaves no stream open. -/
theorem bFind_stored {σ : Type} (w : FindWorld σ) (flags : FindFlags)
    (fresh : ℕ → Option (Option BString)) (freshDir : ℕ → Option Dir) {path memberName : BString}
    {p m : Bytes} (hpath : path.Holds p) (hmember : memberName.Holds m) (tree : Tree)
    (hnamed : Named tree.listing) (world : σ) :
    Yields (bFind w flags fresh freshDir path memberName tree world) fun r =>
      let t := ArchiveTarBuilder.bFind w flags p m tree world
      ∃ streams,r = (t.1,t.2.trace,t.2.world,streams) ∧ OpenOnly streams [] := by
  unfold bFind ArchiveTarBuilder.bFind
  refine Yields.bind (bPathClean_stored fresh hpath).gives fun root hroot => ?_
  obtain ⟨root,rfl,hroot⟩ := hroot
  refine Yields.bind (bPathClean_stored fresh hmember).gives fun rootMember hrootMember => ?_
  obtain ⟨rootMember,rfl,hrootMember⟩ := hrootMember
  have hrootNul := zero_notMem_bPathClean p
  have hmemberNul := zero_notMem_bPathClean m
  refine Yields.bind ends_stackNew.gives fun dirs hdirs => ?_
  obtain ⟨dirs,rfl,hdirs⟩ := hdirs
  refine Yields.bind (ends_text hroot hrootNul).yields fun rootPath h => ?_
  obtain ⟨-,rfl⟩ := h
  refine Yields.bind (ends_text hrootMember hmemberNul).yields fun rootName h => ?_
  obtain ⟨-,rfl⟩ := h
  have hnone : OpenOnly [] [] := fun dp unread hdp => by simp at hdp
  have hempty : Opened (ArchiveTarBuilder.bPathClean p) dirs [] [] :=
    ⟨[],hdirs,List.Forall₂.nil,List.nodup_nil,hnone⟩
  have hclosed := yields_bStackDestroy hempty
  rcases bStat flags tree.probe with e | st
  · exact Yields.bind hclosed fun streams h => Yields.pure ⟨streams,rfl,h⟩
  simp only
  generalize (if st.ifmt = sIfreg then
    match tree.probe.openAnswer with
    | .error e => .error e
    | .ok fd => tree.probe.fcntlAnswer.map fun _ => fd
    else .ok 0 : Except Errno ℤ) = opened
  rcases opened with e | fd
  · exact Yields.bind hclosed fun streams h => Yields.pure ⟨streams,rfl,h⟩
  simp only
  rcases hcall : w.callback world (ArchiveTarBuilder.bPathClean p) (ArchiveTarBuilder.bPathClean m) st fd
    tree.probe.source with ⟨res,world'⟩
  simp only
  by_cases hzero : res = 0
  · simp only [if_pos hzero]
    exact Yields.bind hclosed fun streams h => Yields.pure ⟨streams,rfl,h⟩
  by_cases hneg : res < 0
  · simp only [if_neg hzero,if_pos hneg]
    exact Yields.bind hclosed fun streams h => Yields.pure ⟨streams,rfl,h⟩
  by_cases hdir : st.ifmt = sIfdir
  · simp only [if_neg hzero,if_neg hneg,ne_eq,hdir,not_true_eq_false,if_false]
    refine Yields.bind (yields_bDirOpen hroot hrootNul tree.probe.opendirAnswer tree.listing [])
      fun opened hopened => ?_
    rcases hanswer : tree.probe.opendirAnswer with e | u
    · simp only [hanswer] at hopened
      subst hopened
      exact Yields.bind hclosed fun streams h => Yields.pure ⟨streams,rfl,h⟩
    · simp only [hanswer] at hopened
      obtain ⟨d,rfl,hdp,hd⟩ := hopened
      refine Yields.bind (yields_stackStep freshDir hdirs (.push d)) fun r hr => ?_
      obtain ⟨pushed,dirs'⟩ := r
      obtain ⟨hpushed,hstands⟩ := hr
      simp only [listStep] at hpushed hstands
      subst hpushed
      have hstart : Opened (ArchiveTarBuilder.bPathClean p) dirs' [some tree.listing]
          [⟨ArchiveTarBuilder.bPathClean p,tree.listing⟩] :=
        ⟨[d],hstands,List.Forall₂.cons ⟨hd,hrootNul,le_rfl,by simp [hdp],hnamed⟩ List.Forall₂.nil,
          List.nodup_singleton _,hnone.opens hdp _⟩
      exact yields_findRounds w flags freshDir hroot hrootMember hrootNul hmemberNul
        (tree.listing.calls+1) (s := ⟨world',[⟨_,tree.listing⟩],_⟩) hstart
        (by simp [FindState.measure])
  · simp only [if_neg hzero,if_neg hneg,ne_eq,hdir,not_false_eq_true,if_true]
    exact Yields.pure ⟨[],rfl,hnone⟩

theorem bFind_stored_sampleTree :
    Yields (bFind acceptAll ⟨false,false⟩ (fun _ => none) (fun _ => none) ⟨[114,0],1⟩ ⟨[114,0],1⟩
      sampleTree ()) fun r =>
        let t := ArchiveTarBuilder.bFind acceptAll ⟨false,false⟩ [114] [114] sampleTree ()
        ∃ streams,r = (t.1,t.2.trace,t.2.world,streams) ∧ OpenOnly streams [] := by
  have hpath : BString.Holds ⟨[114,0],1⟩ [114] := ⟨rfl,⟨[],rfl⟩,by decide⟩
  have hnamed : Named sampleTree.listing := by simp [sampleTree,Named,dot]
  exact bFind_stored acceptAll ⟨false,false⟩ _ _ hpath hpath sampleTree hnamed ()

end Objects
end ArchiveTarBuilder
