import ArchiveTarBuilder.Traversal

/-! Two traversals of one tree, in two worlds and from states that a relation ties together. As long
as the calls are good ones on both sides, they make the same calls with the same results. -/
namespace ArchiveTarBuilder
open CString

section
variable {σ τ : Type*} (w : FindWorld σ) (w' : FindWorld τ)

/-- What two worlds do to related states: the same verdicts, and the same results of calls that are
good in both. -/
structure FindWorld.Relates (R : σ → τ → Prop) (Good : FindCall σ → Prop) (Good' : FindCall τ → Prop) :
    Prop where
  excluded {s : σ} {t : τ} (h : R s t) (path : Bytes) :
    (w.excluded s path).1 = (w'.excluded t path).1 ∧ R (w.excluded s path).2 (w'.excluded t path).2
  setError {s : σ} {t : τ} (h : R s t) (type : BErrorType) (e : Errno) (message : String)
    (path : Bytes) : R (w.setError s type e message path) (w'.setError t type e message path)
  setErrno {s : σ} {t : τ} (h : R s t) (e : Errno) : R (w.setErrno s e) (w'.setErrno t e)
  fatal {s : σ} {t : τ} (h : R s t) : w.fatal s = w'.fatal t
  callback {s : σ} {t : τ} (h : R s t) (path memberName : Bytes) (st : Stat) (fd : ℤ) (src : Source)
    (hs : Good ⟨s,path,memberName,st,fd,src,(w.callback s path memberName st fd src).1⟩)
    (ht : Good' ⟨t,path,memberName,st,fd,src,(w'.callback t path memberName st fd src).1⟩) :
    (w.callback s path memberName st fd src).1 = (w'.callback t path memberName st fd src).1 ∧
      R (w.callback s path memberName st fd src).2 (w'.callback t path memberName st fd src).2

structure FindCall.Alike (R : σ → τ → Prop) (c : FindCall σ) (c' : FindCall τ) : Prop where
  world : R c.world c'.world
  rest : c' = ⟨c'.world,c.path,c.memberName,c.st,c.fd,c.source,c.result⟩

/-- Two parts of traversals that end alike, made the same calls and left related states. -/
structure Together {α : Type*} (R : σ → τ → Prop) (r : α × List (FindCall σ) × σ)
    (r' : α × List (FindCall τ) × τ) : Prop where
  ending : r.1 = r'.1
  calls : List.Forall₂ (FindCall.Alike R) r.2.1 r'.2.1
  world : R r.2.2 r'.2.2

variable (flags : FindFlags) (root rootMember : Bytes)

def itemEnd (path : Bytes) (probe : Probe) (st : Stat) (r : ℤ × σ) : ItemEnd × σ :=
  if r.1 = 0 then (.cleanup,r.2)
  else if r.1 < 0 then (if w.fatal r.2 then .errorItem else .cleanup,r.2)
  else if st.ifmt = sIfdir then
    match probe.opendirAnswer with
    | .error e => (if e = .eacces then .cleanup else .errorItem,
        w.setError r.2 .warn e "Unable to open directory" path)
    | .ok () => (.descend,r.2)
  else (.cleanup,r.2)

theorem findItem_opened {world : σ} {path name : Bytes} {probe : Probe} {st : Stat} {fd : ℤ} {s : σ}
    (hname : ¬(name = dot ∨ name = dotDot)) (hverdict : ¬(w.excluded world path).1 = true)
    (hopen : findOpen w flags (w.excluded world path).2 path probe = (some (st,fd),s)) :
    let memberName := (substMemberName root rootMember path).getD path
    let r := w.callback s path memberName st fd probe.source
    findItem w flags root rootMember path name probe world =
      ((itemEnd w path probe st r).1,[⟨s,path,memberName,st,fd,probe.source,r.1⟩],
        (itemEnd w path probe st r).2) := by
  simp only
  unfold findItem itemEnd
  rw [if_neg hname]
  simp only [hopen]
  rw [if_neg hverdict]
  generalize w.callback s path ((substMemberName root rootMember path).getD path) st fd
    probe.source = r
  by_cases hzero : r.1 = 0
  · rw [if_pos hzero,if_pos hzero]
  · rw [if_neg hzero,if_neg hzero]
    by_cases hneg : r.1 < 0
    · rw [if_pos hneg,if_pos hneg]
      cases w.fatal r.2 <;> rfl
    · rw [if_neg hneg,if_neg hneg]
      by_cases hdir : st.ifmt = sIfdir
      · rw [if_pos hdir,if_pos hdir]
        cases probe.opendirAnswer with
        | error e => by_cases hacces : e = .eacces <;> simp [hacces]
        | ok _ => rfl
      · rw [if_neg hdir,if_neg hdir]

variable {w w'} {R : σ → τ → Prop} {Good : FindCall σ → Prop} {Good' : FindCall τ → Prop}
  (hrel : w.Relates w' R Good Good')
include hrel

theorem findOpen_related {s : σ} {t : τ} (h : R s t) (path : Bytes) (probe : Probe) :
    (findOpen w flags s path probe).1 = (findOpen w' flags t path probe).1 ∧
      R (findOpen w flags s path probe).2 (findOpen w' flags t path probe).2 := by
  unfold findOpen
  repeat' split
  all_goals first | exact ⟨rfl,h⟩ | exact ⟨rfl,hrel.setErrno h _⟩ | exact ⟨rfl,hrel.setError h _ _ _ _⟩

theorem itemEnd_related {r : ℤ × σ} {r' : ℤ × τ} (hsame : r.1 = r'.1) (h : R r.2 r'.2) (path : Bytes)
    (probe : Probe) (st : Stat) :
    (itemEnd w path probe st r).1 = (itemEnd w' path probe st r').1 ∧
      R (itemEnd w path probe st r).2 (itemEnd w' path probe st r').2 := by
  unfold itemEnd
  rw [hsame,hrel.fatal h]
  repeat' split
  all_goals first | exact ⟨rfl,h⟩ | exact ⟨rfl,hrel.setError h _ _ _ _⟩

theorem findItem_together {s : σ} {t : τ} (h : R s t) (path name : Bytes) (probe : Probe)
    (hs : ∀ c ∈ (findItem w flags root rootMember path name probe s).2.1, Good c)
    (ht : ∀ c ∈ (findItem w' flags root rootMember path name probe t).2.1, Good' c) :
    Together R (findItem w flags root rootMember path name probe s)
      (findItem w' flags root rootMember path name probe t) := by
  by_cases hname : name = dot ∨ name = dotDot
  · unfold findItem
    rw [if_pos hname,if_pos hname]
    exact ⟨rfl,.nil,h⟩
  · obtain ⟨hverdict,hexcluded⟩ := hrel.excluded h path
    by_cases hskip : (w'.excluded t path).1 = true
    · unfold findItem
      simp only [if_neg hname,hverdict,hskip,if_true]
      exact ⟨rfl,.nil,hexcluded⟩
    · have hskip' : ¬(w.excluded s path).1 = true := hverdict ▸ hskip
      obtain ⟨hfound,hopened⟩ := findOpen_related flags hrel hexcluded path probe
      cases hopen : findOpen w flags (w.excluded s path).2 path probe with
      | mk found s' =>
        cases hopen' : findOpen w' flags (w'.excluded t path).2 path probe with
        | mk found' t' =>
          rw [hopen,hopen'] at hfound hopened
          obtain rfl : found = found' := hfound
          cases found with
          | none =>
            unfold findItem
            simp only [if_neg hname,hskip,hskip',hopen,hopen',if_false,Bool.false_eq_true]
            exact ⟨rfl,.nil,hopened⟩
          | some found =>
            obtain ⟨st,fd⟩ := found
            have hitem := findItem_opened w flags root rootMember hname hskip' hopen
            have hitem' := findItem_opened w' flags root rootMember hname hskip hopen'
            simp only at hitem hitem'
            rw [hitem] at hs
            rw [hitem'] at ht
            obtain ⟨hresult,hworld⟩ := hrel.callback hopened path _ st fd probe.source
              (hs _ (List.mem_singleton.mpr rfl)) (ht _ (List.mem_singleton.mpr rfl))
            obtain ⟨hending,hafter⟩ := itemEnd_related hrel hresult hworld path probe st
            rw [hitem,hitem']
            exact ⟨hending,.cons ⟨hopened,by rw [hresult]⟩ .nil,hafter⟩

omit hrel in
theorem mem_walk_of_findItem {name : Bytes} {probe : Probe} {sub rest : Listing} {dir : Bytes}
    {world : σ} {c : FindCall σ}
    (hc : c ∈ (findItem w flags root rootMember (bDirItemPath dir name) name probe world).2.1) :
    c ∈ (walk w flags root rootMember (.entry name probe sub rest) dir world).2.1 := by
  simp only [walk]
  generalize findItem w flags root rootMember (bDirItemPath dir name) name probe world = r at hc ⊢
  obtain ⟨ending,calls,world'⟩ := r
  simp only at hc
  cases ending with
  | cleanup => simp [hc]
  | errorItem => exact hc
  | descend =>
    simp only
    split <;> simp [hc]

theorem walk_together (l : Listing) {s : σ} {t : τ} (h : R s t) (dir : Bytes)
    (hs : ∀ c ∈ (walk w flags root rootMember l dir s).2.1, Good c)
    (ht : ∀ c ∈ (walk w' flags root rootMember l dir t).2.1, Good' c) :
    Together R (walk w flags root rootMember l dir s) (walk w' flags root rootMember l dir t) := by
  induction l generalizing s t dir with
  | eof => exact ⟨rfl,.nil,h⟩
  | failed e => exact ⟨rfl,.nil,h⟩
  | entry name probe sub rest ihsub ihrest =>
    obtain ⟨hending,hcalls,hworld⟩ := findItem_together flags root rootMember hrel h
      (bDirItemPath dir name) name probe
      (fun c hc => hs c (mem_walk_of_findItem flags root rootMember hc))
      (fun c hc => ht c (mem_walk_of_findItem flags root rootMember hc))
    simp only [walk] at hs ht ⊢
    generalize findItem w flags root rootMember (bDirItemPath dir name) name probe s = r
      at hs hending hcalls hworld ⊢
    generalize findItem w' flags root rootMember (bDirItemPath dir name) name probe t = r'
      at ht hending hcalls hworld ⊢
    obtain ⟨ending,calls,s'⟩ := r
    obtain ⟨ending',calls',t'⟩ := r'
    obtain rfl : ending = ending' := hending
    simp only at hcalls hworld
    cases ending with
    | errorItem => exact ⟨rfl,hcalls,hworld⟩
    | cleanup =>
      simp only at hs ht ⊢
      obtain ⟨hcut,hmore,hafter⟩ := ihrest hworld dir
        (fun c hc => hs c (List.mem_append_right _ hc)) (fun c hc => ht c (List.mem_append_right _ hc))
      exact ⟨hcut,List.rel_append hcalls hmore,hafter⟩
    | descend =>
      simp only at hs ht ⊢
      have hbelow := ihsub hworld (bDirItemPath dir name)
        (fun c hc => hs c (by split <;> simp [hc])) (fun c hc => ht c (by split <;> simp [hc]))
      obtain ⟨hcut,hinside,hleft⟩ := hbelow
      rw [← hcut] at ht ⊢
      by_cases hstop : (walk w flags root rootMember sub (bDirItemPath dir name) s').1 = true
      · rw [if_pos hstop,if_pos hstop]
        exact ⟨rfl,List.rel_append hcalls hinside,hleft⟩
      · rw [if_neg hstop] at hs ht ⊢
        rw [if_neg hstop]
        obtain ⟨hcut',hmore,hafter⟩ := ihrest hleft dir
          (fun c hc => hs c (by simp [hc])) (fun c hc => ht c (by simp [hc]))
        exact ⟨hcut',List.rel_append (List.rel_append hcalls hinside) hmore,hafter⟩

def rootEnd (w : FindWorld σ) (flags : FindFlags) (root rootMember : Bytes) (tree : Tree) (st : Stat)
    (r : ℤ × σ) (call : FindCall σ) : ℤ × FindState σ :=
  if r.1 = 0 then (0,⟨r.2,[],[call]⟩)
  else if r.1 < 0 then (-1,⟨r.2,[],[call]⟩)
  else if st.ifmt ≠ sIfdir then (0,⟨r.2,[],[call]⟩)
  else
    match tree.probe.opendirAnswer with
    | .error e => (-1,⟨w.setError r.2 .warn e "Unable to open directory" root,[],[call]⟩)
    | .ok () => findLoop w flags root rootMember ⟨r.2,[⟨root,tree.listing⟩],[call]⟩

omit hrel in
theorem rootEnd_trace (tree : Tree) (st : Stat) (r : ℤ × σ) (call : FindCall σ) :
    ∃ more, (rootEnd w flags root rootMember tree st r call).2.trace = call::more := by
  unfold rootEnd
  repeat' split
  all_goals first | exact ⟨[],rfl⟩ | skip
  exact ⟨_,(findLoop_root w flags root rootMember tree.listing r.2 [call]).2.1⟩

theorem rootEnd_together (tree : Tree) (st : Stat) {r : ℤ × σ} {r' : ℤ × τ} {call : FindCall σ}
    {call' : FindCall τ}
    (hresult : r.1 = r'.1) (h : R r.2 r'.2) (hcall : call.Alike R call')
    (hs : ∀ c ∈ (rootEnd w flags root rootMember tree st r call).2.trace, Good c)
    (ht : ∀ c ∈ (rootEnd w' flags root rootMember tree st r' call').2.trace, Good' c) :
    (rootEnd w flags root rootMember tree st r call).1 =
        (rootEnd w' flags root rootMember tree st r' call').1 ∧
      List.Forall₂ (FindCall.Alike R) (rootEnd w flags root rootMember tree st r call).2.trace
        (rootEnd w' flags root rootMember tree st r' call').2.trace ∧
      R (rootEnd w flags root rootMember tree st r call).2.world
        (rootEnd w' flags root rootMember tree st r' call').2.world := by
  unfold rootEnd at hs ht ⊢
  rw [← hresult] at ht ⊢
  by_cases hzero : r.1 = 0
  · rw [if_pos hzero,if_pos hzero]
    exact ⟨rfl,.cons hcall .nil,h⟩
  · rw [if_neg hzero] at hs ht ⊢
    rw [if_neg hzero]
    by_cases hneg : r.1 < 0
    · rw [if_pos hneg,if_pos hneg]
      exact ⟨rfl,.cons hcall .nil,h⟩
    · rw [if_neg hneg] at hs ht ⊢
      rw [if_neg hneg]
      by_cases hdir : st.ifmt ≠ sIfdir
      · rw [if_pos hdir,if_pos hdir]
        exact ⟨rfl,.cons hcall .nil,h⟩
      · rw [if_neg hdir] at hs ht ⊢
        rw [if_neg hdir]
        cases hopendir : tree.probe.opendirAnswer with
        | error e => exact ⟨rfl,.cons hcall .nil,hrel.setError h _ _ _ _⟩
        | ok _ =>
          rw [hopendir] at hs ht
          simp only at hs ht ⊢
          obtain ⟨hret,htrace,hworld⟩ := findLoop_root w flags root rootMember tree.listing r.2 [call]
          obtain ⟨hret',htrace',hworld'⟩ :=
            findLoop_root w' flags root rootMember tree.listing r'.2 [call']
          rw [htrace] at hs
          rw [htrace'] at ht
          obtain ⟨hcut,hcalls,hafter⟩ := walk_together flags root rootMember hrel tree.listing h root
            (fun c hc => hs c (List.mem_append_right _ hc))
            (fun c hc => ht c (List.mem_append_right _ hc))
          rw [hret,hret',htrace,htrace',hworld,hworld',hcut]
          exact ⟨rfl,.cons hcall hcalls,hafter⟩

def findFrom (w : FindWorld σ) (flags : FindFlags) (path memberName : Bytes) (tree : Tree) (st : Stat)
    (fd : ℤ) (u : σ) : ℤ × FindState σ :=
  let root := bPathClean path
  let rootMember := bPathClean memberName
  let r := w.callback u root rootMember st fd tree.probe.source
  rootEnd w flags root rootMember tree st r ⟨u,root,rootMember,st,fd,tree.probe.source,r.1⟩

omit hrel in
variable (w w') in
/-- Whether a traversal starts at all is up to the tree, and with which inode and descriptor. -/
theorem bFind_cases (path memberName : Bytes) (tree : Tree) :
    (∃ e, (∀ u, bFind w flags path memberName tree u = (-1,⟨w.setErrno u e,[],[]⟩)) ∧
      ∀ u, bFind w' flags path memberName tree u = (-1,⟨w'.setErrno u e,[],[]⟩)) ∨
    ∃ st fd, (∀ u, bFind w flags path memberName tree u =
        findFrom w flags path memberName tree st fd u) ∧
      ∀ u, bFind w' flags path memberName tree u = findFrom w' flags path memberName tree st fd u := by
  cases hstat : bStat flags tree.probe with
  | error e =>
    exact Or.inl ⟨e,fun u => by simp only [bFind,hstat],fun u => by simp only [bFind,hstat]⟩
  | ok st =>
    by_cases hreg : st.ifmt = sIfreg
    · cases hopen : tree.probe.openAnswer with
      | error e =>
        exact Or.inl ⟨e,fun u => by simp only [bFind,hstat,if_pos hreg,hopen],
          fun u => by simp only [bFind,hstat,if_pos hreg,hopen]⟩
      | ok fd =>
        cases hfcntl : tree.probe.fcntlAnswer with
        | error e =>
          exact Or.inl ⟨e,fun u => by simp only [bFind,hstat,if_pos hreg,hopen,hfcntl,Except.map],
            fun u => by simp only [bFind,hstat,if_pos hreg,hopen,hfcntl,Except.map]⟩
        | ok _ =>
          refine Or.inr ⟨st,fd,fun u => ?_,fun u => ?_⟩
          · simp only [bFind,hstat,if_pos hreg,hopen,hfcntl,Except.map]
            rfl
          · simp only [bFind,hstat,if_pos hreg,hopen,hfcntl,Except.map]
            rfl
    · refine Or.inr ⟨st,0,fun u => ?_,fun u => ?_⟩
      · simp only [bFind,hstat,if_neg hreg]
        rfl
      · simp only [bFind,hstat,if_neg hreg]
        rfl

omit hrel in
theorem findFrom_call (path memberName : Bytes) (tree : Tree) (st : Stat) (fd : ℤ) (u : σ) :
    (⟨u,bPathClean path,bPathClean memberName,st,fd,tree.probe.source,
      (w.callback u (bPathClean path) (bPathClean memberName) st fd tree.probe.source).1⟩ : FindCall σ) ∈
        (findFrom w flags path memberName tree st fd u).2.trace := by
  obtain ⟨more,htrace⟩ := rootEnd_trace (w := w) flags (bPathClean path) (bPathClean memberName) tree st
    (w.callback u (bPathClean path) (bPathClean memberName) st fd tree.probe.source)
    ⟨u,bPathClean path,bPathClean memberName,st,fd,tree.probe.source,
      (w.callback u (bPathClean path) (bPathClean memberName) st fd tree.probe.source).1⟩
  rw [findFrom,htrace]
  exact List.mem_cons_self

theorem bFind_together (path memberName : Bytes) (tree : Tree) {s : σ} {t : τ} (h : R s t)
    (hs : ∀ c ∈ (bFind w flags path memberName tree s).2.trace, Good c)
    (ht : ∀ c ∈ (bFind w' flags path memberName tree t).2.trace, Good' c) :
    (bFind w flags path memberName tree s).1 = (bFind w' flags path memberName tree t).1 ∧
      List.Forall₂ (FindCall.Alike R) (bFind w flags path memberName tree s).2.trace
        (bFind w' flags path memberName tree t).2.trace ∧
      R (bFind w flags path memberName tree s).2.world
        (bFind w' flags path memberName tree t).2.world := by
  rcases bFind_cases w w' flags path memberName tree with ⟨e,hnone,hnone'⟩ | ⟨st,fd,hroot,hroot'⟩
  · rw [hnone s,hnone' t]
    exact ⟨rfl,.nil,hrel.setErrno h e⟩
  · rw [hroot s] at hs ⊢
    rw [hroot' t] at ht ⊢
    obtain ⟨hresult,hworld⟩ := hrel.callback h (bPathClean path) (bPathClean memberName) st fd
      tree.probe.source (hs _ (findFrom_call flags path memberName tree st fd s))
      (ht _ (findFrom_call flags path memberName tree st fd t))
    exact rootEnd_together flags _ _ hrel tree st hresult hworld ⟨h,by rw [hresult]⟩ hs ht

end

end ArchiveTarBuilder
