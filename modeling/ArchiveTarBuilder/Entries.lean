import ArchiveTarBuilder.TraversalOrder

/-! The rounds of a traversal and the entries it comes to: where it starts, which entry a call is
about, and that it runs the same in a world that only remembers more. -/
namespace ArchiveTarBuilder
open CString

section
variable {σ τ : Type*}

def FindCall.map (f : σ → τ) (c : FindCall σ) : FindCall τ :=
  ⟨f c.world,c.path,c.memberName,c.st,c.fd,c.source,c.result⟩

def FindState.map (f : σ → τ) (s : FindState σ) : FindState τ :=
  ⟨f s.world,s.dirs,s.trace.map (FindCall.map f)⟩

/-- Every operation of `w` is one of `w'` on what `f` makes of its world. -/
structure FindWorld.Maps (w : FindWorld σ) (w' : FindWorld τ) (f : σ → τ) : Prop where
  excluded : ∀ s path, w'.excluded (f s) path = ((w.excluded s path).1,f (w.excluded s path).2)
  callback : ∀ s path memberName st fd src, w'.callback (f s) path memberName st fd src =
    ((w.callback s path memberName st fd src).1,f (w.callback s path memberName st fd src).2)
  setError : ∀ s type e message path,
    w'.setError (f s) type e message path = f (w.setError s type e message path)
  setErrno : ∀ s e, w'.setErrno (f s) e = f (w.setErrno s e)
  fatal : ∀ s, w'.fatal (f s) = w.fatal s

variable {w : FindWorld σ} {w' : FindWorld τ} {f : σ → τ}

theorem FindWorld.Maps.findOpen (h : w.Maps w' f) (flags : FindFlags) (s : σ) (path : Bytes)
    (probe : Probe) : findOpen w' flags (f s) path probe =
      ((findOpen w flags s path probe).1,f (findOpen w flags s path probe).2) := by
  unfold ArchiveTarBuilder.findOpen
  cases probe.openAnswer with
  | error e =>
    simp only
    split_ifs
    · cases probe.lstatAnswer with
      | error e => simp [h.setError]
      | ok st => simp [h.setErrno]
    · cases probe.statAnswer with
      | error e => simp [h.setError]
      | ok st =>
        simp only
        split_ifs
        · simp [h.setError]
        · simp [h.setErrno]
    · simp [h.setError]
  | ok fd =>
    cases probe.fcntlAnswer with
    | error e => simp [h.setErrno]
    | ok u =>
      cases probe.fstatAnswer with
      | error e => simp [h.setError]
      | ok st => rfl

theorem FindWorld.Maps.findItem (h : w.Maps w' f) (flags : FindFlags)
    (root rootMember path name : Bytes) (probe : Probe) (s : σ) :
    findItem w' flags root rootMember path name probe (f s) =
      ((findItem w flags root rootMember path name probe s).1,
        (findItem w flags root rootMember path name probe s).2.1.map (FindCall.map f),
        f (findItem w flags root rootMember path name probe s).2.2) := by
  unfold ArchiveTarBuilder.findItem
  simp only [h.excluded,h.findOpen]
  split_ifs
  · rfl
  · rfl
  · rcases ArchiveTarBuilder.findOpen w flags (w.excluded s path).2 path probe with ⟨_ | ⟨st,fd⟩,t⟩
    · rfl
    · simp only [h.callback,h.fatal]
      split_ifs
      · rfl
      · rfl
      · rfl
      · cases probe.opendirAnswer with
        | error e =>
          simp only [h.setError]
          split_ifs <;> rfl
        | ok u => rfl
      · rfl

theorem FindWorld.Maps.findStep (h : w.Maps w' f) (flags : FindFlags) (root rootMember : Bytes)
    (s : FindState σ) : findStep w' flags root rootMember (s.map f) =
      (findStep w flags root rootMember s).map (FindState.map f) (Prod.map id (FindState.map f)) := by
  obtain ⟨world,dirs,trace⟩ := s
  cases dirs with
  | nil => rfl
  | cons top dirs =>
    obtain ⟨dir,listing⟩ := top
    cases listing with
    | eof => rfl
    | failed e => rfl
    | entry name probe sub rest =>
      simp only [ArchiveTarBuilder.findStep,FindState.map,h.findItem]
      rcases ArchiveTarBuilder.findItem w flags root rootMember (bDirItemPath dir name) name probe
        world with ⟨ending,calls,t⟩
      cases ending <;> simp [FindState.map]

theorem FindWorld.Maps.findLoop (h : w.Maps w' f) (flags : FindFlags) (root rootMember : Bytes)
    (s : FindState σ) : findLoop w' flags root rootMember (s.map f) =
      Prod.map id (FindState.map f) (findLoop w flags root rootMember s) := by
  induction s using findLoop.induct w flags root rootMember with
  | case1 s t hstep ih =>
    have hstep' := h.findStep flags root rootMember s
    rw [hstep] at hstep'
    rw [findLoop_step w flags root rootMember hstep,findLoop_step w' flags root rootMember hstep',ih]
  | case2 s r hstep =>
    have hstep' := h.findStep flags root rootMember s
    rw [hstep] at hstep'
    rw [findLoop_end w flags root rootMember hstep,findLoop_end w' flags root rootMember hstep']

theorem FindWorld.Maps.bFind (h : w.Maps w' f) (flags : FindFlags) (path memberName : Bytes)
    (tree : Tree) (s : σ) : bFind w' flags path memberName tree (f s) =
      Prod.map id (FindState.map f) (bFind w flags path memberName tree s) := by
  unfold ArchiveTarBuilder.bFind
  simp only [h.callback,h.setErrno]
  cases bStat flags tree.probe with
  | error e => rfl
  | ok st =>
    simp only
    split
    · rfl
    · rename_i fd hopened
      split_ifs
      · rfl
      · rfl
      · rfl
      · cases tree.probe.opendirAnswer with
        | error e =>
          simp only [h.setError]
          rfl
        | ok u =>
          exact h.findLoop flags (bPathClean path) (bPathClean memberName)
            ⟨(w.callback s (bPathClean path) (bPathClean memberName) st fd tree.probe.source).2,
              [⟨bPathClean path,tree.listing⟩],[⟨s,_,_,_,_,_,_⟩]⟩

end

section
variable {σ : Type*} (w : FindWorld σ) (flags : FindFlags)

/-- The state in which the loop starts, when the traversal gets into the root. -/
def bFindEntered (path memberName : Bytes) (tree : Tree) (world : σ) : Option (FindState σ) :=
  match bStat flags tree.probe with
  | .error _ => none
  | .ok st =>
    let root := bPathClean path
    let rootMember := bPathClean memberName
    let r := w.callback world root rootMember st 0 tree.probe.source
    if st.ifmt = sIfdir ∧ 0 < r.1 ∧ tree.probe.opendirAnswer = .ok () then
      some ⟨r.2,[⟨root,tree.listing⟩],[⟨world,root,rootMember,st,0,tree.probe.source,r.1⟩]⟩
    else none

theorem bFind_entered {path memberName : Bytes} {tree : Tree} {world : σ} {s : FindState σ}
    (h : bFindEntered w flags path memberName tree world = some s) :
    bFind w flags path memberName tree world =
      findLoop w flags (bPathClean path) (bPathClean memberName) s := by
  unfold bFindEntered at h
  unfold bFind
  cases hstat : bStat flags tree.probe with
  | error e => simp [hstat] at h
  | ok st =>
    simp only [hstat] at h ⊢
    split_ifs at h with henter
    obtain ⟨hdir,hpos,hopen⟩ := henter
    obtain rfl := Option.some.inj h
    have hreg : ¬(sIfdir = sIfreg) := by decide
    simp only [hdir,hreg,if_false,hpos.ne',not_lt.mpr hpos.le,ne_eq,not_true_eq_false,hopen]

theorem bFind_not_entered {path memberName : Bytes} {tree : Tree} {world : σ}
    (h : bFindEntered w flags path memberName tree world = none) :
    (bFind w flags path memberName tree world).2.trace.tail = [] := by
  unfold bFindEntered at h
  unfold bFind
  cases hstat : bStat flags tree.probe with
  | error e => rfl
  | ok st =>
    simp only [hstat] at h ⊢
    split
    · rfl
    · rename_i fd hopened
      split_ifs with hzero hneg hdir
      · rfl
      · rfl
      · rfl
      · cases hopen : tree.probe.opendirAnswer with
        | error e => rfl
        | ok u =>
          have hst : st.ifmt = sIfdir := not_not.mp hdir
          have hreg : ¬(st.ifmt = sIfreg) := by rw [hst]; decide
          obtain rfl : (0 : ℤ) = fd := by simpa [hreg] using hopened
          refine absurd h ?_
          rw [if_pos ⟨hst,by omega,hopen⟩]
          exact Option.some_ne_none _

/-- A traversal that gets into the root: the call for the root, then the recursion. -/
theorem bFind_walk {path memberName : Bytes} {tree : Tree} {world : σ} {s : FindState σ}
    (h : bFindEntered w flags path memberName tree world = some s) :
    let r := walk w flags (bPathClean path) (bPathClean memberName) tree.listing (bPathClean path)
      s.world
    (bFind w flags path memberName tree world).1 = (if r.1 then -1 else 0) ∧
      ∃ call, (bFind w flags path memberName tree world).2.trace = call::r.2.1 ∧
        call.path = bPathClean path ∧ call.memberName = bPathClean memberName ∧ 0 < call.result := by
  have hfind := bFind_entered w flags h
  unfold bFindEntered at h
  cases hstat : bStat flags tree.probe with
  | error e => simp [hstat] at h
  | ok st =>
    simp only [hstat] at h
    split_ifs at h with henter
    obtain rfl := Option.some.inj h
    obtain ⟨hret,htrace,-⟩ := findLoop_root w flags (bPathClean path) (bPathClean memberName)
      tree.listing (w.callback world (bPathClean path) (bPathClean memberName) st 0
        tree.probe.source).2 [⟨world,bPathClean path,bPathClean memberName,st,0,tree.probe.source,
        (w.callback world (bPathClean path) (bPathClean memberName) st 0 tree.probe.source).1⟩]
    rw [hfind]
    exact ⟨hret,_,htrace,rfl,rfl,henter.2.1⟩

variable (root rootMember : Bytes)

/-- The states in front of the rounds of the loop, from a state that it starts in. -/
inductive Rounds (start : FindState σ) : FindState σ → Prop
  | first : Rounds start start
  | next {s t : FindState σ} (h : Rounds start s) (hstep : findStep w flags root rootMember s = .inl t) :
      Rounds start t

end

/-- An entry of a listing, with its name and those of the directories on the way to it. -/
inductive Listing.Chain : Listing → List (Bytes × Probe) → Prop
  | here {name : Bytes} {probe : Probe} {sub rest : Listing} :
      Chain (.entry name probe sub rest) [(name,probe)]
  | inside {name : Bytes} {probe : Probe} {sub rest : Listing} {chain : List (Bytes × Probe)}
      (h : sub.Chain chain) : Chain (.entry name probe sub rest) ((name,probe)::chain)
  | next {name : Bytes} {probe : Probe} {sub rest : Listing} {chain : List (Bytes × Probe)}
      (h : rest.Chain chain) : Chain (.entry name probe sub rest) chain

def entryPath (dir : Bytes) (chain : List (Bytes × Probe)) : Bytes :=
  (chain.map Prod.fst).foldl bDirItemPath dir

theorem Listing.Chain.ne_nil {l : Listing} {chain : List (Bytes × Probe)} (h : l.Chain chain) :
    chain ≠ [] := by
  induction h with
  | here => simp
  | inside h ih => simp
  | next h ih => exact ih

theorem Listing.Chain.proper {l : Listing} {chain : List (Bytes × Probe)} (h : l.Chain chain)
    (hp : l.Proper) : ∀ e ∈ chain, e.1 ≠ [] ∧ slash ∉ e.1 := by
  induction h with
  | here =>
    intro e he
    rw [List.mem_singleton.mp he]
    exact ⟨hp.1,hp.2.1⟩
  | inside h ih =>
    intro e he
    rcases List.mem_cons.mp he with rfl | he
    · exact ⟨hp.1,hp.2.1⟩
    · exact ih hp.2.2.2.1 e he
  | next h ih => exact ih hp.2.2.2.2

section
variable {σ : Type*} (w : FindWorld σ) (flags : FindFlags) (root rootMember : Bytes)

def FindCall.About (c : FindCall σ) (dir : Bytes) (chain : List (Bytes × Probe)) : Prop :=
  c.path = entryPath dir chain ∧
    c.memberName = (substMemberName root rootMember c.path).getD c.path ∧
    ∀ e ∈ chain, e.1 ≠ dot ∧ e.1 ≠ dotDot

variable {root rootMember}

theorem FindCall.About.below {c : FindCall σ} {dir name : Bytes} {chain : List (Bytes × Probe)}
    (h : c.About root rootMember (bDirItemPath dir name) chain) (hdot : name ≠ dot)
    (hdots : name ≠ dotDot) (probe : Probe) : c.About root rootMember dir ((name,probe)::chain) := by
  refine ⟨h.1,h.2.1,?_⟩
  intro e he
  rcases List.mem_cons.mp he with rfl | he
  · exact ⟨hdot,hdots⟩
  · exact h.2.2 e he

variable (root rootMember)

theorem findOpen_eq (world : σ) (path : Bytes) (probe : Probe) :
    (findOpen w flags world path probe).1 = probe.opened flags := by
  cases hopened : probe.opened flags with
  | some found => rw [findOpen_opened w flags hopened]
  | none =>
    unfold Probe.opened at hopened
    unfold findOpen
    cases hopen : probe.openAnswer with
    | error e =>
      simp only [hopen] at hopened ⊢
      split_ifs at hopened ⊢
      · cases hlstat : probe.lstatAnswer with
        | error e => rfl
        | ok st => simp [hlstat,Except.toOption] at hopened
      · cases probe.statAnswer with
        | error e => rfl
        | ok st =>
          simp only
          split_ifs <;> rfl
      · rfl
    | ok fd =>
      simp only [hopen] at hopened ⊢
      cases hfcntl : probe.fcntlAnswer with
      | error e => rfl
      | ok u =>
        cases hfstat : probe.fstatAnswer with
        | error e => rfl
        | ok st => simp [hfcntl,hfstat] at hopened

def entryCall (world : σ) (path : Bytes) (probe : Probe) (st : Stat) (fd : ℤ) : FindCall σ :=
  let member := (substMemberName root rootMember path).getD path
  ⟨world,path,member,st,fd,probe.source,(w.callback world path member st fd probe.source).1⟩

/-- What a round makes of an entry: it is passed over, or passed on, and then it is gone into if
it is a directory that was reported well and can be opened. -/
inductive ItemSpec (path name : Bytes) (probe : Probe) (world : σ) :
    ItemEnd × List (FindCall σ) × σ → Prop
  | named (h : name = dot ∨ name = dotDot) : ItemSpec path name probe world (.cleanup,[],world)
  | excluded (hdot : name ≠ dot) (hdots : name ≠ dotDot) (h : (w.excluded world path).1 = true) :
      ItemSpec path name probe world (.cleanup,[],(w.excluded world path).2)
  | unopened {world' : σ} (hdot : name ≠ dot) (hdots : name ≠ dotDot)
      (h : (w.excluded world path).1 = false) (hopened : probe.opened flags = none)
      (hworld : (∃ e, world' = w.setErrno (w.excluded world path).2 e) ∨
        ∃ e message, world' = w.setError (w.excluded world path).2 .warn e message path) :
      ItemSpec path name probe world (.cleanup,[],world')
  | called {st : Stat} {fd : ℤ} {ending : ItemEnd} {world' : σ} {call : FindCall σ}
      (hdot : name ≠ dot) (hdots : name ≠ dotDot)
      (h : (w.excluded world path).1 = false) (hopened : probe.opened flags = some (st,fd))
      (hcall : call = entryCall w root rootMember (probe.behindOpen w (w.excluded world path).2) path
        probe st fd)
      (hworld : world' = call.after w ∨
        ∃ e message, world' = w.setError (call.after w) .warn e message path)
      (hdescend : ending = .descend ↔
        0 < call.result ∧ st.ifmt = sIfdir ∧ probe.opendirAnswer = .ok ()) :
      ItemSpec path name probe world (ending,[call],world')

theorem findOpen_world (world : σ) (path : Bytes) (probe : Probe)
    (h : (findOpen w flags world path probe).1 = none) :
    (∃ e, (findOpen w flags world path probe).2 = w.setErrno world e) ∨
      ∃ e message, (findOpen w flags world path probe).2 = w.setError world .warn e message path := by
  unfold findOpen at h ⊢
  cases hopen : probe.openAnswer with
  | error e =>
    simp only [hopen] at h ⊢
    split_ifs at h ⊢
    · cases hlstat : probe.lstatAnswer with
      | error e => exact Or.inr ⟨_,_,rfl⟩
      | ok st => simp [hlstat] at h
    · cases probe.statAnswer with
      | error e => exact Or.inr ⟨_,_,rfl⟩
      | ok st =>
        simp only
        split_ifs
        · exact Or.inr ⟨_,_,rfl⟩
        · exact Or.inl ⟨_,rfl⟩
    · exact Or.inr ⟨_,_,rfl⟩
  | ok fd =>
    simp only [hopen] at h ⊢
    cases hfcntl : probe.fcntlAnswer with
    | error e => exact Or.inl ⟨_,rfl⟩
    | ok u =>
      simp only [hfcntl] at h ⊢
      cases hfstat : probe.fstatAnswer with
      | error e => exact Or.inr ⟨_,_,rfl⟩
      | ok st => simp [hfstat] at h

theorem findItem_spec (path name : Bytes) (probe : Probe) (world : σ) :
    ItemSpec w flags root rootMember path name probe world
      (findItem w flags root rootMember path name probe world) := by
  unfold findItem
  by_cases hname : name = dot ∨ name = dotDot
  · rw [if_pos hname]
    exact .named hname
  · rw [if_neg hname]
    rw [not_or] at hname
    by_cases hexcluded : (w.excluded world path).1 = true
    · simp only [hexcluded,if_true]
      exact .excluded hname.1 hname.2 hexcluded
    · rw [Bool.not_eq_true] at hexcluded
      simp only [hexcluded,Bool.false_eq_true,if_false]
      cases hopened : probe.opened flags with
      | none =>
        have heq := findOpen_eq w flags (w.excluded world path).2 path probe
        have hworld := findOpen_world w flags (w.excluded world path).2 path probe
        generalize findOpen w flags (w.excluded world path).2 path probe = r at heq hworld ⊢
        obtain ⟨found,world'⟩ := r
        obtain rfl : found = none := heq.trans hopened
        exact .unopened hname.1 hname.2 hexcluded hopened (hworld rfl)
      | some found =>
        obtain ⟨st,fd⟩ := found
        rw [findOpen_opened w flags hopened]
        have hspec {ending : ItemEnd} {world' : σ} :=
          @ItemSpec.called σ w flags root rootMember path
          name probe world st fd ending world' _ hname.1 hname.2 hexcluded hopened rfl
        simp only [entryCall,FindCall.after] at hspec ⊢
        generalize w.callback (probe.behindOpen w (w.excluded world path).2) path
          ((substMemberName root rootMember path).getD path) st fd probe.source = r at hspec ⊢
        have hno : ItemEnd.cleanup ≠ .descend := by decide
        have hno' : ItemEnd.errorItem ≠ .descend := by decide
        split_ifs with hzero hneg hfatal hdir
        · exact hspec (Or.inl rfl) (iff_of_false hno fun h => by omega)
        · exact hspec (Or.inl rfl) (iff_of_false hno fun h => by omega)
        · exact hspec (Or.inl rfl) (iff_of_false hno' fun h => by omega)
        · cases hopendir : probe.opendirAnswer with
          | error e =>
            have hclosed : ¬(probe.opendirAnswer = .ok ()) := by simp [hopendir]
            simp only
            split_ifs
            · exact hspec (Or.inr ⟨_,_,rfl⟩) (iff_of_false hno fun h => hclosed h.2.2)
            · exact hspec (Or.inr ⟨_,_,rfl⟩) (iff_of_false hno' fun h => hclosed h.2.2)
          | ok u => exact hspec (Or.inl rfl) (iff_of_true rfl ⟨by omega,hdir,hopendir⟩)
        · exact hspec (Or.inl rfl) (iff_of_false hno fun h => hdir h.2.1)

theorem walk_about (l : Listing) (dir : Bytes) (world : σ) :
    ∀ c ∈ (walk w flags root rootMember l dir world).2.1,
      ∃ chain, l.Chain chain ∧ c.About root rootMember dir chain := by
  induction l generalizing dir world with
  | eof => simp [walk]
  | failed e => simp [walk]
  | entry name probe sub rest ihsub ihrest =>
    have hspec := findItem_spec w flags root rootMember (bDirItemPath dir name) name probe world
    simp only [walk]
    generalize findItem w flags root rootMember (bDirItemPath dir name) name probe world =
    r at hspec ⊢
    obtain ⟨ending,calls,world'⟩ := r
    have hcalls : ∀ c ∈ calls, name ≠ dot ∧ name ≠ dotDot ∧
        c.About root rootMember dir [(name,probe)] := by
      cases hspec with
      | named h => simp
      | excluded hdot hdots h => simp
      | unopened hdot hdots h hopened hworld => simp
      | called hdot hdots h hopened hcall hworld hdescend =>
        intro c hc
        rw [List.mem_singleton.mp hc,hcall]
        exact ⟨hdot,hdots,rfl,rfl,by simp [hdot,hdots]⟩
    have hhere {c : FindCall σ} (hc : c ∈ calls) :
        ∃ chain, (Listing.entry name probe sub rest).Chain chain ∧
        c.About root rootMember dir chain :=
      ⟨_,.here,(hcalls c hc).2.2⟩
    have hnext {c : FindCall σ} {world : σ}
        (hc : c ∈ (walk w flags root rootMember rest dir world).2.1) :
        ∃ chain, (Listing.entry name probe sub rest).Chain chain ∧
          c.About root rootMember dir chain := by
      obtain ⟨chain,hchain,habout⟩ := ihrest dir world c hc
      exact ⟨chain,.next hchain,habout⟩
    cases ending with
    | cleanup => exact fun c hc => (List.mem_append.mp hc).elim hhere hnext
    | errorItem => exact fun c => hhere
    | descend =>
      have hnames : name ≠ dot ∧ name ≠ dotDot := by
        cases hspec with
        | called hdot hdots h hopened hcall hworld hdescend => exact ⟨hdot,hdots⟩
      have hinside {c : FindCall σ}
          (hc : c ∈ (walk w flags root rootMember sub (bDirItemPath dir name) world').2.1) :
          ∃ chain, (Listing.entry name probe sub rest).Chain chain ∧
            c.About root rootMember dir chain := by
        obtain ⟨chain,hchain,habout⟩ := ihsub (bDirItemPath dir name) world' c hc
        exact ⟨_,.inside hchain,habout.below hnames.1 hnames.2 probe⟩
      simp only
      split
      · exact fun c hc => (List.mem_append.mp hc).elim hhere hinside
      · intro c hc
        rcases List.mem_append.mp hc with hc | hc
        · exact (List.mem_append.mp hc).elim hhere hinside
        · exact hnext hc

end

def easyWorld : FindWorld Unit where
  excluded s _ := (false,s)
  callback s _ _ _ _ _ := (1,s)
  setError s _ _ _ _ := s
  setErrno s _ := s
  fatal _ := false

def answers (st : Stat) (fcntl : Except Errno Unit) : Probe :=
  ⟨.ok 5,fcntl,.ok st,.ok st,.ok st,.ok (),⟨.ok [],[],⟨[],[]⟩⟩⟩

end ArchiveTarBuilder
