import ArchiveTarBuilder.EntryNames
import ArchiveTarBuilder.Visits

/-! Which entries a traversal comes to, told from the tree alone: the tests of the paths are known,
and so are the calls that end it and those that let it into a directory. -/
namespace ArchiveTarBuilder
open CString

theorem Listing.Chain.head_names {l : Listing} {chain : List (Bytes × Probe)} (h : l.Chain chain) :
    ∃ e ∈ chain.head?, e.1 ∈ l.names := by
  induction h with
  | here => exact ⟨_,rfl,List.mem_cons_self⟩
  | inside h ih => exact ⟨_,rfl,List.mem_cons_self⟩
  | next h ih =>
    obtain ⟨e,he,hname⟩ := ih
    exact ⟨e,he,List.mem_cons_of_mem _ hname⟩

theorem Listing.Chain.eq_of_names {l : Listing} (hp : l.Proper) {chain chain' : List (Bytes × Probe)}
    (h : l.Chain chain) (h' : l.Chain chain') (heq : chainNames chain = chainNames chain') :
    chain = chain' := by
  -- an entry behind the first one has another name
  have hother {name : Bytes} {probe : Probe} {rest : Listing} {xs ys : List (Bytes × Probe)}
      (hnew : name ∉ rest.names) (hx : rest.Chain xs)
      (hnames : chainNames xs = chainNames ((name,probe)::ys)) : False := by
    obtain ⟨e,he,hmem⟩ := hx.head_names
    obtain ⟨tail,rfl⟩ := List.head?_eq_some_iff.mp he
    have hname : e.1 = name := (List.cons.inj hnames).1
    exact hnew (hname ▸ hmem)
  induction h generalizing chain' with
  | here =>
    cases h' with
    | here => rfl
    | inside h' => exact absurd (List.cons.inj heq).2.symm (by simpa using h'.ne_nil)
    | next h' => exact (hother hp.2.2.1 h' heq.symm).elim
  | inside h ih =>
    cases h' with
    | here => exact absurd (List.cons.inj heq).2 (by simpa using h.ne_nil)
    | inside h' => rw [ih hp.2.2.2.1 h' (List.cons.inj heq).2]
    | next h' => exact (hother hp.2.2.1 h' heq.symm).elim
  | next h ih =>
    cases h' with
    | here => exact (hother hp.2.2.1 h heq).elim
    | inside h' => exact (hother hp.2.2.1 h heq).elim
    | next h' => exact ih hp.2.2.2.2 h' heq

theorem Listing.Chain.names_eq {l : Listing} (hp : l.Proper) {dir : Bytes}
    {chain chain' : List (Bytes × Probe)} (h : l.Chain chain) (h' : l.Chain chain')
    (heq : entryPath dir chain = entryPath dir chain') : chainNames chain = chainNames chain' := by
  have htok {xs : List (Bytes × Probe)} (hx : l.Chain xs) : TokenItems (chainNames xs) := by
    intro x hmem
    obtain ⟨e,he,rfl⟩ := List.mem_map.mp hmem
    exact hx.proper hp e he
  rw [entryPath_eq dir h.ne_nil fun e he => (h.proper hp e he).1,
    entryPath_eq dir h'.ne_nil fun e he => (h'.proper hp e he).1,List.append_cancel_left_eq] at heq
  rw [← strtok_joinPath (htok h),heq,strtok_joinPath (htok h')]

theorem Listing.Chain.eq_of_path {l : Listing} (hp : l.Proper) {dir : Bytes}
    {chain chain' : List (Bytes × Probe)} (h : l.Chain chain) (h' : l.Chain chain')
    (heq : entryPath dir chain = entryPath dir chain') : chain = chain' :=
  h.eq_of_names hp h' (h.names_eq hp h' heq)

theorem entryPath_names (dir : Bytes) (chain : List (Bytes × Probe)) :
    entryPath dir chain = (chainNames chain).foldl bDirItemPath dir := rfl

theorem entryPath_ne (dir : Bytes) {chain : List (Bytes × Probe)} (hne : chain ≠ [])
    (hnames : ∀ e ∈ chain, e.1 ≠ []) : entryPath dir chain ≠ dir := by
  obtain ⟨e,tail,rfl⟩ := List.exists_cons_of_ne_nil hne
  rw [entryPath_eq dir hne hnames]
  intro heq
  have hlen := congrArg List.length heq
  have hle := length_le_dirPrefix dir
  have hname := List.length_pos_iff.mpr (hnames e List.mem_cons_self)
  have hjoin : e.1.length ≤ (joinPath (chainNames (e::tail))).length := by
    by_cases hnil : chainNames tail = []
    · simp only [chainNames,List.map_cons] at hnil ⊢
      simp [hnil,joinPath,bStringJoin]
    · rw [chainNames,List.map_cons,joinPath_cons hnil]
      simp
  rw [List.length_append] at hlen
  omega

/-- An entry is read in front of another one that is not below it. -/
inductive Listing.Before : Listing → List (Bytes × Probe) → List (Bytes × Probe) → Prop
  | own {name : Bytes} {probe : Probe} {sub rest : Listing} {chain : List (Bytes × Probe)}
      (h : rest.Chain chain) : Before (.entry name probe sub rest) [(name,probe)] chain
  | behind {name : Bytes} {probe : Probe} {sub rest : Listing} {inner chain : List (Bytes × Probe)}
      (hinner : sub.Chain inner) (h : rest.Chain chain) :
      Before (.entry name probe sub rest) ((name,probe)::inner) chain
  | inside {name : Bytes} {probe : Probe} {sub rest : Listing} {first chain : List (Bytes × Probe)}
      (h : sub.Before first chain) :
      Before (.entry name probe sub rest) ((name,probe)::first) ((name,probe)::chain)
  | next {name : Bytes} {probe : Probe} {sub rest : Listing} {first chain : List (Bytes × Probe)}
      (h : rest.Before first chain) : Before (.entry name probe sub rest) first chain

theorem Listing.Before.chain {l : Listing} {first chain : List (Bytes × Probe)}
    (h : l.Before first chain) : l.Chain chain := by
  induction h with
  | own h => exact .next h
  | behind hinner h => exact .next h
  | inside h ih => exact .inside ih
  | next h ih => exact .next ih

theorem Listing.Before.first {l : Listing} {first chain : List (Bytes × Probe)}
    (h : l.Before first chain) : l.Chain first := by
  induction h with
  | own h => exact .here
  | behind hinner h => exact .inside hinner
  | inside h ih => exact .inside ih
  | next h ih => exact .next ih

section
variable {name : Bytes} {probe : Probe} {sub rest : Listing}

theorem Listing.Proper.not_rest (hp : (Listing.entry name probe sub rest).Proper)
    {chain : List (Bytes × Probe)} : ¬rest.Chain ((name,probe)::chain) := by
  intro h
  obtain ⟨e,he,hname⟩ := h.head_names
  obtain rfl := Option.some.inj he
  exact hp.2.2.1 hname

theorem Listing.Before.not_here (hp : (Listing.entry name probe sub rest).Proper)
    {first : List (Bytes × Probe)} :
    ¬(Listing.entry name probe sub rest).Before first [(name,probe)] := by
  intro h
  cases h with
  | own h => exact hp.not_rest h
  | behind hinner h => exact hp.not_rest h
  | inside h => exact h.chain.ne_nil rfl
  | next h => exact hp.not_rest h.chain

theorem Listing.Before.inside_iff (hp : (Listing.entry name probe sub rest).Proper)
    {first chain : List (Bytes × Probe)} :
    (Listing.entry name probe sub rest).Before first ((name,probe)::chain) ↔
      ∃ inner, first = (name,probe)::inner ∧ sub.Before inner chain := by
  constructor
  · intro h
    cases h with
    | own h => exact (hp.not_rest h).elim
    | behind hinner h => exact (hp.not_rest h).elim
    | inside h => exact ⟨_,rfl,h⟩
    | next h => exact (hp.not_rest h.chain).elim
  · rintro ⟨inner,rfl,h⟩
    exact .inside h

theorem Listing.Before.next_iff (hp : (Listing.entry name probe sub rest).Proper)
    {first chain : List (Bytes × Probe)} (hchain : rest.Chain chain) :
    (Listing.entry name probe sub rest).Before first chain ↔
      first = [(name,probe)] ∨ (∃ inner, sub.Chain inner ∧ first = (name,probe)::inner) ∨
        rest.Before first chain := by
  constructor
  · intro h
    cases h with
    | own h => exact Or.inl rfl
    | behind hinner h => exact Or.inr (Or.inl ⟨_,hinner,rfl⟩)
    | inside h => exact (hp.not_rest hchain).elim
    | next h => exact Or.inr (Or.inr h)
  · rintro (rfl | ⟨inner,hinner,rfl⟩ | h)
    · exact .own hchain
    · exact .behind hinner hchain
    · exact .next h

end

/-- What decides a traversal besides the tree: its flags and its names, the tests of the paths, the
calls that end it, and the directories whose calls let it in. -/
structure Course where
  flags : FindFlags
  root : Bytes
  rootMember : Bytes
  excluded : Bytes → Bool
  ends : Bytes → Stat → Source → Prop
  enters : Bytes → Stat → Source → Prop

namespace Course
variable (k : Course)

def memberName (path : Bytes) : Bytes := (substMemberName k.root k.rootMember path).getD path

structure Called (path name : Bytes) (probe : Probe) (st : Stat) : Prop where
  notDot : name ≠ dot
  notDotDot : name ≠ dotDot
  included : k.excluded path = false
  opened : ∃ fd, probe.opened k.flags = some (st,fd)

structure Entered (path name : Bytes) (probe : Probe) (st : Stat) : Prop
    extends k.Called path name probe st where
  directory : st.ifmt = sIfdir
  written : k.enters (k.memberName path) st probe.source
  opendir : probe.opendirAnswer = .ok ()

/-- It ends the traversal: the call for it does, or a directory cannot be listed, and not because
access is denied. -/
def Halts (path name : Bytes) (probe : Probe) (st : Stat) : Prop :=
  k.Called path name probe st ∧ (k.ends (k.memberName path) st probe.source ∨
    (st.ifmt = sIfdir ∧ k.enters (k.memberName path) st probe.source ∧
      ∃ e, probe.opendirAnswer = .error e ∧ e ≠ .eacces))

/-- The directories above an entry are gone into, and `P` holds of the entry itself. -/
def Along (P : Bytes → Bytes → Probe → Stat → Prop) : Bytes → List (Bytes × Probe) → Prop
  | _,[] => False
  | dir,[(name,probe)] => ∃ st, P (bDirItemPath dir name) name probe st
  | dir,(name,probe)::next::chain =>
    (∃ st, k.Entered (bDirItemPath dir name) name probe st) ∧
      Along P (bDirItemPath dir name) (next::chain)

/-- The traversal of a directory comes to this entry and passes it on: nothing in front of the entry
ends it. -/
def Takes (l : Listing) (dir : Bytes) (chain : List (Bytes × Probe)) : Prop :=
  k.Along k.Called dir chain ∧ ∀ first, l.Before first chain → ¬k.Along k.Halts dir first

def RootEntered (tree : Tree) : Prop :=
  ∃ st fd, tree.probe.rootOpened k.flags = some (st,fd) ∧ st.ifmt = sIfdir ∧
    k.enters k.rootMember st tree.probe.source ∧ tree.probe.opendirAnswer = .ok ()

variable {k}

theorem along_cons {P : Bytes → Bytes → Probe → Stat → Prop} {dir name : Bytes} {probe : Probe}
    {chain : List (Bytes × Probe)} (hne : chain ≠ []) : k.Along P dir ((name,probe)::chain) ↔
      (∃ st, k.Entered (bDirItemPath dir name) name probe st) ∧
        k.Along P (bDirItemPath dir name) chain := by
  obtain ⟨next,rest,rfl⟩ := List.exists_cons_of_ne_nil hne
  rfl

theorem exists_along_entry {P : Bytes → Bytes → Probe → Stat → Prop} {dir name : Bytes}
    {probe : Probe} {sub rest : Listing} :
    (∃ chain, (Listing.entry name probe sub rest).Chain chain ∧ k.Along P dir chain) ↔
      (∃ st, P (bDirItemPath dir name) name probe st) ∨
      ((∃ st, k.Entered (bDirItemPath dir name) name probe st) ∧
        ∃ chain, sub.Chain chain ∧ k.Along P (bDirItemPath dir name) chain) ∨
      ∃ chain, rest.Chain chain ∧ k.Along P dir chain := by
  constructor
  · rintro ⟨chain,hchain,halong⟩
    cases hchain with
    | here => exact Or.inl halong
    | inside h =>
      obtain ⟨hentered,halong⟩ := (along_cons h.ne_nil).mp halong
      exact Or.inr (Or.inl ⟨hentered,_,h,halong⟩)
    | next h => exact Or.inr (Or.inr ⟨_,h,halong⟩)
  · rintro (hP | ⟨hentered,chain,h,halong⟩ | ⟨chain,h,halong⟩)
    · exact ⟨_,.here,hP⟩
    · exact ⟨_,.inside h,(along_cons h.ne_nil).mpr ⟨hentered,halong⟩⟩
    · exact ⟨_,.next h,halong⟩

theorem Takes.included {l : Listing} {dir : Bytes} {chain : List (Bytes × Probe)}
    (h : k.Takes l dir chain) : k.excluded (entryPath dir chain) = false := by
  have halong := h.1
  clear h
  induction chain generalizing dir with
  | nil => exact halong.elim
  | cons e chain ih =>
    obtain ⟨name,probe⟩ := e
    by_cases hnil : chain = []
    · subst hnil
      obtain ⟨st,hcalled⟩ := halong
      exact hcalled.included
    · exact ih ((along_cons hnil).mp halong).2

theorem takes_here {dir name : Bytes} {probe : Probe} {sub rest : Listing}
    (hp : (Listing.entry name probe sub rest).Proper) :
    k.Takes (.entry name probe sub rest) dir [(name,probe)] ↔
      ∃ st, k.Called (bDirItemPath dir name) name probe st :=
  and_iff_left fun _ hfirst => absurd hfirst (Listing.Before.not_here hp)

theorem takes_inside {dir name : Bytes} {probe : Probe} {sub rest : Listing}
    (hp : (Listing.entry name probe sub rest).Proper) {chain : List (Bytes × Probe)}
    (hne : chain ≠ []) : k.Takes (.entry name probe sub rest) dir ((name,probe)::chain) ↔
      (∃ st, k.Entered (bDirItemPath dir name) name probe st) ∧
        k.Takes sub (bDirItemPath dir name) chain := by
  rw [Takes,Takes,along_cons hne,and_assoc]
  refine and_congr_right fun hentered => and_congr_right fun _ => ?_
  constructor
  · intro hall inner hinner halts
    refine hall _ ((Listing.Before.inside_iff hp).mpr ⟨inner,rfl,hinner⟩) ?_
    exact (along_cons hinner.first.ne_nil).mpr ⟨hentered,halts⟩
  · intro hall first hfirst halts
    obtain ⟨inner,rfl,hinner⟩ := (Listing.Before.inside_iff hp).mp hfirst
    exact hall inner hinner ((along_cons hinner.first.ne_nil).mp halts).2

theorem takes_next {dir name : Bytes} {probe : Probe} {sub rest : Listing}
    (hp : (Listing.entry name probe sub rest).Proper) {chain : List (Bytes × Probe)}
    (hchain : rest.Chain chain) : k.Takes (.entry name probe sub rest) dir chain ↔
      (¬∃ st, k.Halts (bDirItemPath dir name) name probe st) ∧
      ((∃ st, k.Entered (bDirItemPath dir name) name probe st) →
        ¬∃ inner, sub.Chain inner ∧ k.Along k.Halts (bDirItemPath dir name) inner) ∧
      k.Takes rest dir chain := by
  constructor
  · rintro ⟨hcalled,hall⟩
    refine ⟨hall _ (.own hchain),?_,hcalled,fun first hfirst => hall first (.next hfirst)⟩
    rintro hentered ⟨inner,hinner,halts⟩
    exact hall _ (.behind hinner hchain) ((along_cons hinner.ne_nil).mpr ⟨hentered,halts⟩)
  · rintro ⟨hown,hbelow,hcalled,hall⟩
    refine ⟨hcalled,fun first hfirst halts => ?_⟩
    rcases (Listing.Before.next_iff hp hchain).mp hfirst with rfl | ⟨inner,hinner,rfl⟩ | hfirst
    · exact hown halts
    · obtain ⟨hentered,halts⟩ := (along_cons hinner.ne_nil).mp halts
      exact hbelow hentered ⟨inner,hinner,halts⟩
    · exact hall first hfirst halts

end Course

section
variable {σ : Type*} (w : FindWorld σ)

/-- In the worlds that `fixed` holds of, and they stay among each other, the test of a path always
gives the answer `verdict`. -/
structure FindWorld.Judges (fixed : σ → Prop) (verdict : Bytes → Bool) : Prop where
  test : ∀ s path, fixed s → (w.excluded s path).1 = verdict path
  excluded : ∀ s path, fixed s → fixed (w.excluded s path).2
  callback : ∀ s path memberName st fd src, fixed s →
    fixed (w.callback s path memberName st fd src).2
  setError : ∀ s type e message path, fixed s → fixed (w.setError s type e message path)
  setErrno : ∀ s e, fixed s → fixed (w.setErrno s e)

/-- Among such worlds it is also told which calls end the traversal and which let it into a
directory, for members with these names. -/
structure FindWorld.Settles (k : Course) (fixed : σ → Prop) (named : Bytes → Prop) : Prop
    extends w.Judges fixed k.excluded where
  ends : ∀ s path memberName st fd src, fixed s → named memberName →
    ((w.callback s path memberName st fd src).1 < 0 ∧
      w.fatal (w.callback s path memberName st fd src).2 = true ↔ k.ends memberName st src)
  enters : ∀ s path memberName st fd src, fixed s → named memberName → st.ifmt = sIfdir →
    (0 < (w.callback s path memberName st fd src).1 ↔ k.enters memberName st src)

variable {w} {k : Course} {fixed : σ → Prop} {named : Bytes → Prop}

theorem FindWorld.Judges.behindOpen {verdict : Bytes → Bool} (h : w.Judges fixed verdict)
    (probe : Probe) {world : σ} (hfixed : fixed world) : fixed (probe.behindOpen w world) := by
  unfold Probe.behindOpen
  split
  · exact hfixed
  · exact h.setErrno _ _ hfixed

theorem findItem_fixed {verdict : Bytes → Bool} (h : w.Judges fixed verdict) (flags : FindFlags)
    (root rootMember path name : Bytes) (probe : Probe) {world : σ} (hfixed : fixed world) :
    fixed (findItem w flags root rootMember path name probe world).2.2 := by
  have hspec := findItem_spec w flags root rootMember path name probe world
  generalize findItem w flags root rootMember path name probe world = r at hspec ⊢
  have hverdict := h.excluded world path hfixed
  cases hspec with
  | named hname => exact hfixed
  | excluded hdot hdots hexcluded => exact hverdict
  | unopened hdot hdots hincluded hopened hworld =>
    rcases hworld with ⟨e,rfl⟩ | ⟨e,message,rfl⟩
    · exact h.setErrno _ _ hverdict
    · exact h.setError _ _ _ _ _ hverdict
  | @called st fd ending world' call hdot hdots hincluded hopened hcall hworld hdescend =>
    have hafter : fixed (call.after w) := by
      rw [hcall]
      exact h.callback _ _ _ _ _ _ (h.behindOpen probe hverdict)
    rcases hworld with rfl | ⟨e,message,rfl⟩
    · exact hafter
    · exact h.setError _ _ _ _ _ hafter

theorem walk_fixed {verdict : Bytes → Bool} (h : w.Judges fixed verdict) (flags : FindFlags)
    (root rootMember : Bytes) (l : Listing) (dir : Bytes) {world : σ} (hfixed : fixed world) :
    fixed (walk w flags root rootMember l dir world).2.2 := by
  induction l generalizing dir world with
  | eof => exact hfixed
  | failed e => exact hfixed
  | entry name probe sub rest ihsub ihrest =>
    have hitem := findItem_fixed h flags root rootMember (bDirItemPath dir name) name probe hfixed
    simp only [walk]
    generalize findItem w flags root rootMember (bDirItemPath dir name) name probe world =
    r at hitem ⊢
    obtain ⟨ending,calls,s⟩ := r
    cases ending with
    | cleanup => exact ihrest dir hitem
    | errorItem => exact hitem
    | descend =>
      have hsub := ihsub (bDirItemPath dir name) hitem
      simp only
      split
      · exact hsub
      · exact ihrest dir hsub

/-- The calls of a walk: those for the first entry, those below it, and those for the rest. -/
theorem mem_walk_entry {flags : FindFlags} {root rootMember name dir : Bytes} {probe : Probe}
    {sub rest : Listing} {world : σ} {c : FindCall σ} :
    let item := findItem w flags root rootMember (bDirItemPath dir name) name probe world
    let below := walk w flags root rootMember sub (bDirItemPath dir name) item.2.2
    c ∈ (walk w flags root rootMember (.entry name probe sub rest) dir world).2.1 ↔
      c ∈ item.2.1 ∨ (item.1 = .descend ∧ c ∈ below.2.1) ∨
        (item.1 = .cleanup ∧ c ∈ (walk w flags root rootMember rest dir item.2.2).2.1) ∨
        (item.1 = .descend ∧ below.1 = false ∧
          c ∈ (walk w flags root rootMember rest dir below.2.2).2.1) := by
  simp only [walk]
  generalize findItem w flags root rootMember (bDirItemPath dir name) name probe world = r
  obtain ⟨ending,calls,s⟩ := r
  cases ending with
  | cleanup => simp
  | errorItem => simp
  | descend =>
    simp only
    cases hcut : (walk w flags root rootMember sub (bDirItemPath dir name) s).1 with
    | true => simp
    | false => simp

theorem walk_path {flags : FindFlags} {root rootMember dir : Bytes} {l : Listing} {world : σ}
    {c : FindCall σ} (hc : c ∈ (walk w flags root rootMember l dir world).2.1) :
    ∃ chain, l.Chain chain ∧ c.path = entryPath dir chain := by
  obtain ⟨chain,hchain,habout⟩ := walk_about w flags root rootMember l dir world c hc
  exact ⟨chain,hchain,habout.1⟩

variable (w) in
theorem bFind_unopened {flags : FindFlags} {tree : Tree} (h : tree.probe.rootOpened flags = none)
    (path memberName : Bytes) (world : σ) :
    (bFind w flags path memberName tree world).2.trace = [] := by
  unfold Probe.rootOpened at h
  cases hstat : bStat flags tree.probe with
  | error e => simp only [bFind,hstat]
  | ok st =>
    simp only [hstat] at h
    by_cases hreg : st.ifmt = sIfreg
    · simp only [if_pos hreg] at h
      cases hopen : tree.probe.openAnswer with
      | error e => simp only [bFind,hstat,if_pos hreg,hopen]
      | ok fd =>
        cases hfcntl : tree.probe.fcntlAnswer with
        | error e => simp only [bFind,hstat,if_pos hreg,hopen,hfcntl,Except.map]
        | ok u => simp [hopen,hfcntl] at h
    · simp [hreg] at h

variable (w) in
theorem bFind_rootCall {flags : FindFlags} {tree : Tree} {st : Stat} {fd : ℤ}
    (hopened : tree.probe.rootOpened flags = some (st,fd)) (path memberName : Bytes) (world : σ) :
    (⟨world,bPathClean path,bPathClean memberName,st,fd,tree.probe.source,
        (w.callback world (bPathClean path) (bPathClean memberName) st fd tree.probe.source).1⟩ :
      FindCall σ) ∈ (bFind w flags path memberName tree world).2.trace := by
  rw [bFind_rootOpened w hopened path memberName world]
  exact findFrom_call flags path memberName tree st fd world

/-- A call is made for the inode that opening the entry has found, under the entry's member name. -/
structure FindCall.Opened (flags : FindFlags) (root rootMember dir : Bytes)
    (chain : List (Bytes × Probe)) (c : FindCall σ) : Prop where
  path : c.path = entryPath dir chain
  memberName : c.memberName = (substMemberName root rootMember c.path).getD c.path
  opened : ∃ e ∈ chain.getLast?, e.2.opened flags = some (c.st,c.fd) ∧ c.source = e.2.source

theorem walk_opened {flags : FindFlags} {root rootMember dir : Bytes} {l : Listing} {world : σ}
    {c : FindCall σ} (hc : c ∈ (walk w flags root rootMember l dir world).2.1) :
    ∃ chain, l.Chain chain ∧ c.Opened flags root rootMember dir chain := by
  induction l generalizing dir world with
  | eof => simp [walk] at hc
  | failed e => simp [walk] at hc
  | entry name probe sub rest ihsub ihrest =>
    rcases mem_walk_entry.mp hc with hc | ⟨-,hc⟩ | ⟨-,hc⟩ | ⟨-,-,hc⟩
    · have hspec := findItem_spec w flags root rootMember (bDirItemPath dir name) name probe world
      generalize findItem w flags root rootMember (bDirItemPath dir name) name probe world = r
        at hspec hc
      cases hspec with
      | named hname => cases hc
      | excluded hdot hdots hexcluded => cases hc
      | unopened hdot hdots hincluded hopened hworld => cases hc
      | called hdot hdots hincluded hopened hcall hworld hdescend =>
        obtain rfl := List.mem_singleton.mp hc
        rw [hcall]
        exact ⟨_,.here,rfl,rfl,_,rfl,hopened,rfl⟩
    · obtain ⟨chain,hchain,hpath,hmember,e,he,hopened⟩ := ihsub hc
      refine ⟨_,.inside hchain,hpath,hmember,e,?_,hopened⟩
      rw [List.getLast?_cons,Option.mem_def.mp he]
      rfl
    · obtain ⟨chain,hchain,hopened⟩ := ihrest hc
      exact ⟨chain,.next hchain,hopened⟩
    · obtain ⟨chain,hchain,hopened⟩ := ihrest hc
      exact ⟨chain,.next hchain,hopened⟩

/-- The calls of a traversal: the one for the root, and those for entries below it. -/
theorem bFind_opened {flags : FindFlags} {path memberName : Bytes} {tree : Tree} {world : σ}
    {c : FindCall σ} (hc : c ∈ (bFind w flags path memberName tree world).2.trace) :
    (c.path = bPathClean path ∧ c.memberName = bPathClean memberName ∧
        tree.probe.rootOpened flags = some (c.st,c.fd) ∧ c.source = tree.probe.source) ∨
      ∃ chain, tree.listing.Chain chain ∧
        c.Opened flags (bPathClean path) (bPathClean memberName) (bPathClean path) chain := by
  cases hopened : tree.probe.rootOpened flags with
  | none =>
    rw [bFind_unopened w hopened] at hc
    cases hc
  | some found =>
    obtain ⟨st,fd⟩ := found
    rw [bFind_rootOpened w hopened path memberName world] at hc
    generalize w.callback world (bPathClean path) (bPathClean memberName) st fd tree.probe.source = r
      at hc
    have hroot (hc : c ∈ [(⟨world,bPathClean path,bPathClean memberName,st,fd,tree.probe.source,r.1⟩ :
        FindCall σ)]) : c.path = bPathClean path ∧ c.memberName = bPathClean memberName ∧
          some (st,fd) = some (c.st,c.fd) ∧ c.source = tree.probe.source := by
      obtain rfl := List.mem_singleton.mp hc
      exact ⟨rfl,rfl,rfl,rfl⟩
    unfold rootEnd at hc
    split_ifs at hc
    · exact Or.inl (hroot hc)
    · exact Or.inl (hroot hc)
    · exact Or.inl (hroot hc)
    · cases hopendir : tree.probe.opendirAnswer with
      | error e =>
        rw [hopendir] at hc
        exact Or.inl (hroot hc)
      | ok u =>
        obtain ⟨-,htrace,-⟩ := findLoop_root w flags (bPathClean path) (bPathClean memberName)
          tree.listing r.2 [⟨world,bPathClean path,bPathClean memberName,st,fd,tree.probe.source,r.1⟩]
        rw [hopendir] at hc
        simp only [htrace] at hc
        rcases List.mem_append.mp hc with hc | hc
        · exact Or.inl (hroot hc)
        · exact Or.inr (walk_opened hc)

theorem chain_of_below {flags : FindFlags} {root rootMember name dir : Bytes} {probe : Probe}
    {sub rest : Listing} (hp : (Listing.entry name probe sub rest).Proper)
    {chain : List (Bytes × Probe)} (hchain : (Listing.entry name probe sub rest).Chain chain) {world : σ}
    {c : FindCall σ}
    (hc : c ∈ (walk w flags root rootMember sub (bDirItemPath dir name) world).2.1)
    (heq : c.path = entryPath dir chain) : ∃ inner, sub.Chain inner ∧
    chain = (name,probe)::inner := by
  obtain ⟨inner,hinner,hpath⟩ := walk_path hc
  exact ⟨inner,hinner,hchain.eq_of_path hp (.inside hinner) (heq.symm.trans hpath)⟩

theorem chain_of_rest {flags : FindFlags} {root rootMember name dir : Bytes} {probe : Probe}
    {sub rest : Listing} (hp : (Listing.entry name probe sub rest).Proper)
    {chain : List (Bytes × Probe)} (hchain : (Listing.entry name probe sub rest).Chain chain) {world : σ}
    {c : FindCall σ} (hc : c ∈ (walk w flags root rootMember rest dir world).2.1)
    (heq : c.path = entryPath dir chain) : rest.Chain chain := by
  obtain ⟨other,hother,hpath⟩ := walk_path hc
  rwa [hchain.eq_of_path hp (.next hother) (heq.symm.trans hpath)]

variable (h : w.Settles k fixed named)
include h

theorem findItem_settled (path name : Bytes) (probe : Probe) {world : σ} (hfixed : fixed world)
    (hnamed : named (k.memberName path)) :
    let item := findItem w k.flags k.root k.rootMember path name probe world
    (item.1 = .descend ↔ ∃ st, k.Entered path name probe st) ∧
      (item.1 = .errorItem ↔ ∃ st, k.Halts path name probe st) ∧
      ((∃ c, c ∈ item.2.1) ↔ ∃ st, k.Called path name probe st) ∧ ∀ c ∈ item.2.1, c.path = path := by
  -- an entry that is not passed on
  have hnone {r : ItemEnd × List (FindCall σ) × σ} (hend : r.1 = .cleanup) (hcalls : r.2.1 = [])
      (hno : ∀ st, ¬k.Called path name probe st) :
      (r.1 = .descend ↔ ∃ st, k.Entered path name probe st) ∧
        (r.1 = .errorItem ↔ ∃ st, k.Halts path name probe st) ∧
        ((∃ c, c ∈ r.2.1) ↔ ∃ st, k.Called path name probe st) ∧ ∀ c ∈ r.2.1, c.path = path := by
    rw [hend,hcalls]
    refine ⟨iff_of_false (by decide) ?_,iff_of_false (by decide) ?_,iff_of_false (by simp) ?_,by simp⟩
    · exact fun ⟨st,hentered⟩ => hno st hentered.toCalled
    · exact fun ⟨st,hhalts⟩ => hno st hhalts.1
    · exact fun ⟨st,hcalled⟩ => hno st hcalled
  have htest := h.test world path hfixed
  unfold findItem
  by_cases hname : name = dot ∨ name = dotDot
  · rw [if_pos hname]
    exact @hnone (.cleanup,[],world) rfl rfl fun st hcalled =>
      hname.elim hcalled.notDot hcalled.notDotDot
  rw [if_neg hname]
  obtain ⟨hdot,hdots⟩ := not_or.mp hname
  by_cases hexcluded : (w.excluded world path).1 = true
  · simp only [hexcluded,if_true]
    refine @hnone (.cleanup,[],(w.excluded world path).2) rfl rfl fun st hcalled => ?_
    rw [htest,hcalled.included] at hexcluded
    cases hexcluded
  · rw [Bool.not_eq_true] at hexcluded
    simp only [hexcluded,Bool.false_eq_true,if_false]
    cases hopened : probe.opened k.flags with
    | none =>
      have heq := findOpen_eq w k.flags (w.excluded world path).2 path probe
      generalize findOpen w k.flags (w.excluded world path).2 path probe = r at heq ⊢
      obtain ⟨found,world'⟩ := r
      obtain rfl : found = none := heq.trans hopened
      refine @hnone (.cleanup,[],world') rfl rfl fun st hcalled => ?_
      obtain ⟨fd,hopened'⟩ := hcalled.opened
      rw [hopened] at hopened'
      cases hopened'
    | some found =>
      obtain ⟨st,fd⟩ := found
      rw [findOpen_opened w k.flags hopened]
      have hbehind := h.behindOpen probe (h.excluded world path hfixed)
      have hcalled : k.Called path name probe st :=
        ⟨hdot,hdots,htest.symm.trans hexcluded,fd,hopened⟩
      have hsame {st' : Stat} (hcalled' : k.Called path name probe st') : st' = st := by
        obtain ⟨fd',hopened'⟩ := hcalled'.opened
        exact (Prod.mk.inj (Option.some.inj (hopened'.symm.trans hopened))).1
      have hends := h.ends (probe.behindOpen w (w.excluded world path).2) path (k.memberName path) st fd
        probe.source hbehind hnamed
      have henters := h.enters (probe.behindOpen w (w.excluded world path).2) path (k.memberName path)
        st fd probe.source hbehind hnamed
      have hentered : (∃ st, k.Entered path name probe st) ↔ st.ifmt = sIfdir ∧
          k.enters (k.memberName path) st probe.source ∧ probe.opendirAnswer = .ok () := by
        constructor
        · rintro ⟨st',h'⟩
          obtain rfl := hsame h'.toCalled
          exact ⟨h'.directory,h'.written,h'.opendir⟩
        · exact fun ⟨hdir,hwritten,hopen⟩ => ⟨st,hcalled,hdir,hwritten,hopen⟩
      have hhalts : (∃ st, k.Halts path name probe st) ↔
          k.ends (k.memberName path) st probe.source ∨ (st.ifmt = sIfdir ∧
            k.enters (k.memberName path) st probe.source ∧
              ∃ e, probe.opendirAnswer = .error e ∧ e ≠ .eacces) := by
        constructor
        · rintro ⟨st',h',hhalts⟩
          obtain rfl := hsame h'
          exact hhalts
        · exact fun hhalts => ⟨st,hcalled,hhalts⟩
      rw [hentered,hhalts]
      simp only [Course.memberName] at hends henters ⊢
      generalize w.callback (probe.behindOpen w (w.excluded world path).2) path
        ((substMemberName k.root k.rootMember path).getD path) st fd probe.source =
        r at hends henters ⊢
      rw [← hends]
      have hcalls (call : FindCall σ) (hpath : call.path = path) : ((∃ c, c ∈ [call]) ↔
          ∃ st, k.Called path name probe st) ∧ ∀ c ∈ [call], c.path = path := by
        refine ⟨iff_of_true ⟨_,List.mem_singleton_self _⟩ ⟨st,hcalled⟩,?_⟩
        rintro c hc
        rw [List.mem_singleton.mp hc,hpath]
      split_ifs with hzero hneg hfatal hdir
      · refine ⟨iff_of_false (by decide) ?_,iff_of_false (by decide) ?_,hcalls _ rfl⟩
        · exact fun ⟨hdir,hin,_⟩ => by have := (henters hdir).mpr hin; omega
        · rintro (hout | ⟨hdir,hin,-⟩)
          · omega
          · have := (henters hdir).mpr hin
            omega
      · refine ⟨iff_of_false (by decide) ?_,iff_of_false (by decide) ?_,hcalls _ rfl⟩
        · exact fun ⟨hdir,hin,_⟩ => by have := (henters hdir).mpr hin; omega
        · rintro (hout | ⟨hdir,hin,-⟩)
          · simp [hout.2] at hfatal
          · have := (henters hdir).mpr hin
            omega
      · refine ⟨iff_of_false (by decide) ?_,iff_of_true rfl ?_,hcalls _ rfl⟩
        · exact fun ⟨hdir,hin,_⟩ => by have := (henters hdir).mpr hin; omega
        · exact Or.inl ⟨hneg,by simpa using hfatal⟩
      · have hin := (henters hdir).mp (by omega)
        cases hopen : probe.opendirAnswer with
        | ok u =>
          have hno : ItemEnd.descend ≠ .errorItem := by decide
          refine ⟨iff_of_true rfl ⟨hdir,hin,rfl⟩,iff_of_false hno ?_,hcalls _ rfl⟩
          rintro (hout | ⟨-,-,e,he,-⟩)
          · omega
          · cases he
        | error e =>
          simp only
          split_ifs with hacces
          · refine ⟨iff_of_false (by decide) (by simp),iff_of_false (by decide) ?_,hcalls _ rfl⟩
            rintro (hout | ⟨-,-,e',he,hne⟩)
            · omega
            · cases he
              exact hne hacces
          · exact ⟨iff_of_false (by decide) (by simp),iff_of_true rfl (Or.inr ⟨hdir,hin,e,rfl,hacces⟩),
              hcalls _ rfl⟩
      · refine ⟨iff_of_false (by decide) fun hin => hdir hin.1,iff_of_false (by decide) ?_,hcalls _ rfl⟩
        rintro (hout | hin)
        · omega
        · exact hdir hin.1

theorem walk_cut_iff {l : Listing} {dir : Bytes} {world : σ} (hfixed : fixed world)
    (hnamed : ∀ chain, l.Chain chain → named (k.memberName (entryPath dir chain))) :
    (walk w k.flags k.root k.rootMember l dir world).1 = true ↔
      ∃ chain, l.Chain chain ∧ k.Along k.Halts dir chain := by
  induction l generalizing dir world with
  | eof => exact iff_of_false Bool.false_ne_true fun ⟨chain,hchain,_⟩ => nomatch hchain
  | failed e => exact iff_of_false Bool.false_ne_true fun ⟨chain,hchain,_⟩ => nomatch hchain
  | entry name probe sub rest ihsub ihrest =>
    obtain ⟨hdescend,herror,-⟩ := findItem_settled h (bDirItemPath dir name) name probe hfixed
      (hnamed _ .here)
    have hitem := findItem_fixed h.toJudges k.flags k.root k.rootMember (bDirItemPath dir name) name
      probe hfixed
    have hsub {world' : σ} (hfixed' : fixed world') := @ihsub (bDirItemPath dir name) world' hfixed'
      fun chain hchain => hnamed _ (.inside hchain)
    have hrest {world' : σ} (hfixed' : fixed world') :=
      @ihrest dir world' hfixed' fun chain hchain =>
      hnamed _ (.next hchain)
    rw [Course.exists_along_entry,← hdescend,← herror]
    simp only [walk]
    generalize findItem w k.flags k.root k.rootMember (bDirItemPath dir name) name probe world = r
      at hitem ⊢
    obtain ⟨ending,calls,s⟩ := r
    cases ending with
    | cleanup =>
      simp only [hrest hitem,reduceCtorEq,false_or,false_and]
    | errorItem => simp
    | descend =>
      have hafter := walk_fixed h.toJudges k.flags k.root k.rootMember sub (bDirItemPath dir name) hitem
      simp only [reduceCtorEq,false_or,true_and]
      by_cases hcut : (walk w k.flags k.root k.rootMember sub (bDirItemPath dir name) s).1 = true
      · rw [if_pos hcut]
        exact iff_of_true rfl (Or.inl ((hsub hitem).mp hcut))
      · rw [if_neg hcut]
        exact (hrest hafter).trans (or_iff_right fun hno => hcut ((hsub hitem).mpr hno)).symm

theorem walk_takes_iff {l : Listing} (hp : l.Proper) {chain : List (Bytes × Probe)}
    (hchain : l.Chain chain) {dir : Bytes} {world : σ} (hfixed : fixed world)
    (hnamed : ∀ chain, l.Chain chain → named (k.memberName (entryPath dir chain))) :
    (∃ c ∈ (walk w k.flags k.root k.rootMember l dir world).2.1, c.path = entryPath dir chain) ↔
      k.Takes l dir chain := by
  induction hchain generalizing dir world with
  | @here name probe sub rest =>
    obtain ⟨-,-,hcalled,hpath⟩ := findItem_settled h (bDirItemPath dir name) name probe hfixed
      (hnamed _ .here)
    rw [Course.takes_here hp,← hcalled]
    constructor
    · rintro ⟨c,hc,heq⟩
      rcases mem_walk_entry.mp hc with hc | ⟨-,hc⟩ | ⟨-,hc⟩ | ⟨-,-,hc⟩
      · exact ⟨c,hc⟩
      · obtain ⟨inner,hinner,hcons⟩ := chain_of_below hp .here hc heq
        exact absurd (List.cons.inj hcons).2.symm hinner.ne_nil
      · exact (hp.not_rest (chain_of_rest hp .here hc heq)).elim
      · exact (hp.not_rest (chain_of_rest hp .here hc heq)).elim
    · rintro ⟨c,hc⟩
      exact ⟨c,mem_walk_entry.mpr (Or.inl hc),hpath c hc⟩
  | @inside name probe sub rest chain hsub ih =>
    obtain ⟨hdescend,-,-,hpath⟩ := findItem_settled h (bDirItemPath dir name) name probe hfixed
      (hnamed _ .here)
    have hitem := findItem_fixed h.toJudges k.flags k.root k.rootMember (bDirItemPath dir name) name
      probe hfixed
    rw [Course.takes_inside hp hsub.ne_nil,← hdescend,
      ← @ih hp.2.2.2.1 (bDirItemPath dir name) _ hitem fun chain hchain => hnamed _ (.inside hchain)]
    constructor
    · rintro ⟨c,hc,heq⟩
      rcases mem_walk_entry.mp hc with hc | ⟨hend,hc⟩ | ⟨-,hc⟩ | ⟨-,-,hc⟩
      · have hown := Listing.Chain.eq_of_path (l := .entry name probe sub rest) hp .here (.inside hsub)
          ((hpath c hc).symm.trans heq)
        exact absurd (List.cons.inj hown).2.symm hsub.ne_nil
      · exact ⟨hend,c,hc,heq⟩
      · exact (hp.not_rest (chain_of_rest hp (.inside hsub) hc heq)).elim
      · exact (hp.not_rest (chain_of_rest hp (.inside hsub) hc heq)).elim
    · rintro ⟨hend,c,hc,heq⟩
      exact ⟨c,mem_walk_entry.mpr (Or.inr (Or.inl ⟨hend,hc⟩)),heq⟩
  | @next name probe sub rest chain hrest ih =>
    obtain ⟨hdescend,herror,-,hpath⟩ := findItem_settled h (bDirItemPath dir name) name probe hfixed
      (hnamed _ .here)
    have hitem := findItem_fixed h.toJudges k.flags k.root k.rootMember (bDirItemPath dir name) name
      probe hfixed
    have hafter := walk_fixed h.toJudges k.flags k.root k.rootMember sub (bDirItemPath dir name) hitem
    have hcut := @walk_cut_iff _ w k fixed named h sub (bDirItemPath dir name) _ hitem fun chain hchain =>
      hnamed _ (.inside hchain)
    have hmore {world' : σ} (hfixed' : fixed world') := @ih hp.2.2.2.2 dir world' hfixed'
      fun chain hchain => hnamed _ (.next hchain)
    rw [Course.takes_next hp hrest,← hdescend,← herror,← hcut]
    constructor
    · rintro ⟨c,hc,heq⟩
      rcases mem_walk_entry.mp hc with hc | ⟨hend,hc⟩ | ⟨hend,hc⟩ | ⟨hend,hwhole,hc⟩
      · have hown := Listing.Chain.eq_of_path (l := .entry name probe sub rest) hp .here (.next hrest)
          ((hpath c hc).symm.trans heq)
        exact (hp.not_rest (hown ▸ hrest)).elim
      · obtain ⟨inner,-,rfl⟩ := chain_of_below hp (.next hrest) hc heq
        exact (hp.not_rest hrest).elim
      · exact ⟨by simp [hend],by simp [hend],(hmore hitem).mp ⟨c,hc,heq⟩⟩
      · exact ⟨by simp [hend],fun _ => by simp [hwhole],(hmore hafter).mp ⟨c,hc,heq⟩⟩
    · rintro ⟨herror',hwhole,htakes⟩
      cases hend : (findItem w k.flags k.root k.rootMember (bDirItemPath dir name) name probe world).1 with
      | cleanup =>
        obtain ⟨c,hc,heq⟩ := (hmore hitem).mpr htakes
        exact ⟨c,mem_walk_entry.mpr (Or.inr (Or.inr (Or.inl ⟨hend,hc⟩))),heq⟩
      | errorItem => exact absurd hend herror'
      | descend =>
        obtain ⟨c,hc,heq⟩ := (hmore hafter).mpr htakes
        exact ⟨c,mem_walk_entry.mpr (Or.inr (Or.inr (Or.inr ⟨hend,by simpa using hwhole hend,hc⟩))),heq⟩

theorem bFind_takes_iff {path memberName : Bytes} (hroot : k.root = bPathClean path)
    (hmember : k.rootMember = bPathClean memberName) {tree : Tree} (hp : tree.listing.Proper)
    {world : σ} (hfixed : fixed world) (hnamedRoot : named k.rootMember)
    (hnamed : ∀ chain, tree.listing.Chain chain → named (k.memberName (entryPath k.root chain)))
    {chain : List (Bytes × Probe)} (hchain : tree.listing.Chain chain) :
    (∃ c ∈ (bFind w k.flags path memberName tree world).2.trace, c.path = entryPath k.root chain) ↔
      k.RootEntered tree ∧ k.Takes tree.listing k.root chain := by
  have hnames : ∀ e ∈ chain, e.1 ≠ [] := fun e he => (hchain.proper hp e he).1
  have hother := entryPath_ne k.root hchain.ne_nil hnames
  cases hopened : tree.probe.rootOpened k.flags with
  | none =>
    rw [bFind_unopened w hopened]
    refine iff_of_false (by simp) ?_
    rintro ⟨⟨st,fd,hsome,-⟩,-⟩
    rw [hopened] at hsome
    cases hsome
  | some found =>
    obtain ⟨st,fd⟩ := found
    have henters := h.enters world k.root k.rootMember st fd tree.probe.source hfixed hnamedRoot
    have hstart := h.callback world k.root k.rootMember st fd tree.probe.source hfixed
    have hentered : k.RootEntered tree ↔ st.ifmt = sIfdir ∧
        k.enters k.rootMember st tree.probe.source ∧ tree.probe.opendirAnswer = .ok () := by
      constructor
      · rintro ⟨st',fd',hsome,hrest⟩
        obtain ⟨rfl,-⟩ := Prod.mk.inj (Option.some.inj (hsome.symm.trans hopened))
        exact hrest
      · exact fun hrest => ⟨st,fd,hopened,hrest⟩
    rw [hentered]
    have hfind := bFind_rootOpened w hopened path memberName world
    simp only [← hroot,← hmember] at hfind
    rw [hfind]
    generalize w.callback world k.root k.rootMember st fd tree.probe.source = r at henters hstart ⊢
    -- a traversal that does not get into the root has made one call
    have hone (call : FindCall σ) (hpath : call.path = k.root) :
        ¬∃ c ∈ [call], c.path = entryPath k.root chain := by
      rintro ⟨c,hc,heq⟩
      rw [List.mem_singleton.mp hc,hpath] at heq
      exact hother heq.symm
    unfold rootEnd
    split_ifs with hzero hneg hdir
    · refine iff_of_false (hone _ rfl) fun hin => ?_
      have := (henters hin.1.1).mpr hin.1.2.1
      omega
    · refine iff_of_false (hone _ rfl) fun hin => ?_
      have := (henters hin.1.1).mpr hin.1.2.1
      omega
    · exact iff_of_false (hone _ rfl) fun hin => hdir hin.1.1
    · have hst : st.ifmt = sIfdir := not_not.mp hdir
      cases hopendir : tree.probe.opendirAnswer with
      | error e => exact iff_of_false (hone _ rfl) (by simp)
      | ok u =>
        obtain ⟨-,htrace,-⟩ := findLoop_root w k.flags k.root k.rootMember tree.listing r.2
          [⟨world,k.root,k.rootMember,st,fd,tree.probe.source,r.1⟩]
        simp only
        rw [htrace,← walk_takes_iff h hp hchain hstart hnamed,and_iff_right
          ⟨hst,(henters hst).mp (by omega),trivial⟩]
        constructor
        · rintro ⟨c,hc,heq⟩
          rcases List.mem_cons.mp hc with rfl | hc
          · exact absurd heq.symm hother
          · exact ⟨c,hc,heq⟩
        · rintro ⟨c,hc,heq⟩
          exact ⟨c,List.mem_cons_of_mem _ hc,heq⟩

end

end ArchiveTarBuilder
