import ArchiveTarBuilder.Ledger
import ArchiveTarBuilder.LostEntries
import ArchiveTarBuilder.RelatedTraversals

/-! What `b_find` opens and closes: the descriptors of the objects and the streams of the
directories, as a log next to its run. -/
namespace ArchiveTarBuilder
open CString Ledger

inductive Resource
  | descriptor (fd : ℤ) | stream (path : Bytes)
  deriving DecidableEq, Repr

abbrev DescriptorEvent (σ : Type*) := Ledger.Event Resource (FindCall σ)

section
variable {σ : Type*}

def openEvents : Except Errno ℤ → List (DescriptorEvent σ)
  | .ok fd => [.acquire (.descriptor fd)]
  | .error _ => []

def closeEvents (fd : ℤ) : List (DescriptorEvent σ) :=
  if 0 < fd then [.release (.descriptor fd)] else []

def itemFd : Except Errno ℤ → ℤ
  | .ok fd => fd
  | .error _ => -1

/-- `b_stack_destroy` with `b_dir_destroy` as its destructor: the bottom first. -/
def destroyEvents (dirs : List BDir) : List (DescriptorEvent σ) :=
  (dirs.map fun d => Resource.stream d.path).reverse.map .release

variable (w : FindWorld σ) (flags : FindFlags) (root rootMember : Bytes)

/-- The body of the loop for one entry, up to `cleanup_item` or `error_item`. -/
def itemEvents (path name : Bytes) (probe : Probe) (world : σ) : List (DescriptorEvent σ) :=
  if name = dot ∨ name = dotDot then []
  else if (w.excluded world path).1 then []
  else
    let item := findItem w flags root rootMember path name probe world
    openEvents probe.openAnswer ++ item.2.1.map .note ++
      (if item.1 = .descend then [.acquire (.stream path)] else []) ++ closeEvents (itemFd probe.openAnswer)

def stepEvents (s : FindState σ) : List (DescriptorEvent σ) :=
  match s.dirs with
  | [] => []
  | ⟨dir,.eof⟩::_ => [.release (.stream dir)]
  | ⟨dir,.failed _⟩::_ => [.release (.stream dir)]
  | ⟨dir,.entry name probe _ _⟩::_ =>
    itemEvents w flags root rootMember (bDirItemPath dir name) name probe s.world

def loopEvents (s : FindState σ) : List (DescriptorEvent σ) :=
  match _h : findStep w flags root rootMember s with
  | .inl t => stepEvents w flags root rootMember s ++ loopEvents t
  | .inr r => stepEvents w flags root rootMember s ++ destroyEvents r.2.dirs
termination_by s.measure
decreasing_by exact findStep_measure w flags root rootMember _h

def rootEvents (tree : Tree) (st : Stat) (fd : ℤ) (world : σ) : List (DescriptorEvent σ) :=
  let r := w.callback world root rootMember st fd tree.probe.source
  let call : FindCall σ := ⟨world,root,rootMember,st,fd,tree.probe.source,r.1⟩
  .note call::closeEvents fd ++
    if 0 < r.1 ∧ st.ifmt = sIfdir ∧ tree.probe.opendirAnswer = .ok () then
      .acquire (.stream root)::loopEvents w flags root rootMember ⟨r.2,[⟨root,tree.listing⟩],[call]⟩
    else []

def bDescriptorEvents (path memberName : Bytes) (tree : Tree) (world : σ) : List (DescriptorEvent σ) :=
  let root := bPathClean path
  let rootMember := bPathClean memberName
  match bStat flags tree.probe with
  | .error _ => []
  | .ok st =>
    if st.ifmt = sIfreg then
      openEvents tree.probe.openAnswer ++
        match tree.probe.openAnswer, tree.probe.fcntlAnswer with
        | .ok fd, .ok () => rootEvents w flags root rootMember tree st fd world
        | _, _ => []  -- behind `fcntl()` the descriptor stays open
    else rootEvents w flags root rootMember tree st 0 world

end

def LeadsTo (root : Bytes) : Bytes → List Bytes → Prop
  | path, [] => path = root
  | path, dir::dirs => (∃ name, path = bDirItemPath dir name) ∧ LeadsTo root dir dirs

def streams (dirs : List Bytes) : Multiset Resource := ↑(dirs.map Resource.stream)

theorem streams_cons (dir : Bytes) (dirs : List Bytes) :
    streams (dir::dirs) = {.stream dir}+streams dirs := by
  rw [streams,List.map_cons,← Multiset.cons_coe,← Multiset.singleton_add]
  rfl

def ownDescriptor (fd : ℤ) : Multiset Resource := if 0 < fd then {.descriptor fd} else 0

section
variable {σ : Type*}

/-- What is opened and never closed: `close()` is left out for the descriptor 0. -/
def unclosed (log : List (DescriptorEvent σ)) : Multiset Resource :=
  ↑((log.filterMap Event.acquired).filter fun r =>
    match r with
    | .descriptor fd => decide (¬0 < fd)
    | .stream _ => false)

theorem unclosed_append (log more : List (DescriptorEvent σ)) :
    unclosed (log ++ more) = unclosed log+unclosed more := by
  rw [unclosed,List.filterMap_append,List.filter_append,← Multiset.coe_add]
  rfl

/-- What is held at a call: its own descriptor, the streams of the directories that lead to its
path, and what else is never closed. -/
def HeldAt (root : Bytes) (allowed : Resource → Prop) (held : Multiset Resource) (c : FindCall σ) : Prop :=
  ∃ dirs left, LeadsTo root c.path dirs ∧ (∀ r ∈ left, allowed r) ∧
    held = ownDescriptor c.fd+streams dirs+left

abbrev FindLeads (root : Bytes) (allowed : Resource → Prop) (held : Multiset Resource)
    (log : List (DescriptorEvent σ)) (after : Multiset Resource) : Prop :=
      Leads (HeldAt root allowed) held log after

variable (w : FindWorld σ) (flags : FindFlags) (root rootMember : Bytes)

theorem findOpen_fd {world : σ} {path : Bytes} {probe : Probe} {st : Stat} {fd : ℤ} {s : σ}
    (h : findOpen w flags world path probe = (some (st,fd),s)) : fd = itemFd probe.openAnswer := by
  unfold findOpen at h
  cases hopen : probe.openAnswer with
  | error e =>
    simp only [hopen] at h
    split at h
    · split at h
      · cases h
      · obtain ⟨-,rfl⟩ := Prod.mk.inj (Option.some.inj (Prod.mk.inj h).1)
        rfl
    · split at h
      · split at h
        · cases h
        · split at h <;> cases h
      · cases h
  | ok fd' =>
    simp only [hopen] at h
    split at h
    · cases h
    · split at h
      · cases h
      · obtain ⟨-,rfl⟩ := Prod.mk.inj (Option.some.inj (Prod.mk.inj h).1)
        rfl

theorem findItem_call (path name : Bytes) (probe : Probe) (world : σ) :
    ∀ c ∈ (findItem w flags root rootMember path name probe world).2.1,
      c.path = path ∧ c.fd = itemFd probe.openAnswer := by
  intro c hc
  unfold findItem at hc
  split at hc
  · cases hc
  simp only at hc
  split at hc
  · cases hc
  split at hc
  · cases hc
  · rename_i st fd s hopen
    have hfd := findOpen_fd w flags hopen
    have hone : c ∈ ([⟨s,path,(substMemberName root rootMember path).getD path,st,fd,probe.source,
        (w.callback s path ((substMemberName root rootMember path).getD path) st fd probe.source).1⟩] :
        List (FindCall σ)) := by
      split_ifs at hc
      · exact hc
      · exact hc
      · exact hc
      · split at hc
        · split_ifs at hc <;> exact hc
        · exact hc
      · exact hc
    rw [List.mem_singleton.mp hone]
    exact ⟨rfl,hfd⟩

variable {w flags root rootMember}
variable {allowed : Resource → Prop} {held : Multiset Resource}

theorem unclosed_notes (calls : List (FindCall σ)) : unclosed (calls.map Event.note) = 0 := by
  have hnone : (calls.map Event.note).filterMap Event.acquired = ([] : List Resource) :=
    List.filterMap_eq_nil_iff.mpr fun e he => by
      obtain ⟨c,-,rfl⟩ := List.mem_map.mp he
      rfl
  rw [unclosed,hnone]
  rfl

theorem unclosed_releases (rs : List Resource) : unclosed (rs.map Event.release : List (DescriptorEvent σ)) = 0 := by
  have hnone : (rs.map Event.release : List (DescriptorEvent σ)).filterMap Event.acquired =
      ([] : List Resource) :=
    List.filterMap_eq_nil_iff.mpr fun e he => by
      obtain ⟨c,-,rfl⟩ := List.mem_map.mp he
      rfl
  rw [unclosed,hnone]
  rfl

theorem unclosed_close (fd : ℤ) : unclosed (closeEvents fd : List (DescriptorEvent σ)) = 0 := by
  rw [closeEvents]
  split_ifs
  · exact unclosed_releases [.descriptor fd]
  · rfl

theorem open_leads {P : Multiset Resource → FindCall σ → Prop} (a : Except Errno ℤ) :
    Leads P held (openEvents a) (ownDescriptor (itemFd a)+(held+unclosed (openEvents a : List (DescriptorEvent σ)))) ∧
      Leads P (ownDescriptor (itemFd a)+held) (closeEvents (itemFd a)) held := by
  have hclose (fd : ℤ) : Leads P (ownDescriptor fd+held) (closeEvents fd) held := by
    rw [closeEvents,ownDescriptor]
    split_ifs
    · exact .release _
    · rw [zero_add]
      exact .nil
  refine ⟨?_,hclose _⟩
  cases a with
  | error e =>
    rw [show ownDescriptor (itemFd (.error e)) = 0 from rfl,zero_add]
    exact (add_zero held).symm ▸ .nil
  | ok fd =>
    have hone : Leads P held (openEvents (.ok fd)) ({.descriptor fd}+held) := .acquire _
    rw [itemFd,ownDescriptor]
    split_ifs with hpos
    · have hnone : unclosed (openEvents (.ok fd) : List (DescriptorEvent σ)) = 0 := by
        simp [unclosed,openEvents,Event.acquired,hpos]
      rwa [hnone,add_zero]
    · have hleft : unclosed (openEvents (.ok fd) : List (DescriptorEvent σ)) = {.descriptor fd} := by
        simp [unclosed,openEvents,Event.acquired,not_lt.mp hpos]
      rwa [hleft,zero_add,add_comm held]

def LeavesOnly (allowed : Resource → Prop) (log : List (DescriptorEvent σ)) : Prop :=
  ∀ r ∈ unclosed log, allowed r

theorem LeavesOnly.append_iff {log more : List (DescriptorEvent σ)} :
    LeavesOnly allowed (log ++ more) ↔ LeavesOnly allowed log ∧ LeavesOnly allowed more := by
  simp only [LeavesOnly,unclosed_append,Multiset.mem_add,or_imp,forall_and]

/-- The events for an entry, under the streams of the directories that lead to it. -/
theorem itemEvents_leads {path name : Bytes} {probe : Probe} {world : σ} {dirs : List Bytes}
    {left : Multiset Resource} (hdirs : LeadsTo root path dirs) (hleft : ∀ r ∈ left, allowed r)
    (hlog : LeavesOnly allowed (itemEvents w flags root rootMember path name probe world)) :
    FindLeads root allowed (streams dirs+left)
      (itemEvents w flags root rootMember path name probe world)
      ((if (findItem w flags root rootMember path name probe world).1 = .descend then {.stream path} else 0)+
        streams dirs+(left+unclosed (itemEvents w flags root rootMember path name probe world))) := by
  have hskipped (h : findItem w flags root rootMember path name probe world = (.cleanup,[],world) ∨
      findItem w flags root rootMember path name probe world =
      (.cleanup,[],(w.excluded world path).2)) :
      (if (findItem w flags root rootMember path name probe world).1 = .descend then
        ({.stream path} : Multiset Resource) else 0) = 0 := by
    rcases h with h | h <;> rw [h] <;> rfl
  unfold itemEvents at hlog ⊢
  by_cases hname : name = dot ∨ name = dotDot
  · have hitem : findItem w flags root rootMember path name probe world = (.cleanup,[],world) := by
      rw [findItem,if_pos hname]
    rw [hskipped (Or.inl hitem),if_pos hname,zero_add]
    exact (add_zero left).symm ▸ .nil
  rw [if_neg hname] at hlog ⊢
  by_cases hverdict : (w.excluded world path).1 = true
  · have hitem : findItem w flags root rootMember path name probe world =
        (.cleanup,[],(w.excluded world path).2) := by
      simp only [findItem,if_neg hname,if_pos hverdict]
    rw [hskipped (Or.inr hitem),if_pos hverdict,zero_add]
    exact (add_zero left).symm ▸ .nil
  rw [if_neg hverdict] at hlog ⊢
  have hcalls := findItem_call w flags root rootMember path name probe world
  generalize findItem w flags root rootMember path name probe world = item at hcalls hlog ⊢
  simp only [LeavesOnly.append_iff] at hlog
  generalize hU : unclosed (openEvents probe.openAnswer : List (DescriptorEvent σ)) = opened
  have hdescend : unclosed (if item.1 = .descend then [.acquire (.stream path)] else [] : List (DescriptorEvent σ)) =
      0 := by
    split_ifs <;> rfl
  have hunclosed : unclosed (openEvents probe.openAnswer ++ item.2.1.map .note ++
      (if item.1 = .descend then [.acquire (.stream path)] else []) ++
      closeEvents (itemFd probe.openAnswer) : List (DescriptorEvent σ)) = opened := by
    rw [unclosed_append,unclosed_append,unclosed_append,hdescend,unclosed_notes,unclosed_close,hU,add_zero,
      add_zero,add_zero]
  have hopened : FindLeads root allowed (streams dirs+left) (openEvents probe.openAnswer : List (DescriptorEvent σ))
      (ownDescriptor (itemFd probe.openAnswer)+streams dirs+(left+opened)) := by
    have hopen := (@open_leads σ (streams dirs+left) (HeldAt root allowed) probe.openAnswer).1
    rwa [hU,add_assoc (streams dirs),← add_assoc] at hopen
  have hnotes : FindLeads root allowed (ownDescriptor (itemFd probe.openAnswer)+streams dirs+(left+opened))
      (item.2.1.map .note) (ownDescriptor (itemFd probe.openAnswer)+streams dirs+(left+opened)) := by
    refine .notes_map fun c hc => ⟨dirs,left+opened,(hcalls c hc).1.symm ▸ hdirs,fun r hr => ?_,?_⟩
    · rcases Multiset.mem_add.mp hr with hr | hr
      · exact hleft r hr
      · exact hlog.1.1.1 r (hU.symm ▸ hr)
    · rw [(hcalls c hc).2]
  have hnew : FindLeads root allowed (ownDescriptor (itemFd probe.openAnswer)+streams dirs+(left+opened))
      (if item.1 = .descend then [.acquire (.stream path)] else [] : List (DescriptorEvent σ))
      (ownDescriptor (itemFd probe.openAnswer)+
        ((if item.1 = .descend then {.stream path} else 0)+streams dirs+(left+opened))) := by
    split_ifs
    · have heq : ownDescriptor (itemFd probe.openAnswer)+({.stream path}+streams dirs+(left+opened)) =
          {.stream path}+(ownDescriptor (itemFd probe.openAnswer)+streams dirs+(left+opened)) := by abel
      rw [heq]
      exact .acquire _
    · rw [zero_add,add_assoc]
      exact .nil
  rw [hunclosed]
  exact ((hopened.append hnotes).append hnew).append (open_leads probe.openAnswer).2

def noted (log : List (DescriptorEvent σ)) : List (FindCall σ) := log.filterMap Event.noted

theorem noted_append (log more : List (DescriptorEvent σ)) : noted (log ++ more) =
    noted log ++ noted more :=
  List.filterMap_append

theorem noted_notes (calls : List (FindCall σ)) : noted (calls.map Event.note) = calls := by
  rw [noted,List.filterMap_map]
  exact List.filterMap_some

theorem noted_releases (rs : List Resource) : noted (rs.map Event.release : List (DescriptorEvent σ)) = [] :=
  List.filterMap_eq_nil_iff.mpr fun e he => by
    obtain ⟨r,-,rfl⟩ := List.mem_map.mp he
    rfl

theorem noted_itemEvents (path name : Bytes) (probe : Probe) (world : σ) :
    noted (itemEvents w flags root rootMember path name probe world) =
      (findItem w flags root rootMember path name probe world).2.1 := by
  unfold itemEvents
  by_cases hname : name = dot ∨ name = dotDot
  · rw [if_pos hname,findItem,if_pos hname]
    rfl
  rw [if_neg hname]
  by_cases hverdict : (w.excluded world path).1 = true
  · simp only [findItem,if_neg hname,if_pos hverdict]
    rfl
  rw [if_neg hverdict]
  have hopen (a : Except Errno ℤ) : noted (openEvents a : List (DescriptorEvent σ)) = [] := by cases a <;> rfl
  have hclose (fd : ℤ) : noted (closeEvents fd : List (DescriptorEvent σ)) = [] := by
    rw [closeEvents]
    split_ifs <;> rfl
  generalize findItem w flags root rootMember path name probe world = item
  have hnew : noted (if item.1 = .descend then [.acquire (.stream path)] else [] : List (DescriptorEvent σ)) = [] := by
    split_ifs <;> rfl
  rw [noted_append,noted_append,noted_append,hopen,hclose,hnew,noted_notes,List.nil_append,
    List.append_nil,
    List.append_nil]

def StackFrom (root : Bytes) : List BDir → Prop
  | [] => True
  | d::dirs => LeadsTo root d.path (dirs.map BDir.path)

theorem StackFrom.tail {d : BDir} {dirs : List BDir} (h : StackFrom root (d::dirs)) : StackFrom root dirs := by
  cases dirs with
  | nil => trivial
  | cons d' dirs => exact h.2

theorem stepEvents_leads {s : FindState σ} (hs : StackFrom root s.dirs) {left : Multiset Resource}
    (hleft : ∀ r ∈ left, allowed r) (hlog : LeavesOnly allowed (stepEvents w flags root rootMember s)) :
    let t := behindRound w flags root rootMember s
    StackFrom root t.dirs ∧ t.trace = s.trace ++ noted (stepEvents w flags root rootMember s) ∧
      FindLeads root allowed (streams (s.dirs.map BDir.path)+left) (stepEvents w flags root rootMember s)
        (streams (t.dirs.map BDir.path)+(left+unclosed (stepEvents w flags root rootMember s))) := by
  obtain ⟨world,dirs,trace⟩ := s
  have hclosed (d : BDir) (dirs : List BDir) (hd : StackFrom root (d::dirs)) :
      StackFrom root dirs ∧ trace = trace ++ noted ([.release (.stream d.path)] : List (DescriptorEvent σ)) ∧
        FindLeads root allowed (streams ((d::dirs).map BDir.path)+left)
          ([.release (.stream d.path)] : List (DescriptorEvent σ)) (streams (dirs.map BDir.path)+
            (left+unclosed ([.release (.stream d.path)] : List (DescriptorEvent σ)))) := by
    refine ⟨hd.tail,(List.append_nil trace).symm,?_⟩
    have hnone : unclosed ([.release (.stream d.path)] : List (DescriptorEvent σ)) = 0 :=
      unclosed_releases [.stream d.path]
    rw [List.map_cons,streams_cons,add_assoc,hnone,add_zero]
    exact .release _
  match dirs with
  | [] => exact ⟨trivial,(List.append_nil trace).symm,(add_zero left).symm ▸ .nil⟩
  | ⟨dir,.eof⟩::dirs => exact hclosed ⟨dir,.eof⟩ dirs hs
  | ⟨dir,.failed e⟩::dirs => exact hclosed ⟨dir,.failed e⟩ dirs hs
  | ⟨dir,.entry name probe sub rest⟩::dirs =>
    have hpath : LeadsTo root (bDirItemPath dir name) (dir::dirs.map BDir.path) := ⟨⟨name,rfl⟩,hs⟩
    have hitem := itemEvents_leads hpath hleft hlog
    have hnoted := @noted_itemEvents σ w flags root rootMember (bDirItemPath dir name) name probe world
    simp only [stepEvents,hnoted,List.map_cons]
    match hr : findItem w flags root rootMember (bDirItemPath dir name) name probe world with
    | (.cleanup,calls,world') =>
      simp only [behindRound,findStep,hr] at hitem ⊢
      rw [if_neg (by decide),zero_add] at hitem
      exact ⟨hs,trivial,hitem⟩
    | (.descend,calls,world') =>
      simp only [behindRound,findStep,hr] at hitem ⊢
      rw [if_pos trivial,← streams_cons] at hitem
      exact ⟨hpath,trivial,hitem⟩
    | (.errorItem,calls,world') =>
      simp only [behindRound,findStep,hr] at hitem ⊢
      rw [if_neg (by decide),zero_add] at hitem
      exact ⟨hs,trivial,hitem⟩

theorem loopEvents_step {s t : FindState σ} (h : findStep w flags root rootMember s = .inl t) :
    loopEvents w flags root rootMember s =
      stepEvents w flags root rootMember s ++ loopEvents w flags root rootMember t := by
  rw [loopEvents]
  split
  · rename_i u hu
    rw [h] at hu
    rw [Sum.inl.inj hu]
  · rename_i r hr
    rw [h] at hr
    cases hr

theorem loopEvents_end {s : FindState σ} {r : ℤ × FindState σ}
    (h : findStep w flags root rootMember s = .inr r) : loopEvents w flags root rootMember s =
      stepEvents w flags root rootMember s ++ destroyEvents r.2.dirs := by
  rw [loopEvents]
  split
  · rename_i u hu
    rw [h] at hu
    cases hu
  · rename_i r' hr
    rw [h] at hr
    rw [Sum.inr.inj hr]

/-- The whole loop closes what is on its stack, and makes the calls that `findLoop` makes. -/
theorem loopEvents_leads (s : FindState σ) (hs : StackFrom root s.dirs) {left : Multiset Resource}
    (hleft : ∀ r ∈ left, allowed r) (hlog : LeavesOnly allowed (loopEvents w flags root rootMember s)) :
    (findLoop w flags root rootMember s).2.trace = s.trace ++ noted (loopEvents w flags root rootMember s) ∧
      FindLeads root allowed (streams (s.dirs.map BDir.path)+left) (loopEvents w flags root rootMember s)
        (left+unclosed (loopEvents w flags root rootMember s)) := by
  induction hn : s.measure using Nat.strong_induction_on generalizing s left with
  | _ n ih =>
    subst hn
    cases hstep : findStep w flags root rootMember s with
    | inl t =>
      rw [loopEvents_step hstep] at hlog ⊢
      rw [findLoop_step w flags root rootMember hstep,unclosed_append,noted_append]
      obtain ⟨hlog,hmore⟩ := LeavesOnly.append_iff.mp hlog
      obtain ⟨ht,htrace,hround⟩ := stepEvents_leads hs hleft hlog
      rw [behindRound,hstep] at ht htrace hround
      have hleft' : ∀ r ∈ left+unclosed (stepEvents w flags root rootMember s), allowed r := fun r hr =>
        (Multiset.mem_add.mp hr).elim (hleft r) (hlog r)
      obtain ⟨htrace',hrest⟩ := ih t.measure (findStep_measure w flags root rootMember hstep) t ht hleft' hmore rfl
      refine ⟨?_,?_⟩
      · rw [htrace',show t.trace = _ from htrace,List.append_assoc]
      · rw [← add_assoc]
        exact hround.append hrest
    | inr r =>
      rw [loopEvents_end hstep] at hlog ⊢
      rw [findLoop_end w flags root rootMember hstep,unclosed_append,noted_append]
      obtain ⟨hlog,-⟩ := LeavesOnly.append_iff.mp hlog
      obtain ⟨ht,htrace,hround⟩ := stepEvents_leads hs hleft hlog
      rw [behindRound,hstep] at ht htrace hround
      have hdestroy : FindLeads root allowed (streams (r.2.dirs.map BDir.path)+
          (left+unclosed (stepEvents w flags root rootMember s))) (destroyEvents r.2.dirs : List (DescriptorEvent σ))
          (left+unclosed (stepEvents w flags root rootMember s)) := by
        rw [streams,← Multiset.coe_reverse,List.map_map]
        exact .release_map _
      refine ⟨?_,?_⟩
      · rw [destroyEvents,noted_releases,List.append_nil]
        exact htrace
      · have hnone : unclosed (destroyEvents r.2.dirs : List (DescriptorEvent σ)) = 0 :=
          unclosed_releases _
        rw [hnone,add_zero]
        exact hround.append hdestroy

/-- A descriptor of an object that was opened, but that is not positive. -/
def NeverClosed (log : List (DescriptorEvent σ)) (r : Resource) : Prop :=
  .acquire r ∈ log ∧ ∃ fd ≤ 0, r = .descriptor fd

theorem neverClosed_of_unclosed {log : List (DescriptorEvent σ)} {r : Resource} (h : r ∈ unclosed log) :
    NeverClosed log r := by
  obtain ⟨hmem,hkept⟩ := List.mem_filter.mp (Multiset.mem_coe.mp h)
  obtain ⟨e,he,hacquired⟩ := List.mem_filterMap.mp hmem
  refine ⟨?_,?_⟩
  · cases e with
    | acquire k =>
      obtain rfl : k = r := Option.some.inj hacquired
      exact he
    | release k => cases hacquired
    | note c => cases hacquired
  · cases r with
    | descriptor fd => exact ⟨fd,not_lt.mp (of_decide_eq_true hkept),rfl⟩
    | stream path => cases hkept

variable (w flags root rootMember)

variable {root rootMember}

theorem rootEvents_leads (tree : Tree) (st : Stat) (fd : ℤ) (world : σ) {left : Multiset Resource}
    (hleft : ∀ r ∈ left, allowed r) (hlog : LeavesOnly allowed (rootEvents w flags root rootMember tree st fd world)) :
    noted (rootEvents w flags root rootMember tree st fd world) =
        (rootEnd w flags root rootMember tree st (w.callback world root rootMember st fd tree.probe.source)
          ⟨world,root,rootMember,st,fd,tree.probe.source,
            (w.callback world root rootMember st fd tree.probe.source).1⟩).2.trace ∧
      FindLeads root allowed (ownDescriptor fd+left) (rootEvents w flags root rootMember tree st fd world)
        (left+unclosed (rootEvents w flags root rootMember tree st fd world)) := by
  unfold rootEvents at hlog ⊢
  unfold rootEnd
  simp only at hlog ⊢
  generalize w.callback world root rootMember st fd tree.probe.source = r at hlog ⊢
  generalize hcall : FindCall.mk world root rootMember st fd tree.probe.source r.1 = call at hlog ⊢
  have hfront : FindLeads root allowed (ownDescriptor fd+left) ([.note call] ++ closeEvents fd) left := by
    have hnote : FindLeads root allowed (ownDescriptor fd+left) [.note call] (ownDescriptor fd+left) := by
      have hheld : HeldAt root allowed (ownDescriptor fd+left) call := by
        subst hcall
        exact ⟨[],left,rfl,hleft,by rw [streams,List.map_nil,Multiset.coe_nil,add_zero]⟩
      exact .event rfl fun m hm => by
        cases hm
        exact hheld
    exact hnote.append (open_leads (.ok fd)).2
  have hfrontUnclosed : unclosed ([.note call] ++ closeEvents fd) = 0 := by
    rw [unclosed_append,unclosed_close]
    exact unclosed_notes [call]
  have hfrontNoted : noted ([.note call] ++ closeEvents fd) = [call] := by
    have hclose : noted (closeEvents fd : List (DescriptorEvent σ)) = [] := by
      rw [closeEvents]
      split_ifs <;> rfl
    rw [noted_append,hclose,List.append_nil]
    exact noted_notes [call]
  have hcons (log : List (DescriptorEvent σ)) : .note call::closeEvents fd ++ log =
      ([.note call] ++ closeEvents fd) ++ log := rfl
  rw [hcons] at hlog ⊢
  by_cases hdescend : 0 < r.1 ∧ st.ifmt = sIfdir ∧ tree.probe.opendirAnswer = .ok ()
  · obtain ⟨hpos,hdir,hopendir⟩ := hdescend
    rw [if_pos ⟨hpos,hdir,hopendir⟩] at hlog ⊢
    rw [if_neg hpos.ne',if_neg (not_lt.mpr hpos.le),if_neg (not_not.mpr hdir),hopendir]
    simp only
    have hloop : StackFrom root (FindState.mk r.2 [⟨root,tree.listing⟩] [call]).dirs := rfl
    obtain ⟨htrace,hleads⟩ := @loopEvents_leads σ w flags root rootMember allowed _ hloop left hleft
      (LeavesOnly.append_iff.mp hlog).2
    have hopen : FindLeads root allowed left ([.acquire (.stream root)] : List (DescriptorEvent σ))
        (streams [root]+left) := .acquire _
    refine ⟨?_,?_⟩
    · rw [noted_append,hfrontNoted,htrace]
      rfl
    · rw [unclosed_append,hfrontUnclosed,zero_add]
      exact hfront.append (hopen.append hleads)
  · rw [if_neg hdescend,List.append_nil] at hlog ⊢
    rw [hfrontNoted,hfrontUnclosed,add_zero]
    refine ⟨?_,hfront⟩
    split_ifs with hzero hneg hdir
    · rfl
    · rfl
    · rfl
    · split
      · rfl
      · rename_i hopendir
        exact absurd ⟨by omega,not_not.mp hdir,hopendir⟩ hdescend

def RootLost (flags : FindFlags) (tree : Tree) (fd : ℤ) : Prop :=
  (∃ st, bStat flags tree.probe = .ok st ∧ st.ifmt = sIfreg) ∧ tree.probe.openAnswer = .ok fd ∧
    ∃ e, tree.probe.fcntlAnswer = .error e

/-- A log next to the calls of a traversal. Nothing is released that is not held. At each call, the
directories on the way to its path are open, and its own descriptor. At the end nothing is, but for
descriptors that are not positive, and that of a root for which `fcntl()` fails. -/
structure DescriptorsKept (root : Bytes) (tree : Tree) (log : List (DescriptorEvent σ))
    (calls : List (FindCall σ)) : Prop where
  noted : noted log = calls
  ends : ∃ left, replay 0 log = some left ∧
    ((∀ r ∈ left, NeverClosed log r) ∨ ∃ fd, RootLost flags tree fd ∧ left = {.descriptor fd})
  held : ∀ pre c post, log = pre ++ .note c::post → ∃ dirs left, LeadsTo root c.path dirs ∧
    (∀ r ∈ left, NeverClosed log r) ∧ replay 0 pre = some (ownDescriptor c.fd+streams dirs+left)

theorem DescriptorsKept.of_leads {tree : Tree} {log : List (DescriptorEvent σ)} {calls : List (FindCall σ)}
    (hnoted : ArchiveTarBuilder.noted log = calls)
    (h : FindLeads root (NeverClosed log) 0 log (unclosed log)) : DescriptorsKept flags root tree log calls where
  noted := hnoted
  ends := ⟨unclosed log,h.replays,Or.inl fun _ => neverClosed_of_unclosed⟩
  held := fun pre c post hsplit => by
    obtain ⟨now,hnow,dirs,left,hdirs,hleft,rfl⟩ := h.notes pre c post hsplit
    exact ⟨dirs,left,hdirs,hleft,hnow⟩

/-- Whatever the system calls answer and the callback does. -/
theorem bFind_descriptors (path memberName : Bytes) (tree : Tree) (world : σ) :
    DescriptorsKept flags (bPathClean path) tree (bDescriptorEvents w flags path memberName tree world)
      (bFind w flags path memberName tree world).2.trace := by
  let calls (st : Stat) (fd : ℤ) : List (FindCall σ) :=
    let r := w.callback world (bPathClean path) (bPathClean memberName) st fd tree.probe.source
    (rootEnd w flags (bPathClean path) (bPathClean memberName) tree st r
      ⟨world,bPathClean path,bPathClean memberName,st,fd,tree.probe.source,r.1⟩).2.trace
  have hroot (st : Stat) (fd : ℤ) (log : List (DescriptorEvent σ)) {opened : Multiset Resource}
      (hopened : unclosed log = opened) (hnone : ArchiveTarBuilder.noted log = [])
      (hopen : ∀ allowed, FindLeads (bPathClean path) allowed 0 log (ownDescriptor fd+opened)) :
      DescriptorsKept flags (bPathClean path) tree
        (log ++ rootEvents w flags (bPathClean path) (bPathClean memberName) tree st fd world)
        (calls st fd) := by
    subst hopened
    have hall : LeavesOnly (NeverClosed (log ++
        rootEvents w flags (bPathClean path) (bPathClean memberName) tree st fd world)) (log ++
        rootEvents w flags (bPathClean path) (bPathClean memberName) tree st fd world) :=
      fun _ => neverClosed_of_unclosed
    obtain ⟨hleft,hmore⟩ := LeavesOnly.append_iff.mp hall
    obtain ⟨hcalls,hleads⟩ := rootEvents_leads w flags tree st fd world hleft hmore
    refine .of_leads flags ?_ ?_
    · rw [noted_append,hnone,List.nil_append,hcalls]
    · rw [unclosed_append]
      exact (hopen _).append hleads
  have hfront (st : Stat) : DescriptorsKept flags (bPathClean path) tree
      (rootEvents w flags (bPathClean path) (bPathClean memberName) tree st 0 world)
      (calls st 0) :=
    hroot st 0 [] rfl rfl fun allowed => .nil
  unfold bDescriptorEvents bFind
  cases hstat : bStat flags tree.probe with
  | error e => exact .of_leads flags rfl .nil
  | ok st =>
    by_cases hregular : st.ifmt = sIfreg
    · simp only [if_pos hregular]
      cases hopen : tree.probe.openAnswer with
      | error e => exact .of_leads flags rfl .nil
      | ok fd =>
        cases hfcntl : tree.probe.fcntlAnswer with
        | error e =>
          refine ⟨rfl,⟨{.descriptor fd},rfl,Or.inr ⟨fd,⟨⟨st,hstat,hregular⟩,hopen,e,hfcntl⟩,rfl⟩⟩,?_⟩
          intro pre c post h
          cases pre with
          | nil => cases (List.cons.inj h).1
          | cons e' pre => exact absurd (List.cons.inj h).2 (by simp)
        | ok u =>
          refine hroot st fd (openEvents (.ok fd)) rfl rfl fun allowed => ?_
          have hopened := (@open_leads σ 0 (HeldAt (bPathClean path) allowed) (.ok fd)).1
          rwa [zero_add] at hopened
    · simp only [if_neg hregular]
      exact hfront st

end

end ArchiveTarBuilder
