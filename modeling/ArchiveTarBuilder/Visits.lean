import ArchiveTarBuilder.RelatedTraversals
import ArchiveTarBuilder.MemberStream

/-! What a traversal hands to its callback when every system call succeeds and every call of the
callback does: a list that is read off the tree, without any world. -/
namespace ArchiveTarBuilder
open CString

section
variable (flags : FindFlags) (verdict : Bytes → Bool) (root rootMember : Bytes)

def Listing.visits : Listing → Bytes → List MemberCall
  | .eof, _ => []
  | .failed _, _ => []
  | .entry name probe sub rest, dir =>
    let path := bDirItemPath dir name
    let memberName := (substMemberName root rootMember path).getD path
    (if name = dot ∨ name = dotDot ∨ verdict path = true then []
    else
      match probe.opened flags with
      | none => []
      | some (st,fd) => ⟨path,memberName,st,fd,probe.source⟩::
          if st.ifmt = sIfdir then sub.visits path else []) ++ rest.visits dir

/-- What the tests let pass can be opened and stat'ed, and the directories among it can be listed.
-/
def Listing.Served : Listing → Bytes → Prop
  | .eof, _ => True
  | .failed _, _ => True
  | .entry name probe sub rest, dir =>
    let path := bDirItemPath dir name
    (name ≠ dot → name ≠ dotDot → verdict path = false → ∃ st fd, probe.opened flags = some (st,fd) ∧
      (st.ifmt = sIfdir → probe.opendirAnswer = .ok () ∧ sub.Served path)) ∧ rest.Served dir

def Probe.rootOpened (probe : Probe) : Option (Stat × ℤ) :=
  match bStat flags probe with
  | .error _ => none
  | .ok st =>
    if st.ifmt = sIfreg then
      match probe.openAnswer,probe.fcntlAnswer with
      | .ok fd, .ok () => some (st,fd)
      | _, _ => none
    else some (st,0)

/-- The calls for a tree: its root, which is not tested, and what lies below. -/
def Tree.visits (path memberName : Bytes) (tree : Tree) : List MemberCall :=
  let root := bPathClean path
  let rootMember := bPathClean memberName
  match tree.probe.rootOpened flags with
  | none => []
  | some (st,fd) => ⟨root,rootMember,st,fd,tree.probe.source⟩::
      if st.ifmt = sIfdir then tree.listing.visits flags verdict root rootMember root else []

def Tree.Served (path : Bytes) (tree : Tree) : Prop :=
  ∃ st fd, tree.probe.rootOpened flags = some (st,fd) ∧ (st.ifmt = sIfdir →
    tree.probe.opendirAnswer = .ok () ∧ tree.listing.Served flags verdict (bPathClean path))

end

def FindCall.call {σ : Type*} (c : FindCall σ) : MemberCall :=
  ⟨c.path,c.memberName,c.st,c.fd,c.source⟩

section
variable {σ : Type*} (w : FindWorld σ)

theorem bFind_rootOpened {flags : FindFlags} {tree : Tree} {st : Stat} {fd : ℤ}
    (hopened : tree.probe.rootOpened flags = some (st,fd)) (path memberName : Bytes) (world : σ) :
    let root := bPathClean path
    let rootMember := bPathClean memberName
    let r := w.callback world root rootMember st fd tree.probe.source
    bFind w flags path memberName tree world = rootEnd w flags root rootMember tree st r
      ⟨world,root,rootMember,st,fd,tree.probe.source,r.1⟩ := by
  unfold Probe.rootOpened at hopened
  cases hstat : bStat flags tree.probe with
  | error e => simp [hstat] at hopened
  | ok st' =>
    simp only [hstat] at hopened
    by_cases hreg : st'.ifmt = sIfreg
    · simp only [if_pos hreg] at hopened
      cases hopen : tree.probe.openAnswer with
      | error e => simp [hopen] at hopened
      | ok fd' =>
        cases hfcntl : tree.probe.fcntlAnswer with
        | error e => simp [hopen,hfcntl] at hopened
        | ok u =>
          simp only [hopen,hfcntl,Option.some.injEq,Prod.mk.injEq] at hopened
          obtain ⟨rfl,rfl⟩ := hopened
          simp only [bFind,hstat,if_pos hreg,hopen,hfcntl,Except.map]
          rfl
    · simp only [if_neg hreg,Option.some.injEq,Prod.mk.injEq] at hopened
      obtain ⟨rfl,rfl⟩ := hopened
      simp only [bFind,hstat,if_neg hreg]
      rfl

/-- In the worlds that `steady` holds of, the test of a path always gives the answer `verdict` and
the good calls succeed. -/
structure FindWorld.Serves (verdict : Bytes → Bool) (good : MemberCall → Prop) (steady : σ → Prop) :
    Prop where
  test : ∀ s path, steady s → (w.excluded s path).1 = verdict path
  excluded : ∀ s path, steady s → steady (w.excluded s path).2
  setErrno : ∀ s e, steady s → steady (w.setErrno s e)
  callback : ∀ s c, steady s → good c →
    0 < (w.callback s c.path c.memberName c.st c.fd c.src).1 ∧
      steady (w.callback s c.path c.memberName c.st c.fd c.src).2

variable {w} {flags : FindFlags} {verdict : Bytes → Bool} {good : MemberCall → Prop}
  {steady : σ → Prop} (h : w.Serves verdict good steady) {root rootMember : Bytes}
include h

theorem FindWorld.Serves.behindOpen (probe : Probe) {world : σ} (hs : steady world) :
    steady (probe.behindOpen w world) := by
  unfold Probe.behindOpen
  split
  · exact hs
  · exact h.setErrno _ _ hs

theorem findItem_served {path name : Bytes} {probe : Probe} {world : σ} (hs : steady world)
    (hdot : name ≠ dot) (hdots : name ≠ dotDot) (hpass : verdict path = false) {st : Stat} {fd : ℤ}
    (hopened : probe.opened flags = some (st,fd))
    (hopendir : st.ifmt = sIfdir → probe.opendirAnswer = .ok ())
    (hgood : good ⟨path,(substMemberName root rootMember path).getD path,st,fd,probe.source⟩) :
    ∃ call s', findItem w flags root rootMember path name probe world =
        (if st.ifmt = sIfdir then .descend else .cleanup,[call],s') ∧ steady s' ∧
        steady call.world ∧
      call.call = ⟨path,(substMemberName root rootMember path).getD path,st,fd,probe.source⟩ := by
  have hname : ¬(name = dot ∨ name = dotDot) := not_or.mpr ⟨hdot,hdots⟩
  have hverdict : ¬(w.excluded world path).1 = true := by simp [h.test world path hs,hpass]
  have hitem := @findItem_opened _ w flags root rootMember _ _ _ _ _ _ _ hname hverdict
    (findOpen_opened w flags hopened)
  have hworld := h.behindOpen probe (h.excluded world path hs)
  obtain ⟨hpos,hs'⟩ := h.callback _ _ hworld hgood
  simp only at hitem hpos hs'
  generalize w.callback (probe.behindOpen w (w.excluded world path).2) path
    ((substMemberName root rootMember path).getD path) st fd probe.source = r at hitem hpos hs'
  have hend : itemEnd w path probe st r = (if st.ifmt = sIfdir then .descend else .cleanup,r.2) := by
    rw [itemEnd,if_neg hpos.ne',if_neg (not_lt.mpr hpos.le)]
    by_cases hdir : st.ifmt = sIfdir
    · rw [if_pos hdir,if_pos hdir,hopendir hdir]
    · rw [if_neg hdir,if_neg hdir]
  rw [hend] at hitem
  exact ⟨_,_,hitem,hs',hworld,rfl⟩

theorem walk_visits (l : Listing) (dir : Bytes) {world : σ} (hs : steady world)
    (hserved : l.Served flags verdict dir)
    (hgood : ∀ c ∈ l.visits flags verdict root rootMember dir, good c) :
    ∃ calls s', walk w flags root rootMember l dir world = (false,calls,s') ∧ steady s' ∧
      (∀ c ∈ calls, steady c.world) ∧
      calls.map FindCall.call = l.visits flags verdict root rootMember dir := by
  induction l generalizing dir world with
  | eof => exact ⟨[],world,rfl,hs,by simp,rfl⟩
  | failed e => exact ⟨[],world,rfl,hs,by simp,rfl⟩
  | entry name probe sub rest ihsub ihrest =>
    obtain ⟨hentry,hrest⟩ := hserved
    simp only [Listing.visits] at hgood ⊢
    have hgoodrest : ∀ c ∈ rest.visits flags verdict root rootMember dir, good c :=
      fun c hc => hgood c (List.mem_append_right _ hc)
    by_cases hname : name = dot ∨ name = dotDot
    · obtain ⟨calls,s',hwalk,hs',hall,hcalls⟩ := ihrest dir hs hrest hgoodrest
      have hskip : name = dot ∨ name = dotDot ∨ verdict (bDirItemPath dir name) = true :=
        hname.imp id Or.inl
      refine ⟨calls,s',?_,hs',hall,by rw [if_pos hskip,List.nil_append,hcalls]⟩
      simp only [walk,findItem,if_pos hname,hwalk,List.nil_append]
    obtain ⟨hdot,hdots⟩ := not_or.mp hname
    cases hpass : verdict (bDirItemPath dir name) with
    | true =>
      obtain ⟨calls,s',hwalk,hs',hall,hcalls⟩ :=
        ihrest dir (h.excluded world (bDirItemPath dir name) hs) hrest hgoodrest
      refine ⟨calls,s',?_,hs',hall,by rw [if_pos (Or.inr (Or.inr rfl)),List.nil_append,hcalls]⟩
      have hexcluded := (h.test world (bDirItemPath dir name) hs).trans hpass
      simp only [walk,findItem,if_neg hname,hexcluded,if_true,hwalk,List.nil_append]
    | false =>
      obtain ⟨st,fd,hopened,hdir⟩ := hentry hdot hdots hpass
      have hno : ¬(name = dot ∨ name = dotDot ∨ false = true) := by simp [hdot,hdots]
      simp only [hpass,if_neg hno,hopened] at hgood ⊢
      obtain ⟨call,s',hitem,hs',hworld,hcall⟩ := findItem_served h hs hdot hdots hpass hopened
        (fun hd => (hdir hd).1) (hgood _ (List.mem_append_left _ List.mem_cons_self))
      by_cases hd : st.ifmt = sIfdir
      · simp only [if_pos hd] at hitem hgood ⊢
        obtain ⟨below,s'',hwalk,hs'',hallbelow,hbelow⟩ :=
          ihsub (bDirItemPath dir name) hs' (hdir hd).2
          fun c hc => hgood c (List.mem_append_left _ (List.mem_cons_of_mem _ hc))
        obtain ⟨calls,t,hwalk',ht,hall,hcalls⟩ := ihrest dir hs'' hrest hgoodrest
        refine ⟨call::below ++ calls,t,?_,ht,?_,by
          simp only [List.map_append,List.map_cons,hcall,hbelow,hcalls]⟩
        · simp only [walk,hitem,hwalk,hwalk',Bool.false_eq_true,if_false,List.singleton_append]
        · exact List.forall_mem_append.mpr ⟨List.forall_mem_cons.mpr ⟨hworld,hallbelow⟩,hall⟩
      · simp only [if_neg hd] at hitem hgood ⊢
        obtain ⟨calls,t,hwalk',ht,hall,hcalls⟩ := ihrest dir hs' hrest hgoodrest
        refine ⟨call::calls,t,?_,ht,List.forall_mem_cons.mpr ⟨hworld,hall⟩,by
          simp only [List.map_cons,hcall,hcalls,List.singleton_append]⟩
        simp only [walk,hitem,hwalk',List.singleton_append]

/-- A traversal of a tree that is served makes the calls of the tree and ends well. -/
theorem bFind_visits {path memberName : Bytes} {tree : Tree} {world : σ} (hs : steady world)
    (hserved : tree.Served flags verdict path)
    (hgood : ∀ c ∈ tree.visits flags verdict path memberName, good c) :
    ∃ s', bFind w flags path memberName tree world = (0,s') ∧ steady s'.world ∧
      (∀ c ∈ s'.trace, steady c.world) ∧
      s'.trace.map FindCall.call = tree.visits flags verdict path memberName := by
  obtain ⟨st,fd,hopened,hdir⟩ := hserved
  simp only [Tree.visits,hopened] at hgood ⊢
  obtain ⟨hpos,hs'⟩ := h.callback world _ hs (hgood _ List.mem_cons_self)
  rw [bFind_rootOpened w hopened path memberName world]
  simp only at hpos hs' ⊢
  generalize w.callback world (bPathClean path) (bPathClean memberName) st fd tree.probe.source = r
    at hpos hs'
  by_cases hd : st.ifmt = sIfdir
  · obtain ⟨hopendir,hlist⟩ := hdir hd
    simp only [if_pos hd] at hgood ⊢
    obtain ⟨calls,t,hwalk,ht,hall,hcalls⟩ := walk_visits h tree.listing (bPathClean path) hs' hlist
      fun c hc => hgood c (List.mem_cons_of_mem _ hc)
    have hloop := findLoop_root w flags (bPathClean path) (bPathClean memberName) tree.listing r.2
      [⟨world,bPathClean path,bPathClean memberName,st,fd,tree.probe.source,r.1⟩]
    simp only [hwalk,Bool.false_eq_true,if_false] at hloop
    obtain ⟨hret,htrace,hworld⟩ := hloop
    refine ⟨_,Prod.ext ?_ rfl,?_,?_,?_⟩ <;>
      simp only [rootEnd,hpos.ne',not_lt.mpr hpos.le,hd,hopendir,if_false,ne_eq,not_true_eq_false]
    · exact hret
    · rwa [hworld]
    · rw [htrace]
      exact List.forall_mem_cons.mpr ⟨hs,hall⟩
    · rw [htrace,List.singleton_append,List.map_cons,hcalls]
      rfl
  · refine ⟨_,Prod.ext ?_ rfl,?_,?_,?_⟩ <;>
      simp only [rootEnd,hpos.ne',not_lt.mpr hpos.le,hd,if_false,ne_eq,not_false_eq_true,if_true]
    · exact hs'
    · exact List.forall_mem_singleton.mpr hs
    · rfl

end

end ArchiveTarBuilder
