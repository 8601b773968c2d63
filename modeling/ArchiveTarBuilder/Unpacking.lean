import ArchiveTarBuilder.TreeMembers
import ArchiveTarBuilder.EntryNames
import ArchiveTarBuilder.AliasTable

/-! Unpacking. A file system is a table of nodes under lists of names; what an archive unpacks to is
compared with what the names lead to in the tree that was archived. -/
namespace ArchiveTarBuilder
open Region CString Output

structure Node where
  type : ℕ
  contents : Bytes
  target : Bytes
  deriving DecidableEq

def nodeOf (st : Stat) (src : Source) : Node where
  type := st.ifmt
  contents := if st.ifmt = sIfreg then src.file.contents.take st.size else []
  target := if st.ifmt = sIflnk then src.target.toOption.getD [] else []

def MemberCall.node (c : MemberCall) : Node := nodeOf c.st c.src

def TarMember.entry (m : TarMember) : AliasTable.Entry (List Bytes) Node :=
  if m.type = 49 then .sameAs (components m.name) (components m.target)
  else .own (components m.name) ⟨(flagType m.type).getD 0,m.contents,m.target⟩

def unpack (members : List TarMember) : List Bytes → Option Node :=
  AliasTable.fill (members.map TarMember.entry)

section
variable (flags : FindFlags) (verdict : Bytes → Bool)

/-- What some names below a directory lead to, where the patterns let them. -/
def Listing.resolve : Listing → Bytes → List Bytes → Option Node
  | .entry name probe sub rest, dir, n::ns =>
    if n = name then
      let path := bDirItemPath dir name
      if name = dot ∨ name = dotDot ∨ verdict path = true then none
      else
        match probe.opened flags with
        | none => none
        | some (st,_) =>
          if ns = [] then some (nodeOf st probe.source)
          else if st.ifmt = sIfdir then sub.resolve path ns else none
    else rest.resolve dir (n::ns)
  | _, _, _ => none

def Tree.resolve (path : Bytes) (tree : Tree) (names : List Bytes) : Option Node :=
  match tree.probe.rootOpened flags with
  | none => none
  | some (st,_) =>
    if names = [] then some (nodeOf st tree.probe.source)
    else if st.ifmt = sIfdir then tree.listing.resolve flags verdict (bPathClean path) names else none

end

theorem ReadsAs.entry {c : MemberCall} {m : TarMember} (h : ReadsAs c m) :
    m.entry = .own (components c.memberName) c.node := by
  have hne : m.type ≠ 49 := by
    intro heq
    have htype := h.type
    rw [heq] at htype
    cases htype
  have htarget := h.target
  rw [TarMember.entry,if_neg hne,h.name,h.type,h.contents,MemberCall.node,nodeOf]
  split at htarget
  · rename_i hlnk
    rw [if_pos hlnk,htarget]
    rfl
  · rename_i hlnk
    rw [if_neg hlnk,htarget]
    rfl

structure Consistent (meant : List Bytes → Node) (calls : List MemberCall) : Prop where
  own : ∀ c ∈ calls, meant (components c.memberName) = c.node
  inode : ∀ c ∈ calls, ∀ c' ∈ calls, isHardlink c.st = true → isHardlink c'.st = true →
    (c.st.dev,c.st.ino) = (c'.st.dev,c'.st.ino) → c.node = c'.node

theorem firstName_some {before : List MemberCall} {st : Stat} {first : Bytes}
    (h : firstName before st = some first) : ∃ c ∈ before, isHardlink c.st = true ∧
      (st.dev,st.ino) = (c.st.dev,c.st.ino) ∧ c.memberName = first := by
  obtain ⟨c,hfind,hname⟩ := Option.map_eq_some_iff.mp h
  have hcond := List.find?_some hfind
  rw [Bool.and_eq_true,decide_eq_true_eq] at hcond
  exact ⟨c,List.mem_of_find?_eq_some hfind,hcond.1,hcond.2,hname⟩

/-- The members of some calls fill the table in turn, under the names of the calls. -/
theorem MembersOf.fit {options : BBuilderOptions} {meant : List Bytes → Node}
    {before calls : List MemberCall} {members : List TarMember}
    (h : MembersOf options before calls members) (hmeant : Consistent meant (before ++ calls))
    {known : List (List Bytes)} (hknown : ∀ c ∈ before, components c.memberName ∈ known) :
    AliasTable.Fit meant known (members.map TarMember.entry) ∧
      (members.map TarMember.entry).map AliasTable.Entry.key =
        calls.map fun c => components c.memberName := by
  induction calls generalizing before members known with
  | nil =>
    cases members with
    | nil => exact ⟨trivial,rfl⟩
    | cons m ms => exact h.elim
  | cons c calls ih =>
    cases members with
    | nil => exact h.elim
    | cons m ms =>
      obtain ⟨hm,hms⟩ := h
      have hc : c ∈ before ++ c::calls := by simp
      have hone : m.entry.Fits meant known ∧ m.entry.key = components c.memberName := by
        unfold MemberOf at hm
        split at hm
        · rw [hm.entry]
          exact ⟨(hmeant.own c hc).symm,rfl⟩
        · rename_i first hfirst
          obtain ⟨htype,-,htarget,hname⟩ := hm
          rw [TarMember.entry,if_pos htype,hname,htarget]
          split at hfirst
          · rename_i hcond
            obtain ⟨c',hc',hhard,hinode,hname'⟩ := firstName_some hfirst
            have hmem : c' ∈ before ++ c::calls := List.mem_append_left _ hc'
            refine ⟨⟨hname' ▸ hknown c' hc',?_⟩,rfl⟩
            rw [← hname',hmeant.own c' hmem,hmeant.own c hc]
            exact (hmeant.inode c hc c' hmem (Bool.and_eq_true_iff.mp hcond).2 hhard hinode).symm
          · cases hfirst
      have hmore : ∀ x ∈ before ++ [c], components x.memberName ∈ m.entry.key::known := fun x hx => by
        rcases List.mem_append.mp hx with hx | hx
        · exact List.mem_cons_of_mem _ (hknown x hx)
        · rw [List.mem_singleton.mp hx,hone.2]
          exact List.mem_cons_self
      have hrest := ih hms (by rwa [List.append_assoc]) hmore
      refine ⟨⟨hone.1,hrest.1⟩,?_⟩
      rw [List.map_cons,List.map_cons,List.map_cons,hone.2,hrest.2]

theorem entryPath_snoc (dir : Bytes) (chain : List (Bytes × Probe)) (name : Bytes) (probe : Probe) :
    bDirItemPath (entryPath dir chain) name = entryPath dir (chain ++ [(name,probe)]) := by
  simp only [entryPath,List.map_append,List.map_cons,List.map_nil,List.foldl_append,List.foldl_cons,
    List.foldl_nil]

theorem chainNames_snoc (chain : List (Bytes × Probe)) (name : Bytes) (probe : Probe) :
    chainNames (chain ++ [(name,probe)]) = chainNames chain ++ [name] := List.map_append

structure Way (chain : List (Bytes × Probe)) : Prop where
  token : TokenItems (chainNames chain)
  dot : dot ∉ chainNames chain

theorem Way.nil : Way [] := ⟨by simp [TokenItems],by simp⟩

theorem Way.snoc {chain : List (Bytes × Probe)} (h : Way chain) {name : Bytes} (hne : name ≠ [])
    (hslash : slash ∉ name) (hdot : name ≠ ArchiveTarBuilder.dot) (probe : Probe) :
    Way (chain ++ [(name,probe)]) := by
  constructor
  · intro x hx
    rw [chainNames_snoc] at hx
    rcases List.mem_append.mp hx with hx | hx
    · exact h.token x hx
    · rw [List.mem_singleton.mp hx]
      exact ⟨hne,hslash⟩
  · intro hx
    rw [chainNames_snoc] at hx
    rcases List.mem_append.mp hx with hx | hx
    · exact h.dot hx
    · exact hdot (List.mem_singleton.mp hx).symm

section
variable {flags : FindFlags} {verdict : Bytes → Bool} {path memberName : Bytes}
  (hglued : ¬Glued path memberName)
include hglued

theorem memberName_components {chain : List (Bytes × Probe)} (hne : chain ≠ []) (hway : Way chain) :
    components ((substMemberName (bPathClean path) (bPathClean memberName)
      (entryPath (bPathClean path) chain)).getD (entryPath (bPathClean path) chain)) =
        components (bPathClean memberName) ++ chainNames chain := by
  rw [entryPath_eq _ hne fun e he => (hway.token e.1 (List.mem_map_of_mem he)).1]
  exact (substMemberName_components path memberName hway.token hway.dot (by simpa using hne)).mpr hglued

theorem resolve_of_visit {l : Listing} (hl : l.Proper) {chain : List (Bytes × Probe)} (hway : Way chain) :
    ∀ c ∈ l.visits flags verdict (bPathClean path) (bPathClean memberName)
        (entryPath (bPathClean path) chain), ∃ n ns, n ∈ l.names ∧
      components c.memberName = components (bPathClean memberName) ++ (chainNames chain ++ n::ns) ∧
      l.resolve flags verdict (entryPath (bPathClean path) chain) (n::ns) = some c.node := by
  induction l generalizing chain with
  | eof => simp [Listing.visits]
  | failed e => simp [Listing.visits]
  | entry name probe sub rest ihsub ihrest =>
    obtain ⟨hne,hslash,hnew,hsub,hrest⟩ := hl
    intro c hc
    rcases List.mem_append.mp hc with hc | hc
    · split_ifs at hc with hskip
      · cases hc
      obtain ⟨hdot,hdots,hpass⟩ : name ≠ dot ∧ name ≠ dotDot ∧
          verdict (bDirItemPath (entryPath (bPathClean path) chain) name) ≠ true := by
        simpa only [not_or] using hskip
      cases hopened : probe.opened flags with
      | none => simp [hopened] at hc
      | some opened =>
        obtain ⟨st,fd⟩ := opened
        have hsnoc := hway.snoc hne hslash hdot probe
        simp only [hopened] at hc
        rcases List.mem_cons.mp hc with rfl | hc
        · refine ⟨name,[],List.mem_cons_self,?_,?_⟩
          · simp only [entryPath_snoc _ chain name probe]
            rw [memberName_components hglued (by simp) hsnoc,chainNames_snoc]
          · simp only [Listing.resolve,if_true,if_neg hskip,hopened]
            rfl
        · split_ifs at hc with hdir
          · rw [entryPath_snoc _ chain name probe] at hc
            obtain ⟨n,ns,-,hkey,hresolve⟩ := ihsub hsub hsnoc c hc
            refine ⟨name,n::ns,List.mem_cons_self,?_,?_⟩
            · rw [hkey,chainNames_snoc,List.append_assoc]
              rfl
            · have hcons : n::ns ≠ [] := List.cons_ne_nil _ _
              simp only [Listing.resolve,if_true,if_neg hskip,hopened,if_neg hcons,if_pos hdir]
              rw [entryPath_snoc _ chain name probe]
              exact hresolve
          · cases hc
    · obtain ⟨n,ns,hn,hkey,hresolve⟩ := ihrest hrest hway c hc
      have hother : n ≠ name := fun heq => hnew (heq ▸ hn)
      refine ⟨n,ns,List.mem_cons_of_mem _ hn,hkey,?_⟩
      rw [Listing.resolve,if_neg hother]
      exact hresolve

theorem visit_of_resolve {l : Listing} (hl : l.Proper) {chain : List (Bytes × Probe)} (hway : Way chain)
    {names : List Bytes} {node : Node}
    (h : l.resolve flags verdict (entryPath (bPathClean path) chain) names = some node) :
    ∃ c ∈ l.visits flags verdict (bPathClean path) (bPathClean memberName)
        (entryPath (bPathClean path) chain),
      components c.memberName = components (bPathClean memberName) ++ (chainNames chain ++ names) := by
  induction l generalizing chain names with
  | eof => simp [Listing.resolve] at h
  | failed e => simp [Listing.resolve] at h
  | entry name probe sub rest ihsub ihrest =>
    obtain ⟨hne,hslash,hnew,hsub,hrest⟩ := hl
    cases names with
    | nil => simp [Listing.resolve] at h
    | cons n ns =>
      rw [Listing.resolve] at h
      by_cases hname : n = name
      · subst hname
        by_cases hskip : n = dot ∨ n = dotDot ∨
            verdict (bDirItemPath (entryPath (bPathClean path) chain) n) = true
        · simp [hskip] at h
        obtain ⟨hdot,hdots,hpass⟩ := not_or.mp hskip |>.imp id not_or.mp
        have hsnoc := hway.snoc hne hslash hdot probe
        simp only [if_true,if_neg hskip] at h
        cases hopened : probe.opened flags with
        | none => simp [hopened] at h
        | some opened =>
          obtain ⟨st,fd⟩ := opened
          simp only [hopened] at h
          simp only [Listing.visits,if_neg hskip,hopened]
          split_ifs at h with hnil hdir
          · subst hnil
            refine ⟨_,List.mem_append_left _ List.mem_cons_self,?_⟩
            simp only [entryPath_snoc _ chain n probe]
            rw [memberName_components hglued (by simp) hsnoc,chainNames_snoc]
          · rw [entryPath_snoc _ chain n probe] at h
            obtain ⟨c,hc,hkey⟩ := ihsub hsub hsnoc h
            rw [← entryPath_snoc] at hc
            refine ⟨c,List.mem_append_left _ (List.mem_cons_of_mem _ (by rwa [if_pos hdir])),?_⟩
            rw [hkey,chainNames_snoc,List.append_assoc]
            rfl
      · rw [if_neg hname] at h
        obtain ⟨c,hc,hkey⟩ := ihrest hrest hway h
        exact ⟨c,List.mem_append_right _ hc,hkey⟩

theorem Tree.resolve_of_visit {tree : Tree} (hproper : tree.listing.Proper) :
    ∀ c ∈ tree.visits flags verdict path memberName, ∃ names,
      components c.memberName = components (bPathClean memberName) ++ names ∧
      tree.resolve flags verdict path names = some c.node := by
  intro c hc
  unfold Tree.visits at hc
  unfold Tree.resolve
  cases hopened : tree.probe.rootOpened flags with
  | none => simp [hopened] at hc
  | some opened =>
    obtain ⟨st,fd⟩ := opened
    simp only [hopened] at hc ⊢
    rcases List.mem_cons.mp hc with rfl | hc
    · exact ⟨[],(List.append_nil _).symm,if_pos rfl⟩
    · split_ifs at hc with hdir
      · obtain ⟨n,ns,-,hkey,hresolve⟩ := ArchiveTarBuilder.resolve_of_visit hglued hproper Way.nil c hc
        exact ⟨n::ns,hkey,by simp only [if_neg (List.cons_ne_nil n ns),if_pos hdir]; exact hresolve⟩
      · cases hc

theorem Tree.visit_of_resolve {tree : Tree} (hproper : tree.listing.Proper) {names : List Bytes}
    {node : Node} (h : tree.resolve flags verdict path names = some node) :
    ∃ c ∈ tree.visits flags verdict path memberName,
      components c.memberName = components (bPathClean memberName) ++ names := by
  unfold Tree.resolve at h
  unfold Tree.visits
  cases hopened : tree.probe.rootOpened flags with
  | none => simp [hopened] at h
  | some opened =>
    obtain ⟨st,fd⟩ := opened
    simp only [hopened] at h ⊢
    by_cases hnil : names = []
    · subst hnil
      exact ⟨_,List.mem_cons_self,(List.append_nil _).symm⟩
    · rw [if_neg hnil] at h
      split_ifs at h with hdir
      obtain ⟨c,hc,hkey⟩ := ArchiveTarBuilder.visit_of_resolve hglued hproper Way.nil h
      exact ⟨c,List.mem_cons_of_mem _ (by rwa [if_pos hdir]),hkey⟩

/-- What the members of a tree unpack to: under the name of its root, what the names below the root
lead to. -/
theorem MembersOf.unpack {options : BBuilderOptions} {tree : Tree} (hproper : tree.listing.Proper)
    (hinode : ∀ c ∈ tree.visits flags verdict path memberName,
      ∀ c' ∈ tree.visits flags verdict path memberName, isHardlink c.st = true →
        isHardlink c'.st = true → (c.st.dev,c.st.ino) = (c'.st.dev,c'.st.ino) → c.node = c'.node)
    {members : List TarMember}
    (h : MembersOf options [] (tree.visits flags verdict path memberName) members) :
    (∀ names, ArchiveTarBuilder.unpack members (components (bPathClean memberName) ++ names) =
      tree.resolve flags verdict path names) ∧
    ∀ key, ¬components (bPathClean memberName) <+: key → ArchiveTarBuilder.unpack members key =
    none := by
  -- below the root, a name is meant to stand for what it leads to
  let meant (key : List Bytes) : Node := (tree.resolve flags verdict path
    (key.drop (components (bPathClean memberName)).length)).getD ⟨0,[],[]⟩
  have hmeant : Consistent meant (tree.visits flags verdict path memberName) := by
    refine ⟨fun c hc => ?_,hinode⟩
    obtain ⟨names,hkey,hresolve⟩ := Tree.resolve_of_visit hglued hproper c hc
    simp only [meant,hkey,List.drop_left,hresolve,Option.getD_some]
  have hnone : ∀ c ∈ ([] : List MemberCall), components c.memberName ∈ ([] : List (List Bytes)) := by simp
  obtain ⟨hfit,hkeys⟩ := h.fit hmeant hnone
  have hfill (key : List Bytes) := AliasTable.fill_eq hfit key
  rw [hkeys] at hfill
  refine ⟨fun names => ?_,fun key hno => ?_⟩
  · rw [ArchiveTarBuilder.unpack,hfill]
    cases hresolve : tree.resolve flags verdict path names with
    | none =>
      refine if_neg fun hmem => ?_
      obtain ⟨c,hc,hkey⟩ := List.mem_map.mp hmem
      obtain ⟨names',hkey',hresolve'⟩ := Tree.resolve_of_visit hglued hproper c hc
      rw [List.append_cancel_left (hkey'.symm.trans hkey),hresolve] at hresolve'
      cases hresolve'
    | some node =>
      obtain ⟨c,hc,hkey⟩ := Tree.visit_of_resolve hglued hproper hresolve
      rw [if_pos (hkey ▸ List.mem_map_of_mem hc)]
      simp only [meant,List.drop_left,hresolve,Option.getD_some]
  · rw [ArchiveTarBuilder.unpack,hfill]
    refine if_neg fun hmem => hno ?_
    obtain ⟨c,hc,rfl⟩ := List.mem_map.mp hmem
    obtain ⟨names,hkey,-⟩ := Tree.resolve_of_visit hglued hproper c hc
    exact ⟨names,hkey.symm⟩

end

section
variable {μ : Type*} {engine : MatchEngine μ} {fixed : μ → Prop} {verdict : Bytes → Bool}
  (hengine : engine.Decides fixed verdict) {options : BBuilderOptions}
include hengine

end

end ArchiveTarBuilder
