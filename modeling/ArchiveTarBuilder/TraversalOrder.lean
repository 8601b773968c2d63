import ArchiveTarBuilder.Traversal

/-! The order of the calls of a traversal: no entry twice, a directory before what is in it,
nothing below a directory that was not entered, and nothing behind a fatal error. -/
namespace ArchiveTarBuilder
open CString

def Listing.names : Listing → List Bytes
  | .eof => []
  | .failed _ => []
  | .entry name _ _ rest => name::rest.names

/-- The listings of a real directory tree: no name is empty or contains a slash, and no directory
has two entries of one name. -/
def Listing.Proper : Listing → Prop
  | .eof => True
  | .failed _ => True
  | .entry name _ sub rest =>
    name ≠ [] ∧ slash ∉ name ∧ name ∉ rest.names ∧ sub.Proper ∧ rest.Proper

def dirPrefix (dir : Bytes) : Bytes := if dir = [slash] then dir else dir ++ [slash]

theorem bDirItemPath_eq (dir name : Bytes) : bDirItemPath dir name = dirPrefix dir ++ name := by
  unfold bDirItemPath dirPrefix
  split <;> simp

theorem dirPrefix_ends (dir : Bytes) : ∃ s, dirPrefix dir = s ++ [slash] := by
  unfold dirPrefix
  split
  · exact ⟨[],by simp [*]⟩
  · exact ⟨dir,rfl⟩

theorem dirPrefix_length_pos (dir : Bytes) : 0 < (dirPrefix dir).length := by
  obtain ⟨s,hs⟩ := dirPrefix_ends dir
  simp [hs]

theorem dirPrefix_of_ne {dir : Bytes} (h : dir ≠ [slash]) : dirPrefix dir = dir ++ [slash] := by
  simp [dirPrefix,h]

theorem bDirItemPath_ne_slash (dir : Bytes) {name : Bytes} (h : name ≠ []) :
    bDirItemPath dir name ≠ [slash] := by
  intro he
  have hlen := congrArg List.length he
  have hd := dirPrefix_length_pos dir
  have hn := List.length_pos_iff.mpr h
  rw [bDirItemPath_eq,List.length_append,List.length_singleton] at hlen
  omega

def Under (dir name path : Bytes) : Prop :=
  ∃ tail, path = bDirItemPath dir name ++ tail ∧ (tail = [] ∨ tail.head? = some slash)

theorem Under.self (dir name : Bytes) : Under dir name (bDirItemPath dir name) :=
  ⟨[],by simp,Or.inl rfl⟩

theorem Under.below {dir name entry path : Bytes} (hname : name ≠ [])
    (h : Under (bDirItemPath dir name) entry path) : Under dir name path := by
  obtain ⟨tail,rfl,-⟩ := h
  refine ⟨[slash] ++ entry ++ tail,?_,Or.inr rfl⟩
  rw [bDirItemPath_eq (bDirItemPath dir name),dirPrefix_of_ne (bDirItemPath_ne_slash dir hname)]
  simp

theorem Under.name_eq {dir name name' path : Bytes} (hn : slash ∉ name) (hn' : slash ∉ name')
    (h : Under dir name path) (h' : Under dir name' path) : name = name' := by
  obtain ⟨tail,rfl,htail⟩ := h
  obtain ⟨tail',heq,htail'⟩ := h'
  rw [bDirItemPath_eq,bDirItemPath_eq,List.append_assoc,List.append_assoc,
    List.append_cancel_left_eq] at heq
  have htake {n t : Bytes} (hn : slash ∉ n) (ht : t = [] ∨ t.head? = some slash) :
      (n ++ t).takeWhile (· ≠ slash) = n := by
    have hall : ∀ c ∈ n, decide (c ≠ slash) = true := by
      intro c hc
      simpa using fun he : c = slash => hn (he ▸ hc)
    rw [List.takeWhile_append_of_pos hall]
    rcases ht with rfl | ht
    · simp
    · obtain ⟨rest,rfl⟩ := List.head?_eq_some_iff.mp ht
      simp
  rw [← htake hn htail,heq,htake hn' htail']

section
variable {σ : Type*} {w : FindWorld σ}

theorem Visits.under {l : Listing} {dir : Bytes} {cut : Bool} {calls : List (FindCall σ)}
    (h : Visits w l dir cut calls) (hp : l.Proper) :
    ∀ c ∈ calls, ∃ name ∈ l.names, name ≠ [] ∧ slash ∉ name ∧ Under dir name c.path := by
  induction h with
  | eof dir => simp
  | failed e dir => simp
  | skip h ih =>
    intro c hc
    obtain ⟨name,hname,hrest⟩ := ih hp.2.2.2.2 c hc
    exact ⟨name,List.mem_cons_of_mem _ hname,hrest⟩
  | cut hpath hcut =>
    intro c hc
    rw [List.mem_singleton.mp hc,hpath]
    exact ⟨_,List.mem_cons_self,hp.1,hp.2.1,Under.self _ _⟩
  | leaf hpath hgoes h ih =>
    intro c hc
    rcases List.mem_cons.mp hc with rfl | hc
    · rw [hpath]
      exact ⟨_,List.mem_cons_self,hp.1,hp.2.1,Under.self _ _⟩
    · obtain ⟨name,hname,hrest⟩ := ih hp.2.2.2.2 c hc
      exact ⟨name,List.mem_cons_of_mem _ hname,hrest⟩
  | cutBelow hpath hres hdir h ih =>
    intro c hc
    rcases List.mem_cons.mp hc with rfl | hc
    · rw [hpath]
      exact ⟨_,List.mem_cons_self,hp.1,hp.2.1,Under.self _ _⟩
    · obtain ⟨name,-,-,-,hunder⟩ := ih hp.2.2.2.1 c hc
      exact ⟨_,List.mem_cons_self,hp.1,hp.2.1,hunder.below hp.1⟩
  | enter hpath hres hdir hbelow h ihbelow ih =>
    intro c hc
    rcases List.mem_cons.mp hc with rfl | hc
    · rw [hpath]
      exact ⟨_,List.mem_cons_self,hp.1,hp.2.1,Under.self _ _⟩
    · rcases List.mem_append.mp hc with hc | hc
      · obtain ⟨name,-,-,-,hunder⟩ := ihbelow hp.2.2.2.1 c hc
        exact ⟨_,List.mem_cons_self,hp.1,hp.2.1,hunder.below hp.1⟩
      · obtain ⟨name,hname,hrest⟩ := ih hp.2.2.2.2 c hc
        exact ⟨name,List.mem_cons_of_mem _ hname,hrest⟩

theorem Visits.nodup {l : Listing} {dir : Bytes} {cut : Bool} {calls : List (FindCall σ)}
    (h : Visits w l dir cut calls) (hp : l.Proper) : (calls.map (·.path)).Nodup := by
  -- an entry's own path is shorter than the paths below it, and other entries have other names
  have hbelow {sub : Listing} {dir name : Bytes} {cut : Bool} {below : List (FindCall σ)}
      (hname : name ≠ []) (hsub : sub.Proper)
      (h : Visits w sub (bDirItemPath dir name) cut below) :
      bDirItemPath dir name ∉ below.map (·.path) := by
    rw [List.mem_map]
    rintro ⟨c,hc,hpath⟩
    obtain ⟨entry,-,-,-,tail,heq,-⟩ := h.under hsub c hc
    have hlen := congrArg List.length (hpath.symm.trans heq)
    rw [bDirItemPath_eq (bDirItemPath dir name),dirPrefix_of_ne (bDirItemPath_ne_slash dir hname)]
      at hlen
    simp only [List.length_append,List.length_singleton] at hlen
    omega
  have hafter {rest : Listing} {dir name : Bytes} {cut : Bool} {calls : List (FindCall σ)}
      (hslash : slash ∉ name) (hnew : name ∉ rest.names) (hrest : rest.Proper)
      (h : Visits w rest dir cut calls) : ∀ c ∈ calls, ¬Under dir name c.path := by
    intro c hc hunder
    obtain ⟨name',hmem,-,hslash',hunder'⟩ := h.under hrest c hc
    exact hnew (hunder.name_eq hslash hslash' hunder' ▸ hmem)
  induction h with
  | eof dir => simp
  | failed e dir => simp
  | skip h ih => exact ih hp.2.2.2.2
  | cut hpath hcut => simp
  | leaf hpath hgoes h ih =>
    rw [List.map_cons,List.nodup_cons,hpath]
    refine ⟨?_,ih hp.2.2.2.2⟩
    rw [List.mem_map]
    rintro ⟨c,hc,heq⟩
    exact hafter hp.2.1 hp.2.2.1 hp.2.2.2.2 h c hc (heq ▸ Under.self _ _)
  | cutBelow hpath hres hdir h ih =>
    rw [List.map_cons,List.nodup_cons,hpath]
    exact ⟨hbelow hp.1 hp.2.2.2.1 h,ih hp.2.2.2.1⟩
  | enter hpath hres hdir hb h ihbelow ih =>
    have hother := hafter hp.2.1 hp.2.2.1 hp.2.2.2.2 h
    rw [List.map_cons,List.nodup_cons,hpath,List.map_append,List.mem_append,List.nodup_append]
    refine ⟨?_,ihbelow hp.2.2.2.1,ih hp.2.2.2.2,?_⟩
    · rintro (hmem | hmem)
      · exact hbelow hp.1 hp.2.2.2.1 hb hmem
      · obtain ⟨c,hc,heq⟩ := List.mem_map.mp hmem
        exact hother c hc (heq ▸ Under.self _ _)
    · intro path hmem path' hmem' heq
      obtain ⟨c,hc,rfl⟩ := List.mem_map.mp hmem
      obtain ⟨c',hc',rfl⟩ := List.mem_map.mp hmem'
      obtain ⟨entry,-,-,-,hunder⟩ := hb.under hp.2.2.2.1 c hc
      exact hother c' hc' (heq ▸ hunder.below hp.1)

/-- `p` reported the directory that holds the entry `c` is about, with a positive result. -/
def ChildOf (p c : FindCall σ) : Prop :=
  0 < p.result ∧ p.st.ifmt = sIfdir ∧
    ∃ name, name ≠ [] ∧ slash ∉ name ∧ c.path = bDirItemPath p.path name

/-- The parent of every call comes before it, among `seen` or in the list. -/
def Sourced : List (FindCall σ) → List (FindCall σ) → Prop
  | _, [] => True
  | seen, c::calls => (∃ p ∈ seen, ChildOf p c) ∧ Sourced (seen ++ [c]) calls

theorem Sourced.append {seen xs ys : List (FindCall σ)} (h : Sourced seen xs)
    (h' : Sourced (seen ++ xs) ys) : Sourced seen (xs ++ ys) := by
  induction xs generalizing seen with
  | nil => simpa using h'
  | cons c xs ih => exact ⟨h.1,ih h.2 (by simpa using h')⟩

theorem Sourced.parent {seen before after : List (FindCall σ)} {c : FindCall σ}
    (h : Sourced seen (before ++ c::after)) : ∃ p ∈ seen ++ before, ChildOf p c := by
  induction before generalizing seen with
  | nil => simpa using h.1
  | cons b before ih => simpa using ih h.2

theorem Visits.sourced {l : Listing} {dir : Bytes} {cut : Bool} {calls : List (FindCall σ)}
    (h : Visits w l dir cut calls) (hp : l.Proper) {seen : List (FindCall σ)}
    (hdir : ∃ p ∈ seen, p.path = dir ∧ 0 < p.result ∧ p.st.ifmt = sIfdir) : Sourced seen calls := by
  have hchild {dir name : Bytes} {call : FindCall σ} {seen : List (FindCall σ)}
      (hname : name ≠ []) (hslash : slash ∉ name) (hpath : call.path = bDirItemPath dir name)
      (hdir : ∃ p ∈ seen, p.path = dir ∧ 0 < p.result ∧ p.st.ifmt = sIfdir) :
      ∃ p ∈ seen, ChildOf p call := by
    obtain ⟨p,hp,rfl,hres,hst⟩ := hdir
    exact ⟨p,hp,hres,hst,name,hname,hslash,hpath⟩
  have hmore {dir : Bytes} {seen : List (FindCall σ)} (more : List (FindCall σ))
      (hdir : ∃ p ∈ seen, p.path = dir ∧ 0 < p.result ∧ p.st.ifmt = sIfdir) :
      ∃ p ∈ seen ++ more, p.path = dir ∧ 0 < p.result ∧ p.st.ifmt = sIfdir := by
    obtain ⟨p,hp,hrest⟩ := hdir
    exact ⟨p,List.mem_append_left _ hp,hrest⟩
  induction h generalizing seen with
  | eof dir => trivial
  | failed e dir => trivial
  | skip h ih => exact ih hp.2.2.2.2 hdir
  | cut hpath hcut => exact ⟨hchild hp.1 hp.2.1 hpath hdir,trivial⟩
  | leaf hpath hgoes h ih =>
    exact ⟨hchild hp.1 hp.2.1 hpath hdir,ih hp.2.2.2.2 (hmore _ hdir)⟩
  | cutBelow hpath hres hst h ih =>
    exact ⟨hchild hp.1 hp.2.1 hpath hdir,ih hp.2.2.2.1 ⟨_,by simp,hpath,hres,hst⟩⟩
  | enter hpath hres hst hbelow h ihbelow ih =>
    refine ⟨hchild hp.1 hp.2.1 hpath hdir,
      Sourced.append (ihbelow hp.2.2.2.1 ⟨_,by simp,hpath,hres,hst⟩) ?_⟩
    rw [List.append_assoc]
    exact ih hp.2.2.2.2 (hmore _ hdir)

def Below (dir path : Bytes) : Prop := ∃ rest, rest ≠ [] ∧ path = bDirItemPath dir rest

theorem Below.length_lt {dir path : Bytes} (h : Below dir path) : dir.length < path.length := by
  obtain ⟨rest,hne,rfl⟩ := h
  have hpos := List.length_pos_iff.mpr hne
  unfold bDirItemPath
  split
  · simpa using hpos
  · simp

theorem below_iff {dir path : Bytes} :
    Below dir path ↔ ∃ rest, rest ≠ [] ∧ path = dirPrefix dir ++ rest := by
  simp only [Below,bDirItemPath_eq]

theorem dirPrefix_inj {dir dir' : Bytes} (h : dirPrefix dir = dirPrefix dir') :
    dir = dir' ∨ (dir = [] ∧ dir' = [slash]) ∨ (dir = [slash] ∧ dir' = []) := by
  unfold dirPrefix at h
  split at h <;> split at h
  · simp_all
  · rename_i hd hd'
    have hlen := congrArg List.length h
    simp only [hd,List.length_append,List.length_singleton] at hlen
    exact Or.inr (Or.inr ⟨hd,List.length_eq_zero_iff.mp (by omega)⟩)
  · rename_i hd hd'
    have hlen := congrArg List.length h
    simp only [hd',List.length_append,List.length_singleton] at hlen
    exact Or.inr (Or.inl ⟨List.length_eq_zero_iff.mp (by omega),hd'⟩)
  · exact Or.inl (List.append_cancel_right h)

theorem not_below_slash (dir : Bytes) : ¬Below dir [slash] := by
  rintro ⟨rest,hne,heq⟩
  exact bDirItemPath_ne_slash dir hne heq.symm

theorem length_le_dirPrefix (dir : Bytes) : dir.length ≤ (dirPrefix dir).length := by
  unfold dirPrefix
  split <;> simp

theorem bDirItemPath_ne_dirPrefix {dir name x : Bytes} (hname : name ≠ []) (hslash : slash ∉ name) :
    bDirItemPath dir name ≠ dirPrefix x := by
  intro heq
  obtain ⟨s,hs⟩ := dirPrefix_ends x
  have hlast := congrArg List.getLast? heq
  rw [hs,bDirItemPath_eq,List.getLast?_append_of_ne_nil _ hname,List.getLast?_concat] at hlast
  exact hslash (List.mem_of_getLast? hlast)

/-- What lies above an entry of `dir` is `dir` itself or lies above it, up to the two spellings
that a path may have. -/
theorem Below.of_child {x dir name : Bytes} (hslash : slash ∉ name)
    (h : Below x (bDirItemPath dir name)) :
    dirPrefix x = dirPrefix dir ∨ ∃ s, s ≠ [] ∧ dirPrefix dir = dirPrefix x ++ s := by
  obtain ⟨rest,-,heq⟩ := below_iff.mp h
  rw [bDirItemPath_eq] at heq
  rcases List.append_eq_append_iff.mp heq with ⟨mid,hx,hname⟩ | ⟨mid,hdir,-⟩
  · cases mid using List.reverseRecOn with
    | nil => exact Or.inl (by simpa using hx)
    | append_singleton mid last =>
      obtain ⟨s,hs⟩ := dirPrefix_ends x
      rw [hs,← List.append_assoc] at hx
      obtain rfl : slash = last := by simpa using (List.append_inj' hx rfl).2
      exact absurd (by simp [hname]) hslash
  · by_cases hmid : mid = []
    · exact Or.inl (by simp [hdir,hmid])
    · exact Or.inr ⟨mid,hmid,hdir⟩

/-- The calls of a whole traversal, the first of which reported the directory `root`. -/
structure Ordered (root : Bytes) (first : FindCall σ) (calls : List (FindCall σ)) : Prop where
  path : first.path = root
  sourced : Sourced [first] calls
  below : ∀ c ∈ calls, Below root c.path

theorem Ordered.entry {root : Bytes} {first : FindCall σ} {calls : List (FindCall σ)}
    (h : Ordered root first calls) {c : FindCall σ} (hc : c ∈ calls) :
    ∃ dir name, name ≠ [] ∧ slash ∉ name ∧ c.path = bDirItemPath dir name := by
  obtain ⟨before,after,rfl⟩ := List.append_of_mem hc
  obtain ⟨p,-,-,-,name,hrest⟩ := h.sourced.parent
  exact ⟨p.path,name,hrest⟩

/-- Whatever lies above a call, from the root down, was reported before it with a positive result:
nothing below an excluded or failed directory is reported. -/
theorem Ordered.above {root : Bytes} {first : FindCall σ} {calls : List (FindCall σ)}
    (h : Ordered root first calls) (before : List (FindCall σ)) (c : FindCall σ)
    (after : List (FindCall σ)) (heq : first::calls = before ++ c::after) {x : Bytes}
    (hx : x = root ∨ Below root x) (hc : Below x c.path) :
    ∃ p ∈ before, p.path = x ∧ 0 < p.result := by
  induction hn : before.length using Nat.strong_induction_on generalizing before c after with
  | _ n ih =>
    cases before with
    | nil =>
      -- the first call is about the root, and nothing is above that
      obtain ⟨rfl,-⟩ := List.cons.inj heq
      have hlt := hc.length_lt
      rw [h.path] at hlt
      rcases hx with rfl | hx
      · omega
      · have hlt' := hx.length_lt
        omega
    | cons b before =>
      obtain ⟨rfl,hcalls⟩ := List.cons.inj heq
      obtain ⟨p,hp,hres,-,name,hname,hslash,hpath⟩ := (hcalls ▸ h.sourced).parent
      have hmem : p ∈ first::before := by simpa using hp
      have hpcalls : p = first ∨ p ∈ calls := by
        rcases List.mem_cons.mp hmem with hp | hp
        · exact Or.inl hp
        · exact Or.inr (by rw [hcalls]; exact List.mem_append_left _ hp)
      have hproot : p.path = root ∨ Below root p.path :=
        hpcalls.imp (fun hp => by rw [hp,h.path]) (h.below p)
      rw [hpath] at hc
      rcases hc.of_child hslash with hsame | ⟨s,hs,habove⟩
      · rcases dirPrefix_inj hsame with rfl | ⟨rfl,hpp⟩ | ⟨rfl,hpp⟩
        · exact ⟨p,hmem,rfl,hres⟩
        · rcases hx with rfl | hx
          · rw [hpp] at hproot
            exact absurd hproot (by simp [not_below_slash])
          · exact absurd hx.length_lt (by simp)
        · have hroot : root = [] := by
            rcases hproot with hp | hp
            · rw [← hp,hpp]
            · exact absurd hp.length_lt (by simp [hpp])
          exact absurd hx (by simp [hroot,not_below_slash])
      · have hne : p.path ≠ [slash] := by
          intro he
          have hlen := congrArg List.length habove
          have hpos := dirPrefix_length_pos x
          have hspos := List.length_pos_iff.mpr hs
          simp only [he,dirPrefix,if_true,List.length_append,List.length_singleton] at hlen hpos
          omega
        rw [dirPrefix_of_ne hne] at habove
        cases s using List.reverseRecOn with
        | nil => exact absurd rfl hs
        | append_singleton s last =>
          rw [← List.append_assoc] at habove
          have hppath : p.path = dirPrefix x ++ s := (List.append_inj' habove rfl).1
          by_cases hnil : s = []
          · rw [hnil,List.append_nil] at hppath
            rcases hpcalls with rfl | hpc
            · rw [h.path] at hppath
              have hle := length_le_dirPrefix x
              rcases hx with rfl | hx
              · have hslash' : x = [slash] := by
                  by_contra hno
                  rw [dirPrefix_of_ne hno] at hppath
                  exact absurd (congrArg List.length hppath) (by simp)
                exact absurd (h.path.trans hslash') hne
              · have hlt := hx.length_lt
                rw [hppath] at hlt
                omega
            · obtain ⟨dir,name',hname',hslash',hentry⟩ := h.entry hpc
              exact absurd (hentry.symm.trans hppath) (bDirItemPath_ne_dirPrefix hname' hslash')
          · obtain ⟨b₁,a₁,hsplit⟩ := List.append_of_mem hmem
            have hsplit' : first::calls = b₁ ++ p::(a₁ ++ c::after) := by
              rw [heq,hsplit,List.append_assoc,List.cons_append]
            have hlen := congrArg List.length hsplit
            simp only [List.length_cons,List.length_append] at hlen hn
            obtain ⟨q,hq,hrest⟩ := ih b₁.length (by omega) b₁ p (a₁ ++ c::after) hsplit'
              (below_iff.mpr ⟨s,hnil,hppath⟩) rfl
            exact ⟨q,by rw [hsplit]; exact List.mem_append_left _ hq,hrest⟩

def FindWorld.nonfatal (w : FindWorld σ) : FindWorld σ := { w with fatal := fun _ => false }

variable (w) (flags : FindFlags) (root rootMember : Bytes)

/-- Up to a fatal error the calls are those of a traversal in which no error is fatal. -/
theorem preorder_nonfatal (l : Listing) (dir : Bytes) (world : σ) :
    let r := preorder w flags root rootMember l dir world
    let r' := preorder w.nonfatal flags root rootMember l dir world
    (r.1 = false → r' = r) ∧ r.2.1 <+: r'.2.1 := by
  induction l generalizing dir world with
  | eof => exact ⟨fun _ => rfl,List.prefix_rfl⟩
  | failed e => exact ⟨fun _ => rfl,List.prefix_rfl⟩
  | entry name probe sub rest ihsub ihrest =>
    by_cases hdot : name = dot ∨ name = dotDot
    · simp only [preorder,hdot,if_true]
      exact ihrest dir world
    have hexc : w.nonfatal.excluded world (bDirItemPath dir name) =
        w.excluded world (bDirItemPath dir name) := rfl
    by_cases hexcluded : (w.excluded world (bDirItemPath dir name)).1 = true
    · simp only [preorder,hdot,hexc,hexcluded,if_true,if_false]
      exact ihrest dir _
    cases hopened : probe.opened flags with
    | none =>
      simp only [preorder,hdot,hexc,hexcluded,hopened,if_false,Bool.false_eq_true]
      exact ihrest dir _
    | some opened =>
      obtain ⟨st,fd⟩ := opened
      have hcb (world : σ) (path member : Bytes) (source : Source) :
          w.nonfatal.callback world path member st fd source =
            w.callback world path member st fd source := rfl
      have hfatal (world : σ) : w.nonfatal.fatal world = false := rfl
      have hbehind (world : σ) : probe.behindOpen w.nonfatal world = probe.behindOpen w world := rfl
      simp only [preorder,hdot,hexc,hexcluded,hopened,hcb,hfatal,hbehind,if_false,
        Bool.false_eq_true,
        and_false]
      generalize hcall : w.callback (probe.behindOpen w (w.excluded world (bDirItemPath dir name)).2)
        _ _ st fd _ = r
      by_cases hcut : r.1 < 0 ∧ w.fatal r.2 = true
      · have hneg : ¬(0 < r.1 ∧ st.ifmt = sIfdir) := by omega
        simp only [hcut,hneg,and_self,if_true,if_false]
        exact ⟨by simp,by simp⟩
      simp only [hcut,if_false]
      by_cases henter : 0 < r.1 ∧ st.ifmt = sIfdir
      · obtain ⟨hsame,hpre⟩ := ihsub (bDirItemPath dir name) r.2
        simp only [henter,and_self,if_true]
        by_cases hbelow : (preorder w flags root rootMember sub (bDirItemPath dir name) r.2).1 = true
        · simp only [hbelow,if_true]
          refine ⟨by simp,?_⟩
          split
          · exact List.cons_prefix_cons.mpr ⟨rfl,hpre⟩
          · exact List.cons_prefix_cons.mpr ⟨rfl,hpre.trans (List.prefix_append _ _)⟩
        · rw [hsame (by simpa using hbelow)]
          simp only [hbelow,if_false,Bool.false_eq_true]
          obtain ⟨hsame',hpre'⟩ := ihrest dir
            (preorder w flags root rootMember sub (bDirItemPath dir name) r.2).2.2
          refine ⟨fun hno => by rw [hsame' hno],List.cons_prefix_cons.mpr ⟨rfl,?_⟩⟩
          exact (List.prefix_append_right_inj _).mpr hpre'
      · obtain ⟨hsame,hpre⟩ := ihrest dir r.2
        simp only [henter,if_false]
        exact ⟨fun hno => by rw [hsame hno],List.cons_prefix_cons.mpr ⟨rfl,hpre⟩⟩

/-- The recursive definition of a whole traversal: the root, and the preorder of what is in it. -/
def preorderFind (path memberName : Bytes) (tree : Tree) (st : Stat) (world : σ) :
    List (FindCall σ) :=
  let root := bPathClean path
  let rootMember := bPathClean memberName
  let r := w.callback world root rootMember st 0 tree.probe.source
  ⟨world,root,rootMember,st,0,tree.probe.source,r.1⟩::
    if 0 < r.1 then (preorder w flags root rootMember tree.listing root r.2).2.1 else []

/-- What the order of the calls for a tree below `root` promises. -/
structure WellOrdered (root : Bytes) (calls : List (FindCall σ)) : Prop where
  nodup : (calls.map (·.path)).Nodup
  parent : ∀ before c after, calls = before ++ c::after → before = [] ∨ ∃ p ∈ before, ChildOf p c
  above : ∀ before c after x, calls = before ++ c::after → x = root ∨ Below root x →
    Below x c.path → ∃ p ∈ before, p.path = x ∧ 0 < p.result
  fatalLast : ∀ before c after, calls = before ++ c::after → c.Cuts w → after = []

theorem preorderFind_ordered (path memberName : Bytes) (tree : Tree) (st : Stat) (world : σ)
    (hdir : st.ifmt = sIfdir) (hproper : tree.listing.Proper) :
    WellOrdered w (bPathClean path) (preorderFind w flags path memberName tree st world) := by
  generalize hroot : bPathClean path = root
  simp only [preorderFind,hroot]
  generalize hr : w.callback world root (bPathClean memberName) st 0 tree.probe.source = r
  by_cases hpos : 0 < r.1
  · simp only [hpos,if_true]
    have hv := preorder_visits w flags root (bPathClean memberName) tree.listing root r.2
    generalize preorder w flags root (bPathClean memberName) tree.listing root r.2 = p at hv ⊢
    generalize hfirst : (⟨world,root,bPathClean memberName,st,0,tree.probe.source,r.1⟩ :
      FindCall σ) = first
    have hpath : first.path = root := by rw [← hfirst]
    have hordered : Ordered root first p.2.1 := by
      refine ⟨hpath,hv.sourced hproper ⟨first,by simp,hpath,?_,?_⟩,fun c hc => ?_⟩
      · rw [← hfirst]; exact hpos
      · rw [← hfirst]; exact hdir
      · obtain ⟨name,-,hname,-,tail,heq,-⟩ := hv.under hproper c hc
        exact below_iff.mpr ⟨name ++ tail,by simp [hname],by
          rw [heq,bDirItemPath_eq,List.append_assoc]⟩
    have hno : ¬first.Cuts w := by
      rintro ⟨hneg,-⟩
      rw [← hfirst] at hneg
      simp only at hneg
      omega
    refine ⟨?_,?_,fun before c after x heq => hordered.above before c after heq,?_⟩
    · rw [List.map_cons,List.nodup_cons]
      refine ⟨?_,hv.nodup hproper⟩
      rw [List.mem_map]
      rintro ⟨c,hc,heq⟩
      have hlt := (hordered.below c hc).length_lt
      rw [heq,hpath] at hlt
      omega
    · intro before c after heq
      cases before with
      | nil => exact Or.inl rfl
      | cons b before =>
        obtain ⟨rfl,hcalls⟩ := List.cons.inj heq
        right
        simpa only [List.singleton_append] using (hcalls ▸ hordered.sourced).parent
    · intro before c after heq hc
      cases before with
      | nil =>
        obtain ⟨rfl,-⟩ := List.cons.inj heq
        exact absurd hc hno
      | cons b before => exact hv.cuts_last.2 before c after (List.cons.inj heq).2 hc
  · simp only [hpos,if_false]
    generalize hfirst : (⟨world,root,bPathClean memberName,st,0,tree.probe.source,r.1⟩ :
      FindCall σ) = first
    have hpath : first.path = root := by rw [← hfirst]
    have hordered : Ordered root first [] := ⟨hpath,trivial,by simp⟩
    have hsingle {before after : List (FindCall σ)} {c : FindCall σ}
        (heq : [first] = before ++ c::after) : before = [] ∧ after = [] := by
      have hlen := congrArg List.length heq
      simp only [List.length_append,List.length_cons,List.length_nil] at hlen
      exact ⟨List.length_eq_zero_iff.mp (by omega),List.length_eq_zero_iff.mp (by omega)⟩
    exact ⟨by simp,fun before c after heq => Or.inl (hsingle heq).1,
      fun before c after x heq => hordered.above before c after heq,
      fun before c after heq _ => (hsingle heq).2⟩

/-- The traversal of a directory makes the calls of the recursive preorder, in that order, when
every system call succeeds. In a real tree they are well ordered, and a fatal error cuts the
calls that would be made without it to a prefix. -/
theorem bFind_eq_preorderFind (path memberName : Bytes) (tree : Tree) (world : σ) {st : Stat}
    (hstat : bStat flags tree.probe = .ok st) (hdir : st.ifmt = sIfdir)
    (hopendir : tree.probe.opendirAnswer = .ok ()) (hlist : tree.listing.Answers flags) :
    (bFind w flags path memberName tree world).2.trace =
        preorderFind w flags path memberName tree st world ∧
      (tree.listing.Proper →
        WellOrdered w (bPathClean path) (bFind w flags path memberName tree world).2.trace) ∧
      (bFind w flags path memberName tree world).2.trace <+:
        preorderFind w.nonfatal flags path memberName tree st world := by
  have htrace : (bFind w flags path memberName tree world).2.trace =
      preorderFind w flags path memberName tree st world := by
    have hreg : sIfdir ≠ sIfreg := by decide
    simp only [bFind,preorderFind,hstat,hreg,hopendir,hdir,if_false,ne_eq,not_true_eq_false]
    generalize w.callback world (bPathClean path) (bPathClean memberName) st 0 _ = r
    rcases lt_trichotomy r.1 0 with hneg | hzero | hpos
    · simp [hneg,hneg.ne,not_lt.mpr hneg.le]
    · simp [hzero]
    · have hloop := findLoop_root w flags (bPathClean path) (bPathClean memberName) tree.listing r.2
        [⟨world,bPathClean path,bPathClean memberName,st,0,tree.probe.source,r.1⟩]
      rw [walk_eq_preorder w flags (bPathClean path) (bPathClean memberName) _ _ _ hlist] at hloop
      simp only [hpos.ne',not_lt.mpr hpos.le,hpos,if_false,if_true,hloop.2.1]
      rfl
  refine ⟨htrace,fun hproper => ?_,?_⟩
  · rw [htrace]
    exact preorderFind_ordered w flags path memberName tree st world hdir hproper
  · rw [htrace]
    simp only [preorderFind]
    have hcb : w.nonfatal.callback = w.callback := rfl
    rw [hcb]
    refine List.cons_prefix_cons.mpr ⟨rfl,?_⟩
    split
    · exact (preorder_nonfatal w flags (bPathClean path) (bPathClean memberName) tree.listing
        (bPathClean path) _).2
    · exact List.prefix_rfl

end

def sampleProbe (mode : ℕ) : Probe :=
  let st : Stat := ⟨mode,0,0,0,0,1,0,1,1⟩
  { openAnswer := .ok 5, fcntlAnswer := .ok (), fstatAnswer := .ok st, lstatAnswer := .ok st
    statAnswer := .ok st, opendirAnswer := .ok (), source := ⟨.error .einval,[],⟨[],[]⟩⟩ }

/-- A directory with a file `a` and a directory `d` that holds a file `x`. -/
def sampleTree : Tree :=
  ⟨sampleProbe sIfdir,.entry dot (sampleProbe sIfdir) .eof (.entry [97] (sampleProbe sIfreg) .eof
    (.entry [100] (sampleProbe sIfdir) (.entry [120] (sampleProbe sIfreg) .eof .eof) .eof))⟩

def acceptAll : FindWorld Unit where
  excluded _ _ := (false,())
  callback _ _ _ _ _ _ := (1,())
  setError _ _ _ _ _ := ()
  setErrno _ _ := ()
  fatal _ := false

theorem bFind_sampleTree :
    (bFind acceptAll ⟨false,false⟩ [114] [114] sampleTree ()).2.trace.map (·.path) =
        [[114],[114,47,97],[114,47,100],[114,47,100,47,120]] ∧
      WellOrdered acceptAll (bPathClean [114])
        (bFind acceptAll ⟨false,false⟩ [114] [114] sampleTree ()).2.trace := by
  have hanswers (mode : ℕ) : (sampleProbe mode).Answers ⟨false,false⟩ :=
    ⟨⟨mode,0,0,0,0,1,0,1,1⟩,5,rfl,fun _ => rfl⟩
  have hlist : sampleTree.listing.Answers ⟨false,false⟩ := by
    simp [sampleTree,Listing.Answers,hanswers]
  obtain ⟨htrace,hordered,-⟩ := bFind_eq_preorderFind acceptAll ⟨false,false⟩ [114] [114] sampleTree ()
    (rfl : bStat ⟨false,false⟩ sampleTree.probe = .ok ⟨sIfdir,0,0,0,0,1,0,1,1⟩) (by decide) rfl hlist
  refine ⟨?_,hordered (by simp [sampleTree,Listing.Proper,Listing.names,dot,slash])⟩
  rw [htrace]
  decide +kernel

end ArchiveTarBuilder
