import ArchiveTarBuilder.Find

/-! The traversal loop is the recursive preorder. What is left of the open directories on the
stack is what the recursion has still to come back to. -/
namespace ArchiveTarBuilder
open CString

section
variable {σ : Type*} (w : FindWorld σ) (flags : FindFlags) (root rootMember : Bytes)

/-- The recursion over one listing that handles an entry as the loop does: whether an error cut
it, the calls it made and the world it leaves. -/
def walk : Listing → Bytes → σ → Bool × List (FindCall σ) × σ
  | .eof, _, world => (false,[],world)
  | .failed _, _, world => (false,[],world)
  | .entry name probe sub rest, dir, world =>
    let path := bDirItemPath dir name
    match findItem w flags root rootMember path name probe world with
    | (.cleanup,calls,world) =>
      let after := walk rest dir world
      (after.1,calls ++ after.2.1,after.2.2)
    | (.descend,calls,world) =>
      let below := walk sub path world
      if below.1 then (true,calls ++ below.2.1,below.2.2)
      else
        let after := walk rest dir below.2.2
        (after.1,calls ++ below.2.1 ++ after.2.1,after.2.2)
    | (.errorItem,calls,world) => (true,calls,world)

theorem findLoop_step {s t : FindState σ} (h : findStep w flags root rootMember s = .inl t) :
    findLoop w flags root rootMember s = findLoop w flags root rootMember t := by
  rw [findLoop]
  split
  · rename_i u hu
    rw [h] at hu
    rw [Sum.inl.inj hu]
  · rename_i r hr
    rw [h] at hr
    cases hr

theorem findLoop_end {s : FindState σ} {r : ℤ × FindState σ}
    (h : findStep w flags root rootMember s = .inr r) : findLoop w flags root rootMember s = r := by
  rw [findLoop]
  split
  · rename_i u hu
    rw [h] at hu
    cases hu
  · rename_i r' hr
    rw [h] at hr
    exact (Sum.inr.inj hr).symm

/-- The loop finishes the directory on top of the stack as the recursion does, and goes on with
the ones below it unless an error ended the traversal. -/
theorem findLoop_walk (l : Listing) (dir : Bytes) (world : σ) (dirs : List BDir)
    (trace : List (FindCall σ)) :
    let r := walk w flags root rootMember l dir world
    if r.1 then ∃ left, findLoop w flags root rootMember ⟨world,⟨dir,l⟩::dirs,trace⟩ =
      (-1,⟨r.2.2,left,trace ++ r.2.1⟩)
    else findLoop w flags root rootMember ⟨world,⟨dir,l⟩::dirs,trace⟩ =
      findLoop w flags root rootMember ⟨r.2.2,dirs,trace ++ r.2.1⟩ := by
  induction l generalizing dir world dirs trace with
  | eof =>
    simp only [walk,List.append_nil,Bool.false_eq_true,if_false]
    exact findLoop_step w flags root rootMember rfl
  | failed e =>
    simp only [walk,List.append_nil,Bool.false_eq_true,if_false]
    exact findLoop_step w flags root rootMember rfl
  | entry name probe sub rest ihsub ihrest =>
    simp only [walk]
    match hitem : findItem w flags root rootMember (bDirItemPath dir name) name probe world with
    | (.cleanup,calls,world') =>
      have hstep : findStep w flags root rootMember
          ⟨world,⟨dir,.entry name probe sub rest⟩::dirs,trace⟩ =
          .inl ⟨world',⟨dir,rest⟩::dirs,trace ++ calls⟩ := by simp only [findStep,hitem]
      have hrest := ihrest dir world' dirs (trace ++ calls)
      simp only
      rw [findLoop_step w flags root rootMember hstep,← List.append_assoc]
      exact hrest
    | (.descend,calls,world') =>
      have hstep : findStep w flags root rootMember
          ⟨world,⟨dir,.entry name probe sub rest⟩::dirs,trace⟩ =
          .inl ⟨world',⟨bDirItemPath dir name,sub⟩::⟨dir,rest⟩::dirs,trace ++ calls⟩ := by
        simp only [findStep,hitem]
      have hsub := ihsub (bDirItemPath dir name) world' (⟨dir,rest⟩::dirs) (trace ++ calls)
      simp only
      rw [findLoop_step w flags root rootMember hstep]
      generalize walk w flags root rootMember sub (bDirItemPath dir name) world' = below at hsub ⊢
      by_cases hcut : below.1 = true
      · simp only [hcut,if_true] at hsub ⊢
        rwa [← List.append_assoc]
      · simp only [hcut,if_false,Bool.false_eq_true] at hsub ⊢
        have hrest := ihrest dir below.2.2 dirs (trace ++ calls ++ below.2.1)
        rw [hsub,← List.append_assoc,← List.append_assoc]
        exact hrest
    | (.errorItem,calls,world') =>
      have hstep : findStep w flags root rootMember
          ⟨world,⟨dir,.entry name probe sub rest⟩::dirs,trace⟩ =
          .inr (-1,⟨world',⟨dir,rest⟩::dirs,trace ++ calls⟩) := by simp only [findStep,hitem]
      simp only [if_true]
      exact ⟨_,findLoop_end w flags root rootMember hstep⟩

theorem findLoop_root (l : Listing) (world : σ) (trace : List (FindCall σ)) :
    let r := walk w flags root rootMember l root world
    (findLoop w flags root rootMember ⟨world,[⟨root,l⟩],trace⟩).1 = (if r.1 then -1 else 0) ∧
      (findLoop w flags root rootMember ⟨world,[⟨root,l⟩],trace⟩).2.trace = trace ++ r.2.1 ∧
      (findLoop w flags root rootMember ⟨world,[⟨root,l⟩],trace⟩).2.world = r.2.2 := by
  have hloop := findLoop_walk w flags root rootMember l root world [] trace
  simp only at hloop ⊢
  generalize walk w flags root rootMember l root world = r at hloop ⊢
  by_cases hcut : r.1 = true
  · simp only [hcut,if_true] at hloop ⊢
    obtain ⟨left,hleft⟩ := hloop
    rw [hleft]
    exact ⟨rfl,rfl,rfl⟩
  · simp only [hcut,if_false,Bool.false_eq_true] at hloop ⊢
    rw [hloop,findLoop_end w flags root rootMember (s := ⟨r.2.2,[],trace ++ r.2.1⟩) rfl]
    exact ⟨rfl,rfl,rfl⟩

end

/-- What is opened when every call succeeds. With `O_NOFOLLOW` a symlink itself cannot be, and is
taken with `lstat()`. -/
def Probe.opened (flags : FindFlags) (probe : Probe) : Option (Stat × ℤ) :=
  match probe.openAnswer with
  | .ok fd =>
    match probe.fcntlAnswer, probe.fstatAnswer with
    | .ok (), .ok st => some (st,fd)
    | _, _ => none
  | .error e =>
    if !flags.followSymlinks && (decide (e = .eloop) || decide (e = .emlink)) then
      probe.lstatAnswer.toOption.map fun st => (st,-1)
    else none

/-- The world in which an entry that has been opened is reported: `open()` fails for a symlink. -/
def Probe.behindOpen {σ : Type*} (w : FindWorld σ) (probe : Probe) (world : σ) : σ :=
  match probe.openAnswer with
  | .ok _ => world
  | .error e => w.setErrno world e

/-- Every system call on an entry succeeds. -/
def Probe.Answers (flags : FindFlags) (probe : Probe) : Prop :=
  ∃ st fd, probe.opened flags = some (st,fd) ∧ (st.ifmt = sIfdir → probe.opendirAnswer = .ok ())

def Listing.Answers (flags : FindFlags) : Listing → Prop
  | .eof => True
  | .failed _ => True
  | .entry name probe sub rest =>
    (name ≠ dot → name ≠ dotDot → probe.Answers flags) ∧ sub.Answers flags ∧ rest.Answers flags

section
variable {σ : Type*} (w : FindWorld σ) (flags : FindFlags) (root rootMember : Bytes)

/-- The recursive preorder of one listing: every entry but `.` and `..` that is not excluded is
reported, and a directory reported with a positive result is followed by what is below it. The
first component tells whether a fatal error cut it. -/
def preorder : Listing → Bytes → σ → Bool × List (FindCall σ) × σ
  | .eof, _, world => (false,[],world)
  | .failed _, _, world => (false,[],world)
  | .entry name probe sub rest, dir, world =>
    let path := bDirItemPath dir name
    let verdict := w.excluded world path
    if name = dot ∨ name = dotDot then preorder rest dir world
    else if verdict.1 then preorder rest dir verdict.2
    else
      match probe.opened flags with
      | none => preorder rest dir verdict.2
      | some (st,fd) =>
        let world := probe.behindOpen w verdict.2
        let member := (substMemberName root rootMember path).getD path
        let r := w.callback world path member st fd probe.source
        let call := ⟨world,path,member,st,fd,probe.source,r.1⟩
        if r.1 < 0 ∧ w.fatal r.2 then (true,[call],r.2)
        else if 0 < r.1 ∧ st.ifmt = sIfdir then
          let below := preorder sub path r.2
          if below.1 then (true,call::below.2.1,below.2.2)
          else
            let after := preorder rest dir below.2.2
            (after.1,call::(below.2.1 ++ after.2.1),after.2.2)
        else
          let after := preorder rest dir r.2
          (after.1,call::after.2.1,after.2.2)

theorem findOpen_opened {probe : Probe} {world : σ} {path : Bytes} {st : Stat} {fd : ℤ}
    (h : probe.opened flags = some (st,fd)) :
    findOpen w flags world path probe = (some (st,fd),probe.behindOpen w world) := by
  unfold Probe.opened at h
  unfold findOpen Probe.behindOpen
  split at h
  · rename_i hopen
    split at h
    · rename_i hfcntl hfstat
      simp_all
    · cases h
  · rename_i e hopen
    split at h
    · rename_i hcond
      match hl : probe.lstatAnswer with
      | .error e' => simp [hl,Except.toOption] at h
      | .ok st' =>
        simp only [hl,Except.toOption,Option.map_some,Option.some.injEq] at h
        simp [hopen,hcond,h]
    · cases h

theorem walk_eq_preorder (l : Listing) (dir : Bytes) (world : σ) (h : l.Answers flags) :
    walk w flags root rootMember l dir world = preorder w flags root rootMember l dir world := by
  induction l generalizing dir world with
  | eof => rfl
  | failed e => rfl
  | entry name probe sub rest ihsub ihrest =>
    obtain ⟨hprobe,hsub,hrest⟩ := h
    by_cases hdot : name = dot ∨ name = dotDot
    · simp only [walk,preorder,findItem,hdot,if_true,List.nil_append]
      exact ihrest dir world hrest
    · rw [not_or] at hdot
      obtain ⟨st,fd,hopened,hopendir⟩ := hprobe hdot.1 hdot.2
      simp only [walk,preorder,findItem,hdot.1,hdot.2,or_self,if_false]
      by_cases hexcluded : (w.excluded world (bDirItemPath dir name)).1 = true
      · simp only [hexcluded,if_true,List.nil_append]
        exact ihrest dir _ hrest
      · simp only [hexcluded,if_false,Bool.false_eq_true,findOpen_opened w flags hopened,hopened]
        generalize hr : w.callback (probe.behindOpen w (w.excluded world (bDirItemPath dir name)).2)
          _ _ st fd _ = r
        rcases lt_trichotomy r.1 0 with hneg | hzero | hpos
        · by_cases hfatal : w.fatal r.2 = true
          · simp [hneg,hneg.ne,hfatal]
          · simp [hneg,hneg.ne,not_lt.mpr hneg.le,hfatal,ihrest _ _ hrest]
        · simp [hzero,ihrest _ _ hrest]
        · by_cases hdir : st.ifmt = sIfdir
          · simp [hpos,hpos.ne',not_lt.mpr hpos.le,hdir,hopendir hdir,ihsub _ _ hsub,
              ihrest _ _ hrest]
          · simp [hpos,hpos.ne',not_lt.mpr hpos.le,hdir,ihrest _ _ hrest]

def FindCall.after (c : FindCall σ) : σ :=
  (w.callback c.world c.path c.memberName c.st c.fd c.source).2

def FindCall.Cuts (c : FindCall σ) : Prop := c.result < 0 ∧ w.fatal (c.after w) = true

inductive Visits : Listing → Bytes → Bool → List (FindCall σ) → Prop
  | eof (dir : Bytes) : Visits .eof dir false []
  | failed (e : Errno) (dir : Bytes) : Visits (.failed e) dir false []
  | skip {name : Bytes} {probe : Probe} {sub rest : Listing} {dir : Bytes} {cut : Bool}
      {calls : List (FindCall σ)} (h : Visits rest dir cut calls) :
      Visits (.entry name probe sub rest) dir cut calls
  | cut {name : Bytes} {probe : Probe} {sub rest : Listing} {dir : Bytes} {call : FindCall σ}
      (hpath : call.path = bDirItemPath dir name) (hcut : call.Cuts w) :
      Visits (.entry name probe sub rest) dir true [call]
  | leaf {name : Bytes} {probe : Probe} {sub rest : Listing} {dir : Bytes} {cut : Bool}
      {call : FindCall σ} {calls : List (FindCall σ)} (hpath : call.path = bDirItemPath dir name)
      (hgoes : ¬call.Cuts w) (h : Visits rest dir cut calls) :
      Visits (.entry name probe sub rest) dir cut (call::calls)
  | cutBelow {name : Bytes} {probe : Probe} {sub rest : Listing} {dir : Bytes}
      {call : FindCall σ} {below : List (FindCall σ)} (hpath : call.path = bDirItemPath dir name)
      (hpos : 0 < call.result) (hdir : call.st.ifmt = sIfdir)
      (h : Visits sub (bDirItemPath dir name) true below) :
      Visits (.entry name probe sub rest) dir true (call::below)
  | enter {name : Bytes} {probe : Probe} {sub rest : Listing} {dir : Bytes} {cut : Bool}
      {call : FindCall σ} {below calls : List (FindCall σ)}
      (hpath : call.path = bDirItemPath dir name)
      (hpos : 0 < call.result) (hdir : call.st.ifmt = sIfdir)
      (hbelow : Visits sub (bDirItemPath dir name) false below) (h : Visits rest dir cut calls) :
      Visits (.entry name probe sub rest) dir cut (call::(below ++ calls))

theorem preorder_visits (l : Listing) (dir : Bytes) (world : σ) :
    Visits w l dir (preorder w flags root rootMember l dir world).1
      (preorder w flags root rootMember l dir world).2.1 := by
  induction l generalizing dir world with
  | eof => exact .eof dir
  | failed e => exact .failed e dir
  | entry name probe sub rest ihsub ihrest =>
    simp only [preorder]
    split
    · exact .skip (ihrest dir world)
    · split
      · exact .skip (ihrest dir _)
      · split
        · exact .skip (ihrest dir _)
        · split
          · rename_i hcut
            exact .cut rfl hcut
          · split
            · rename_i hgoes henter
              split
              · rename_i hbelow
                refine .cutBelow rfl henter.1 henter.2 ?_
                rw [← hbelow]
                exact ihsub _ _
              · rename_i hbelow
                refine .enter rfl henter.1 henter.2 ?_ (ihrest dir _)
                rw [Bool.not_eq_true] at hbelow
                rw [← hbelow]
                exact ihsub _ _
            · rename_i hgoes hleaf
              exact .leaf rfl hgoes (ihrest dir _)

variable {w}

theorem Visits.cuts_last {l : Listing} {dir : Bytes} {cut : Bool} {calls : List (FindCall σ)}
    (h : Visits w l dir cut calls) :
    (cut = false → ∀ c ∈ calls, ¬c.Cuts w) ∧
      ∀ before c after, calls = before ++ c::after → c.Cuts w → after = [] := by
  have hpos {c : FindCall σ} (h : 0 < c.result) : ¬c.Cuts w := fun hc => by
    have hneg := hc.1
    omega
  have hcons {call : FindCall σ} {calls : List (FindCall σ)} (hgoes : ¬call.Cuts w)
      (h : ∀ before c after, calls = before ++ c::after → c.Cuts w → after = []) :
      ∀ before c after, call::calls = before ++ c::after → c.Cuts w → after = [] := by
    intro before c after heq hc
    cases before with
    | nil =>
      obtain ⟨rfl,-⟩ := List.cons.inj heq
      exact absurd hc hgoes
    | cons b before => exact h before c after (List.cons.inj heq).2 hc
  induction h with
  | eof dir => simp
  | failed e dir => simp
  | skip h ih => exact ih
  | cut hpath hcut =>
    refine ⟨by simp,fun before c after heq _ => ?_⟩
    have hlen := congrArg List.length heq
    simp only [List.length_append,List.length_cons,List.length_nil] at hlen
    exact List.length_eq_zero_iff.mp (by omega)
  | leaf hpath hgoes h ih =>
    refine ⟨fun hcut c hc => ?_,hcons hgoes ih.2⟩
    rcases List.mem_cons.mp hc with rfl | hc
    · exact hgoes
    · exact ih.1 hcut c hc
  | cutBelow hpath hres hdir h ih => exact ⟨by simp,hcons (hpos hres) ih.2⟩
  | enter hpath hres hdir hbelow h ihbelow ih =>
    refine ⟨fun hcut c hc => ?_,hcons (hpos hres) fun before c after heq hc => ?_⟩
    · rcases List.mem_cons.mp hc with rfl | hc
      · exact hpos hres
      · rcases List.mem_append.mp hc with hc | hc
        · exact ihbelow.1 rfl c hc
        · exact ih.1 hcut c hc
    · rcases List.append_eq_append_iff.mp heq with ⟨mid,hbefore,hcalls⟩ | ⟨mid,hbelow,hrest⟩
      · exact ih.2 mid c after hcalls hc
      · cases mid with
        | nil => exact ih.2 [] c after hrest.symm hc
        | cons m mid =>
          obtain ⟨rfl,-⟩ := List.cons.inj hrest
          exact absurd hc (ihbelow.1 rfl c (by simp [hbelow]))

end

end ArchiveTarBuilder
