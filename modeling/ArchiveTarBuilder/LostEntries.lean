import ArchiveTarBuilder.Entries

/-! Entries that a traversal loses. A world that logs what is done to it tells whether a round
passed its entry on, or reported it. -/
namespace ArchiveTarBuilder
open CString

/-- What leaves a trace: a call of the callback, or of `b_error_set`. -/
inductive FindEvent
  | called (path : Bytes)
  | error (type : BErrorType) (path : Bytes)
  deriving DecidableEq, Repr

section
variable {σ : Type*} (w : FindWorld σ) (flags : FindFlags)

def FindWorld.logged : FindWorld (σ × List FindEvent) where
  excluded s path := ((w.excluded s.1 path).1,((w.excluded s.1 path).2,s.2))
  callback s path memberName st fd src :=
    let r := w.callback s.1 path memberName st fd src
    (r.1,(r.2,s.2 ++ [.called path]))
  setError s type e message path :=
    (w.setError s.1 type e message path,s.2 ++ [.error type path])
  setErrno s e := (w.setErrno s.1 e,s.2)
  fatal s := w.fatal s.1

theorem logged_maps : w.logged.Maps w Prod.fst :=
  ⟨fun _ _ => rfl,fun _ _ _ _ _ _ => rfl,fun _ _ _ _ _ => rfl,fun _ _ => rfl,fun _ => rfl⟩

theorem bFind_logged (path memberName : Bytes) (tree : Tree) (world : σ) (log : List FindEvent) :
    bFind w flags path memberName tree world = Prod.map id (FindState.map Prod.fst)
      (bFind w.logged flags path memberName tree (world,log)) :=
  (logged_maps w).bFind flags path memberName tree (world,log)

def IgnoredSocket (probe : Probe) : Prop :=
  flags.ignoreSockets = true ∧ (∃ e, probe.openAnswer = .error e) ∧
    ∃ st, probe.statAnswer = .ok st ∧ st.ifmt = sIfsock

def Warned (events : List FindEvent) : Prop :=
  ∃ type ≠ BErrorType.ok, ∃ path, .error type path ∈ events

variable (root rootMember : Bytes)

def behindRound (s : FindState σ) : FindState σ :=
  match findStep w flags root rootMember s with
  | .inl t => t
  | .inr r => r.2

def roundEvents (s : FindState (σ × List FindEvent)) : List FindEvent :=
  (behindRound w.logged flags root rootMember s).world.2.drop s.world.2.length

/-- What becomes of the answer of `readdir()` that a round takes. An entry is `.` or `..`, or
excluded, or an ignored socket, or passed to the callback, or an error is set; an answer that there
are no more entries because reading failed can only be an error. -/
def Accounted (s : FindState (σ × List FindEvent)) : Prop :=
  match s.dirs with
  | [] => True
  | ⟨_,.eof⟩::_ => True
  | ⟨_,.failed _⟩::_ => Warned (roundEvents w flags root rootMember s)
  | ⟨dir,.entry name probe _ _⟩::_ =>
    name = dot ∨ name = dotDot ∨ (w.excluded s.world.1 (bDirItemPath dir name)).1 = true ∨
      IgnoredSocket flags probe ∨
      .called (bDirItemPath dir name) ∈ roundEvents w flags root rootMember s ∨
      Warned (roundEvents w flags root rootMember s)

/-- Neither `readdir()` nor the `fcntl()` behind `open()` fails in the round. -/
def Traced (s : FindState (σ × List FindEvent)) : Prop :=
  match s.dirs with
  | [] => True
  | ⟨_,.eof⟩::_ => True
  | ⟨_,.failed _⟩::_ => False
  | ⟨dir,.entry name probe _ _⟩::_ =>
    name = dot ∨ name = dotDot ∨ (w.excluded s.world.1 (bDirItemPath dir name)).1 = true ∨
      ∀ fd e, probe.openAnswer = .ok fd → probe.fcntlAnswer ≠ .error e

theorem behindOpen_logged (probe : Probe) (s : σ × List FindEvent) :
    (probe.behindOpen w.logged s).2 = s.2 := by
  unfold Probe.behindOpen
  cases probe.openAnswer <;> rfl

/-- An entry that is not opened is an ignored socket, or reported, or lost to `fcntl()`. -/
theorem findOpen_logged (world : σ) (log : List FindEvent) (path : Bytes) (probe : Probe) :
    match findOpen w.logged flags (world,log) path probe with
    | (some _,s) => s.2 = log ∧ ∀ fd e, probe.openAnswer = .ok fd → probe.fcntlAnswer ≠ .error e
    | (none,s) =>
      (s.2 = log ∧ IgnoredSocket flags probe) ∨
      (s.2 = log ++ [.error .warn path] ∧
        ∀ fd e, probe.openAnswer = .ok fd → probe.fcntlAnswer ≠ .error e) ∨
      (s.2 = log ∧ ∃ fd e, probe.openAnswer = .ok fd ∧ probe.fcntlAnswer = .error e) := by
  unfold findOpen
  cases hopen : probe.openAnswer with
  | error e =>
    simp only
    split_ifs with hloop hsocket
    · cases hlstat : probe.lstatAnswer with
      | error e' => exact Or.inr (Or.inl ⟨rfl,by simp⟩)
      | ok st => exact ⟨rfl,by simp⟩
    · cases hstat : probe.statAnswer with
      | error e' => exact Or.inr (Or.inl ⟨rfl,by simp⟩)
      | ok st =>
        simp only
        split_ifs with hst
        · exact Or.inr (Or.inl ⟨rfl,by simp⟩)
        · exact Or.inl ⟨rfl,hsocket,⟨e,hopen⟩,st,hstat,not_not.mp hst⟩
    · exact Or.inr (Or.inl ⟨rfl,by simp⟩)
  | ok fd =>
    cases hfcntl : probe.fcntlAnswer with
    | error e => exact Or.inr (Or.inr ⟨rfl,fd,e,rfl,rfl⟩)
    | ok u =>
      cases hfstat : probe.fstatAnswer with
      | error e => exact Or.inr (Or.inl ⟨rfl,by simp⟩)
      | ok st => exact ⟨rfl,by simp⟩

/-- What a round adds to the log about an entry that is not passed over by its name. -/
theorem findItem_logged (path name : Bytes) (probe : Probe) (world : σ) (log : List FindEvent)
    (hname : ¬(name = dot ∨ name = dotDot)) (hincluded : ¬((w.excluded world path).1 = true)) :
    ∃ new, (findItem w.logged flags root rootMember path name probe (world,log)).2.2.2 =
    log ++ new ∧
      (IgnoredSocket flags probe ∨ .called path ∈ new ∨ Warned new ↔
        ∀ fd e, probe.openAnswer = .ok fd → probe.fcntlAnswer ≠ .error e) := by
  have hverdict : w.logged.excluded (world,log) path =
      ((w.excluded world path).1,((w.excluded world path).2,log)) := rfl
  have hopen := findOpen_logged w flags (w.excluded world path).2 log path probe
  cases hfound : findOpen w.logged flags ((w.excluded world path).2,log) path probe with
  | mk found s =>
    rw [hfound] at hopen
    cases found with
    | none =>
      have hitem : findItem w.logged flags root rootMember path name probe (world,log) =
          (.cleanup,[],s) := by
        unfold findItem
        simp only [hname,hincluded,hverdict,hfound,if_false,Bool.false_eq_true]
      rw [hitem]
      rcases hopen with ⟨hlog,hsocket⟩ | ⟨hlog,hfcntl⟩ | ⟨hlog,fd,e,hok,herror⟩
      · refine ⟨[],by rw [hlog,List.append_nil],iff_of_true (Or.inl hsocket) ?_⟩
        intro fd e hok
        obtain ⟨-,⟨e',herr⟩,-⟩ := hsocket
        rw [hok] at herr
        cases herr
      · exact ⟨_,hlog,iff_of_true (Or.inr (Or.inr ⟨.warn,by decide,path,by simp⟩)) hfcntl⟩
      · refine ⟨[],by rw [hlog,List.append_nil],iff_of_false ?_ fun hno => hno fd e hok herror⟩
        rintro (⟨-,⟨e',herr⟩,-⟩ | hcalled | ⟨type,-,path',hmem⟩)
        · rw [hok] at herr
          cases herr
        · simp at hcalled
        · simp at hmem
    | some found =>
      obtain ⟨-,hfcntl⟩ := hopen
      have hspec := findItem_spec w.logged flags root rootMember path name probe (world,log)
      generalize findItem w.logged flags root rootMember path name probe (world,log) = r at hspec ⊢
      cases hspec with
      | named h => exact absurd h hname
      | excluded _ _ h => exact absurd h hincluded
      | unopened _ _ _ hnone _ =>
        rw [← findOpen_eq w.logged flags _ path probe,hfound] at hnone
        cases hnone
      | @called st fd ending world' call _ _ _ _ hcall hworld _ =>
        -- the callback logs the call, and a warning behind it only adds to the log
        have hlog : (call.after w.logged).2 = log ++ [.called path] := by
          have hopened := behindOpen_logged w probe (w.logged.excluded (world,log) path).2
          rw [hcall]
          exact congrArg (· ++ [.called path]) hopened
        have hdone (more : List FindEvent) : IgnoredSocket flags probe ∨
            .called path ∈ [FindEvent.called path] ++ more ∨ Warned ([.called path] ++ more) ↔
            ∀ fd e, probe.openAnswer = .ok fd → probe.fcntlAnswer ≠ .error e :=
          iff_of_true (Or.inr (Or.inl (by simp))) hfcntl
        rcases hworld with rfl | ⟨e,message,rfl⟩
        · exact ⟨_,hlog,hdone []⟩
        · refine ⟨_,?_,hdone [.error .warn path]⟩
          rw [← List.append_assoc,← hlog]
          rfl

/-- One round accounts for its answer if and only if no call fails that nobody reports. -/
theorem accounted_iff_traced (s : FindState (σ × List FindEvent)) :
    Accounted w flags root rootMember s ↔ Traced w s := by
  obtain ⟨⟨world,log⟩,dirs,trace⟩ := s
  cases dirs with
  | nil => exact Iff.rfl
  | cons top dirs =>
    obtain ⟨dir,listing⟩ := top
    cases listing with
    | eof => exact Iff.rfl
    | failed e =>
      refine iff_of_false ?_ id
      rintro ⟨type,-,path,hmem⟩
      simp [roundEvents,behindRound,findStep] at hmem
    | entry name probe sub rest =>
      simp only [Accounted,Traced]
      by_cases hname : name = dot ∨ name = dotDot
      · rcases hname with hname | hname <;> simp [hname]
      · by_cases hexcluded : (w.excluded world (bDirItemPath dir name)).1 = true
        · simp [hexcluded]
        · obtain ⟨new,hnew,hiff⟩ := findItem_logged w flags root rootMember (bDirItemPath dir name)
            name probe world log hname hexcluded
          have hevents : roundEvents w flags root rootMember
              ⟨(world,log),⟨dir,.entry name probe sub rest⟩::dirs,trace⟩ = new := by
            have hbehind : (behindRound w.logged flags root rootMember
                ⟨(world,log),⟨dir,.entry name probe sub rest⟩::dirs,trace⟩).world.2 = log ++ new := by
              rw [← hnew]
              simp only [behindRound,findStep]
              rcases findItem w.logged flags root rootMember (bDirItemPath dir name) name probe
                (world,log) with ⟨ending,calls,t⟩
              cases ending <;> rfl
            rw [roundEvents,hbehind,List.drop_left]
          rw [not_or] at hname
          rw [hevents]
          simp only [hname.1,hname.2,hexcluded,Bool.false_eq_true,false_or]
          exact hiff

/-- In the loop of any traversal every entry is accounted for if and only if, in no round of it,
`readdir()` or the `fcntl()` for an entry fails. -/
theorem entries_accounted_iff (path memberName : Bytes) (tree : Tree) (world : σ) :
    (∀ start, bFindEntered w.logged flags path memberName tree (world,[]) = some start →
      ∀ s, Rounds w.logged flags (bPathClean path) (bPathClean memberName) start s →
        Accounted w flags (bPathClean path) (bPathClean memberName) s) ↔
    (∀ start, bFindEntered w.logged flags path memberName tree (world,[]) = some start →
      ∀ s, Rounds w.logged flags (bPathClean path) (bPathClean memberName) start s →
        Traced w s) := by
  simp only [accounted_iff_traced]

end

/-- A directory with files `f` and `g`: `readdir()` gives `f`, and then fails with `EIO`. -/
def brokenDirectory : Tree :=
  ⟨answers ⟨sIfdir+0o755,0,0,0,0,0,0,7,1⟩ (.ok ()),
    .entry [102] (answers ⟨sIfreg+0o644,0,0,3,0,0,0,8,1⟩ (.ok ())) .eof (.failed (.other 5))⟩

theorem lost_brokenDirectory : ¬∀ start,
    bFindEntered easyWorld.logged ⟨false,false⟩ [100] [100] brokenDirectory ((),[]) = some start →
      ∀ s, Rounds easyWorld.logged ⟨false,false⟩ (bPathClean [100]) (bPathClean [100]) start s →
        Accounted easyWorld ⟨false,false⟩ (bPathClean [100]) (bPathClean [100]) s := by
  intro h
  -- the round behind the one for `f`
  have hsecond := h _ rfl _ (.next .first rfl)
  rw [accounted_iff_traced] at hsecond
  exact hsecond

end ArchiveTarBuilder
