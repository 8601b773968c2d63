import ArchiveTarBuilder.WipedBuffer
import ArchiveTarBuilder.RelatedTraversals
import ArchiveTarBuilder.Entries

/-! An archiver that has finished an archive and gets another handle: what it carries over from the
archives before. -/
namespace ArchiveTarBuilder
open Region CString Output

/-- The builder as it is when `k` bytes were written and calls made on its error record before. -/
def BBuilder.behind (k : ℕ) (log : List BErrorEvent) (b : BBuilder) : BBuilder :=
  { b with total := k+b.total, err := { b.err with log := b.err.log ++ log } }

section
variable (k : ℕ) (log : List BErrorEvent)

theorem encodeLonglink_behind (b : BBuilder) (off : ℕ) (path : Bytes) (type : UInt8) (wrlen : ℕ) :
    encodeLonglink (b.behind k log) off path type wrlen =
      Prod.map id (BBuilder.behind k log) (encodeLonglink b off path type wrlen) := by
  simp only [encodeLonglink,BBuilder.encodeAt,BBuilder.behind]
  rcases bFileWritePathBlocks _ path with ⟨_ | n,out⟩
  · simp [BBuilder.setError,BBuilder.behind,bErrorSet,Nat.add_assoc]
  · simp [BBuilder.behind,Nat.add_assoc]

theorem writeGnuRecords_behind (b : BBuilder) (header : BHeader) (longPath : Bytes) (off wrlen : ℕ) :
    writeGnuRecords (b.behind k log) header longPath off wrlen =
      Prod.map id (BBuilder.behind k log) (writeGnuRecords b header longPath off wrlen) := by
  have hfirst : (if header.truncated then
        encodeLonglink (b.behind k log) off longPath bHeaderLonglinkType wrlen
      else (some wrlen,b.behind k log)) = Prod.map id (BBuilder.behind k log)
        (if header.truncated then encodeLonglink b off longPath bHeaderLonglinkType wrlen
          else (some wrlen,b)) := by
    rw [encodeLonglink_behind]
    split <;> rfl
  simp only [writeGnuRecords,hfirst]
  rcases (if header.truncated then encodeLonglink b off longPath bHeaderLonglinkType wrlen
    else (some wrlen,b)) with ⟨_ | n,b'⟩
  · rfl
  · cases header.linkdest with
    | none => rfl
    | some dest =>
      simp only [Prod.map,id_eq,encodeLonglink_behind]
      split <;> rfl

theorem writePaxRecords_behind (b : BBuilder) (header : BHeader) (longPath memberName : Bytes)
    (off wrlen : ℕ) : writePaxRecords (b.behind k log) header longPath memberName off wrlen =
      Prod.map id (BBuilder.behind k log) (writePaxRecords b header longPath memberName off wrlen) := by
  simp only [writePaxRecords,BBuilder.encodeAt,BBuilder.behind]
  rcases bFileWritePaxPathBlocks _ longPath header.linkdest with ⟨_ | n,out⟩
  · simp [BBuilder.setError,BBuilder.behind,bErrorSet,Nat.add_assoc]
  · simp [BBuilder.behind,Nat.add_assoc]

theorem writeLongRecords_behind (b : BBuilder) (header : BHeader) (memberName : Bytes) (st : Stat) :
    writeLongRecords (b.behind k log) header memberName st =
      Prod.map id (BBuilder.behind k log) (writeLongRecords b header memberName st) := by
  have hout : (b.behind k log).out = b.out := rfl
  have hoptions : (b.behind k log).options = b.options := rfl
  simp only [writeLongRecords,hout,hoptions]
  split
  · split
    · rfl
    · rcases bBufferGetBlock b.out bHeaderSize with ⟨_ | ⟨off,wrlen⟩,out⟩
      · rfl
      · simp only
        split
        · exact writeGnuRecords_behind k log { b with out := out } header _ off wrlen
        · exact writePaxRecords_behind k log { b with out := out } header _ memberName off wrlen
  · rfl

theorem writeHeader_behind (b : BBuilder) (header : BHeader) : writeHeader (b.behind k log) header =
    Prod.map id (BBuilder.behind k log) (writeHeader b header) := by
  have hout : (b.behind k log).out = b.out := rfl
  simp only [writeHeader,hout]
  rcases bBufferGetBlock b.out bHeaderSize with ⟨_ | ⟨off,wrlen⟩,out⟩
  · rfl
  · simp [BBuilder.encodeAt,BBuilder.behind,Nat.add_assoc]

theorem writeContents_behind (b : BBuilder) (header : BHeader) (path : Bytes) (fd : ℤ) (file : File) :
    writeContents (b.behind k log) header path fd file =
      Prod.map id (BBuilder.behind k log) (writeContents b header path fd file) := by
  have hout : (b.behind k log).out = b.out := rfl
  simp only [writeContents,hout]
  split
  · rcases bFileWriteContents b.out file header.size with ⟨_ | n,out⟩
    · rfl
    · simp [BBuilder.behind,Nat.add_assoc]
  · rfl

theorem writeMember_behind (b : BBuilder) (header : BHeader) (path memberName : Bytes) (st : Stat)
    (fd : ℤ) (file : File) : writeMember (b.behind k log) header path memberName st fd file =
      Prod.map id (BBuilder.behind k log) (writeMember b header path memberName st fd file) := by
  have hand {r : Bool × BBuilder} {next : BBuilder → Bool × BBuilder}
      (hnext : ∀ b, next (b.behind k log) = Prod.map id (BBuilder.behind k log) (next b)) :
      andWrite (Prod.map id (BBuilder.behind k log) r) next =
        Prod.map id (BBuilder.behind k log) (andWrite r next) := by
    simp only [andWrite,Prod.map,id_eq]
    split
    · exact hnext r.2
    · rfl
  rw [writeMember,writeLongRecords_behind,hand fun b => writeHeader_behind k log b header,
    hand fun b => writeContents_behind k log b header path fd file]
  rfl

theorem bBuilderWriteFile_behind (b : BBuilder) (path memberName : Bytes) (st : Stat) (fd : ℤ)
    (src : Source) : bBuilderWriteFile (b.behind k log) path memberName st fd src =
      Prod.map id (BBuilder.behind k log) (bBuilderWriteFile b path memberName st fd src) := by
  have hcache : (b.behind k log).hardlinkCache = b.hardlinkCache := rfl
  simp only [bBuilderWriteFile,hcache]
  rcases headerForFile b.hardlinkCache src memberName st with ⟨errno | header,cache⟩
  · rfl
  · simp only [lookupUser]
    have hlookup : (b.behind k log).userLookup = b.userLookup := rfl
    rw [hlookup]
    cases b.userLookup with
    | none =>
      exact writeMember_behind k log
        { b with err := bErrorClear b.err, userLookup := none, hardlinkCache := cache } header path
        memberName st fd src.file
    | some lookup =>
      simp only
      rcases lookup st.uid st.gid with _ | ⟨user,group⟩
      · rfl
      · exact writeMember_behind k log
          { b with err := bErrorClear b.err, userLookup := some lookup, hardlinkCache := cache }
          { header with user := user, group := group } path memberName st fd src.file

end

section
variable {μ : Type*} (engine : MatchEngine μ)

def Archiver.behind (k : ℕ) (log : List BErrorEvent) (a : Archiver μ) : Archiver μ :=
  { a with builder := a.builder.behind k log }

def Archiver.typed (type : BErrorType) (a : Archiver μ) : Archiver μ :=
  { a with builder := { a.builder with err := { a.builder.err with type := type } } }

theorem builderWorld_behind (k : ℕ) (log : List BErrorEvent) :
    (builderWorld engine).Maps (builderWorld engine) (Archiver.behind k log) where
  excluded a path := rfl
  callback a path memberName st fd src := by
    simp only [builderWorld,Archiver.behind,bBuilderWriteFile_behind]
    rfl
  setError a type e message path := rfl
  setErrno a e := rfl
  fatal a := rfl

/-- What a traversal comes to does not depend on what is noted of its first call. -/
theorem rootEnd_noted {σ : Type*} (w : FindWorld σ) (flags : FindFlags) (root rootMember : Bytes)
    (tree : Tree) (st : Stat) (r : ℤ × σ) (call call' : FindCall σ) :
    (rootEnd w flags root rootMember tree st r call).1 =
        (rootEnd w flags root rootMember tree st r call').1 ∧
      (rootEnd w flags root rootMember tree st r call).2.world =
        (rootEnd w flags root rootMember tree st r call').2.world := by
  unfold rootEnd
  split_ifs
  · exact ⟨rfl,rfl⟩
  · exact ⟨rfl,rfl⟩
  · exact ⟨rfl,rfl⟩
  · cases tree.probe.opendirAnswer with
    | error e => exact ⟨rfl,rfl⟩
    | ok _ =>
      obtain ⟨hret,-,hworld⟩ := findLoop_root w flags root rootMember tree.listing r.2 [call]
      obtain ⟨hret',-,hworld'⟩ := findLoop_root w flags root rootMember tree.listing r.2 [call']
      exact ⟨hret.trans hret'.symm,hworld.trans hworld'.symm⟩

theorem archiveFind_typed (flags : FindFlags) (arg : ArchiveArg) :
    (∃ e, ∀ a : Archiver μ, bFind (builderWorld engine) flags arg.path arg.memberName arg.tree a =
      (-1,⟨(builderWorld engine).setErrno a e,[],[]⟩)) ∨
    ∀ (type : BErrorType) (a : Archiver μ),
      let r := bFind (builderWorld engine) flags arg.path arg.memberName arg.tree a
      let r' := bFind (builderWorld engine) flags arg.path arg.memberName arg.tree (a.typed type)
      r'.1 = r.1 ∧ r'.2.world = r.2.world := by
  rcases bFind_cases (builderWorld engine) (builderWorld engine) flags arg.path arg.memberName arg.tree
    with ⟨e,hnone,-⟩ | ⟨st,fd,hroot,-⟩
  · exact Or.inl ⟨e,hnone⟩
  · refine Or.inr fun type a => ?_
    simp only [findFrom] at hroot ⊢
    rw [hroot,hroot]
    have hclear : bErrorClear (a.typed type).builder.err = bErrorClear a.builder.err := rfl
    have hcall : (builderWorld engine).callback (a.typed type) (bPathClean arg.path)
          (bPathClean arg.memberName) st fd arg.tree.probe.source =
        (builderWorld engine).callback a (bPathClean arg.path) (bPathClean arg.memberName) st fd
          arg.tree.probe.source := by
      simp only [builderWorld,bBuilderWriteFile,hclear]
      rfl
    rw [hcall]
    exact rootEnd_noted (builderWorld engine) flags (bPathClean arg.path) (bPathClean arg.memberName)
      arg.tree st _ _ _

/-- `a'` is `a` behind earlier archives; the last error of these may have left its type. -/
structure Archiver.Follows (k : ℕ) (log : List BErrorEvent) (a' a : Archiver μ) : Prop where
  same : ∃ type, a' = (a.behind k log).typed type
  warns : (bErrorWarn a'.builder.err && !a'.builder.options.ignoreErrors) =
    (bErrorWarn a.builder.err && !a.builder.options.ignoreErrors)

variable {k : ℕ} {log : List BErrorEvent}

theorem Archiver.follows_behind (a : Archiver μ) : (a.behind k log).Follows k log a :=
  ⟨⟨a.builder.err.type,rfl⟩,rfl⟩

theorem Archiver.Follows.find {a a' : Archiver μ} (h : a'.Follows k log a) (arg : ArchiveArg) :
    (archiveFind engine a' arg).1 = (archiveFind engine a arg).1 ∧
      (archiveFind engine a' arg).2.world.Follows k log (archiveFind engine a arg).2.world := by
  have hfollows := h
  obtain ⟨⟨type,rfl⟩,hwarns⟩ := h
  have hoptions : ((a.behind k log).typed type).builder.options = a.builder.options := rfl
  simp only [archiveFind,hoptions]
  rcases archiveFind_typed engine (findFlags a.builder.options) arg with ⟨e,hnone⟩ | htyped
  · rw [hnone,hnone]
    exact ⟨rfl,⟨type,rfl⟩,hwarns⟩
  · obtain ⟨hret,hworld⟩ := htyped type (a.behind k log)
    have hbehind := (builderWorld_behind engine k log).bFind (findFlags a.builder.options) arg.path
      arg.memberName arg.tree a
    rw [hbehind] at hret hworld
    refine ⟨hret,?_⟩
    rw [hworld]
    exact Archiver.follows_behind _

/-- The loop of `builder_archive_as` returns the totals of the earlier archives as well. -/
theorem Archiver.Follows.archiveArgs (args : List ArchiveArg) {a a' : Archiver μ}
    (h : a'.Follows k log a) :
    (archiveArgs engine args a').1 = (archiveArgs engine args a).1.map (k + ·) ∧
      (ArchiveTarBuilder.archiveArgs engine args a').2.Follows k log
        (ArchiveTarBuilder.archiveArgs engine args a).2 := by
  induction args generalizing a a' with
  | nil =>
    refine ⟨?_,h⟩
    obtain ⟨⟨type,rfl⟩,-⟩ := h
    rfl
  | cons arg args ih =>
    obtain ⟨hret,hworld⟩ := h.find engine arg
    simp only [ArchiveTarBuilder.archiveArgs,hret]
    split
    · refine ⟨?_,hworld⟩
      obtain ⟨⟨type,hsame⟩,-⟩ := hworld
      rw [hsame]
      rfl
    · exact ih hworld

theorem died_map {α β : Type*} (f : α → β) (r : Except Croak α) : died (r.map f) = died r := by
  cases r <;> rfl

theorem Archiver.Follows.archiveAs (args : List ArchiveArg) {a a' : Archiver μ}
    (h : a'.Follows k log a) :
    died (builderArchiveAs engine args a').1 = died (builderArchiveAs engine args a).1 ∧
      (builderArchiveAs engine args a').2.Follows k log (builderArchiveAs engine args a).2 := by
  have hfd : a'.builder.out.buf.fd = a.builder.out.buf.fd := by
    obtain ⟨⟨type,rfl⟩,-⟩ := h
    rfl
  simp only [builderArchiveAs,hfd]
  split
  · exact ⟨rfl,h⟩
  · obtain ⟨hret,hafter⟩ := h.archiveArgs engine args
    rw [hret,died_map]
    exact ⟨rfl,hafter⟩

theorem Archiver.Follows.perform (m : Method) {a a' : Archiver μ} (h : a'.Follows k log a) :
    (m.perform engine a').1 = (m.perform engine a).1 ∧
      (m.perform engine a').2.Follows k log (m.perform engine a).2 := by
  cases m with
  | archive files =>
    simp only [Method.perform,builderArchive]
    split
    · exact ⟨rfl,h⟩
    · exact h.archiveAs engine _
  | archiveAs args => exact h.archiveAs engine args
  | setHandle fd fifo release sys =>
    obtain ⟨⟨type,rfl⟩,hwarns⟩ := h
    exact ⟨rfl,⟨type,rfl⟩,hwarns⟩
  | flush =>
    obtain ⟨⟨type,rfl⟩,hwarns⟩ := h
    have hout : ((a.behind k log).typed type).builder.out = a.builder.out := rfl
    simp only [Method.perform,builderFlush,hout]
    split_ifs
    · exact ⟨rfl,⟨type,rfl⟩,hwarns⟩
    · exact ⟨rfl,⟨type,rfl⟩,hwarns⟩
    · exact ⟨rfl,⟨type,rfl⟩,hwarns⟩
  | finish =>
    have hwarns := h.warns
    obtain ⟨⟨type,rfl⟩,-⟩ := h
    have hout : ((a.behind k log).typed type).builder.out = a.builder.out := rfl
    have hset (b : Archiver μ) (out : Output) : (b.setOut out).builder.err = b.builder.err ∧
        (b.setOut out).builder.options = b.builder.options := ⟨rfl,rfl⟩
    simp only [Method.perform,builderFinish,hout,(hset _ _).1,(hset _ _).2,hwarns]
    split_ifs
    · exact ⟨rfl,⟨type,rfl⟩,hwarns⟩
    · exact ⟨rfl,⟨type,rfl⟩,hwarns⟩
    · exact ⟨rfl,⟨type,rfl⟩,hwarns⟩
    · exact ⟨rfl,⟨type,rfl⟩,hwarns⟩

def outcomes : List Method → Archiver μ → List (Option Croak)
  | [],_ => []
  | m::ms,a => (m.perform engine a).1::outcomes ms (m.perform engine a).2

theorem runMethods_foldl (ms : List Method) (a : Archiver μ) (ts : List Attempt)
    (earlier : List (List Attempt)) : (ms.foldl (Run.after engine) ⟨a,ts,earlier⟩).archiver =
      (runMethods engine ms a).archiver := by
  suffices hall : ∀ r r' : Run μ, r.archiver = r'.archiver →
      (ms.foldl (Run.after engine) r).archiver = (ms.foldl (Run.after engine) r').archiver from
    hall _ _ rfl
  induction ms with
  | nil => exact fun r r' h => h
  | cons m ms ih => exact fun r r' h => ih _ _ (by simp only [Run.after,h])

theorem runMethods_archiver_cons (m : Method) (ms : List Method) (a : Archiver μ) :
    (runMethods engine (m::ms) a).archiver =
      (runMethods engine ms (m.perform engine a).2).archiver :=
  runMethods_foldl engine ms _ _ _

theorem runMethods_archiver_snoc (m : Method) (ms : List Method) (a : Archiver μ) :
    (runMethods engine (ms ++ [m]) a).archiver =
      (m.perform engine (runMethods engine ms a).archiver).2 := by
  simp only [runMethods,List.foldl_append,List.foldl_cons,List.foldl_nil]
  rfl

theorem Archiver.Follows.run (ms : List Method) {a a' : Archiver μ} (h : a'.Follows k log a) :
    outcomes engine ms a' = outcomes engine ms a ∧
      (runMethods engine ms a').archiver.Follows k log (runMethods engine ms a).archiver := by
  induction ms generalizing a a' with
  | nil => exact ⟨rfl,h⟩
  | cons m ms ih =>
    obtain ⟨hdied,hafter⟩ := h.perform engine m
    obtain ⟨hmore,hlast⟩ := ih hafter
    rw [runMethods_archiver_cons,runMethods_archiver_cons]
    exact ⟨by rw [outcomes,outcomes,hdied,hmore],hlast⟩

end

/-- What no method of an archiver changes: its settings, that its buffer is wiped as soon as it is
empty, and that it does not remember links it is not to preserve. -/
structure BBuilder.Stays (start b : BBuilder) : Prop where
  settings : b = { start with
    out := b.out, err := b.err, total := b.total, hardlinkCache := b.hardlinkCache }
  wiped : b.out.Wiped start.out.buf.size
  forgets : start.options.preserveHardlinks = false → b.hardlinkCache = none

theorem headerForFile_forgets (src : Source) (memberName : Bytes) (st : Stat) :
    (headerForFile none src memberName st).2 = none := by
  unfold headerForFile
  split
  · rfl
  · simp only
    split_ifs
    · split <;> rfl
    · rfl
    · rfl

theorem BBuilder.Stays.write {start b : BBuilder} (h : start.Stays b) (c : MemberCall) :
    start.Stays (c.write b).2 := by
  have hrest := (bBuilderWriteFile_keeps b c.path c.memberName c.st c.fd c.src).rest
  refine ⟨?_,bBuilderWriteFile_wiped h.wiped _ _ _ _ _,fun hno => ?_⟩
  · simp only [MemberCall.write]
    rw [hrest]
    simp only [memberStart]
    rw [h.settings]
  · simp only [MemberCall.write]
    rw [hrest]
    simp only [memberStart]
    rw [h.forgets hno]
    exact headerForFile_forgets c.src c.memberName c.st

theorem Works.stays {start b b' : BBuilder} {ts : List Attempt} (h : Works b ts b')
    (hb : start.Stays b) : start.Stays b' := by
  induction h with
  | idle => exact hb
  | report h e message path ih => exact ⟨by rw [ih.settings],ih.wiped,ih.forgets⟩
  | fail h e ih => exact ⟨by rw [ih.settings]; rfl,ih.wiped.of_buf rfl,ih.forgets⟩
  | write h c ih => exact ih.write c

theorem Performs.stays {start b b' : BBuilder} {m : Method} {ts : List Attempt}
    (h : Performs b m ts b') (hb : start.Stays b) : start.Stays b' := by
  have hwiped := h.wiped hb.wiped
  cases h with
  | archives hm hfd h => exact h.stays hb
  | handle fd fifo release sys => exact ⟨by rw [hb.settings],hwiped,hb.forgets⟩
  | unset hfd => exact hb
  | flushed hm hfd => exact ⟨by rw [hb.settings]; rfl,hwiped,hb.forgets⟩
  | finished hfd hret hwarn => exact ⟨by rw [hb.settings]; rfl,hwiped,hb.forgets⟩

section
variable {μ : Type*} (engine : MatchEngine μ)

theorem runMethods_stays (ms : List Method) (a : Archiver μ)
    (ha : a.builder.Stays a.builder) : a.builder.Stays (runMethods engine ms a).archiver.builder :=
  runMethods_invariant engine (P := fun b _ _ => a.builder.Stays b) ms ha
    fun _ _ _ _ _ _ _ h hperforms => hperforms.stays h

theorem stays_new (p : Process) (factor : ℕ) (options : BBuilderOptions)
    (userLookup : Option BUserLookup) (matching : μ) :
    (newArchiver p factor options userLookup matching).builder.Stays
      (newArchiver p factor options userLookup matching).builder :=
  ⟨rfl,wiped_new _ _,fun hno => if_neg (hno ▸ Bool.false_ne_true)⟩

def Archiver.renewed (p : Process) (factor : ℕ) (options : BBuilderOptions)
    (userLookup : Option BUserLookup) (a : Archiver μ) : Archiver μ :=
  ⟨{ bBuilderNew p factor ⟨[],[],[],.ok⟩ options userLookup with
    hardlinkCache := a.builder.hardlinkCache },a.matching⟩

theorem finish_leaves {a : Archiver μ} (h : (Method.finish.perform engine a).1 = none) :
    0 ≤ (bBufferFlush a.builder.out).1 ∧
      (bErrorWarn a.builder.err && !a.builder.options.ignoreErrors) = false ∧
      (Method.finish.perform engine a).2 = { a with builder := { a.builder with
        out := (bBufferFlush a.builder.out).2, err := bErrorReset a.builder.err } } := by
  simp only [Method.perform,builderFinish] at h ⊢
  split_ifs at h ⊢ with hfd hneg hwarn
  · cases h
  · cases h
  · cases h
  · exact ⟨not_lt.mp hneg,Bool.eq_false_iff.mpr hwarn,rfl⟩

theorem Output.Wiped.setFd {factor : ℕ} {o : Output} (h : o.Wiped (bBufferNew factor).size)
    (hempty : o.buf.unused = (bBufferNew factor).size) (fd : ℤ) (fifo : Bool)
    (release : Option (ℕ × ℕ × ℕ)) :
    bBufferSetFd o.buf fd fifo release = bBufferSetFd (bBufferNew factor) fd fifo release := by
  unfold bBufferSetFd
  rw [h.size,hempty,h.blank hempty]
  rfl

theorem handle_follows {p : Process} {factor : ℕ} {options : BBuilderOptions}
    {userLookup : Option BUserLookup} {a : Archiver μ}
    (hstays : (newArchiver p factor options userLookup a.matching).builder.Stays a.builder)
    (hdone : (Method.finish.perform engine a).1 = none) (fd : ℤ) (fifo : Bool)
    (release : Option (ℕ × ℕ × ℕ)) (sys : Sys) :
    let old := (Method.finish.perform engine a).2
    (builderSetHandle fd fifo release sys old).Follows old.builder.total old.builder.err.log
      (builderSetHandle fd fifo release sys (old.renewed p factor options userLookup)) := by
  obtain ⟨hret,hwarn,hafter⟩ := finish_leaves engine hdone
  obtain ⟨hwiped,hempty⟩ := hstays.wiped.flush
  have hempty := hempty hret
  have hprocess : a.builder.process = p := by rw [hstays.settings]; rfl
  have hoptions : a.builder.options = options := by rw [hstays.settings]; rfl
  have hlookup : a.builder.userLookup = userLookup := by rw [hstays.settings]; rfl
  simp only
  rw [hafter]
  refine ⟨⟨a.builder.err.type,?_⟩,?_⟩
  · simp only [builderSetHandle,Archiver.setOut,Archiver.typed,Archiver.behind,BBuilder.behind,
      Archiver.renewed,bBuilderNew,bErrorNew,bErrorReset,List.nil_append,Nat.add_zero,hprocess,
      hoptions,hlookup]
    rw [hwiped.setFd hempty]
  · exact hwarn

/-- All that an archiver carries over from an archive that it finished to the next one is its
patterns, the links it remembers when it is to preserve them, and the running total. -/
theorem finish_renews (p : Process) (factor : ℕ) (options : BBuilderOptions)
    (userLookup : Option BUserLookup) (matching : μ) (ms ms' : List Method) (fd : ℤ) (fifo : Bool)
    (release : Option (ℕ × ℕ × ℕ)) (sys : Sys)
    (hdone : (Method.finish.perform engine
      (runMethods engine ms (newArchiver p factor options userLookup matching)).archiver).1 = none) :
    let old := (runMethods engine (ms ++ [.finish])
      (newArchiver p factor options userLookup matching)).archiver
    let fresh := old.renewed p factor options userLookup
    let next := Method.setHandle fd fifo release sys::ms'
    let r := (runMethods engine next old).archiver
    let s := (runMethods engine next fresh).archiver
    outcomes engine next old = outcomes engine next fresh ∧ r.builder.out = s.builder.out ∧
      r.builder.total = old.builder.total+s.builder.total ∧ r.matching = s.matching ∧
      r.builder.hardlinkCache = s.builder.hardlinkCache ∧
      (options.preserveHardlinks = false →
        fresh = newArchiver p factor options userLookup old.matching) := by
  simp only
  have hstays := runMethods_stays engine ms _ (stays_new p factor options userLookup matching)
  rw [runMethods_archiver_snoc]
  generalize hrun : (runMethods engine ms (newArchiver p factor options userLookup matching)).archiver = a
    at hdone hstays ⊢
  have hkept : (Method.finish.perform engine a).2.builder.hardlinkCache =
      a.builder.hardlinkCache := by
    rw [(finish_leaves engine hdone).2.2]
  have hhanded := handle_follows engine hstays hdone fd fifo release sys
  obtain ⟨hdied,hlast⟩ := Archiver.Follows.run engine ms' hhanded
  simp only [runMethods_archiver_cons,outcomes]
  refine ⟨congrArg (none::·) hdied,?_⟩
  simp only [Method.perform] at hlast ⊢
  obtain ⟨⟨type,hsame⟩,-⟩ := hlast
  rw [hsame]
  refine ⟨rfl,rfl,rfl,rfl,fun hno => ?_⟩
  simp only [Method.perform] at hkept
  have hnone : (bBuilderNew p factor ⟨[],[],[],.ok⟩ options userLookup).hardlinkCache = none :=
    if_neg (hno ▸ Bool.false_ne_true)
  rw [Archiver.renewed,hkept,hstays.forgets hno,← hnone]
  rfl

end

def brokenLink : Method := .archiveAs [⟨[108],[108],
  ⟨.answering ⟨sIflnk+0o777,0,0,1,0,1,0,7,1⟩ 0 ⟨.error .eacces,[],⟨[],[]⟩⟩,.eof⟩⟩]

def smallFile : Method := .archive
  [([102],⟨.answering ⟨sIfreg+0o644,0,0,3,0,1,0,8,1⟩ 6 ⟨.ok [],[],⟨[1,2,3],[]⟩⟩,.eof⟩)]

theorem finish_renews_brokenLink :
    let options : BBuilderOptions := ⟨true,false,false,false,true,false,false⟩
    let old := (runMethods noPatterns ([.setHandle 4 false none ⟨[],[],[],.ok⟩,brokenLink] ++ [.finish])
      (newArchiver ⟨false,1⟩ 2 options none ())).archiver
    let fresh := newArchiver ⟨false,1⟩ 2 options none old.matching
    let next := [.setHandle 5 false none ⟨[],[.fail .eintr],[],.ok⟩,smallFile,.finish]
    old.builder.err.type = .fatal ∧ outcomes noPatterns next old = outcomes noPatterns next fresh ∧
      (runMethods noPatterns next old).archiver.builder.out =
        (runMethods noPatterns next fresh).archiver.builder.out := by
  obtain ⟨hdied,hout,-,-,-,hnew⟩ := finish_renews noPatterns ⟨false,1⟩ 2
    ⟨true,false,false,false,true,false,false⟩ none ()
    [.setHandle 4 false none ⟨[],[],[],.ok⟩,brokenLink] [smallFile,.finish] 5 false none
    ⟨[],[.fail .eintr],[],.ok⟩ (by decide +kernel)
  rw [hnew rfl] at hdied hout
  exact ⟨by decide +kernel,hdied,hout⟩

end ArchiveTarBuilder
