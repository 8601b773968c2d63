import ArchiveTarBuilder.ArchiverRuns
import ArchiveTarBuilder.EntryNames
import ArchiveTarBuilder.MemoTable
import ArchiveTarBuilder.RelatedTraversals

/-! `UserCache.pm`, and the archiver with it: user and group names are asked for once an id, and the
archive is the one that the answers give without a cache. -/
namespace ArchiveTarBuilder
open MemoTable

/-- What `getpwuid()` and `getgrgid()` answer, each when it has been called so many times before: no
name for an id that is unknown, or when the service fails. -/
structure NameService where
  getpwuid : ℕ → ℕ → Option Bytes
  getgrgid : ℕ → ℕ → Option Bytes

/-- The names so far; `undef` is kept, too. The calls that were made are a ghost. -/
structure UserCache where
  users : Memo ℕ (Option Bytes)
  groups : Memo ℕ (Option Bytes)
  deriving DecidableEq, Repr

def UserCache.new : UserCache := ⟨⟨[],[]⟩,⟨[],[]⟩⟩

structure Names where
  users : ℕ → Option Bytes
  groups : ℕ → Option Bytes

def Names.lookup (names : Names) : BUserLookup := fun uid gid => some (names.users uid,names.groups gid)

/-- Every id was asked for once. -/
structure UserCache.Once (c : UserCache) : Prop where
  users : c.users.Once
  groups : c.groups.Once

structure UserCache.Tells (c : UserCache) (names : Names) : Prop where
  users : c.users.Tells names.users
  groups : c.groups.Tells names.groups

structure UserCache.Before (c c' : UserCache) : Prop where
  users : c.users.table <+: c'.users.table
  groups : c.groups.table <+: c'.groups.table

namespace UserCache
variable {c c' c'' : UserCache} {names : Names}

theorem once_new : UserCache.new.Once := ⟨⟨rfl,List.nodup_nil⟩,⟨rfl,List.nodup_nil⟩⟩

theorem Before.refl (c : UserCache) : c.Before c := ⟨List.prefix_refl _,List.prefix_refl _⟩

theorem Before.trans (h : c.Before c') (h' : c'.Before c'') : c.Before c'' :=
  ⟨h.users.trans h'.users,h.groups.trans h'.groups⟩

theorem Tells.of_before (h : c'.Tells names) (hbefore : c.Before c') : c.Tells names :=
  ⟨h.users.of_prefix hbefore.users,h.groups.of_prefix hbefore.groups⟩

variable (s : NameService)

def lookup (c : UserCache) (uid gid : ℕ) : (Option Bytes × Option Bytes) × UserCache :=
  let user := ask s.getpwuid c.users uid
  let group := ask s.getgrgid c.groups gid
  ((user.1,group.1),⟨user.2,group.2⟩)

theorem Once.lookup (h : c.Once) (uid gid : ℕ) : (c.lookup s uid gid).2.Once :=
  ⟨h.users.ask s.getpwuid uid,h.groups.ask s.getgrgid gid⟩

theorem before_lookup (uid gid : ℕ) : c.Before (c.lookup s uid gid).2 :=
  ⟨prefix_ask _ _ _,prefix_ask _ _ _⟩

variable {s}

theorem Tells.answer {uid gid : ℕ} (h : (c.lookup s uid gid).2.Tells names) :
    (c.lookup s uid gid).1 = (names.users uid,names.groups gid) :=
  Prod.ext (ask_answer h.users) (ask_answer h.groups)

end UserCache

/-- The service never changes its answers. -/
structure NameService.Steady (s : NameService) (names : Names) : Prop where
  users : ∀ n uid, s.getpwuid n uid = names.users uid
  groups : ∀ n gid, s.getgrgid n gid = names.groups gid

theorem NameService.Steady.lookup {s : NameService} {names : Names} (hs : s.Steady names) {c : UserCache}
    (h : c.Tells names) (uid gid : ℕ) : (c.lookup s uid gid).2.Tells names :=
  ⟨h.users.ask hs.users uid,h.groups.ask hs.groups gid⟩

def BBuilder.withLookup (b : BBuilder) (lookup : Option BUserLookup) : BBuilder :=
  { b with userLookup := lookup }

def Unlooked (part : BBuilder → Bool × BBuilder) : Prop :=
  ∀ b lookup, part (b.withLookup lookup) = ((part b).1,(part b).2.withLookup lookup)

theorem encodeLonglink_withLookup (b : BBuilder) (lookup : Option BUserLookup) (off : ℕ) (path : Bytes)
    (type : UInt8) (wrlen : ℕ) : encodeLonglink (b.withLookup lookup) off path type wrlen =
      ((encodeLonglink b off path type wrlen).1,(encodeLonglink b off path type wrlen).2.withLookup lookup) := by
  simp only [encodeLonglink,BBuilder.encodeAt,BBuilder.withLookup]
  split <;> rfl

theorem writeGnuRecords_unlooked (header : BHeader) (longPath : Bytes) (off wrlen : ℕ) :
    Unlooked (writeGnuRecords · header longPath off wrlen) := by
  intro b lookup
  simp only [writeGnuRecords]
  by_cases hlong : header.truncated = true
  · simp only [hlong,if_true,encodeLonglink_withLookup]
    rcases encodeLonglink b off longPath bHeaderLonglinkType wrlen with ⟨_ | n,b'⟩
    · rfl
    · cases header.linkdest with
      | none => rfl
      | some dest =>
        simp only [encodeLonglink_withLookup]
        split <;> rfl
  · simp only [hlong,if_false,Bool.false_eq_true]
    cases header.linkdest with
    | none => rfl
    | some dest =>
      simp only [encodeLonglink_withLookup]
      split <;> rfl

theorem writePaxRecords_unlooked (header : BHeader) (longPath memberName : Bytes) (off wrlen : ℕ) :
    Unlooked (writePaxRecords · header longPath memberName off wrlen) := by
  intro b lookup
  simp only [writePaxRecords,BBuilder.encodeAt,BBuilder.withLookup]
  split <;> rfl

theorem writeLongRecords_unlooked (header : BHeader) (memberName : Bytes) (st : Stat) :
    Unlooked (writeLongRecords · header memberName st) := by
  intro b lookup
  have hout : (b.withLookup lookup).out = b.out := rfl
  have hoptions : (b.withLookup lookup).options = b.options := rfl
  simp only [writeLongRecords,hout,hoptions]
  rcases bBufferGetBlock b.out bHeaderSize with ⟨_ | ⟨off,wrlen⟩,out⟩
  · split_ifs <;> rfl
  · split_ifs
    · rfl
    · exact writeGnuRecords_unlooked header (longlinkPath memberName st) off wrlen { b with out := out }
        lookup
    · exact writePaxRecords_unlooked header (longlinkPath memberName st) memberName off wrlen
        { b with out := out } lookup
    · rfl

theorem writeHeader_unlooked (header : BHeader) : Unlooked (writeHeader · header) := by
  intro b lookup
  simp only [writeHeader,BBuilder.withLookup]
  split <;> rfl

theorem writeContents_unlooked (header : BHeader) (path : Bytes) (fd : ℤ) (file : File) :
    Unlooked (writeContents · header path fd file) := by
  intro b lookup
  simp only [writeContents,BBuilder.withLookup]
  split
  · split <;> rfl
  · rfl

theorem Unlooked.andWrite {part next : BBuilder → Bool × BBuilder} (h : Unlooked part)
    (hnext : Unlooked next) : Unlooked fun b => andWrite (part b) next := by
  intro b lookup
  have hafter := hnext (part b).2 lookup
  simp only [ArchiveTarBuilder.andWrite,h b lookup]
  split
  · exact hafter
  · rfl

theorem writeMember_unlooked (header : BHeader) (path memberName : Bytes) (st : Stat) (fd : ℤ)
    (file : File) : Unlooked (writeMember · header path memberName st fd file) :=
  ((writeLongRecords_unlooked header memberName st).andWrite (writeHeader_unlooked header)).andWrite
    (writeContents_unlooked header path fd file)

theorem bBuilderWriteFile_withLookup (b : BBuilder) (path memberName : Bytes) (st : Stat) (fd : ℤ)
    (src : Source) {lookup lookup' : BUserLookup}
    (h : ∀ header, (headerForFile b.hardlinkCache src memberName st).1 = .ok header →
      lookup st.uid st.gid = lookup' st.uid st.gid) :
    bBuilderWriteFile (b.withLookup (some lookup')) path memberName st fd src =
      ((bBuilderWriteFile (b.withLookup (some lookup)) path memberName st fd src).1,
        (bBuilderWriteFile (b.withLookup (some lookup)) path memberName st fd src).2.withLookup
          (some lookup')) := by
  simp only [bBuilderWriteFile,BBuilder.withLookup]
  rcases hheader : headerForFile b.hardlinkCache src memberName st with ⟨_ | header,cache⟩
  · rfl
  · simp only [lookupUser,h header (by rw [hheader])]
    cases lookup' st.uid st.gid with
    | none => rfl
    | some names =>
      exact writeMember_unlooked { header with user := names.1, group := names.2 } path memberName st fd
        src.file { b with err := bErrorClear b.err, hardlinkCache := cache, userLookup := some lookup }
        (some lookup')

/-- An archiver whose names come from a cache; the lookup function of its builder is not used. -/
structure CachingArchiver (μ : Type*) where
  archiver : Archiver μ
  cache : { c : UserCache // c.Once }

section
variable {μ : Type*} (engine : MatchEngine μ) (s : NameService)

def Archiver.withLookup (a : Archiver μ) (lookup : BUserLookup) : Archiver μ :=
  { a with builder := a.builder.withLookup (some lookup) }

/-- The cache behind a call of `b_builder_write_file`, which looks names up once it has a header. -/
def CachingArchiver.cacheAfter (a : CachingArchiver μ) (memberName : Bytes) (st : Stat) (src : Source) :
    { c : UserCache // c.Once } :=
  match (headerForFile a.archiver.builder.hardlinkCache src memberName st).1 with
  | .error _ => a.cache
  | .ok _ => ⟨(a.cache.1.lookup s st.uid st.gid).2,a.cache.2.lookup s st.uid st.gid⟩

def cachingWorld : FindWorld (CachingArchiver μ) where
  excluded a path :=
    let r := (builderWorld engine).excluded a.archiver path
    (r.1,{ a with archiver := r.2 })
  callback a path memberName st fd src :=
    let names : BUserLookup := fun uid gid => some (a.cache.1.lookup s uid gid).1
    let r := (builderWorld engine).callback (a.archiver.withLookup names) path memberName st fd src
    (r.1,⟨r.2,a.cacheAfter s memberName st src⟩)
  setError a type errno message path :=
    { a with archiver := (builderWorld engine).setError a.archiver type errno message path }
  setErrno a errno := { a with archiver := (builderWorld engine).setErrno a.archiver errno }
  fatal a := (builderWorld engine).fatal a.archiver

def CachingArchiver.direct (names : Names) (a : CachingArchiver μ) : Archiver μ :=
  a.archiver.withLookup names.lookup

theorem cachingWorld_relates (names : Names) : (cachingWorld engine s).Relates (builderWorld engine)
    (fun a t => t = a.direct names)
    (fun c => (c.world.cacheAfter s c.memberName c.st c.source).1.Tells names) fun _ => True where
  excluded {a t} h path := by
    subst h
    exact ⟨rfl,rfl⟩
  setError {a t} h type e message path := by
    subst h
    rfl
  setErrno {a t} h e := by
    subst h
    rfl
  fatal {a t} h := by
    subst h
    rfl
  callback {a t} h path memberName st fd src htells _ := by
    subst h
    have hcall := @bBuilderWriteFile_withLookup a.archiver.builder path memberName st fd src
      (fun uid gid => some (a.cache.1.lookup s uid gid).1) names.lookup fun header hheader => by
        simp only [CachingArchiver.cacheAfter,hheader] at htells
        exact congrArg some htells.answer
    simp only [cachingWorld,builderWorld,CachingArchiver.direct,Archiver.withLookup,hcall]
    exact ⟨trivial,trivial⟩

def cachingArgs : List ArchiveArg → CachingArchiver μ → Except Croak ℕ × CachingArchiver μ
  | [], a => (.ok a.archiver.builder.total,a)
  | arg::args, a =>
    let r := bFind (cachingWorld engine s) (findFlags a.archiver.builder.options) arg.path
      arg.memberName arg.tree a
    let a := r.2.world
    if r.1 < 0 then
      (.error (.find (a.archiver.builder.err.path.getD arg.path) a.archiver.builder.out.sys.errno),a)
    else cachingArgs args a

variable {engine s}

theorem CachingArchiver.before_cacheAfter (a : CachingArchiver μ) (memberName : Bytes) (st : Stat)
    (src : Source) : a.cache.1.Before (a.cacheAfter s memberName st src).1 := by
  unfold CachingArchiver.cacheAfter
  split
  · exact .refl _
  · exact UserCache.before_lookup s _ _

theorem FindRuns.before {a a' : CachingArchiver μ} {calls : List (FindCall (CachingArchiver μ))}
    (h : FindRuns (cachingWorld engine s) a calls a') : a.cache.1.Before a'.cache.1 ∧
      ∀ c ∈ calls, (c.world.cacheAfter s c.memberName c.st c.source).1.Before a'.cache.1 := by
  induction h with
  | idle => exact ⟨.refl _,by simp⟩
  | exclude h path ih => exact ih
  | report h e message path ih => exact ih
  | fail h e ih => exact ih
  | @call calls t h path memberName st fd src ih =>
    have hafter := t.before_cacheAfter (s := s) memberName st src
    refine ⟨ih.1.trans hafter,fun c hc => ?_⟩
    rcases List.mem_append.mp hc with hc | hc
    · exact (ih.2 c hc).trans hafter
    · obtain rfl := List.mem_singleton.mp hc
      exact .refl _

/-- A call that makes a header asks for the names of the inode. -/
def FindCall.Headed (c : FindCall (CachingArchiver μ)) : Prop :=
  ∃ header, (headerForFile c.world.archiver.builder.hardlinkCache c.source c.memberName c.st).1 =
  .ok header

theorem asked_after (c : FindCall (CachingArchiver μ)) :
    (∀ uid, uid ∈ (c.world.cacheAfter s c.memberName c.st c.source).1.users.asked ↔
      uid ∈ c.world.cache.1.users.asked ∨ c.Headed ∧ c.st.uid = uid) ∧
    ∀ gid, gid ∈ (c.world.cacheAfter s c.memberName c.st c.source).1.groups.asked ↔
      gid ∈ c.world.cache.1.groups.asked ∨ c.Headed ∧ c.st.gid = gid := by
  simp only [FindCall.Headed,CachingArchiver.cacheAfter]
  cases (headerForFile c.world.archiver.builder.hardlinkCache c.source c.memberName c.st).1 with
  | error e => simp
  | ok header =>
    have honce := c.world.cache.2
    simp only [Except.ok.injEq,exists_eq',true_and]
    exact ⟨fun uid => (honce.users.mem_asked_ask s.getpwuid c.st.uid).trans (or_congr_right eq_comm),
      fun gid => (honce.groups.mem_asked_ask s.getgrgid c.st.gid).trans (or_congr_right eq_comm)⟩

theorem FindRuns.asked {a a' : CachingArchiver μ} {calls : List (FindCall (CachingArchiver μ))}
    (h : FindRuns (cachingWorld engine s) a calls a') :
    (∀ uid, uid ∈ a'.cache.1.users.asked ↔
      uid ∈ a.cache.1.users.asked ∨ ∃ c ∈ calls, c.Headed ∧ c.st.uid = uid) ∧
    ∀ gid, gid ∈ a'.cache.1.groups.asked ↔
      gid ∈ a.cache.1.groups.asked ∨ ∃ c ∈ calls, c.Headed ∧ c.st.gid = gid := by
  induction h with
  | idle => simp
  | exclude h path ih => exact ih
  | report h e message path ih => exact ih
  | fail h e ih => exact ih
  | @call calls t h path memberName st fd src ih =>
    obtain ⟨husers,hgroups⟩ := @asked_after μ s ⟨t,path,memberName,st,fd,src,
      ((cachingWorld engine s).callback t path memberName st fd src).1⟩
    refine ⟨fun uid => (husers uid).trans ?_,fun gid => (hgroups gid).trans ?_⟩
    · simp only [ih.1 uid,List.mem_append,List.mem_singleton,or_and_right,exists_or,exists_eq_left,or_assoc]
    · simp only [ih.2 gid,List.mem_append,List.mem_singleton,or_and_right,exists_or,exists_eq_left,or_assoc]

theorem FindRuns.tells {names : Names} (hs : s.Steady names) {a a' : CachingArchiver μ}
    {calls : List (FindCall (CachingArchiver μ))} (h : FindRuns (cachingWorld engine s) a calls a')
    (ha : a.cache.1.Tells names) : a'.cache.1.Tells names := by
  induction h with
  | idle => exact ha
  | exclude h path ih => exact ih
  | report h e message path ih => exact ih
  | fail h e ih => exact ih
  | call h path memberName st fd src ih =>
    simp only [cachingWorld,CachingArchiver.cacheAfter]
    split
    · exact ih
    · exact hs.lookup ih st.uid st.gid

theorem headed_alike {names : Names} {calls : List (FindCall (CachingArchiver μ))}
    {calls' : List (FindCall (Archiver μ))}
    (h : List.Forall₂ (FindCall.Alike fun a t => t = a.direct names) calls calls') (P : Stat → Prop) :
    (∃ t ∈ calls'.map FindCall.attempt, t.header.isSome = true ∧ P t.call.st) ↔
      ∃ c ∈ calls, c.Headed ∧ P c.st := by
  induction h with
  | nil => simp
  | @cons c c' calls calls' hc _ ih =>
    have hheader : c'.attempt.header.isSome = true ↔ c.Headed := by
      rw [hc.rest,hc.world,FindCall.Headed]
      simp only [Attempt.header,memberHeader,FindCall.attempt,CachingArchiver.direct,
        Archiver.withLookup,
        BBuilder.withLookup,Names.lookup]
      cases (headerForFile c.world.archiver.builder.hardlinkCache c.source c.memberName c.st).1 <;> simp
    have hst : c'.attempt.call.st = c.st := by rw [hc.rest]; rfl
    simp only [List.map_cons,List.mem_cons,or_and_right,exists_or,exists_eq_left,hheader,hst,ih]

variable (s) in
theorem cachingFind_direct (a : CachingArchiver μ) (arg : ArchiveArg) {names : Names} :
    let r := bFind (cachingWorld engine s) (findFlags a.archiver.builder.options) arg.path
      arg.memberName arg.tree a
    r.2.world.cache.1.Tells names →
      r.1 = (archiveFind engine (a.direct names) arg).1 ∧
        List.Forall₂ (FindCall.Alike fun a t => t = a.direct names) r.2.trace
          (archiveFind engine (a.direct names) arg).2.trace ∧
        (archiveFind engine (a.direct names) arg).2.world = r.2.world.direct names := by
  intro r htells
  have hruns : FindRuns (cachingWorld engine s) a r.2.trace r.2.world :=
    bFind_runs (findFlags a.archiver.builder.options) arg.path arg.memberName arg.tree a
  exact bFind_together (findFlags a.archiver.builder.options) (cachingWorld_relates engine s names)
    arg.path arg.memberName arg.tree rfl (fun c hc => htells.of_before (hruns.before.2 c hc))
    fun _ _ => trivial

theorem cachingArgs_before (args : List ArchiveArg) (a : CachingArchiver μ) :
    a.cache.1.Before (cachingArgs engine s args a).2.cache.1 := by
  induction args generalizing a with
  | nil => exact .refl _
  | cons arg args ih =>
    have hruns : FindRuns (cachingWorld engine s) a _ _ := bFind_runs
      (findFlags a.archiver.builder.options) arg.path arg.memberName arg.tree a
    simp only [cachingArgs]
    split
    · exact hruns.before.1
    · exact hruns.before.1.trans (ih _)

theorem cachingArgs_tells {names : Names} (hs : s.Steady names) (args : List ArchiveArg)
    {a : CachingArchiver μ} (ha : a.cache.1.Tells names) :
    (cachingArgs engine s args a).2.cache.1.Tells names := by
  induction args generalizing a with
  | nil => exact ha
  | cons arg args ih =>
    have hruns : FindRuns (cachingWorld engine s) a _ _ := bFind_runs
      (findFlags a.archiver.builder.options) arg.path arg.memberName arg.tree a
    simp only [cachingArgs]
    split
    · exact hruns.tells hs ha
    · exact ih (hruns.tells hs ha)

/-- With the cache the loop over the arguments does what it does on the answers that the cache has
got, which are those of the service if it never changes them; and whatever tree an id is met in and
how often, the service is asked for it once, when the first header for it is made. -/
theorem cachingArgs_direct (args : List ArchiveArg) (a : CachingArchiver μ) :
    let r := cachingArgs engine s args a
    r.2.cache.1.Once ∧
    (∀ names, r.2.cache.1.Tells names →
      archiveArgs engine args (a.direct names) = (r.1,r.2.direct names) ∧
      (∀ uid, uid ∈ r.2.cache.1.users.asked ↔ uid ∈ a.cache.1.users.asked ∨
        ∃ t ∈ argsAttempts engine args (a.direct names), t.header.isSome = true ∧
        t.call.st.uid = uid) ∧
      ∀ gid, gid ∈ r.2.cache.1.groups.asked ↔ gid ∈ a.cache.1.groups.asked ∨
        ∃ t ∈ argsAttempts engine args (a.direct names), t.header.isSome = true ∧
        t.call.st.gid = gid) ∧
    ∀ names, s.Steady names → a.cache.1.Tells names → r.2.cache.1.Tells names := by
  refine ⟨Subtype.prop _,fun names htells => ?_,fun names hs ha => cachingArgs_tells hs args ha⟩
  induction args generalizing a with
  | nil => exact ⟨rfl,by simp [cachingArgs,argsAttempts],by simp [cachingArgs,argsAttempts]⟩
  | cons arg args ih =>
    have hruns : FindRuns (cachingWorld engine s) a _ _ := bFind_runs
      (findFlags a.archiver.builder.options) arg.path arg.memberName arg.tree a
    obtain ⟨husers,hgroups⟩ := hruns.asked
    have hdirect := @cachingFind_direct μ engine s a arg names
    have hmore := @cachingArgs_before μ engine s args
    simp only [cachingArgs,archiveArgs,argsAttempts] at htells hdirect ⊢
    generalize bFind (cachingWorld engine s) (findFlags a.archiver.builder.options) arg.path
      arg.memberName arg.tree a = r at husers hgroups hdirect htells ⊢
    by_cases hneg : r.1 < 0
    · simp only [if_pos hneg] at htells ⊢
      obtain ⟨hret,hcalls,hworld⟩ := hdirect htells
      simp only [← hret,if_pos hneg,hworld,List.append_nil]
      exact ⟨rfl,fun uid => (husers uid).trans (or_congr_right (headed_alike hcalls (·.uid = uid)).symm),
        fun gid => (hgroups gid).trans (or_congr_right (headed_alike hcalls (·.gid = gid)).symm)⟩
    · simp only [if_neg hneg] at htells ⊢
      obtain ⟨hret,hcalls,hworld⟩ := hdirect (htells.of_before (hmore r.2.world))
      obtain ⟨hargs,husers',hgroups'⟩ := ih r.2.world htells
      simp only [← hret,if_neg hneg,hworld,List.mem_append,or_and_right,exists_or]
      refine ⟨hargs,fun uid => ?_,fun gid => ?_⟩
      · rw [husers' uid,husers uid,or_assoc,← headed_alike hcalls (·.uid = uid)]
      · rw [hgroups' gid,hgroups gid,or_assoc,← headed_alike hcalls (·.gid = gid)]

end

def lateService : NameService :=
  ⟨fun n _ => if n = 0 then none else some [114,111,111,116],fun _ _ => some [119,104,101,101,108]⟩

def cachingStart : CachingArchiver Unit :=
  ⟨builderSetHandle 4 false none ⟨[],[],[],.ok⟩ (newArchiver ⟨false,1⟩ 1
    ⟨true,false,false,false,false,false,false⟩ none ()),⟨.new,UserCache.once_new⟩⟩

/-- A directory and its file, both of user 0: the one call fails, and both have no user name. -/
theorem cachingArgs_direct_late : let r := cachingArgs noPatterns lateService [⟨[100],[100],oneFile⟩] cachingStart
    r.2.cache.1.users.asked = [0] ∧ r.2.cache.1.groups.asked = [0] ∧
      archiveArgs noPatterns [⟨[100],[100],oneFile⟩] (cachingStart.direct ⟨fun _ => none,fun _ =>
        some [119,104,101,101,108]⟩) = (r.1,r.2.direct ⟨fun _ => none,fun _ => some [119,104,101,101,108]⟩) := by
  have husers : (cachingArgs noPatterns lateService [⟨[100],[100],oneFile⟩] cachingStart).2.cache.1.users =
      ⟨[(0,none)],[0]⟩ := by decide +kernel
  have hgroups : (cachingArgs noPatterns lateService [⟨[100],[100],oneFile⟩] cachingStart).2.cache.1.groups =
      ⟨[(0,some [119,104,101,101,108])],[0]⟩ := by decide +kernel
  refine ⟨congrArg Memo.asked husers,congrArg Memo.asked hgroups,
    ((cachingArgs_direct [⟨[100],[100],oneFile⟩] cachingStart).2.1 _ ⟨?_,?_⟩).1⟩
  · rw [husers]
    simp [Memo.Tells]
  · rw [hgroups]
    simp [Memo.Tells]

end ArchiveTarBuilder
