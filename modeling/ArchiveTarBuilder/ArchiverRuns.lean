import ArchiveTarBuilder.Traversal
import ArchiveTarBuilder.MemberStream

/-! Runs of an archiver's methods. All that a traversal does to the builder is to report warnings
and to write members; a run goes on behind a method that dies. -/
namespace ArchiveTarBuilder
open Region CString Output

section
variable {σ : Type*} (w : FindWorld σ)

/-- What `b_find` can do to the world, with the calls it makes on the way. -/
inductive FindRuns (s : σ) : List (FindCall σ) → σ → Prop
  | idle : FindRuns s [] s
  | exclude {calls : List (FindCall σ)} {t : σ} (h : FindRuns s calls t) (path : Bytes) :
      FindRuns s calls (w.excluded t path).2
  | report {calls : List (FindCall σ)} {t : σ} (h : FindRuns s calls t) (e : Errno)
      (message : String) (path : Bytes) : FindRuns s calls (w.setError t .warn e message path)
  | fail {calls : List (FindCall σ)} {t : σ} (h : FindRuns s calls t) (e : Errno) :
      FindRuns s calls (w.setErrno t e)
  | call {calls : List (FindCall σ)} {t : σ} (h : FindRuns s calls t) (path memberName : Bytes)
      (st : Stat) (fd : ℤ) (src : Source) : FindRuns s
        (calls ++ [⟨t,path,memberName,st,fd,src,(w.callback t path memberName st fd src).1⟩])
        (w.callback t path memberName st fd src).2

variable {w}

theorem FindRuns.trans {s t u : σ} {calls calls' : List (FindCall σ)} (h : FindRuns w s calls t)
    (h' : FindRuns w t calls' u) : FindRuns w s (calls ++ calls') u := by
  induction h' with
  | idle => simpa using h
  | exclude h' path ih => exact ih.exclude path
  | report h' e message path ih => exact ih.report e message path
  | fail h' e ih => exact ih.fail e
  | call h' path memberName st fd src ih =>
    rw [← List.append_assoc]
    exact ih.call path memberName st fd src

variable (flags : FindFlags) (root rootMember : Bytes)

theorem findOpen_runs (s : σ) (path : Bytes) (probe : Probe) :
    FindRuns w s [] (findOpen w flags s path probe).2 := by
  unfold findOpen
  repeat' split
  all_goals first | exact .idle | exact FindRuns.idle.report _ _ _ | exact FindRuns.idle.fail _

theorem findItem_runs (s : σ) (path name : Bytes) (probe : Probe) :
    FindRuns w s (findItem w flags root rootMember path name probe s).2.1
      (findItem w flags root rootMember path name probe s).2.2 := by
  unfold findItem
  split
  · exact .idle
  · have hexcluded : FindRuns w s [] (w.excluded s path).2 := FindRuns.idle.exclude path
    simp only
    split
    · exact hexcluded
    · have hopen := hexcluded.trans (findOpen_runs flags (w.excluded s path).2 path probe)
      rw [List.append_nil] at hopen
      split
      · rename_i heq
        rwa [heq] at hopen
      · rename_i st fd t heq
        rw [heq] at hopen
        have hcall := hopen.call path ((substMemberName root rootMember path).getD path) st fd
          probe.source
        rw [List.nil_append] at hcall
        repeat' split
        all_goals first | exact hcall | exact hcall.report _ _ _

theorem findStep_runs {s : FindState σ} {start : σ} (h : FindRuns w start s.trace s.world) :
    match findStep w flags root rootMember s with
    | .inl t => FindRuns w start t.trace t.world
    | .inr r => FindRuns w start r.2.trace r.2.world := by
  obtain ⟨world,dirs,trace⟩ := s
  cases dirs with
  | nil => exact h
  | cons top dirs =>
    obtain ⟨dir,listing⟩ := top
    cases listing with
    | eof => exact h
    | failed e => exact h
    | entry name probe sub rest =>
      have hitem := h.trans
        (findItem_runs flags root rootMember world (bDirItemPath dir name) name probe)
      simp only [findStep]
      generalize findItem w flags root rootMember (bDirItemPath dir name) name probe world = r
        at hitem ⊢
      obtain ⟨ending,calls,world'⟩ := r
      cases ending with
      | cleanup => exact hitem
      | descend => exact hitem
      | errorItem => exact hitem

theorem findLoop_runs {s : FindState σ} {start : σ} (h : FindRuns w start s.trace s.world) :
    FindRuns w start (findLoop w flags root rootMember s).2.trace
      (findLoop w flags root rootMember s).2.world := by
  induction s using findLoop.induct w flags root rootMember with
  | case1 s t hstep ih =>
    have hone := findStep_runs flags root rootMember h
    rw [hstep] at hone
    rw [findLoop_step w flags root rootMember hstep]
    exact ih hone
  | case2 s r hstep =>
    have hone := findStep_runs flags root rootMember h
    rw [hstep] at hone
    rw [findLoop_end w flags root rootMember hstep]
    exact hone

theorem bFind_runs (path memberName : Bytes) (tree : Tree) (s : σ) :
    FindRuns w s (bFind w flags path memberName tree s).2.trace
      (bFind w flags path memberName tree s).2.world := by
  unfold bFind
  simp only
  split
  · exact FindRuns.idle.fail _
  · rename_i st hstat
    split
    · exact FindRuns.idle.fail _
    · rename_i fd hopened
      have hcall := FindRuns.idle.call (w := w) (s := s) (bPathClean path) (bPathClean memberName) st fd
        tree.probe.source
      rw [List.nil_append] at hcall
      split_ifs
      · exact hcall
      · exact hcall
      · exact hcall
      · split
        · exact hcall.report _ _ _
        · exact findLoop_runs flags _ _ hcall

end

/-- What a part of `b_builder_write_file` leaves alone in any state: all but the output, the total
and the error record, on which it reports one error at most, and only when it fails. -/
structure Keeps (b : BBuilder) (r : Bool × BBuilder) : Prop where
  rest : r.2 = { b with out := r.2.out, total := r.2.total, err := r.2.err }
  ok : r.1 = true → r.2.err = b.err
  err : r.2.err = b.err ∨ ∃ type e message path, r.2.err = bErrorSet b.err type e message path

theorem Keeps.silent (b : BBuilder) (ret : Bool) (out : Output) (total : ℕ) :
    Keeps b (ret,{ b with out := out, total := total }) := ⟨rfl,fun _ => rfl,Or.inl rfl⟩

theorem Keeps.failed (b : BBuilder) (out : Output) (total : ℕ) (type : BErrorType) (e : Errno)
    (message : String) (path : Bytes) : Keeps b
      (false,{ b with out := out, total := total, err := bErrorSet b.err type e message path }) :=
  ⟨rfl,fun h => (Bool.false_ne_true h).elim,Or.inr ⟨type,e,message,path,rfl⟩⟩

theorem Keeps.trans {b : BBuilder} {r r' : Bool × BBuilder} (h : Keeps b r) (hr : r.1 = true)
    (h' : Keeps r.2 r') : Keeps b r' := by
  have herr := h.ok hr
  refine ⟨?_,fun hr' => (h'.ok hr').trans herr,?_⟩
  · rw [h'.rest,h.rest]
  · rw [← herr]
    exact h'.err

theorem encodeLonglink_keeps (b : BBuilder) (off : ℕ) (path : Bytes) (type : UInt8) (wrlen : ℕ) :
    Keeps b ((encodeLonglink b off path type wrlen).1.isSome,
      (encodeLonglink b off path type wrlen).2) := by
  unfold encodeLonglink
  simp only
  split
  · exact .failed b _ _ _ _ _ _
  · exact .silent b _ _ _

theorem writeGnuRecords_keeps (b : BBuilder) (header : BHeader) (longPath : Bytes) (off wrlen : ℕ) :
    Keeps b (writeGnuRecords b header longPath off wrlen) := by
  have hfirst : Keeps b ((if header.truncated then
      encodeLonglink b off longPath bHeaderLonglinkType wrlen else (some wrlen,b)).1.isSome,
      (if header.truncated then
        encodeLonglink b off longPath bHeaderLonglinkType wrlen else (some wrlen,b)).2) := by
    split
    · exact encodeLonglink_keeps b off longPath bHeaderLonglinkType wrlen
    · exact .silent b true b.out b.total
  unfold writeGnuRecords
  simp only
  split
  · rename_i heq
    rw [heq] at hfirst
    exact hfirst
  · rename_i n b' heq
    rw [heq] at hfirst
    split
    · exact hfirst
    · rename_i dest hdest
      split
      · exact hfirst.trans rfl (encodeLonglink_keeps b' off dest bHeaderLongdestType n)
      · exact hfirst

theorem writeLongRecords_keeps (b : BBuilder) (header : BHeader) (memberName : Bytes) (st : Stat) :
    Keeps b (writeLongRecords b header memberName st) := by
  unfold writeLongRecords
  split
  · split
    · exact .failed b _ _ _ _ _ _
    · split
      · exact .silent b _ _ _
      · rename_i off wrlen out hget
        have hblock : Keeps b (true,{ b with out := out }) := .silent b true out b.total
        simp only
        split
        · exact hblock.trans rfl (writeGnuRecords_keeps _ header _ off wrlen)
        · refine hblock.trans rfl ?_
          unfold writePaxRecords
          simp only
          split
          · exact .failed _ _ _ _ _ _ _
          · exact .silent _ _ _ _
  · exact .silent b true b.out b.total

theorem writeMember_keeps (b : BBuilder) (header : BHeader) (path memberName : Bytes) (st : Stat)
    (fd : ℤ) (file : File) : Keeps b (writeMember b header path memberName st fd file) := by
  have hand {r : Bool × BBuilder} {next : BBuilder → Bool × BBuilder} (h : Keeps b r)
      (hnext : ∀ b', Keeps b' (next b')) : Keeps b (andWrite r next) := by
    unfold andWrite
    split
    · exact h.trans ‹_› (hnext _)
    · exact h
  refine hand (hand (writeLongRecords_keeps b header memberName st) fun b' => ?_) fun b' => ?_
  · unfold writeHeader
    split
    · exact .silent b' _ _ _
    · exact .silent b' _ _ _
  · rw [writeContents_eq]
    split
    · exact .failed b' _ _ _ _ _ _
    · exact .silent b' _ _ _

/-- A call clears the error record and reports one error on it at most; it leaves the cache that
its header leaves. -/
theorem bBuilderWriteFile_keeps (b : BBuilder) (path memberName : Bytes) (st : Stat) (fd : ℤ)
    (src : Source) : Keeps (memberStart b src memberName st)
      (bBuilderWriteFile b path memberName st fd src) := by
  unfold bBuilderWriteFile memberStart
  simp only
  split
  · rename_i errno cache hheader
    rw [hheader]
    exact .failed { b with err := bErrorClear b.err, hardlinkCache := cache } _ _ _ _ _ _
  · rename_i header cache hheader
    rw [hheader]
    unfold lookupUser
    simp only
    split
    · rename_i hlookup
      split at hlookup
      · cases hlookup
      · split at hlookup
        · cases hlookup
          exact .failed { b with err := bErrorClear b.err, hardlinkCache := cache } _ _ _ _ _ _
        · cases hlookup
    · rename_i header' b' hlookup
      split at hlookup
      · cases hlookup
        exact writeMember_keeps _ _ _ _ _ _ _
      · split at hlookup
        · cases hlookup
        · cases hlookup
          exact writeMember_keeps _ _ _ _ _ _ _

/-- One call of `b_builder_write_file` and the builder it was made on. -/
structure Attempt where
  builder : BBuilder
  call : MemberCall

namespace Attempt

def returned (t : Attempt) : Bool := (t.call.write t.builder).1

def after (t : Attempt) : BBuilder := (t.call.write t.builder).2

def header (t : Attempt) : Option BHeader :=
  memberHeader t.builder.userLookup t.builder.hardlinkCache t.call.src t.call.memberName t.call.st

def records (t : Attempt) (header : BHeader) : Option Bytes :=
  extensionRecords t.builder.process t.builder.options header
    (longlinkPath t.call.memberName t.call.st)

end Attempt

def FindCall.attempt {μ : Type*} (c : FindCall (Archiver μ)) : Attempt :=
  ⟨c.world.builder,⟨c.path,c.memberName,c.st,c.fd,c.source⟩⟩

inductive Works (b : BBuilder) : List Attempt → BBuilder → Prop
  | idle : Works b [] b
  | report {attempts : List Attempt} {b' : BBuilder} (h : Works b attempts b') (e : Errno)
      (message : String) (path : Bytes) :
      Works b attempts { b' with err := bErrorSet b'.err .warn e message path }
  | fail {attempts : List Attempt} {b' : BBuilder} (h : Works b attempts b') (e : Errno) :
      Works b attempts (b'.setErrno e)
  | write {attempts : List Attempt} {b' : BBuilder} (h : Works b attempts b') (c : MemberCall) :
      Works b (attempts ++ [⟨b',c⟩]) (c.write b').2

theorem Works.trans {b b' b'' : BBuilder} {ts us : List Attempt} (h : Works b ts b')
    (h' : Works b' us b'') : Works b (ts ++ us) b'' := by
  induction h' with
  | idle => simpa using h
  | report h' e message path ih => exact ih.report e message path
  | fail h' e ih => exact ih.fail e
  | write h' c ih =>
    rw [← List.append_assoc]
    exact ih.write c

section
variable {μ : Type*} {engine : MatchEngine μ}

theorem FindRuns.works {a a' : Archiver μ} {calls : List (FindCall (Archiver μ))}
    (h : FindRuns (builderWorld engine) a calls a') :
    Works a.builder (calls.map FindCall.attempt) a'.builder := by
  induction h with
  | idle => exact .idle
  | exclude h path ih => exact ih
  | report h e message path ih => exact (ih.fail e).report e message path
  | fail h e ih => exact ih.fail e
  | call h path memberName st fd src ih =>
    rw [List.map_append]
    exact ih.write ⟨path,memberName,st,fd,src⟩

/-- A method call on an archiver. -/
inductive Method
  | archive (files : List (Bytes × Tree))
  | archiveAs (args : List ArchiveArg)
  | setHandle (fd : ℤ) (fifo : Bool) (release : Option (ℕ × ℕ × ℕ)) (sys : Sys)
  | flush
  | finish

def died {α : Type*} : Except Croak α → Option Croak
  | .error e => some e
  | .ok _ => none

variable (engine)

/-- The calls of `archiveArgs`, up to the argument on which it dies. -/
def argsAttempts : List ArchiveArg → Archiver μ → List Attempt
  | [], _ => []
  | arg::args, a =>
    let r := archiveFind engine a arg
    r.2.trace.map FindCall.attempt ++ if r.1 < 0 then [] else argsAttempts args r.2.world

def archiveAsAttempts (args : List ArchiveArg) (a : Archiver μ) : List Attempt :=
  if a.builder.out.buf.fd = 0 then [] else argsAttempts engine args a

namespace Method

def perform : Method → Archiver μ → Option Croak × Archiver μ
  | archive files, a => let r := builderArchive engine files a; (died r.1,r.2)
  | archiveAs args, a => let r := builderArchiveAs engine args a; (died r.1,r.2)
  | setHandle fd fifo release sys, a => (none,builderSetHandle fd fifo release sys a)
  | flush, a => let r := builderFlush a; (died r.1,r.2)
  | finish, a => let r := builderFinish a; (died r.1,r.2)

def attempts : Method → Archiver μ → List Attempt
  | archive files, a =>
    archiveAsAttempts engine (files.map fun file => ⟨file.1,file.1,file.2⟩) a
  | archiveAs args, a => archiveAsAttempts engine args a
  | _, _ => []

def archives : Method → Bool
  | archive _ => true
  | archiveAs _ => true
  | _ => false

def starts : Method → Bool
  | setHandle _ _ _ _ => true
  | finish => true
  | _ => false

end Method

def BBuilder.flushed (b : BBuilder) : BBuilder := { b with out := (bBufferFlush b.out).2 }

inductive Performs (b : BBuilder) : Method → List Attempt → BBuilder → Prop
  | archives {m : Method} {attempts : List Attempt} {b' : BBuilder} (hm : m.archives = true)
      (hfd : b.out.buf.fd ≠ 0) (h : Works b attempts b') : Performs b m attempts b'
  | handle (fd : ℤ) (fifo : Bool) (release : Option (ℕ × ℕ × ℕ)) (sys : Sys) :
      Performs b (.setHandle fd fifo release sys) []
        { b with out := ⟨bBufferSetFd b.out.buf fd fifo release,sys⟩ }
  | unset {m : Method} (hfd : b.out.buf.fd = 0) : Performs b m [] b
  | flushed {m : Method} (hm : m = .flush ∨ m = .finish) (hfd : b.out.buf.fd ≠ 0) :
      Performs b m [] b.flushed
  | finished (hfd : b.out.buf.fd ≠ 0) (hret : 0 ≤ (bBufferFlush b.out).1)
      (hwarn : (bErrorWarn b.err && !b.options.ignoreErrors) = false) :
      Performs b .finish [] { b.flushed with err := bErrorReset b.err }

theorem Method.starts_of_archives {m : Method} (h : m.archives = true) : m.starts = false := by
  cases m with
  | archive files => rfl
  | archiveAs args => rfl
  | setHandle fd fifo release sys => cases h
  | flush => cases h
  | finish => cases h

theorem Performs.works {b b' : BBuilder} {m : Method} {ts : List Attempt} (h : Performs b m ts b')
    (hm : m.archives = true) : Works b ts b' := by
  cases h with
  | archives _ hfd h => exact h
  | handle fd fifo release sys => cases hm
  | unset hfd => exact .idle
  | flushed hor hfd => rcases hor with rfl | rfl <;> cases hm
  | finished hfd hret hwarn => cases hm

theorem archiveArgs_works (args : List ArchiveArg) (a : Archiver μ) :
    Works a.builder (argsAttempts engine args a) (archiveArgs engine args a).2.builder := by
  induction args generalizing a with
  | nil => exact .idle
  | cons arg args ih =>
    have hfind : Works a.builder _ (archiveFind engine a arg).2.world.builder :=
      (bFind_runs _ arg.path arg.memberName arg.tree a).works
    simp only [argsAttempts,archiveArgs]
    split
    · rw [List.append_nil]
      exact hfind
    · exact hfind.trans (ih _)

theorem builderArchiveAs_performs {m : Method} (hm : m.archives = true) (args : List ArchiveArg)
    (a : Archiver μ) : Performs a.builder m (archiveAsAttempts engine args a)
      (builderArchiveAs engine args a).2.builder := by
  unfold archiveAsAttempts builderArchiveAs
  split
  · exact .unset ‹_›
  · exact .archives hm ‹_› (archiveArgs_works engine args a)

theorem Method.perform_performs (m : Method) (a : Archiver μ) :
    Performs a.builder m (m.attempts engine a) (m.perform engine a).2.builder := by
  cases m with
  | archive files =>
    have hperforms := builderArchiveAs_performs engine (m := .archive files) rfl
      (files.map fun file => ⟨file.1,file.1,file.2⟩) a
    simp only [perform,attempts,builderArchive]
    split
    · rename_i hnil
      obtain rfl := List.isEmpty_iff.mp hnil
      simpa [archiveAsAttempts,argsAttempts,builderArchiveAs,archiveArgs,apply_ite] using hperforms
    · exact hperforms
  | archiveAs args => exact builderArchiveAs_performs engine rfl args a
  | setHandle fd fifo release sys => exact .handle fd fifo release sys
  | flush =>
    simp only [perform,attempts,builderFlush]
    split
    · exact .unset ‹_›
    · split
      · exact .flushed (Or.inl rfl) ‹_›
      · exact .flushed (Or.inl rfl) ‹_›
  | finish =>
    simp only [perform,attempts,builderFinish]
    split
    · exact .unset ‹_›
    · rename_i hfd
      split
      · exact .flushed (Or.inr rfl) hfd
      · rename_i hret
        split
        · exact .flushed (Or.inr rfl) hfd
        · rename_i hwarn
          exact .finished hfd (not_lt.mp hret) (by simpa [Archiver.setOut] using hwarn)

def newArchiver (p : Process) (blockFactor : ℕ) (options : BBuilderOptions)
    (userLookup : Option BUserLookup) (matching : μ) : Archiver μ :=
  ⟨bBuilderNew p blockFactor ⟨[],[],[],.ok⟩ options userLookup,matching⟩

/-- An archiver in a run. The rest is a ghost: the calls so far for the current archive, and those
for the archives before it. -/
structure Run (μ : Type*) where
  archiver : Archiver μ
  attempts : List Attempt
  earlier : List (List Attempt)

def Run.archives (r : Run μ) : List (List Attempt) := r.attempts::r.earlier

def Run.after (r : Run μ) (m : Method) : Run μ :=
  let attempts := r.attempts ++ m.attempts engine r.archiver
  { archiver := (m.perform engine r.archiver).2
    attempts := if m.starts then [] else attempts
    earlier := if m.starts then attempts::r.earlier else r.earlier }

def runMethods (ms : List Method) (a : Archiver μ) : Run μ := ms.foldl (Run.after engine) ⟨a,[],[]⟩

theorem runMethods_invariant {P : BBuilder → List Attempt → List (List Attempt) → Prop}
    (ms : List Method) {a : Archiver μ} (h : P a.builder [] [])
    (hstep : ∀ m ∈ ms, ∀ b ts earlier us b', P b ts earlier → Performs b m us b' →
      P b' (if m.starts then [] else ts ++ us) (if m.starts then (ts ++ us)::earlier else earlier)) :
    P (runMethods engine ms a).archiver.builder (runMethods engine ms a).attempts
      (runMethods engine ms a).earlier := by
  suffices hall : ∀ r : Run μ, P r.archiver.builder r.attempts r.earlier →
      P (ms.foldl (Run.after engine) r).archiver.builder (ms.foldl (Run.after engine) r).attempts
        (ms.foldl (Run.after engine) r).earlier from
    hall ⟨a,[],[]⟩ h
  clear h
  induction ms with
  | nil => exact fun r h => h
  | cons m ms ih =>
    intro r h
    exact ih (fun m' hm => hstep m' (by simp [hm])) (r.after engine m)
      (hstep m (by simp) _ _ _ _ _ h (m.perform_performs engine r.archiver))

/-- What every call of a traversal keeps, the traversal keeps. `Good` are the calls that keep it. -/
theorem Works.keeps {Good : Attempt → Prop} {R : BBuilder → BBuilder → Prop} (hrefl : ∀ b, R b b)
    (htrans : ∀ b b' b'', R b b' → R b' b'' → R b b'')
    (hreport : ∀ (b : BBuilder) e err, R b { b.setErrno e with err := err })
    (hwrite : ∀ t : Attempt, t.builder.out.Ready → Good t → t.after.out.Ready ∧ R t.builder t.after)
    {b b' : BBuilder} {ts : List Attempt} (h : Works b ts b') (hb : b.out.Ready)
    (hgood : ∀ t ∈ ts, Good t) : b'.out.Ready ∧ R b b' := by
  induction h with
  | idle => exact ⟨hb,hrefl b⟩
  | report h e message path ih =>
    obtain ⟨hready,hkeeps⟩ := ih hgood
    exact ⟨hready,htrans _ _ _ hkeeps (hreport _ _ _)⟩
  | @fail ts b' h e ih =>
    obtain ⟨hready,hkeeps⟩ := ih hgood
    exact ⟨hready.setErrno e,htrans _ _ _ hkeeps (hreport b' e b'.err)⟩
  | @write ts b' h c ih =>
    obtain ⟨hready,hkeeps⟩ := ih fun t ht => hgood t (by simp [ht])
    obtain ⟨hready',hkeeps'⟩ := hwrite ⟨b',c⟩ hready (hgood ⟨b',c⟩ (by simp))
    exact ⟨hready',htrans _ _ _ hkeeps hkeeps'⟩

theorem runMethods_keeps {Good : Attempt → Prop} {R : BBuilder → BBuilder → Prop}
    (hrefl : ∀ b, R b b) (htrans : ∀ b b' b'', R b b' → R b' b'' → R b b'')
    (hreport : ∀ (b : BBuilder) e err, R b { b.setErrno e with err := err })
    (hwrite : ∀ t : Attempt, t.builder.out.Ready → Good t → t.after.out.Ready ∧ R t.builder t.after)
    (ms : List Method) (hms : ∀ m ∈ ms, m.archives = true) {start : Archiver μ}
    (hready : start.builder.out.Ready)
    (hgood : ∀ t ∈ (runMethods engine ms start).attempts, Good t) :
    (runMethods engine ms start).archiver.builder.out.Ready ∧
      R start.builder (runMethods engine ms start).archiver.builder := by
  refine runMethods_invariant engine (P := fun b ts _ => (∀ t ∈ ts, Good t) →
    b.out.Ready ∧ R start.builder b) ms (fun _ => ⟨hready,hrefl _⟩) ?_ hgood
  intro m hm b ts _ us b' hb hperforms
  rw [Method.starts_of_archives (hms m hm),if_neg Bool.false_ne_true]
  intro hgood
  obtain ⟨hbready,hkeeps⟩ := hb fun t ht => hgood t (by simp [ht])
  obtain ⟨hready',hkeeps'⟩ := (hperforms.works (hms m hm)).keeps hrefl htrans hreport hwrite hbready
    fun t ht => hgood t (by simp [ht])
  exact ⟨hready',htrans _ _ _ hkeeps hkeeps'⟩

end

def Probe.answering (st : Stat) (fd : ℤ) (src : Source) : Probe :=
  ⟨.ok fd,.ok (),.ok st,.ok st,.ok st,.ok (),src⟩

def noPatterns : MatchEngine Unit := ⟨fun _ _ => (false,())⟩

end ArchiveTarBuilder
