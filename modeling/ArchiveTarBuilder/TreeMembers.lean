import ArchiveTarBuilder.Archivable
import ArchiveTarBuilder.Visits
import ArchiveTarBuilder.PatternSelection

/-! Whole trees in an archive. When every system call succeeds, the members that a reader finds
behind `finish` are those of the trees, in the order of the traversals and nothing else. -/
namespace ArchiveTarBuilder
open Region CString Output

def firstName (before : List MemberCall) (st : Stat) : Option Bytes :=
  (before.find? fun c => isHardlink c.st && decide ((st.dev,st.ino) = (c.st.dev,c.st.ino))).map
    MemberCall.memberName

/-- The member that a reader finds for a call behind others: the object itself, or a link to the
first name of its inode if hard links are preserved. -/
def MemberOf (options : BBuilderOptions) (before : List MemberCall) (c : MemberCall)
    (m : TarMember) : Prop :=
  match if options.preserveHardlinks && isHardlink c.st then firstName before c.st else none with
  | none => ReadsAs c m
  | some first => m.type = 49 ∧ m.contents = [] ∧ m.target = first ∧
      components m.name = components c.memberName

/-- One such member for each call, in their order. -/
def MembersOf (options : BBuilderOptions) : List MemberCall → List MemberCall → List TarMember → Prop
  | _, [], [] => True
  | before, c::cs, m::ms => MemberOf options before c m ∧ MembersOf options (before ++ [c]) cs ms
  | _, _, _ => False

theorem MembersOf.append {options : BBuilderOptions} {before cs cs' : List MemberCall}
    {ms ms' : List TarMember} (h : MembersOf options before cs ms)
    (h' : MembersOf options (before ++ cs) cs' ms') :
    MembersOf options before (cs ++ cs') (ms ++ ms') := by
  induction cs generalizing before ms with
  | nil =>
    cases ms with
    | nil => simpa using h'
    | cons m ms => exact h.elim
  | cons c cs ih =>
    cases ms with
    | nil => exact h.elim
    | cons m ms => exact ⟨h.1,ih h.2 (by simpa using h')⟩

/-- The cache of a builder behind some calls: the first name of every inode, if hard links are
preserved. -/
structure CacheBehind (options : BBuilderOptions) (before : List MemberCall)
    (cache : Option HardlinkCache) : Prop where
  kept : cache.isSome = options.preserveHardlinks
  first : ∀ entries ∈ cache, ∀ st : Stat, List.lookup (st.dev,st.ino) entries = firstName before st

theorem CacheBehind.knownAs {options : BBuilderOptions} {before : List MemberCall}
    {cache : Option HardlinkCache} (h : CacheBehind options before cache) (st : Stat) :
    ArchiveTarBuilder.knownAs cache st =
      if options.preserveHardlinks && isHardlink st then firstName before st else none := by
  unfold ArchiveTarBuilder.knownAs
  rw [← h.kept]
  cases cache with
  | none => simp
  | some entries =>
    have hfirst := h.first entries rfl st
    by_cases hhard : isHardlink st = true
    · simp [hhard,hfirst]
    · simp [hhard]

theorem firstName_snoc (before : List MemberCall) (c : MemberCall) (st : Stat) :
    firstName (before ++ [c]) st = (firstName before st).or
      (if isHardlink c.st = true ∧ (st.dev,st.ino) = (c.st.dev,c.st.ino) then some c.memberName
        else none) := by
  unfold firstName
  rw [List.find?_append,Option.map_or,List.find?_singleton]
  congr 1
  by_cases hsame : isHardlink c.st = true ∧ (st.dev,st.ino) = (c.st.dev,c.st.ino)
  · rw [if_pos hsame,if_pos (by rw [hsame.1,decide_eq_true hsame.2]; rfl)]
    rfl
  · rw [if_neg hsame,if_neg (by simpa only [Bool.and_eq_true,decide_eq_true_eq] using hsame)]
    rfl

theorem CacheBehind.after {options : BBuilderOptions} {before : List MemberCall}
    {cache : Option HardlinkCache} (h : CacheBehind options before cache) {c : MemberCall}
    (hnamed : bPathNew c.memberName ≠ []) : CacheBehind options (before ++ [c]) (c.cacheAfter cache) := by
  obtain ⟨d,hd⟩ : ∃ d, pathSplit c.memberName c.st = some d := ⟨_,if_neg hnamed⟩
  by_cases hhard : isHardlink c.st = true
  · have hne : c.st.ifmt ≠ sIflnk := by rw [Attempt.isHardlink_ifmt hhard]; decide
    cases cache with
    | none =>
      have hafter : c.cacheAfter none = none := headerForFile_noCache _ _ _
      rw [hafter]
      exact ⟨h.kept,by simp⟩
    | some entries =>
      have hfirst := h.first entries rfl
      have hafter : c.cacheAfter (some entries) =
          some (entries.lookupPath c.st.dev c.st.ino c.memberName).2 := by
        simp only [MemberCall.cacheAfter,headerForFile,hd,if_neg hne,if_pos hhard]
        cases hr : entries.lookupPath c.st.dev c.st.ino c.memberName with
        | mk r entries' => cases r <;> rfl
      rw [hafter]
      refine ⟨h.kept,fun entries' hentries st => ?_⟩
      obtain rfl := Option.some.inj hentries
      rw [firstName_snoc,← hfirst st]
      cases hlookup : List.lookup (c.st.dev,c.st.ino) entries with
      | some first =>
        rw [HardlinkCache.lookupPath,hlookup]
        by_cases hsame : (st.dev,st.ino) = (c.st.dev,c.st.ino)
        · rw [hsame,hlookup]
          rfl
        · rw [if_neg (fun hand => hsame hand.2),Option.or_none]
      | none =>
        rw [HardlinkCache.lookupPath,hlookup,List.lookup_cons]
        by_cases hsame : (st.dev,st.ino) = (c.st.dev,c.st.ino)
        · rw [if_pos ⟨hhard,hsame⟩,hsame,hlookup,beq_self_eq_true]
          rfl
        · rw [if_neg (fun hand => hsame hand.2),Option.or_none,beq_false_of_ne hsame]
  · have hafter : c.cacheAfter cache = cache :=
      (c.cacheAfter_cases cache).resolve_right (by rintro ⟨entries,-,hh,-⟩; exact hhard hh)
    rw [hafter]
    refine ⟨h.kept,fun entries hentries st => ?_⟩
    rw [firstName_snoc,if_neg (fun hand => hhard hand.1),Option.or_none,h.first entries hentries st]

theorem Works.membersOf {b b' : BBuilder} {ts : List Attempt} (h : Works b ts b')
    {options : BBuilderOptions}
    (hgood : ∀ t ∈ ts, t.builder.Steady ∧ t.builder.options = options ∧ t.call.Archivable options)
    {before : List MemberCall} (hcache : CacheBehind options before b.hardlinkCache) :
    MembersOf options before (ts.map Attempt.call) (written ts) ∧
      CacheBehind options (before ++ ts.map Attempt.call) b'.hardlinkCache := by
  induction h with
  | idle => exact ⟨trivial,by simpa using hcache⟩
  | report h e message path ih => exact ih hgood
  | fail h e ih => exact ih hgood
  | @write ts b' h c ih =>
    obtain ⟨hsteady,hoptions,hc⟩ := hgood ⟨b',c⟩ (by simp)
    obtain ⟨hmembers,hbehind⟩ := ih fun t ht => hgood t (by simp [ht])
    obtain ⟨m,hm,hreads⟩ := Attempt.member_readsIn hsteady (hoptions ▸ hc)
    have hone : written [⟨b',c⟩] = [m] := by simp [written,hm]
    rw [written_append,hone,List.map_append]
    refine ⟨hmembers.append ⟨?_,trivial⟩,?_⟩
    · unfold MemberOf
      rw [← hbehind.knownAs]
      exact hreads
    · have hafter := hbehind.after (c := c) hc.named
      have hcached : (c.write b').2.hardlinkCache = c.cacheAfter b'.hardlinkCache :=
        Attempt.after_cache ⟨b',c⟩
      rwa [hcached,← List.append_assoc]

structure MatchEngine.Decides {μ : Type*} (engine : MatchEngine μ) (fixed : μ → Prop)
    (verdict : Bytes → Bool) : Prop where
  test : ∀ m path, fixed m → (engine.excluded m path).1 = verdict path
  excluded : ∀ m path, fixed m → fixed (engine.excluded m path).2

/-- An archiver in order, with these options and such patterns. -/
structure Archiver.Steady {μ : Type*} (options : BBuilderOptions) (fixed : μ → Prop)
    (a : Archiver μ) : Prop where
  builder : a.builder.Steady
  options : a.builder.options = options
  matching : fixed a.matching

section
variable {μ : Type*} {engine : MatchEngine μ} {fixed : μ → Prop} {verdict : Bytes → Bool}
  (hengine : engine.Decides fixed verdict) {options : BBuilderOptions}
include hengine

theorem builderWorld_serves : (builderWorld engine).Serves verdict (MemberCall.Archivable options)
    (Archiver.Steady options fixed) where
  test s path hs := hengine.test s.matching path hs.matching
  excluded s path hs := ⟨hs.builder,hs.options,hengine.excluded s.matching path hs.matching⟩
  setErrno s e hs :=
    ⟨{ hs.builder with ready := hs.builder.ready.setErrno e },hs.options,hs.matching⟩
  callback s c hs hc := by
    obtain ⟨hreturned,hafter,hoptions⟩ := Attempt.steady_after (t := ⟨s.builder,c⟩) hs.builder
      (hs.options.symm ▸ hc)
    have hcall : (bBuilderWriteFile s.builder c.path c.memberName c.st c.fd c.src).1 = true := hreturned
    simp only [builderWorld,hcall,if_true]
    exact ⟨by decide,hafter,hoptions.trans hs.options,hs.matching⟩

def ArchiveArg.visits (options : BBuilderOptions) (verdict : Bytes → Bool) (arg : ArchiveArg) :
    List MemberCall := arg.tree.visits (findFlags options) verdict arg.path arg.memberName

/-- Whether its tree can be walked through. -/
def ArchiveArg.Served (options : BBuilderOptions) (verdict : Bytes → Bool) (arg : ArchiveArg) : Prop :=
  arg.tree.Served (findFlags options) verdict arg.path

structure Attempts (options : BBuilderOptions) (calls : List MemberCall) (ts : List Attempt) : Prop where
  calls : ts.map Attempt.call = calls
  good : ∀ t ∈ ts, t.builder.Steady ∧ t.builder.options = options ∧ t.call.Archivable options

omit hengine in
theorem Attempts.append {calls calls' : List MemberCall} {ts us : List Attempt}
    (h : Attempts options calls ts) (h' : Attempts options calls' us) :
    Attempts options (calls ++ calls') (ts ++ us) :=
  ⟨by rw [List.map_append,h.calls,h'.calls],List.forall_mem_append.mpr ⟨h.good,h'.good⟩⟩

theorem archiveArgs_attempts (args : List ArchiveArg) {a : Archiver μ} (ha : a.Steady options fixed)
    (hserved : ∀ arg ∈ args, arg.Served options verdict)
    (hgood : ∀ arg ∈ args, ∀ c ∈ arg.visits options verdict, c.Archivable options) :
    died (archiveArgs engine args a).1 = none ∧ (archiveArgs engine args a).2.Steady options fixed ∧
      Attempts options (args.flatMap (ArchiveArg.visits options verdict)) (argsAttempts engine args a) := by
  induction args generalizing a with
  | nil => exact ⟨rfl,ha,rfl,by simp [argsAttempts]⟩
  | cons arg args ih =>
    have hvisited : ∀ c ∈ arg.tree.visits (findFlags options) verdict arg.path arg.memberName,
        c.Archivable options := hgood arg (by simp)
    obtain ⟨s,hfind,hs,hall,hcalls⟩ := bFind_visits (builderWorld_serves hengine) ha
      (hserved arg (by simp)) hvisited
    have harchive : archiveFind engine a arg = (0,s) := by
      rw [archiveFind,ha.options]
      exact hfind
    obtain ⟨hdied,hsteady,hmore⟩ := ih hs (fun x hx => hserved x (by simp [hx]))
      fun x hx => hgood x (by simp [hx])
    have hfirst : Attempts options (arg.visits options verdict) (s.trace.map FindCall.attempt) := by
      refine ⟨by rw [List.map_map]; exact hcalls,fun t ht => ?_⟩
      obtain ⟨c,hc,rfl⟩ := List.mem_map.mp ht
      refine ⟨(hall c hc).builder,(hall c hc).options,hgood arg (by simp) _ ?_⟩
      rw [ArchiveArg.visits,← hcalls]
      exact List.mem_map_of_mem hc
    have hno : ¬((0 : ℤ) < 0) := lt_irrefl 0
    simp only [archiveArgs,argsAttempts,harchive,if_neg hno,List.flatMap_cons]
    exact ⟨hdied,hsteady,hfirst.append hmore⟩

def Method.args : Method → List ArchiveArg
  | .archive files => files.map fun file => ⟨file.1,file.1,file.2⟩
  | .archiveAs args => args
  | _ => []

/-- An archiving method that has something to do, on trees that can be walked through. -/
structure Method.Served (options : BBuilderOptions) (verdict : Bytes → Bool) (m : Method) : Prop where
  archives : m.archives = true
  asked : m ≠ .archive []
  args : ∀ arg ∈ m.args, arg.Served options verdict

def Method.visits (options : BBuilderOptions) (verdict : Bytes → Bool) (m : Method) :
    List MemberCall := m.args.flatMap (ArchiveArg.visits options verdict)

theorem perform_attempts {m : Method} (hm : m.Served options verdict) {a : Archiver μ}
    (ha : a.Steady options fixed) (hgood : ∀ c ∈ m.visits options verdict, c.Archivable options) :
    (m.perform engine a).1 = none ∧ (m.perform engine a).2.Steady options fixed ∧
      Attempts options (m.visits options verdict) (m.attempts engine a) := by
  have hfd : a.builder.out.buf.fd ≠ 0 := ha.builder.ready.handle
  have hargs := archiveArgs_attempts hengine m.args ha hm.args fun arg harg c hc =>
    hgood c (List.mem_flatMap.mpr ⟨arg,harg,hc⟩)
  obtain ⟨harchives,hasked,-⟩ := hm
  cases m with
  | archive files =>
    have hne : ¬(files.isEmpty = true) := fun hnil => hasked (by rw [List.isEmpty_iff.mp hnil])
    simp only [Method.perform,Method.attempts,builderArchive,if_neg hne,builderArchiveAs,if_neg hfd,
      archiveAsAttempts]
    exact hargs
  | archiveAs args =>
    simp only [Method.perform,Method.attempts,builderArchiveAs,if_neg hfd,archiveAsAttempts]
    exact hargs
  | setHandle fd fifo release sys => cases harchives
  | flush => cases harchives
  | finish => cases harchives

/-- Every method returns, one after the other, and so does `finish` behind them. -/
def AllReturn (engine : MatchEngine μ) : List Method → Archiver μ → Prop
  | [], a => died (builderFinish a).1 = none
  | m::ms, a => (m.perform engine a).1 = none ∧ AllReturn engine ms (m.perform engine a).2

omit hengine in
theorem finish_returns {b : BBuilder} (h : b.Steady) (matching : μ) :
    died (builderFinish ⟨b,matching⟩).1 = none := by
  obtain ⟨hret,-⟩ := h.ready.flush_accepted
  have hwarn : bErrorWarn b.err = false := by simp [bErrorWarn,h.calm]
  simp only [builderFinish,if_neg h.ready.handle,Archiver.setOut,not_lt.mpr hret,if_false,hwarn,
    Bool.false_and,Bool.false_eq_true]
  rfl

theorem runMethods_attempts (ms : List Method) {a : Archiver μ} (ha : a.Steady options fixed)
    (hms : ∀ m ∈ ms, m.Served options verdict)
    (hgood : ∀ m ∈ ms, ∀ c ∈ m.visits options verdict, c.Archivable options) :
    AllReturn engine ms a ∧ Attempts options (ms.flatMap (Method.visits options verdict))
      (runMethods engine ms a).attempts := by
  induction ms generalizing a with
  | nil => exact ⟨finish_returns ha.builder a.matching,rfl,by simp [runMethods]⟩
  | cons m ms ih =>
    have hinner : ∀ m' ∈ m::ms, m'.Inner := fun m' hm' => Or.inl (hms m' hm').archives
    obtain ⟨hdied,hsteady,hfirst⟩ := perform_attempts hengine (hms m (by simp)) ha (hgood m (by simp))
    obtain ⟨hreturn,hmore⟩ := ih hsteady (fun x hx => hms x (by simp [hx])) fun x hx =>
      hgood x (by simp [hx])
    refine ⟨⟨hdied,hreturn⟩,?_⟩
    rw [(runMethods_cons engine hinner a).2,List.flatMap_cons]
    exact hfirst.append hmore

omit hengine in
theorem runMethods_membersOf (ms : List Method) (hms : ∀ m ∈ ms, m.archives = true) {a : Archiver μ}
    (hgood : ∀ t ∈ (runMethods engine ms a).attempts,
      t.builder.Steady ∧ t.builder.options = options ∧ t.call.Archivable options)
    (hcache : CacheBehind options [] a.builder.hardlinkCache) :
    MembersOf options [] ((runMethods engine ms a).attempts.map Attempt.call)
      (written (runMethods engine ms a).attempts) := by
  refine (runMethods_invariant engine (P := fun b ts _ => (∀ t ∈ ts, t.builder.Steady ∧
    t.builder.options = options ∧ t.call.Archivable options) →
    MembersOf options [] (ts.map Attempt.call) (written ts) ∧
      CacheBehind options (ts.map Attempt.call) b.hardlinkCache) ms (fun _ => ⟨trivial,hcache⟩) ?_ hgood).1
  intro m hm b ts _ us b' hb hperforms
  rw [Method.starts_of_archives (hms m hm),if_neg Bool.false_ne_true]
  intro hgood
  obtain ⟨hmembers,hbehind⟩ := hb fun t ht => hgood t (by simp [ht])
  obtain ⟨hmore,hafter⟩ := (hperforms.works (hms m hm)).membersOf (fun t ht => hgood t (by simp [ht]))
    hbehind
  rw [written_append,List.map_append]
  exact ⟨hmembers.append hmore,hafter⟩

/-- The archive of a steady archiver: one member a call, in the order of the traversals. -/
theorem readTar_membersOf (ms : List Method) {a : Archiver μ} (ha : a.Steady options fixed)
    (hempty : a.builder.out.stream = []) (hcache : CacheBehind options [] a.builder.hardlinkCache)
    (hms : ∀ m ∈ ms, m.Served options verdict)
    (hgood : ∀ m ∈ ms, ∀ c ∈ m.visits options verdict, c.Archivable options) :
    ∃ members, readTar (delivered (runMethods engine ms a).archiver) = some members ∧
      MembersOf options [] (ms.flatMap (Method.visits options verdict)) members := by
  have harchives : ∀ m ∈ ms, m.archives = true := fun m hm => (hms m hm).archives
  obtain ⟨-,hcalls,hall⟩ := runMethods_attempts hengine ms ha hms hgood
  have hmembers := runMethods_membersOf ms harchives hall hcache
  obtain ⟨members,hread,hiff⟩ := readTar_delivered ms (fun m hm => Or.inl (harchives m hm))
    ha.builder.ready hempty
    fun t ht => Attempt.intact_of_archivable (hall t ht).1 ((hall t ht).2.1.symm ▸ (hall t ht).2.2)
  rw [hiff.mpr (flushHarmless_of_archives engine ms harchives a)] at hread
  rw [hcalls] at hmembers
  exact ⟨_,hread,hmembers⟩

omit hengine in
theorem newArchiver_steady (p : Process) {blockFactor : ℕ} (hf : 1 ≤ blockFactor)
    (hbig : 512*blockFactor < 2^63) (hgnu : options.gnuExtensions = false)
    {userLookup : Option BUserLookup} (husers : ∀ f ∈ userLookup, ∀ uid gid, (f uid gid).isSome = true)
    {matching : μ} (hmatching : fixed matching) {fd : ℤ} (hfd : fd ≠ 0) (fifo : Bool)
    (release : Option (ℕ × ℕ × ℕ)) {sys : Sys} (hsys : sys.Reliable) (hfresh : sys.accepted = [])
    {start : Archiver μ} (hstart : start = builderSetHandle fd fifo release sys
      (newArchiver p blockFactor options userLookup matching))
    (hplain : start.builder.out.buf.canSplice = false) :
    start.Steady options fixed ∧ start.builder.out.stream = [] ∧
      CacheBehind options [] start.builder.hardlinkCache := by
  obtain ⟨-,hready,hempty⟩ := newArchiver_opened p hf hbig options userLookup matching hfd fifo
    release hsys hfresh hstart
  have hcache : start.builder.hardlinkCache = if options.preserveHardlinks then some [] else none := by
    rw [hstart]
    rfl
  have hbehind : CacheBehind options [] start.builder.hardlinkCache := by
    rw [hcache]
    cases hkeep : options.preserveHardlinks with
    | true => exact ⟨hkeep.symm,fun entries hentries st => by
        obtain rfl : [] = entries := by simpa using hentries
        rfl⟩
    | false => exact ⟨hkeep.symm,by simp⟩
  have hholdable : HardlinkCache.Holdable options start.builder.hardlinkCache := by
    rw [hcache]
    intro entries hentries e he
    split at hentries
    · obtain rfl := Option.some.inj hentries
      cases he
    · cases hentries
  have hsteady : start.Steady options fixed := by
    refine ⟨⟨?_,hready,hplain,?_,?_,?_⟩,?_,?_⟩
    · rw [hstart]; rfl
    · rw [hstart]; exact hgnu
    · rw [hstart]; exact husers
    · have hsame : start.builder.options = options := by rw [hstart]; rfl
      rw [hsame]
      exact hholdable
    · rw [hstart]; rfl
    · rw [hstart]; exact hmatching
  exact ⟨hsteady,hempty,hbehind⟩

end

theorem lafeEngine_decides (p : MatchPlatform) (matching : Option LafeMatching) :
    (lafeEngine p).Decides (fun m => m.map LafeMatching.patterns = matching.map LafeMatching.patterns)
      fun path => (lafeExcluded p matching path).1 where
  test m path h := (lafeExcluded_eq p m path).1.trans ((congrArg (excludes p · path) h).trans
    (lafeExcluded_eq p matching path).1.symm)
  excluded m path h := (lafeExcluded_eq p m path).2.trans h

def linkedSource : Source := ⟨.ok [97],[],⟨[1,2,3],[.fail .eintr]⟩⟩

def linkedStat (mode size ino nlink : ℕ) : Stat := ⟨mode,0,0,size,0,1,0,ino,nlink⟩

def linkedProbe (mode size ino nlink : ℕ) : Probe :=
  .answering (linkedStat mode size ino nlink) 5 linkedSource

/-- A directory with a file `a`, a directory with another name `b` of it, a symlink to it and a
file `x`. -/
def linkedTree : Tree :=
  ⟨linkedProbe (sIfdir+0o755) 0 6 3,
    .entry [97] (linkedProbe (sIfreg+0o644) 3 7 2) .eof (.entry [115]
      (linkedProbe (sIfdir+0o755) 0 8 2) (.entry [98] (linkedProbe (sIfreg+0o644) 3 7 2) .eof .eof)
      (.entry [108] { linkedProbe (sIflnk+0o777) 1 9 1 with openAnswer := .error .eloop } .eof
        (.entry [120] (linkedProbe (sIfreg+0o644) 3 10 1) .eof .eof)))⟩

def linkedOptions : BBuilderOptions := ⟨true,false,false,true,false,true,false⟩

def linkedCalls : List MemberCall :=
  [⟨[100],[100],linkedStat (sIfdir+0o755) 0 6 3,0,linkedSource⟩,
    ⟨[100,47,97],[100,47,97],linkedStat (sIfreg+0o644) 3 7 2,5,linkedSource⟩,
    ⟨[100,47,115],[100,47,115],linkedStat (sIfdir+0o755) 0 8 2,5,linkedSource⟩,
    ⟨[100,47,115,47,98],[100,47,115,47,98],linkedStat (sIfreg+0o644) 3 7 2,5,linkedSource⟩,
    ⟨[100,47,108],[100,47,108],linkedStat (sIflnk+0o777) 1 9 1,-1,linkedSource⟩]

theorem linkedTree_visits {verdict : Bytes → Bool} (hpass : ∀ c ∈ linkedCalls, verdict c.path = false)
    (hx : verdict [100,47,120] = true) :
    linkedTree.visits (findFlags linkedOptions) verdict [100] [100] = linkedCalls ∧
      linkedTree.Served (findFlags linkedOptions) verdict [100] := by
  have hroot : bPathClean [100] = [100] := by decide +kernel
  simp only [linkedCalls,List.forall_mem_cons] at hpass
  obtain ⟨-,ha,hs,hb,hl,-⟩ := hpass
  have hmode : (sIfdir+0o755) &&& sIfmt = sIfdir ∧ (sIfreg+0o644) &&& sIfmt = sIfreg ∧
      (sIflnk+0o777) &&& sIfmt = sIflnk := by decide
  have hkinds : sIfreg ≠ sIfdir ∧ sIfdir ≠ sIfreg ∧ sIflnk ≠ sIfdir := by decide
  constructor
  · simp [Tree.visits,linkedTree,linkedProbe,Probe.rootOpened,Probe.answering,hroot,bStat,findFlags,
      linkedOptions,linkedStat,Stat.ifmt,Listing.visits,Probe.opened,ha,hs,hb,hl,hx,bDirItemPath,slash,
      dot,dotDot,substMemberName,linkedCalls,Except.toOption,hmode,hkinds]
  · simp [Tree.Served,linkedTree,linkedProbe,Probe.rootOpened,Probe.answering,hroot,bStat,findFlags,
      linkedOptions,linkedStat,Stat.ifmt,Listing.Served,Probe.opened,ha,hs,hb,hl,hx,bDirItemPath,slash,
      dot,dotDot,Except.toOption,hmode,hkinds]

theorem archivable_linkedCalls : ∀ c ∈ linkedCalls, c.Archivable linkedOptions := by
  have hfine : FullReads maxChunkSize linkedSource.file.reads ∧
      ∀ a ∈ linkedSource.file.reads, ¬a.Fails := by
    refine ⟨fun n hn => ?_,by decide⟩
    simp [linkedSource] at hn
  simp only [linkedCalls,List.forall_mem_cons]
  refine ⟨?_,?_,?_,?_,?_,by simp⟩
  · exact ⟨⟨by decide,by decide,by decide,by decide,fun h => absurd h (by decide)⟩,by decide +kernel,
      by decide,fun h => absurd h (by decide),fun h => absurd h (by decide),Or.inl rfl⟩
  · exact ⟨⟨by decide,by decide,by decide,by decide,fun h => absurd h (by decide)⟩,by decide +kernel,
      by decide,fun h => absurd h (by decide),fun _ => ⟨by decide,hfine⟩,Or.inl rfl⟩
  · exact ⟨⟨by decide,by decide,by decide,by decide,fun h => absurd h (by decide)⟩,by decide +kernel,
      by decide,fun h => absurd h (by decide),fun h => absurd h (by decide),Or.inl rfl⟩
  · exact ⟨⟨by decide,by decide,by decide,by decide,fun h => absurd h (by decide)⟩,by decide +kernel,
      by decide,fun h => absurd h (by decide),fun _ => ⟨by decide,hfine⟩,Or.inl rfl⟩
  · exact ⟨⟨by decide,by decide,by decide,fun h => absurd h (by decide),
      fun _ => ⟨[97],rfl,rfl,by decide,by decide⟩⟩,by decide +kernel,by decide,fun _ => by decide,
      fun h => absurd h (by decide),Or.inl rfl⟩

end ArchiveTarBuilder
