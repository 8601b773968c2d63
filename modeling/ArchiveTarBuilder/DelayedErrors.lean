import ArchiveTarBuilder.ArchiverRuns
import ArchiveTarBuilder.ArchiveRead

/-! What `finish` knows of the errors of a run. There is one record: every member that is begun
clears it, `finish` asks it for a warning only, and resetting it leaves the type behind. -/
namespace ArchiveTarBuilder

/-- An error was recorded since the record was new or last reset; the log has the last event
first. -/
def recordedSince : List BErrorEvent → Bool
  | [] => false
  | .set _::_ => true
  | .clear::log => recordedSince log
  | .reset::_ => false

def logType : List BErrorEvent → BErrorType
  | [] => .ok
  | .set type::_ => type
  | .clear::_ => .ok
  | .reset::log => logType log

/-- The record says what its log says, and a warning in it has not been reported yet. -/
structure Tracked (b : BBuilder) : Prop where
  strict : b.options.ignoreErrors = false
  type : b.err.type = logType b.err.log
  warned : recordedSince b.err.log = false → b.err.type ≠ .warn

theorem Tracked.warn_iff {b : BBuilder} (h : Tracked b) :
    b.err.type = .warn ↔ b.err.log.head? = some (.set .warn) := by
  have htype := h.type
  have hwarned := h.warned
  cases hlog : b.err.log with
  | nil => simp [htype,hlog,logType]
  | cons event log =>
    rw [hlog] at htype hwarned
    cases event with
    | set type => simp [htype,logType]
    | clear => simp [htype,logType]
    | reset => exact iff_of_false (hwarned rfl) (by simp)

theorem Tracked.of_set {b b' : BBuilder} (h : Tracked b) (hoptions : b'.options = b.options)
    {err : BError} {type : BErrorType} {e : Errno} {message : String} {path : Bytes}
    (herr : b'.err = bErrorSet err type e message path) : Tracked b' := by
  refine ⟨hoptions ▸ h.strict,?_,?_⟩
  · rw [herr]
    rfl
  · rw [herr]
    exact fun hno => Bool.noConfusion hno

theorem Tracked.of_clear {b b' : BBuilder} (h : Tracked b) (hoptions : b'.options = b.options)
    (herr : b'.err = bErrorClear b.err) : Tracked b' := by
  refine ⟨hoptions ▸ h.strict,?_,?_⟩
  · rw [herr]
    rfl
  · rw [herr,bErrorClear_type]
    exact fun _ => by decide

theorem Tracked.write {b : BBuilder} (h : Tracked b) (c : MemberCall) : Tracked (c.write b).2 := by
  have hkeeps := bBuilderWriteFile_keeps b c.path c.memberName c.st c.fd c.src
  have hoptions : (c.write b).2.options = b.options := by
    rw [MemberCall.write,hkeeps.rest]
    rfl
  rcases hkeeps.err with hclear | ⟨type,e,message,path,hset⟩
  · exact h.of_clear hoptions hclear
  · exact h.of_set hoptions hset

theorem Works.tracked {b b' : BBuilder} {ts : List Attempt} (h : Works b ts b') (hb : Tracked b) :
    Tracked b' := by
  induction h with
  | idle => exact hb
  | report h e message path ih => exact ih.of_set rfl rfl
  | fail h e ih => exact ⟨ih.strict,ih.type,ih.warned⟩
  | write h c ih => exact ih.write c

theorem Performs.tracked {b b' : BBuilder} {m : Method} {ts : List Attempt} (h : Performs b m ts b')
    (hb : Tracked b) : Tracked b' := by
  cases h with
  | archives hm hfd h => exact h.tracked hb
  | handle fd fifo release sys => exact ⟨hb.strict,hb.type,hb.warned⟩
  | unset hfd => exact hb
  | flushed hm hfd => exact ⟨hb.strict,hb.type,hb.warned⟩
  | finished hfd hret hwarn =>
    refine ⟨hb.strict,hb.type,fun _ hw => ?_⟩
    have hw' : bErrorWarn b.err = true := decide_eq_true hw
    simp [hw',hb.strict] at hwarn

section
variable {μ : Type*} (engine : MatchEngine μ)

theorem tracked_runMethods (ms : List Method) (p : Process) (blockFactor : ℕ)
    {options : BBuilderOptions} (hstrict : options.ignoreErrors = false)
    (userLookup : Option BUserLookup) (matching : μ) :
    Tracked (runMethods engine ms (newArchiver p blockFactor options userLookup matching)).archiver.builder :=
  runMethods_invariant engine (P := fun b _ _ => Tracked b) ms
    ⟨hstrict,rfl,fun _ h => BErrorType.noConfusion h⟩
    fun _ _ _ _ _ _ _ hb hm => hm.tracked hb

/-- `finish` dies for the errors that were recorded, and leaves a fresh record if it does not. -/
def Sticky (a : Archiver μ) : Prop :=
  ((builderFinish a).1 = .error .delayedStatus ↔ recordedSince a.builder.err.log = true) ∧
    ∀ n, (builderFinish a).1 = .ok n →
      { (builderFinish a).2.builder.err with log := [] } = bErrorNew

/-- When it does: the last thing that happened to the record after an error is a warning, and no
fatal error is left from before the last `finish`. -/
def Unerased (log : List BErrorEvent) : Prop :=
  if recordedSince log then log.head? = some (.set .warn) else logType log ≠ .fatal

theorem builderFinish_flushed {a : Archiver μ} (hfd : a.builder.out.buf.fd ≠ 0)
    (hflush : 0 ≤ (bBufferFlush a.builder.out).1) (hb : Tracked a.builder) :
    if a.builder.err.type = .warn then (builderFinish a).1 = .error .delayedStatus
    else (builderFinish a).1 = .ok (bBufferFlush a.builder.out).1 ∧
      (builderFinish a).2.builder.err = bErrorReset a.builder.err := by
  have hstrict := hb.strict
  by_cases hwarn : a.builder.err.type = .warn
  · simp [builderFinish,hfd,not_lt.mpr hflush,Archiver.setOut,bErrorWarn,hwarn,hstrict]
  · simp [builderFinish,hfd,not_lt.mpr hflush,Archiver.setOut,bErrorWarn,hwarn,hstrict]

theorem bErrorReset_new (err : BError) :
    { bErrorReset err with log := [] } = bErrorNew ↔ err.type = .ok := by
  simp [bErrorReset,bErrorNew]

/-- What `finish` finds at any point of any run. -/
theorem sticky_iff (ms : List Method) (p : Process) (blockFactor : ℕ) {options : BBuilderOptions}
    (hstrict : options.ignoreErrors = false) (userLookup : Option BUserLookup) (matching : μ)
    {a : Archiver μ}
    (ha : a = (runMethods engine ms
      (newArchiver p blockFactor options userLookup matching)).archiver)
    (hfd : a.builder.out.buf.fd ≠ 0) (hflush : 0 ≤ (bBufferFlush a.builder.out).1) :
    Sticky a ↔ Unerased a.builder.err.log := by
  have hb : Tracked a.builder := by
    rw [ha]
    exact tracked_runMethods engine ms p blockFactor hstrict userLookup matching
  have hfinish := builderFinish_flushed hfd hflush hb
  have htype := hb.type
  unfold Sticky Unerased
  by_cases hwarn : a.builder.err.type = .warn
  · rw [if_pos hwarn] at hfinish
    have hrecorded : recordedSince a.builder.err.log = true := by
      by_contra hno
      exact hb.warned (by simpa using hno) hwarn
    have hhead := hb.warn_iff.mp hwarn
    simp [hfinish,hrecorded,hhead]
  · rw [if_neg hwarn] at hfinish
    obtain ⟨hret,herr⟩ := hfinish
    have hhead := mt hb.warn_iff.mpr hwarn
    have hfatal : a.builder.err.type = .ok ↔ logType a.builder.err.log ≠ .fatal := by
      rw [htype] at hwarn ⊢
      cases hl : logType a.builder.err.log <;> simp_all
    by_cases hrecorded : recordedSince a.builder.err.log = true
    · simp [hret,hrecorded,hhead]
    · have hfresh : { (builderFinish a).2.builder.err with log := [] } = bErrorNew ↔
          a.builder.err.type = .ok := by
        rw [herr]
        exact bErrorReset_new a.builder.err
      rw [hfatal] at hfresh
      simpa [hret,hrecorded] using hfresh

end

/-- An archiver that has archived a directory with empty files of these names, and writes no
extension records. -/
def directoryRun (names : List Bytes) : Archiver Unit :=
  let st (mode : ℕ) : Stat := ⟨mode,0,0,0,0,0,0,7,1⟩
  let src : Source := ⟨.ok [],[],⟨[],[]⟩⟩
  let listing := names.foldr (.entry · (.answering (st (sIfreg+0o644)) 5 src) .eof ·) .eof
  (runMethods noPatterns [.setHandle 4 false none ⟨[],[],[],.ok⟩,
    .archive [([100],⟨.answering (st (sIfdir+0o755)) 6 src,listing⟩)]]
    (newArchiver ⟨false,1⟩ 1 ⟨true,false,false,false,false,false,false⟩ none ())).archiver

/-- Too long a name comes last. -/
theorem sticky_directoryRun : Sticky (directoryRun [[97],List.replicate 120 98]) :=
  (sticky_iff noPatterns _ ⟨false,1⟩ 1 (by rfl) none () rfl (by decide +kernel)
    (by decide +kernel)).mpr (by unfold Unerased; decide +kernel)

/-- It comes first, and the file behind it clears its error. -/
theorem not_sticky_directoryRun :
    (directoryRun [List.replicate 120 98,[97]]).builder.out.buf.fd ≠ 0 ∧
    0 ≤ (bBufferFlush (directoryRun [List.replicate 120 98,[97]]).builder.out).1 ∧
    ¬Sticky (directoryRun [List.replicate 120 98,[97]]) := by
  refine ⟨by decide +kernel,by decide +kernel,fun hsticky => ?_⟩
  have hdied := hsticky.1.mpr (by decide +kernel)
  have hreturned : (builderFinish (directoryRun [List.replicate 120 98,[97]])).1.isOk = true := by
    decide +kernel
  rw [hdied] at hreturned
  cases hreturned

end ArchiveTarBuilder
