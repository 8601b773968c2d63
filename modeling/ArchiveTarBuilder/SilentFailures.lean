import ArchiveTarBuilder.FlushAnswers

/-! The failures of `b_builder_write_file` that it does not report. Their part in a call is what
the answers of `write()` say that the call has used up. -/
namespace ArchiveTarBuilder
open Region CString Output

theorem contents_write {o : Output} {file : File} {n : ℕ}
    (h : (bFileWriteContents o file n).1.isSome = true) : ¬ContentsWriteFails o file n := by
  simp only [ContentsWriteFails,PaddingFails]
  unfold bFileWriteContents at h ⊢
  cases hloop : contentsLoop n (n+1) ⟨o,file,0,0,false,0⟩ with
  | again t => simp [hloop] at h
  | errorIo out file' =>
    obtain ⟨e,he⟩ := errorIo_eq out
    simp [hloop,he] at h
  | leave t =>
    have hquiet := contentsLoop_quiet (Or.inr hloop)
    simp only [hloop] at h ⊢
    split_ifs at h ⊢ with hneg
    · obtain ⟨e,he⟩ := errorIo_eq (writePadding t).2
      simp [he] at h
    · rintro (hfailed | ⟨u,hu,hneg'⟩)
      · refine (hquiet.trans ?_).not_failed hfailed
        unfold writePadding at hneg ⊢
        split_ifs with hpad
        · rw [if_pos hpad] at hneg
          exact Sys.write_quiet _ (not_lt.mp hneg)
        · exact .refl _
      · cases hu
        exact hneg hneg'

def NoBlock (o : Output) : Prop := (bBufferGetBlock o bHeaderSize).1 = none

/-- Records for long names are written, so they ask for a block. -/
def AsksRecords (options : BBuilderOptions) (header : BHeader) : Prop :=
  (header.truncated || header.truncatedLink) = true ∧
    (options.gnuExtensions || options.paxExtensions) = true

def QuietOrFatal (b : BBuilder) (r : Bool × BBuilder) : Prop :=
  (r.1 = true ∧ Sys.Quiet b.out.sys r.2.out.sys) ∨ (r.1 = false ∧ r.2.err.type = .fatal)

theorem QuietOrFatal.trans {b : BBuilder} {r r' : Bool × BBuilder} (h : QuietOrFatal b r)
    (hr : r.1 = true) (h' : QuietOrFatal r.2 r') : QuietOrFatal b r' := by
  obtain ⟨-,hq⟩ | ⟨hfalse,-⟩ := h
  · exact h'.imp (fun hdone => ⟨hdone.1,hq.trans hdone.2⟩) id
  · rw [hr] at hfalse
    cases hfalse

theorem encodeLonglink_quiet (b : BBuilder) (off : ℕ) (path : Bytes) (type : UInt8) (wrlen : ℕ) :
    QuietOrFatal b ((encodeLonglink b off path type wrlen).1.isSome,
      (encodeLonglink b off path type wrlen).2) := by
  unfold encodeLonglink
  simp only
  split
  · exact Or.inr ⟨rfl,rfl⟩
  · rename_i n out hloop
    have hquiet := blocksLoop_quiet hloop
    exact Or.inl ⟨rfl,hquiet⟩

theorem writeGnuRecords_quiet (b : BBuilder) (header : BHeader) (longPath : Bytes) (off wrlen : ℕ) :
    QuietOrFatal b (writeGnuRecords b header longPath off wrlen) := by
  have hfirst : QuietOrFatal b ((if header.truncated then
      encodeLonglink b off longPath bHeaderLonglinkType wrlen else (some wrlen,b)).1.isSome,
      (if header.truncated then
        encodeLonglink b off longPath bHeaderLonglinkType wrlen else (some wrlen,b)).2) := by
    split
    · exact encodeLonglink_quiet b off longPath bHeaderLonglinkType wrlen
    · exact Or.inl ⟨rfl,.refl _⟩
  unfold writeGnuRecords
  simp only
  split
  · rename_i heq
    rw [heq] at hfirst
    exact hfirst
  · rename_i n b' heq
    rw [heq] at hfirst
    split
    · exact hfirst
    · rename_i dest hdest
      split
      · exact hfirst.trans rfl (encodeLonglink_quiet b' off dest bHeaderLongdestType n)
      · exact hfirst

theorem writePaxRecords_quiet (b : BBuilder) (header : BHeader) (longPath memberName : Bytes)
    (off wrlen : ℕ) : QuietOrFatal b (writePaxRecords b header longPath memberName off wrlen) := by
  unfold writePaxRecords
  simp only
  split
  · exact Or.inr ⟨rfl,rfl⟩
  · rename_i n out hloop
    unfold bFileWritePaxPathBlocks at hloop
    split at hloop
    · cases hloop
    · have hquiet := blocksLoop_quiet hloop
      exact Or.inl ⟨rfl,hquiet⟩

/-- The records, unless a block for them is refused, which leaves no error: they are written, their
error is fatal, or the name is too long for a header and there are none. -/
theorem writeLongRecords_quiet (b : BBuilder) (header : BHeader) (memberName : Bytes) (st : Stat)
    (h : ¬(AsksRecords b.options header ∧ NoBlock b.out)) :
    QuietOrFatal b (writeLongRecords b header memberName st) ∨
      ((writeLongRecords b header memberName st).1 = false ∧
        (writeLongRecords b header memberName st).2.err.type = .warn ∧
        Sys.Quiet b.out.sys (writeLongRecords b header memberName st).2.out.sys) := by
  by_cases hlong : (header.truncated || header.truncatedLink) = true
  · by_cases hext : (b.options.gnuExtensions || b.options.paxExtensions) = true
    · obtain ⟨⟨block,out⟩,hget⟩ : ∃ r, bBufferGetBlock b.out bHeaderSize = r := ⟨_,rfl⟩
      cases block with
      | none => exact absurd ⟨⟨hlong,hext⟩,by simp only [NoBlock,hget]⟩ h
      | some block =>
        obtain ⟨off,wrlen⟩ := block
        have hblock : QuietOrFatal b (true,{ b with out := out }) :=
          Or.inl ⟨rfl,bBufferGetBlock_quiet hget⟩
        left
        by_cases hgnu : b.options.gnuExtensions = true
        · have hwrite : writeLongRecords b header memberName st = writeGnuRecords
              { b with out := out } header (longlinkPath memberName st) off wrlen := by
            simp [writeLongRecords,hlong,hgnu,hget]
          rw [hwrite]
          exact hblock.trans rfl (writeGnuRecords_quiet _ header _ off wrlen)
        · have hpax : b.options.paxExtensions = true := by simpa [hgnu] using hext
          have hwrite : writeLongRecords b header memberName st = writePaxRecords
              { b with out := out } header (longlinkPath memberName st) memberName off wrlen := by
            simp [writeLongRecords,hlong,hgnu,hpax,hget]
          rw [hwrite]
          exact hblock.trans rfl (writePaxRecords_quiet _ header _ memberName off wrlen)
    · have hwrite : writeLongRecords b header memberName st =
          (false,(b.setErrno .enametoolong).setError .warn "File name too long" memberName) := by
        simp [writeLongRecords,hlong,hext]
      rw [hwrite]
      exact Or.inr ⟨rfl,rfl,.of_writes rfl⟩
  · have hwrite : writeLongRecords b header memberName st = (true,b) := by
      simp [writeLongRecords,hlong]
    rw [hwrite]
    exact Or.inl (Or.inl ⟨rfl,.refl _⟩)

theorem writeLongRecords_noBlock {b : BBuilder} {header : BHeader} (memberName : Bytes) (st : Stat)
    (hasks : AsksRecords b.options header) (h : NoBlock b.out) :
    (writeLongRecords b header memberName st).1 = false ∧
      (writeLongRecords b header memberName st).2.err = b.err := by
  obtain ⟨⟨block,out⟩,hget⟩ : ∃ r, bBufferGetBlock b.out bHeaderSize = r := ⟨_,rfl⟩
  obtain rfl : block = none := by simpa [NoBlock,hget] using h
  have hwrite : writeLongRecords b header memberName st = (false,{ b with out := out }) := by
    simp only [writeLongRecords,hasks.1,hasks.2,hget,if_true,Bool.not_true,Bool.false_eq_true,
      if_false]
  rw [hwrite]
  exact ⟨rfl,rfl⟩

theorem writeHeader_outcome (b : BBuilder) (header : BHeader) :
    ((writeHeader b header).1 = true ∧ ¬NoBlock b.out ∧
      Sys.Quiet b.out.sys (writeHeader b header).2.out.sys) ∨
    ((writeHeader b header).1 = false ∧ NoBlock b.out ∧ (writeHeader b header).2.err = b.err) := by
  unfold writeHeader NoBlock
  cases hget : bBufferGetBlock b.out bHeaderSize with
  | mk block out =>
    cases block with
    | none => exact Or.inr ⟨rfl,rfl,rfl⟩
    | some block =>
      obtain ⟨off,wrlen⟩ := block
      have hquiet := bBufferGetBlock_quiet hget
      exact Or.inl ⟨rfl,by simp,hquiet⟩

/-- The call has written the member's own header and goes on with contents in the state `own`. -/
structure WritesContents (b : BBuilder) (c : MemberCall) (header : BHeader) (own : BBuilder) :
    Prop where
  found : memberHeader b.userLookup b.hardlinkCache c.src c.memberName c.st = some header
  headed : andWrite (writeLongRecords (memberStart b c.src c.memberName c.st) header c.memberName c.st)
    (writeHeader · header) = (true,own)
  asked : (header.isIfreg && decide (0 < c.fd)) = true

def FailedWrite (b : BBuilder) (c : MemberCall) : Prop :=
  Sys.WriteFailed b.out.sys (c.write b).2.out.sys ∨
    ∃ header own, WritesContents b c header own ∧ PaddingFails own.out c.src.file header.size

/-- A call that returns -1 leaves an error behind, and a fatal one when a write failed. -/
def Reports (b : BBuilder) (c : MemberCall) : Prop :=
  (c.write b).1 = false →
    ((c.write b).2.err.type = .warn ∨ (c.write b).2.err.type = .fatal) ∧
      (FailedWrite b c → bErrorFatal (c.write b).2.err = true)

/-- None of the exits that hide a failed write is taken: every header gets its block, and no write
fails while the contents are written. -/
structure Loud (b : BBuilder) (c : MemberCall) : Prop where
  records : ∀ header ∈ memberHeader b.userLookup b.hardlinkCache c.src c.memberName c.st,
    ¬(AsksRecords b.options header ∧ NoBlock b.out)
  own : ∀ header ∈ memberHeader b.userLookup b.hardlinkCache c.src c.memberName c.st, ∀ b',
    writeLongRecords (memberStart b c.src c.memberName c.st) header c.memberName c.st = (true,b') →
      ¬NoBlock b'.out
  contents : ∀ header own, WritesContents b c header own →
    ¬ContentsWriteFails own.out c.src.file header.size

theorem Reports.of_quiet {b : BBuilder} {c : MemberCall} (herr : (c.write b).2.err.type ≠ .ok)
    (hquiet : Sys.Quiet b.out.sys (c.write b).2.out.sys)
    (hnone : ∀ header own, ¬WritesContents b c header own) : Reports b c := by
  intro _
  refine ⟨?_,fun hfailed => ?_⟩
  · cases htype : (c.write b).2.err.type with
    | ok => exact absurd htype herr
    | warn => exact Or.inl rfl
    | fatal => exact Or.inr rfl
  · rcases hfailed with hfailed | ⟨header,own,hwrites,-⟩
    · exact absurd hfailed hquiet.not_failed
    · exact absurd hwrites (hnone header own)

theorem Reports.of_fatal {b : BBuilder} {c : MemberCall} (h : (c.write b).2.err.type = .fatal) :
    Reports b c := fun _ => ⟨Or.inr h,fun _ => by simp [bErrorFatal,h]⟩

theorem not_reports_silent {b : BBuilder} {c : MemberCall} (hret : (c.write b).1 = false)
    (herr : (c.write b).2.err.type = .ok) : ¬Reports b c := by
  intro h
  rcases (h hret).1 with hwarn | hfatal
  · rw [herr] at hwarn
    cases hwarn
  · rw [herr] at hfatal
    cases hfatal

theorem writeContents_reports {b : BBuilder} {header : BHeader} {path : Bytes} {fd : ℤ} {file : File}
    (hasked : (header.isIfreg && decide (0 < fd)) = true) :
    (writeContents b header path fd file).2.out = (bFileWriteContents b.out file header.size).2 ∧
      ((writeContents b header path fd file).1 = false →
        (writeContents b header path fd file).2.err.type = .warn) ∧
      ((writeContents b header path fd file).1 = true →
        ¬ContentsWriteFails b.out file header.size) := by
  have hcontents := @contents_write b.out file header.size
  simp only [writeContents,hasked,if_true]
  generalize bFileWriteContents b.out file header.size = r at hcontents ⊢
  obtain ⟨count,out⟩ := r
  cases count with
  | none => exact ⟨rfl,fun _ => rfl,fun h => (Bool.false_ne_true h).elim⟩
  | some n => exact ⟨rfl,fun h => (Bool.false_ne_true h.symm).elim,fun _ => hcontents rfl⟩

theorem Loud.of_records {b : BBuilder} {c : MemberCall} {header : BHeader}
    (hfound : memberHeader b.userLookup b.hardlinkCache c.src c.memberName c.st = some header)
    (hblock : ¬(AsksRecords b.options header ∧ NoBlock b.out))
    (hfailed : (writeLongRecords (memberStart b c.src c.memberName c.st) header c.memberName
      c.st).1 = false) : Loud b c := by
  refine ⟨?_,?_,?_⟩
  · intro header' hheader
    obtain rfl : header = header' := by simpa [hfound] using hheader
    exact hblock
  · intro header' hheader b' hb'
    obtain rfl : header = header' := by simpa [hfound] using hheader
    rw [hb'] at hfailed
    cases hfailed
  · intro header' own hwrites
    obtain rfl : header = header' := by simpa [hfound] using hwrites.found
    have hheaded := hwrites.headed
    simp only [andWrite,hfailed,Bool.false_eq_true,if_false] at hheaded
    rw [hheaded] at hfailed
    cases hfailed

theorem WritesContents.unique {b : BBuilder} {c : MemberCall} {header header' : BHeader}
    {own own' : BBuilder} (h : WritesContents b c header own) (h' : WritesContents b c header' own') :
    header = header' ∧ own = own' := by
  obtain rfl : header = header' := Option.some.inj (h.found.symm.trans h'.found)
  exact ⟨rfl,(Prod.mk.inj (h.headed.symm.trans h'.headed)).2⟩

theorem reports_headed {b : BBuilder} {c : MemberCall} {header : BHeader} {own : BBuilder}
    (hfound : memberHeader b.userLookup b.hardlinkCache c.src c.memberName c.st = some header)
    (hheaded : andWrite (writeLongRecords (memberStart b c.src c.memberName c.st) header c.memberName
      c.st) (writeHeader · header) = (true,own))
    (hquiet : Sys.Quiet b.out.sys own.out.sys) :
    Reports b c ↔ ∀ header own, WritesContents b c header own →
      ¬ContentsWriteFails own.out c.src.file header.size := by
  have hlast : c.write b = writeContents own header c.path c.fd c.src.file := by
    rw [MemberCall.write,bBuilderWriteFile_some c.path c.fd hfound,writeMember,hheaded]
    rfl
  by_cases hasked : (header.isIfreg && decide (0 < c.fd)) = true
  · have hwrites : WritesContents b c header own := ⟨hfound,hheaded,hasked⟩
    obtain ⟨hout,hwarn,hwhole⟩ := @writeContents_reports own header c.path c.fd c.src.file hasked
    rw [← hlast] at hout hwarn hwhole
    have hcause : FailedWrite b c ↔ ContentsWriteFails own.out c.src.file header.size := by
      refine or_congr ?_ ⟨?_,fun hpad => ⟨header,own,hwrites,hpad⟩⟩
      · rw [hout]
        exact hquiet.failed_iff
      · rintro ⟨header',own',hwrites',hpad⟩
        obtain ⟨rfl,rfl⟩ := hwrites.unique hwrites'
        exact hpad
    constructor
    · intro hreports header' own' hwrites' hfails
      obtain ⟨rfl,rfl⟩ := hwrites.unique hwrites'
      have hret : (c.write b).1 = false := by
        rw [← Bool.not_eq_true]
        exact fun hret => hwhole hret hfails
      have hfatal := (hreports hret).2 (hcause.mpr hfails)
      rw [bErrorFatal,hwarn hret] at hfatal
      cases hfatal
    · intro hno hret
      exact ⟨Or.inl (hwarn hret),fun hfailed => absurd (hcause.mp hfailed) (hno header own hwrites)⟩
  · have hret : (c.write b).1 = true := by simp [hlast,writeContents,hasked]
    refine iff_of_true (fun hfalse => ?_) fun header' own' hwrites => ?_
    · rw [hret] at hfalse
      cases hfalse
    · obtain rfl : header = header' := Option.some.inj (hfound.symm.trans hwrites.found)
      exact absurd hwrites.asked hasked

theorem reports_recorded {b b₁ : BBuilder} {c : MemberCall} {header : BHeader}
    (hfound : memberHeader b.userLookup b.hardlinkCache c.src c.memberName c.st = some header)
    (hblock : ¬(AsksRecords b.options header ∧ NoBlock b.out))
    (hrecords : writeLongRecords (memberStart b c.src c.memberName c.st) header c.memberName c.st =
      (true,b₁))
    (hquiet : Sys.Quiet b.out.sys b₁.out.sys)
    (herr : b₁.err = (memberStart b c.src c.memberName c.st).err) : Reports b c ↔ Loud b c := by
  have hsame {header' : BHeader} (h : header' ∈ memberHeader b.userLookup b.hardlinkCache c.src
      c.memberName c.st) : header = header' := by simpa [hfound] using h
  rcases writeHeader_outcome b₁ header with ⟨hret,hnoblock,hquiet'⟩ | ⟨hret,hnoblock,herr'⟩
  · generalize hhead : writeHeader b₁ header = r at hret hquiet'
    obtain ⟨ret,own⟩ := r
    obtain rfl : ret = true := hret
    have hheaded : andWrite (writeLongRecords (memberStart b c.src c.memberName c.st) header
        c.memberName c.st) (writeHeader · header) = (true,own) := by
      simp [andWrite,hrecords,hhead]
    rw [reports_headed hfound hheaded (hquiet.trans hquiet')]
    refine ⟨fun hno => ⟨?_,?_,hno⟩,Loud.contents⟩
    · intro header' hheader
      obtain rfl := hsame hheader
      exact hblock
    · intro header' hheader b' hb'
      obtain rfl := hsame hheader
      obtain rfl : b₁ = b' := (Prod.mk.inj (hrecords.symm.trans hb')).2
      exact hnoblock
  · -- no block for the member's own header
    have hstop : c.write b = writeHeader b₁ header := by
      rw [MemberCall.write,bBuilderWriteFile_some c.path c.fd hfound]
      simp [writeMember,andWrite,hrecords,hret]
    refine iff_of_false (not_reports_silent (hstop ▸ hret) ?_) fun hloud => ?_
    · rw [hstop,herr',herr]
      rfl
    · exact hloud.own header hfound b₁ hrecords hnoblock

theorem reports_iff_loud (b : BBuilder) (c : MemberCall) : Reports b c ↔ Loud b c := by
  cases hfound : memberHeader b.userLookup b.hardlinkCache c.src c.memberName c.st with
  | none =>
    have hunheaded := bBuilderWriteFile_none c.path c.fd hfound
    obtain ⟨e,hout⟩ := hunheaded.out
    have hnone (header : BHeader) (own : BBuilder) : ¬WritesContents b c header own := fun hwrites =>
      Option.some_ne_none header (hwrites.found.symm.trans hfound)
    have hreports : Reports b c :=
      .of_quiet hunheaded.reported (.of_writes (by rw [MemberCall.write,hout]; rfl)) hnone
    exact iff_of_true hreports
      ⟨by simp [hfound],by simp [hfound],fun header own h => absurd h (hnone header own)⟩
  | some header =>
    have hwrite : c.write b = writeMember (memberStart b c.src c.memberName c.st) header c.path
        c.memberName c.st c.fd c.src.file := bBuilderWriteFile_some c.path c.fd hfound
    have hsame {header' : BHeader} (h : header' ∈ memberHeader b.userLookup b.hardlinkCache c.src
        c.memberName c.st) : header = header' := by simpa [hfound] using h
    have hkeeps := writeLongRecords_keeps (memberStart b c.src c.memberName c.st) header c.memberName
      c.st
    by_cases hblock : AsksRecords b.options header ∧ NoBlock b.out
    · -- no block for the records
      obtain ⟨hret,herr⟩ := @writeLongRecords_noBlock (memberStart b c.src c.memberName c.st) header
        c.memberName c.st hblock.1 hblock.2
      have hstop : c.write b = writeLongRecords (memberStart b c.src c.memberName c.st) header
          c.memberName c.st := by simp [hwrite,writeMember,andWrite,hret]
      refine iff_of_false (not_reports_silent (hstop ▸ hret) ?_) fun hloud => ?_
      · rw [hstop,herr]
        rfl
      · exact hloud.records header hfound hblock
    · have hstop (hret : (writeLongRecords (memberStart b c.src c.memberName c.st) header c.memberName
          c.st).1 = false) : c.write b = writeLongRecords (memberStart b c.src c.memberName c.st)
          header c.memberName c.st := by simp [hwrite,writeMember,andWrite,hret]
      rcases writeLongRecords_quiet (memberStart b c.src c.memberName c.st) header c.memberName c.st
        hblock with (⟨hret,hquiet⟩ | ⟨hret,hfatal⟩) | ⟨hret,hwarn,hquiet⟩
      · have herr := hkeeps.ok hret
        generalize hrecords : writeLongRecords (memberStart b c.src c.memberName c.st) header
          c.memberName c.st = r at hret hquiet herr
        obtain ⟨ret,b₁⟩ := r
        obtain rfl : ret = true := hret
        exact reports_recorded hfound hblock hrecords hquiet herr
      · exact iff_of_true (.of_fatal (hstop hret ▸ hfatal)) (.of_records hfound hblock hret)
      · refine iff_of_true (.of_quiet ?_ ?_ fun header' own hwrites => ?_) (.of_records hfound hblock hret)
        · rw [hstop hret,hwarn]
          decide
        · rw [hstop hret]
          exact hquiet
        · obtain rfl := hsame hwrites.found
          have hheaded := hwrites.headed
          simp only [andWrite,hret,Bool.false_eq_true,if_false] at hheaded
          rw [hheaded] at hret
          cases hret

/-- The bytes of the records in front of a member's own header, when there can be any. The two GNU
records share the block of their headers. -/
def recordsSize (options : BBuilderOptions) (header : BHeader) (longPath : Bytes) : Option ℕ :=
  if header.truncated || header.truncatedLink then
    if options.gnuExtensions then
      some (512+(if header.truncated then paddedSize longPath.length else 0)+
        match header.linkdest with
        | none => 0
        | some dest => if header.truncatedLink then paddedSize dest.length else 0)
    else if options.paxExtensions && bHeaderComputePaxLength longPath pathKey ≠ 2^64-1 then
      some (512+paddedSize (paxText longPath header.linkdest).length)
    else none
  else some 0

/-- A block for a header is refused behind `m` more bytes: there is no handle or no room at all, or
a flush up to there fails. -/
def Output.Refuses (o : Output) (m : ℕ) : Prop :=
  (o.buf.fd = 0 ∨ o.buf.size = 0) ∨ o.level.Stops m

instance (o : Output) (m : ℕ) : Decidable (o.Refuses m) := by unfold Output.Refuses; infer_instance

/-- What the lengths of a member, how full the buffer is and the answers to come have to be like for
the call to report all its failures: the first block of the records is not refused, the member's own
header is only if a block of the records is, and no write for the contents fails. -/
structure Heard (b : BBuilder) (c : MemberCall) (header : BHeader) : Prop where
  first : AsksRecords b.options header → ¬b.out.Refuses 0
  own : ∀ m ∈ recordsSize b.options header (longlinkPath c.memberName c.st), b.out.Refuses m →
    0 < m ∧ b.out.Refuses (m-512)
  contents : ∀ m ∈ recordsSize b.options header (longlinkPath c.memberName c.st), ¬b.out.Refuses m →
    header.isIfreg = true → 0 < c.fd →
      (b.out.level.behind (m+512)).contentsFail c.src.file header.size = false

theorem Output.Aligned.noBlock_iff {o : Output} (h : o.Aligned) : NoBlock o ↔ o.level.Stops 0 := by
  have hblock : paddedSize bHeaderSize = 512 := by decide
  rw [NoBlock]
  rcases h.getBlock bHeaderSize (by decide) (hblock ▸ h.block_le_room) with
    ⟨hstops,o',heq,-⟩ | ⟨hstops,off,o',heq,-⟩
  · rw [heq]
    exact iff_of_true rfl hstops
  · rw [heq]
    exact iff_of_false (by simp) hstops

theorem noBlock_closed {n : ℕ} {o : Output} (h : o.InBlocks n)
    (hclosed : o.buf.fd = 0 ∨ o.buf.size = 0) : NoBlock o := by
  have hnone : ∀ block ∈ (bBufferGetBlock o bHeaderSize).1, False := by
    intro block hblock
    have hget := h.refl.getBlock bHeaderSize
    have hsize : paddedSize bHeaderSize = 512 := by decide
    rcases hclosed with hfd | hempty
    · simp [bBufferGetBlock,bHeaderSize,hfd] at hblock
    · have hn := h.size
      generalize bBufferGetBlock o bHeaderSize = r at hget hblock
      obtain ⟨given,p⟩ := r
      obtain rfl : given = some block := hblock
      obtain ⟨-,hgiven,hend,hused⟩ := hget
      omega
  exact Option.eq_none_iff_forall_not_mem.mpr hnone

theorem noBlock_iff_refuses {n : ℕ} {o : Output} (h : o.InBlocks n) : NoBlock o ↔ o.Refuses 0 := by
  by_cases hclosed : o.buf.fd = 0 ∨ o.buf.size = 0
  · exact iff_of_true (noBlock_closed h hclosed) (Or.inl hclosed)
  · rw [Output.Refuses,or_iff_right hclosed]
    obtain ⟨hfd,hsize⟩ := not_or.mp hclosed
    exact (h.aligned hfd (h.size ▸ hsize)).noBlock_iff

theorem encodeAt_fed {b : BBuilder} {o : Output} {m : ℕ} (h : Fed o b.out m) {off : ℕ}
    (hoff : off+512 ≤ o.buf.size) (encode : BHeaderBlock → BHeaderBlock) :
    Fed o (b.encodeAt off encode).out m :=
  h.store (by rw [BHeaderBlock.toBytes_length]; exact hoff)

theorem encodeLonglink_fed {b : BBuilder} {o : Output} {m : ℕ} (h : Fed o b.out m) {off : ℕ}
    (hoff : off+512 ≤ o.buf.size) (path : Bytes) (type : UInt8) (wrlen : ℕ) :
    match encodeLonglink b off path type wrlen with
    | (none,b') => b'.err.type = .fatal ∧ 512 ≤ paddedSize path.length ∧
        o.level.Stops (m+paddedSize path.length-512)
    | (some _,b') => Fed o b'.out (m+paddedSize path.length) := by
  have hhead := encodeAt_fed h hoff (bHeaderEncodeLonglinkBlock · path type)
  have hloop := blocksLoop_fed path.length path 0 hhead.aligned le_rfl
  simp only [encodeLonglink,bFileWritePathBlocks] at hloop ⊢
  generalize blocksLoop path.length path 0
    (b.encodeAt off (bHeaderEncodeLonglinkBlock · path type)).out = r at hloop ⊢
  obtain ⟨count,out⟩ := r
  cases count with
  | none =>
    obtain ⟨hone,hstops⟩ := hloop
    refine ⟨rfl,hone,?_⟩
    rw [Nat.add_sub_assoc hone]
    exact (hhead.stops_iff _).mp hstops
  | some n => exact hhead.trans hloop

theorem writeGnuRecords_fed {b : BBuilder} {o : Output} (h : Fed o b.out 512) (header : BHeader)
    (longPath : Bytes) {off : ℕ} (hoff : off+512 ≤ o.buf.size) (wrlen : ℕ) :
    let first := if header.truncated then paddedSize longPath.length else 0
    let second := match header.linkdest with
      | none => 0
      | some dest => if header.truncatedLink then paddedSize dest.length else 0
    ((writeGnuRecords b header longPath off wrlen).1 = true ∧
      Fed o (writeGnuRecords b header longPath off wrlen).2.out (512+first+second)) ∨
    ((writeGnuRecords b header longPath off wrlen).1 = false ∧
      (writeGnuRecords b header longPath off wrlen).2.err.type = .fatal ∧
      o.level.Stops (first+second)) := by
  have hfirst : match (if header.truncated then
        encodeLonglink b off longPath bHeaderLonglinkType wrlen else (some wrlen,b)) with
      | (none,b') => b'.err.type = .fatal ∧
          o.level.Stops (if header.truncated then paddedSize longPath.length else 0)
      | (some _,b') => Fed o b'.out (512+if header.truncated then paddedSize longPath.length else 0) := by
    cases header.truncated with
    | false => exact h
    | true =>
      have hlink := encodeLonglink_fed h hoff longPath bHeaderLonglinkType wrlen
      simp only [if_true]
      generalize encodeLonglink b off longPath bHeaderLonglinkType wrlen = r at hlink ⊢
      obtain ⟨count,b'⟩ := r
      cases count with
      | none => exact ⟨hlink.1,by rw [Nat.add_sub_cancel_left] at hlink; exact hlink.2.2⟩
      | some n => exact hlink
  intro first second
  simp only [writeGnuRecords]
  generalize (if header.truncated then encodeLonglink b off longPath bHeaderLonglinkType wrlen
    else (some wrlen,b)) = r at hfirst ⊢
  obtain ⟨count,b'⟩ := r
  cases count with
  | none => exact Or.inr ⟨by simp,hfirst.1,hfirst.2.mono (Nat.le_add_right _ _)⟩
  | some n =>
    simp only [second]
    cases hdest : header.linkdest with
    | none => exact Or.inl ⟨rfl,hfirst⟩
    | some dest =>
      cases hlong : header.truncatedLink with
      | false => exact Or.inl ⟨rfl,hfirst⟩
      | true =>
        have hlink := encodeLonglink_fed hfirst hoff dest bHeaderLongdestType n
        simp only [if_true]
        generalize encodeLonglink b' off dest bHeaderLongdestType n = r at hlink ⊢
        obtain ⟨count,b''⟩ := r
        cases count with
        | none =>
          refine Or.inr ⟨rfl,hlink.1,?_⟩
          rw [show first+paddedSize dest.length = 512+first+paddedSize dest.length-512 by omega]
          exact hlink.2.2
        | some n => exact Or.inl ⟨rfl,hlink⟩

theorem writePaxRecords_fed {b : BBuilder} {o : Output} (h : Fed o b.out 512) (header : BHeader)
    (longPath memberName : Bytes) {off : ℕ} (hoff : off+512 ≤ o.buf.size) (wrlen : ℕ) :
    ((writePaxRecords b header longPath memberName off wrlen).1 = true ∧
      bHeaderComputePaxLength longPath pathKey ≠ 2^64-1 ∧
      Fed o (writePaxRecords b header longPath memberName off wrlen).2.out
        (512+paddedSize (paxText longPath header.linkdest).length)) ∨
    ((writePaxRecords b header longPath memberName off wrlen).1 = false ∧
      (writePaxRecords b header longPath memberName off wrlen).2.err.type = .fatal ∧
      (bHeaderComputePaxLength longPath pathKey ≠ 2^64-1 →
        512 ≤ paddedSize (paxText longPath header.linkdest).length ∧
          o.level.Stops (paddedSize (paxText longPath header.linkdest).length))) := by
  have hhead := encodeAt_fed h hoff (bHeaderEncodePaxBlock b.process · header longPath)
  have hloop := blocksLoop_fed (paxText longPath header.linkdest).length
    (paxText longPath header.linkdest) 0 hhead.aligned le_rfl
  simp only [writePaxRecords,bFileWritePaxPathBlocks]
  by_cases hmax : bHeaderComputePaxLength longPath pathKey = 2^64-1
  · simp only [hmax,if_true]
    exact Or.inr ⟨trivial,rfl,fun hno => absurd rfl hno⟩
  · simp only [hmax,if_false]
    generalize blocksLoop (paxText longPath header.linkdest).length
      (paxText longPath header.linkdest) 0
      (b.encodeAt off (bHeaderEncodePaxBlock b.process · header longPath)).out = r at hloop ⊢
    obtain ⟨count,out⟩ := r
    cases count with
    | none =>
      obtain ⟨hone,hstops⟩ := hloop
      refine Or.inr ⟨rfl,rfl,fun _ => ⟨hone,?_⟩⟩
      have hbehind := (hhead.stops_iff _).mp hstops
      rwa [Nat.add_sub_of_le hone] at hbehind
    | some n => exact Or.inl ⟨rfl,hmax,hhead.trans hloop⟩

/-- Records whose first block is granted: they are written, or their error is fatal. -/
theorem writeLongRecords_fed {b : BBuilder} (h : b.out.Aligned) {header : BHeader}
    (memberName : Bytes) (st : Stat) (hasks : AsksRecords b.options header)
    (hfirst : ¬b.out.level.Stops 0) :
    ((writeLongRecords b header memberName st).1 = true ∧
      ∃ m, recordsSize b.options header (longlinkPath memberName st) = some (m+512) ∧ 512 ∣ m ∧
        Fed b.out (writeLongRecords b header memberName st).2.out (m+512)) ∨
    ((writeLongRecords b header memberName st).1 = false ∧
      (writeLongRecords b header memberName st).2.err.type = .fatal ∧
      ∀ m ∈ recordsSize b.options header (longlinkPath memberName st),
        0 < m ∧ b.out.level.Stops (m-512)) := by
  obtain ⟨hlong,hext⟩ := hasks
  have hblock : paddedSize bHeaderSize = 512 := by decide
  have hget := h.getBlock bHeaderSize (by decide) (hblock ▸ h.block_le_room)
  rw [hblock] at hget
  obtain ⟨off,out,hget,hoff,-,hfed⟩ := (hget.resolve_left fun hno => hfirst hno.1).2
  have hdvd (n : ℕ) : 512 ∣ paddedSize n := dvd_roundUp 512 n (by omega)
  by_cases hgnu : b.options.gnuExtensions = true
  · have hwrite : writeLongRecords b header memberName st = writeGnuRecords
        { b with out := out } header (longlinkPath memberName st) off 512 := by
      simp [writeLongRecords,hlong,hgnu,hget]
    have hsize : recordsSize b.options header (longlinkPath memberName st) = some
        (512+(if header.truncated then paddedSize (longlinkPath memberName st).length else 0)+
          match header.linkdest with
          | none => 0
          | some dest => if header.truncatedLink then paddedSize dest.length else 0) := by
      simp only [recordsSize,hlong,hgnu,if_true]
    rw [hwrite,hsize]
    refine (writeGnuRecords_fed (b := { b with out := out }) hfed header
      (longlinkPath memberName st) hoff 512).imp ?_ ?_
    · rintro ⟨hdone,hrecords⟩
      refine ⟨hdone,_,congrArg some (by rw [Nat.add_assoc,Nat.add_comm]),?_,?_⟩
      · refine Nat.dvd_add ?_ ?_
        · split
          · exact hdvd _
          · exact dvd_zero _
        · split
          · exact dvd_zero _
          · split
            · exact hdvd _
            · exact dvd_zero _
      · rw [Nat.add_comm _ 512,← Nat.add_assoc]
        exact hrecords
    · rintro ⟨hfailed,hfatal,hstops⟩
      refine ⟨hfailed,hfatal,fun m hm => ?_⟩
      obtain rfl := Option.some.inj hm
      refine ⟨by omega,?_⟩
      rw [Nat.add_assoc,Nat.add_sub_cancel_left]
      exact hstops
  · have hpax : b.options.paxExtensions = true := by simpa [hgnu] using hext
    have hwrite : writeLongRecords b header memberName st = writePaxRecords
        { b with out := out } header (longlinkPath memberName st) memberName off 512 := by
      simp [writeLongRecords,hlong,hgnu,hpax,hget]
    have hsize (hmax : bHeaderComputePaxLength (longlinkPath memberName st) pathKey ≠ 2^64-1) :
        recordsSize b.options header (longlinkPath memberName st) =
          some (512+paddedSize (paxText (longlinkPath memberName st) header.linkdest).length) := by
      rw [recordsSize,if_pos hlong,if_neg hgnu,if_pos (by simpa [hpax] using hmax)]
    rw [hwrite]
    refine (writePaxRecords_fed (b := { b with out := out }) hfed header
      (longlinkPath memberName st) memberName hoff 512).imp ?_ ?_
    · rintro ⟨hdone,hmax,hrecords⟩
      refine ⟨hdone,paddedSize (paxText (longlinkPath memberName st) header.linkdest).length,?_,hdvd _,
        ?_⟩
      · rw [hsize hmax,Nat.add_comm]
      · rw [Nat.add_comm]
        exact hrecords
    · rintro ⟨hfailed,hfatal,hstops⟩
      refine ⟨hfailed,hfatal,fun m hm => ?_⟩
      have hmax : bHeaderComputePaxLength (longlinkPath memberName st) pathKey ≠ 2^64-1 := by
        intro hno
        simp [recordsSize,hlong,hgnu,hno] at hm
      rw [hsize hmax] at hm
      obtain rfl := Option.some.inj hm
      refine ⟨by omega,?_⟩
      rw [Nat.add_sub_cancel_left]
      exact (hstops hmax).2

theorem Fed.noBlock_iff {o o' : Output} {m : ℕ} (h : Fed o o' m) : NoBlock o' ↔ o.Refuses m := by
  rw [h.aligned.noBlock_iff,h.stops_iff,Nat.add_zero,Output.Refuses]
  refine (or_iff_right (not_or.mpr ⟨h.fd ▸ h.aligned.handle,?_⟩)).symm
  exact h.size ▸ h.aligned.pos.ne'

theorem writeHeader_fed {b : BBuilder} {o : Output} {m : ℕ} (h : Fed o b.out m) (header : BHeader)
    (hblock : ¬NoBlock b.out) :
    ∃ own, writeHeader b header = (true,own) ∧ Fed o own.out (m+512) := by
  have hsize : paddedSize bHeaderSize = 512 := by decide
  have hget := h.aligned.getBlock bHeaderSize (by decide) (hsize ▸ h.aligned.block_le_room)
  rw [hsize] at hget
  rcases hget with ⟨hstops,-⟩ | ⟨-,off,out,hget,hoff,-,hfed⟩
  · exact absurd (h.aligned.noBlock_iff.mpr hstops) hblock
  · rw [writeHeader,hget]
    refine ⟨_,rfl,?_⟩
    exact encodeAt_fed (b := { b with out := out }) (h.trans hfed) (h.size ▸ hoff)
      (bHeaderEncodeBlock b.process · header)

/-- With its records written, the rest of a call is heard of if its own header gets a block and no
write for its contents fails. -/
theorem loud_recorded {b b₁ : BBuilder} {c : MemberCall} {header : BHeader} {m : ℕ}
    (hfound : memberHeader b.userLookup b.hardlinkCache c.src c.memberName c.st = some header)
    (hblock : ¬(AsksRecords b.options header ∧ NoBlock b.out))
    (hrefused : AsksRecords b.options header → ¬b.out.Refuses 0)
    (hsize : recordsSize b.options header (longlinkPath c.memberName c.st) = some m)
    (hrecords : writeLongRecords (memberStart b c.src c.memberName c.st) header c.memberName c.st =
      (true,b₁))
    (hfed : Fed b.out b₁.out m) (hlast : 0 < m → ¬b.out.Refuses (m-512)) :
    Loud b c ↔ Heard b c header := by
  have hsame {header' : BHeader} (h : header' ∈ memberHeader b.userLookup b.hardlinkCache c.src
      c.memberName c.st) : header = header' := by simpa [hfound] using h
  have hm {n : ℕ} (h : n ∈ recordsSize b.options header (longlinkPath c.memberName c.st)) : m = n := by
    simpa [hsize] using h
  constructor
  · intro h
    have hown : ¬NoBlock b₁.out := h.own header hfound b₁ hrecords
    obtain ⟨own,hhead,hfed'⟩ := writeHeader_fed hfed header hown
    refine ⟨hrefused,fun n hn hrefuses => ?_,fun n hn _ hreg hfd => ?_⟩
    · obtain rfl := hm hn
      exact absurd (hfed.noBlock_iff.mpr hrefuses) hown
    · obtain rfl := hm hn
      have hwrites : WritesContents b c header own :=
        ⟨hfound,by simp [andWrite,hrecords,hhead],by simp [hreg,hfd]⟩
      rw [← Bool.not_eq_true,← hfed'.level]
      exact fun hfails => h.contents header own hwrites ((contentsWriteFails_iff hfed'.aligned _ _).mpr
        hfails)
  · intro h
    have hown : ¬NoBlock b₁.out := fun hno => by
      obtain ⟨hpos,hprev⟩ := h.own m hsize (hfed.noBlock_iff.mp hno)
      exact hlast hpos hprev
    obtain ⟨own,hhead,hfed'⟩ := writeHeader_fed hfed header hown
    refine ⟨fun header' hheader => ?_,fun header' hheader b' hb' => ?_,fun header' own' hwrites => ?_⟩
    · obtain rfl := hsame hheader
      exact hblock
    · obtain rfl := hsame hheader
      obtain rfl : b₁ = b' := (Prod.mk.inj (hrecords.symm.trans hb')).2
      exact hown
    · have hwrites' : WritesContents b c header own := by
        obtain rfl := hsame hwrites.found
        exact ⟨hfound,by simp [andWrite,hrecords,hhead],hwrites.asked⟩
      obtain ⟨rfl,rfl⟩ := hwrites'.unique hwrites
      obtain ⟨hreg,hfd⟩ : header.isIfreg = true ∧ 0 < c.fd := by simpa using hwrites.asked
      have hquiet := h.contents m hsize (fun hrefuses => hown (hfed.noBlock_iff.mpr hrefuses)) hreg hfd
      rw [contentsWriteFails_iff hfed'.aligned,hfed'.level,hquiet]
      exact Bool.false_ne_true

theorem loud_iff_heard {n : ℕ} {b : BBuilder} (h : b.out.InBlocks n) (c : MemberCall) :
    Loud b c ↔ ∀ header ∈ memberHeader b.userLookup b.hardlinkCache c.src c.memberName c.st,
      Heard b c header := by
  cases hfound : memberHeader b.userLookup b.hardlinkCache c.src c.memberName c.st with
  | none =>
    refine iff_of_true ⟨by simp [hfound],by simp [hfound],fun header own hwrites => ?_⟩ (by simp)
    exact absurd (hfound.symm.trans hwrites.found) (by simp)
  | some header =>
    simp only [Option.mem_some_iff,forall_eq']
    have hnoblock := noBlock_iff_refuses h
    have halign (hopen : ¬(b.out.buf.fd = 0 ∨ b.out.buf.size = 0)) : b.out.Aligned :=
      h.aligned (not_or.mp hopen).1 (h.size ▸ (not_or.mp hopen).2)
    by_cases hasks : AsksRecords b.options header
    · by_cases hrefuses : b.out.Refuses 0
      · refine iff_of_false (fun hloud => ?_) fun hheard => hheard.first hasks hrefuses
        exact hloud.records header hfound ⟨hasks,hnoblock.mpr hrefuses⟩
      · have hblock : ¬(AsksRecords b.options header ∧ NoBlock b.out) := fun hno =>
          hrefuses (hnoblock.mp hno.2)
        obtain ⟨hopen,hstops⟩ := not_or.mp hrefuses
        rcases @writeLongRecords_fed (memberStart b c.src c.memberName c.st) (halign hopen) header
          c.memberName c.st hasks hstops with ⟨hdone,m,hsize,hdvd,hfed⟩ | ⟨hfailed,-,hrefused⟩
        · refine loud_recorded hfound hblock (fun _ => hrefuses) hsize
            (Prod.ext hdone rfl) hfed fun _ => ?_
          rw [Nat.add_sub_cancel]
          exact not_or.mpr ⟨hopen,hfed.not_stops (halign hopen) hdvd⟩
        · refine iff_of_true (.of_records hfound hblock hfailed)
            ⟨fun _ => hrefuses,fun m hm _ => ?_,fun m hm hno => ?_⟩
          · obtain ⟨hpos,hstops'⟩ := hrefused m hm
            exact ⟨hpos,Or.inr hstops'⟩
          · exact absurd (Or.inr ((hrefused m hm).2.mono (Nat.sub_le _ _))) hno
    · have hblock : ¬(AsksRecords b.options header ∧ NoBlock b.out) := fun hno => hasks hno.1
      by_cases hlong : (header.truncated || header.truncatedLink) = true
      · -- a name that is too long is reported, and nothing is written
        have hext : (b.options.gnuExtensions || b.options.paxExtensions) = false := by
          rw [← Bool.not_eq_true]
          exact fun hext => hasks ⟨hlong,hext⟩
        have hsize : recordsSize b.options header (longlinkPath c.memberName c.st) = none := by
          obtain ⟨hgnu,hpax⟩ : b.options.gnuExtensions = false ∧ b.options.paxExtensions = false := by
            simpa using hext
          simp [recordsSize,hgnu,hpax,hlong]
        have hfailed : (writeLongRecords (memberStart b c.src c.memberName c.st) header c.memberName
            c.st).1 = false := by
          have hext' : ((memberStart b c.src c.memberName c.st).options.gnuExtensions ||
            (memberStart b c.src c.memberName c.st).options.paxExtensions) = false := hext
          simp [writeLongRecords,hlong,hext']
        exact iff_of_true (.of_records hfound hblock hfailed)
          ⟨fun hno => absurd hno hasks,by simp [hsize],by simp [hsize]⟩
      · have hsize : recordsSize b.options header (longlinkPath c.memberName c.st) = some 0 := by
          rw [recordsSize,if_neg hlong]
        have hrecords : writeLongRecords (memberStart b c.src c.memberName c.st) header c.memberName
            c.st = (true,memberStart b c.src c.memberName c.st) := by
          simp [writeLongRecords,hlong]
        by_cases hclosed : b.out.buf.fd = 0 ∨ b.out.buf.size = 0
        · refine iff_of_false (fun hloud => ?_) fun hheard => ?_
          · exact hloud.own header hfound _ hrecords (hnoblock.mpr (Or.inl hclosed))
          · exact absurd (hheard.own 0 hsize (Or.inl hclosed)).1 (lt_irrefl 0)
        · exact loud_recorded hfound hblock (fun hno => absurd hno hasks) hsize hrecords
            (.refl (halign hclosed)) fun hpos => absurd hpos (lt_irrefl 0)

/-- A call reports its failures if and only if the lengths of the member, how full the buffer is and
the answers to come keep it from the exits that hide one. -/
theorem reports_iff {n : ℕ} {b : BBuilder} (h : b.out.InBlocks n) (c : MemberCall) :
    Reports b c ↔ ∀ header ∈ memberHeader b.userLookup b.hardlinkCache c.src c.memberName c.st,
      Heard b c header :=
  (reports_iff_loud b c).trans (loud_iff_heard h c)

def fullBuilder : BBuilder :=
  (bBuilderWriteFile { bBuilderNew ⟨false,1⟩ 1 ⟨[],[.fail (.other 28)],[],.ok⟩
      ⟨true,false,false,false,true,false,false⟩ none with
    out := opened 1 5 false none ⟨[],[.fail (.other 28)],[],.ok⟩ }
    [47,97] [97] ⟨sIfdir+0o755,0,0,0,0,0,0,7,1⟩ 6 ⟨.ok [],[],⟨[],[]⟩⟩).2

/-- The next member fails without an error, and `b_find` goes on to the one behind it. -/
theorem not_reports_fullDevice : ¬Reports fullBuilder
    ⟨[47,98],[98],⟨sIfreg+0o644,0,0,0,0,0,0,8,1⟩,6,⟨.ok [],[],⟨[],[]⟩⟩⟩ :=
  not_reports_silent (by decide +kernel) (by decide +kernel)

theorem reports_iff_fullDevice : Reports fullBuilder
    ⟨[47,98],[98],⟨sIfreg+0o644,0,0,0,0,0,0,8,1⟩,6,⟨.ok [],[],⟨[],[]⟩⟩⟩ ↔
      ∀ header ∈ memberHeader fullBuilder.userLookup fullBuilder.hardlinkCache ⟨.ok [],[],⟨[],[]⟩⟩ [98]
        ⟨sIfreg+0o644,0,0,0,0,0,0,8,1⟩, Heard fullBuilder
          ⟨[47,98],[98],⟨sIfreg+0o644,0,0,0,0,0,0,8,1⟩,6,⟨.ok [],[],⟨[],[]⟩⟩⟩ header :=
  reports_iff (n := 512) ⟨by decide +kernel,by decide +kernel,by decide +kernel,by decide +kernel,
    by decide +kernel⟩ _

end ArchiveTarBuilder
