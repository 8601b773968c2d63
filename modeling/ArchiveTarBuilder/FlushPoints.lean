import ArchiveTarBuilder.SizeFields
import ArchiveTarBuilder.TwoBlockReader
import ArchiveTarBuilder.RelatedTraversals

/-! `flush` between members. It hands over the whole buffer, so the part of it that is not in use
comes between the members as zeros; a run with flushes is compared with the run without them. -/
namespace ArchiveTarBuilder
open Region CString Output

namespace Attempt

def contents (t : Attempt) (header : BHeader) : Bytes :=
  if header.isIfreg then t.call.src.file.contents.take header.size else []

def member (t : Attempt) : Option TarMember :=
  t.header.bind fun header => (t.records header).map fun _ =>
    ArchiveTarBuilder.member (bHeaderEncodeBlock t.builder.process .zero header) (t.contents header)
      (recordedPath t.builder.options header (longlinkPath t.call.memberName t.call.st))
      (recordedLink t.builder.options header)

def verdict (t : Attempt) : Bool × BErrorType :=
  match t.header with
  | none => (false,
      match (headerForFile t.builder.hardlinkCache t.call.src t.call.memberName t.call.st).1 with
      | .error _ => .fatal
      | .ok _ => .warn)
  | some header => if (t.records header).isSome then (true,.ok) else (false,.warn)

/-- Nothing goes wrong with the contents, at whatever fill of the buffer the call is made. -/
structure Intact (t : Attempt) : Prop where
  separate : t.Separate
  recordable : t.Recordable
  size : t.call.st.size < 2^64
  data : ∀ header ∈ t.header, ∀ records ∈ t.records header, header.isIfreg = true →
    header.size = 0 ∨ (0 < t.call.fd ∧ Delivers t.builder.out (records.length+512)
      (freeBehind t.builder.out (records.length+512)) t.call.src.file header.size)

end Attempt

theorem memberBlocks {p : Process} {options : BBuilderOptions} {header : BHeader}
    {cache : Option HardlinkCache} {src : Source} {memberName : Bytes} {st : Stat}
    (hof : HeaderOf cache src memberName st header)
    (hok : Recordable options header (longlinkPath memberName st)) {records data : Bytes}
    (hrec : extensionRecords p options header (longlinkPath memberName st) = some records)
    (hboth : ¬GnuBothLong options header) (hsize : header.size < 2^64)
    (hdata : data.length = if header.isIfreg then header.size else 0) :
    MemberBlocks (member (bHeaderEncodeBlock p .zero header) data
      (recordedPath options header (longlinkPath memberName st)) (recordedLink options header))
      (records ++ (ownHeader p header ++ pad512 data)) := by
  obtain ⟨htype,hhas⟩ := hof.linktype
  have hdsize : (bHeaderEncodeBlock p .zero header).dataSize =
      if header.isIfreg then header.size else 0 := by
    rw [BHeaderBlock.dataSize,encodeBlock_linktype,hhas,encodeBlock_size p header hsize]
  exact .mk (recorded_extensionRecords hrec hboth (fun hl => hof.linkdest_isSome hl) hok)
    (encodeBlock_valid _ _ _) (hdsize.trans hdata.symm) htype

structure Attempt.Leaves (t : Attempt) : Prop where
  ready : t.after.out.Ready
  absent : t.member = none → t.after.out.stream = t.builder.out.stream ∧
    t.after.out.buf = t.builder.out.buf
  written : ∀ m ∈ t.member, ∃ bytes, t.Adds bytes ∧ MemberBlocks m bytes

/-- What a call with nothing wrong about its contents comes to. -/
def Attempt.Ends (t : Attempt) : Prop := (t.returned,t.after.err.type) = t.verdict ∧ t.Leaves

section
variable {t : Attempt} (hin : t.Intact) (h : t.builder.out.Ready)
include hin h

theorem Attempt.Intact.unheaded (hh : t.header = none) : t.Ends := by
  obtain ⟨hfail,⟨e,hout⟩,htype,-⟩ := bBuilderWriteFile_none t.call.path t.call.fd hh
  refine ⟨?_,(Attempt.adds h hin.separate).1,fun _ => ?_,by simp [member,hh]⟩
  · rw [verdict,hh]
    exact Prod.ext hfail htype
  · rw [after,MemberCall.write,hout]
    exact ⟨stream_setErrno _ _,rfl⟩

theorem Attempt.Intact.unrecorded {header : BHeader} (hh : t.header = some header)
    (hrec : t.records header = none) : t.Ends := by
  obtain ⟨hok,hshort⟩ := hin.recordable header hh
  have hpax := computePaxLength_ne hok.path (by decide : pathKey.length ≤ 8) hshort
  have hnone := writeLongRecords_none
    (b := memberStart t.builder t.call.src t.call.memberName t.call.st) hrec hpax
  have hwrite : t.call.write t.builder = (false,((memberStart t.builder t.call.src
      t.call.memberName t.call.st).setErrno .enametoolong).setError .warn "File name too long"
      t.call.memberName) := by
    rw [MemberCall.write,bBuilderWriteFile_some t.call.path t.call.fd hh]
    simp only [writeMember,andWrite,hnone,Bool.false_eq_true,if_false]
  refine ⟨?_,(Attempt.adds h hin.separate).1,fun _ => ?_,by simp [member,hh,hrec]⟩
  · rw [verdict,hh]
    simp only [hrec,Option.isSome_none,Bool.false_eq_true,if_false,returned,after,hwrite]
    rfl
  · rw [after,hwrite]
    exact ⟨rfl,rfl⟩

theorem Attempt.Intact.recorded {header : BHeader} (hh : t.header = some header) {records : Bytes}
    (hrec : t.records header = some records) : t.Ends := by
  obtain ⟨hok,-⟩ := hin.recordable header hh
  have hboth := hin.separate header hh
  have hof := memberHeader_of hh
  obtain ⟨b',hm,hheaded⟩ := headed_writesContents h hh hboth hrec
  have hbehind := unused_eq_freeBehind h.toAligned hm.wrote.added hm.used
  rw [List.length_append,ownHeader,BHeaderBlock.toBytes_length] at hbehind
  obtain ⟨hsome,hstream,hlen⟩ := hm.delivers h (hin.data header hh records hrec)
  obtain ⟨hfst,-,data,hdata,hadded⟩ := hm.stream
  obtain rfl := List.append_cancel_left (hdata.symm.trans hstream)
  have herr : t.after.err.type = .ok := by
    have hrest := hm.wrote.rest
    rw [after,hm.result,writeContents_eq]
    cases hcontents : contentsOf b'.out header t.call.fd t.call.src.file with
    | mk count out =>
      rw [hcontents] at hsome
      cases count with
      | none => cases hsome
      | some n =>
        simp only
        rw [hrest]
        rfl
  refine ⟨?_,(Attempt.adds h hin.separate).1,by simp [member,hh,hrec],fun m hmem => ?_⟩
  · rw [verdict,hh,herr]
    simp only [hrec,Option.isSome_some,if_true,returned,hfst,hsome]
  · obtain rfl : _ = m := by simpa [member,hh,hrec] using hmem
    have hbytes : t.Adds (records ++ (ownHeader t.builder.process header ++
        pad512 (t.contents header))) := by
      rw [Adds,after,hadded,List.append_assoc,List.append_assoc]
      rfl
    exact ⟨_,hbytes,memberBlocks hof hok hrec hboth (hof.size_le.trans_lt hin.size) hlen⟩

/-- A call with nothing wrong about its contents does what its member and the options say. -/
theorem Attempt.Intact.spec : t.Ends := by
  cases hh : t.header with
  | none => exact hin.unheaded h hh
  | some header =>
    cases hrec : t.records header with
    | none => exact hin.unrecorded h hh hrec
    | some records => exact hin.recorded h hh hrec

end

structure BBuilder.Alike (b b' : BBuilder) : Prop where
  ready : b.out.Ready
  ready' : b'.out.Ready
  rest : b' = { b with out := b'.out, total := b'.total, err := b'.err }
  err : b'.err.type = b.err.type

theorem BBuilder.Alike.member {b b' : BBuilder} (h : b.Alike b') (c : MemberCall) :
    (⟨b',c⟩ : Attempt).header = (⟨b,c⟩ : Attempt).header ∧
      (⟨b',c⟩ : Attempt).verdict = (⟨b,c⟩ : Attempt).verdict ∧
      (⟨b',c⟩ : Attempt).member = (⟨b,c⟩ : Attempt).member := by
  rw [h.rest]
  exact ⟨rfl,rfl,rfl⟩

theorem BBuilder.Alike.write {b b' : BBuilder} (h : b.Alike b') {c : MemberCall}
    (hin : (⟨b,c⟩ : Attempt).Intact) (hin' : (⟨b',c⟩ : Attempt).Intact) :
    (c.write b).1 = (c.write b').1 ∧ (c.write b).2.Alike (c.write b').2 := by
  obtain ⟨hverdict,hleaves⟩ := hin.spec h.ready
  obtain ⟨hverdict',hleaves'⟩ := hin'.spec h.ready'
  have hsame := hverdict.trans ((h.member c).2.1.symm.trans hverdict'.symm)
  obtain ⟨hreturned,herr⟩ := Prod.mk.inj hsame
  refine ⟨hreturned,hleaves.ready,hleaves'.ready,?_,herr.symm⟩
  have hrest : (c.write b).2 = _ :=
    (bBuilderWriteFile_keeps b c.path c.memberName c.st c.fd c.src).rest
  have hrest' : (c.write b').2 = _ :=
    (bBuilderWriteFile_keeps b' c.path c.memberName c.st c.fd c.src).rest
  have hstart : memberStart b' c.src c.memberName c.st =
      { memberStart b c.src c.memberName c.st with
        out := b'.out, total := b'.total, err := bErrorClear b'.err } := by
    rw [h.rest]
    rfl
  rw [hstart] at hrest'
  rw [hrest',hrest]

section
variable {μ : Type*} (engine : MatchEngine μ)

structure Archiver.Alike (a a' : Archiver μ) : Prop where
  matching : a'.matching = a.matching
  builder : a.builder.Alike a'.builder

theorem builderWorld_relates : (builderWorld engine).Relates (builderWorld engine) Archiver.Alike
    (fun c => c.attempt.Intact) fun c => c.attempt.Intact where
  excluded {s t} h path := by
    simp only [builderWorld,h.matching]
    exact ⟨trivial,rfl,h.builder⟩
  setError {s t} h type errno message path :=
    ⟨h.matching,h.builder.ready.setErrno errno,h.builder.ready'.setErrno errno,
      by simp only [builderWorld]; rw [h.builder.rest],rfl⟩
  setErrno {s t} h errno := ⟨h.matching,h.builder.ready.setErrno errno,h.builder.ready'.setErrno errno,
    by simp only [builderWorld,BBuilder.setErrno]; rw [h.builder.rest],h.builder.err⟩
  fatal {s t} h := by simp only [builderWorld,bErrorFatal,h.builder.err]
  callback {s t} h path memberName st fd src hs ht := by
    obtain ⟨hret,hafter⟩ := h.builder.write (c := ⟨path,memberName,st,fd,src⟩) hs ht
    simp only [MemberCall.write] at hret hafter
    simp only [builderWorld,hret]
    exact ⟨trivial,h.matching,hafter⟩

def written (ts : List Attempt) : List TarMember := ts.filterMap Attempt.member

theorem written_append (ts us : List Attempt) : written (ts ++ us) = written ts ++ written us :=
  List.filterMap_append

theorem written_alike {calls calls' : List (FindCall (Archiver μ))}
    (h : List.Forall₂ (FindCall.Alike Archiver.Alike) calls calls') :
    written (calls'.map FindCall.attempt) = written (calls.map FindCall.attempt) := by
  induction h with
  | nil => rfl
  | @cons c c' calls calls' hc _ ih =>
    have hmember := (hc.world.builder.member
      ⟨c.path,c.memberName,c.st,c.fd,c.source⟩).2.2
    have hattempt : c'.attempt = ⟨c'.world.builder,⟨c.path,c.memberName,c.st,c.fd,c.source⟩⟩ := by
      rw [hc.rest]
      rfl
    unfold written at ih ⊢
    simp only [List.map_cons,List.filterMap_cons,ih,hattempt,hmember]
    rfl

theorem archiveArgs_alike (args : List ArchiveArg) {a a' : Archiver μ} (h : a.Alike a')
    (hin : ∀ t ∈ argsAttempts engine args a, t.Intact)
    (hin' : ∀ t ∈ argsAttempts engine args a', t.Intact) :
    written (argsAttempts engine args a') = written (argsAttempts engine args a) ∧
      (archiveArgs engine args a).2.Alike (archiveArgs engine args a').2 := by
  induction args generalizing a a' with
  | nil => exact ⟨rfl,h⟩
  | cons arg args ih =>
    have hoptions : a'.builder.options = a.builder.options := by rw [h.builder.rest]
    have hgood {b : Archiver μ} (hb : ∀ t ∈ argsAttempts engine (arg::args) b, t.Intact) :
        ∀ c ∈ (archiveFind engine b arg).2.trace, c.attempt.Intact := fun c hc =>
      hb _ (List.mem_append_left _ (List.mem_map_of_mem hc))
    have hfind : archiveFind engine a' arg = bFind (builderWorld engine)
        (findFlags a.builder.options) arg.path arg.memberName arg.tree a' := by
      rw [archiveFind,hoptions]
    obtain ⟨hret,hcalls,hworld⟩ : (archiveFind engine a arg).1 = (archiveFind engine a' arg).1 ∧
        List.Forall₂ (FindCall.Alike Archiver.Alike) (archiveFind engine a arg).2.trace
          (archiveFind engine a' arg).2.trace ∧
        (archiveFind engine a arg).2.world.Alike (archiveFind engine a' arg).2.world := by
      have hgood' := hgood hin'
      rw [hfind] at hgood' ⊢
      exact bFind_together _ (builderWorld_relates engine) arg.path arg.memberName arg.tree h
        (hgood hin) hgood'
    have hwritten := written_alike hcalls
    simp only [argsAttempts,archiveArgs] at hin hin' ⊢
    rw [← hret] at hin' ⊢
    by_cases hneg : (archiveFind engine a arg).1 < 0
    · simp only [if_pos hneg,List.append_nil]
      exact ⟨hwritten,hworld⟩
    · simp only [if_neg hneg] at hin hin' ⊢
      obtain ⟨hmore,hafter⟩ := ih hworld (fun t ht => hin t (List.mem_append_right _ ht))
        (fun t ht => hin' t (List.mem_append_right _ ht))
      rw [written_append,written_append,hwritten,hmore]
      exact ⟨rfl,hafter⟩

theorem perform_alike {m : Method} (hm : m.archives = true) {a a' : Archiver μ} (h : a.Alike a')
    (hin : ∀ t ∈ m.attempts engine a, t.Intact) (hin' : ∀ t ∈ m.attempts engine a', t.Intact) :
    written (m.attempts engine a') = written (m.attempts engine a) ∧
      (m.perform engine a).2.Alike (m.perform engine a').2 := by
  have has (args : List ArchiveArg) (hin : ∀ t ∈ archiveAsAttempts engine args a, t.Intact)
      (hin' : ∀ t ∈ archiveAsAttempts engine args a', t.Intact) :
      written (archiveAsAttempts engine args a') = written (archiveAsAttempts engine args a) ∧
        (builderArchiveAs engine args a).2.Alike (builderArchiveAs engine args a').2 := by
    have hfd : a.builder.out.buf.fd ≠ 0 := h.builder.ready.handle
    have hfd' : a'.builder.out.buf.fd ≠ 0 := h.builder.ready'.handle
    simp only [archiveAsAttempts,builderArchiveAs,if_neg hfd,if_neg hfd'] at hin hin' ⊢
    exact archiveArgs_alike engine args h hin hin'
  cases m with
  | archive files =>
    have hargs := has (files.map fun file : Bytes × Tree => ⟨file.1,file.1,file.2⟩) hin hin'
    simp only [Method.attempts,Method.perform,builderArchive]
    refine ⟨hargs.1,?_⟩
    split
    · exact h
    · exact hargs.2
  | archiveAs args => exact has args hin hin'
  | setHandle fd fifo release sys => cases hm
  | flush => cases hm
  | finish => cases hm

/-- A flush changes the output only: the free part of a buffer in use gets into the stream. -/
theorem flush_perform {a : Archiver μ} (h : a.builder.out.Ready) :
    ∃ out, (Method.flush.perform engine a).2 = a.setOut out ∧ out.Ready ∧
      out.stream = a.builder.out.stream ++ zeros a.builder.out.pendingZeros ∧
      out.pendingZeros = 0 := by
  obtain ⟨-,hacc⟩ := h.flush_accepted
  obtain ⟨ret,sys',hflush,hret,-,hrel,-⟩ := h.flush
  rw [hflush] at hacc
  refine ⟨⟨a.builder.out.buf.emptied,sys'⟩,?_,⟨h.toAligned.emptied sys',hrel⟩,?_,if_pos rfl⟩
  · simp only [Method.perform,builderFlush,if_neg h.handle,hflush]
    split <;> rfl
  · rw [stream_of_empty rfl]
    exact hacc

theorem flush_alike {a a' : Archiver μ} (h : a.Alike a') :
    (Method.flush.perform engine a).2.Alike a' := by
  obtain ⟨out,hperform,hready,-,-⟩ := flush_perform engine h.builder.ready
  rw [hperform]
  exact ⟨h.matching,hready,h.builder.ready',h.builder.rest,h.builder.err⟩

/-- The methods of a run between `set_handle` and `finish`. -/
def Method.Inner (m : Method) : Prop := m.archives = true ∨ m = .flush

theorem Method.Inner.starts {m : Method} (h : m.Inner) : m.starts = false := by
  rcases h with harchives | rfl
  · exact Method.starts_of_archives harchives
  · rfl

theorem runMethods_cons {m : Method} {ms : List Method} (hms : ∀ m' ∈ m::ms, m'.Inner)
    (a : Archiver μ) :
    (runMethods engine (m::ms) a).archiver =
        (runMethods engine ms (m.perform engine a).2).archiver ∧
      (runMethods engine (m::ms) a).attempts =
        m.attempts engine a ++ (runMethods engine ms (m.perform engine a).2).attempts := by
  have hfold (ms : List Method) (hms : ∀ m ∈ ms, m.Inner) (r : Run μ) :
      (ms.foldl (Run.after engine) r).archiver = (runMethods engine ms r.archiver).archiver ∧
        (ms.foldl (Run.after engine) r).attempts =
          r.attempts ++ (runMethods engine ms r.archiver).attempts := by
    induction ms generalizing r with
    | nil => exact ⟨rfl,(List.append_nil _).symm⟩
    | cons m ms ih =>
      have hstarts := (hms m (by simp)).starts
      obtain ⟨harchiver,hattempts⟩ := ih (fun m' hm' => hms m' (by simp [hm'])) (r.after engine m)
      obtain ⟨harchiver',hattempts'⟩ :=
        ih (fun m' hm' => hms m' (by simp [hm'])) (Run.after engine ⟨r.archiver,[],[]⟩ m)
      simp only [List.foldl_cons,runMethods]
      rw [harchiver,harchiver',hattempts,hattempts']
      simp only [Run.after,hstarts,Bool.false_eq_true,if_false,List.nil_append,List.append_assoc]
      exact ⟨trivial,trivial⟩
  have hstarts := (hms m (by simp)).starts
  obtain ⟨harchiver,hattempts⟩ :=
    hfold ms (fun m' hm' => hms m' (by simp [hm'])) (Run.after engine ⟨a,[],[]⟩ m)
  simp only [runMethods,List.foldl_cons]
  rw [harchiver,hattempts]
  simp only [Run.after,hstarts,Bool.false_eq_true,if_false,List.nil_append]
  exact ⟨rfl,rfl⟩

theorem written_filter (ms : List Method) (hms : ∀ m ∈ ms, m.Inner) {a a' : Archiver μ}
    (h : a.Alike a') (hin : ∀ t ∈ (runMethods engine ms a).attempts, t.Intact)
    (hin' : ∀ t ∈ (runMethods engine (ms.filter Method.archives) a').attempts, t.Intact) :
    written (runMethods engine (ms.filter Method.archives) a').attempts =
      written (runMethods engine ms a).attempts := by
  induction ms generalizing a a' with
  | nil => rfl
  | cons m ms ih =>
    have hmore : ∀ m' ∈ ms, m'.Inner := fun m' hm' => hms m' (by simp [hm'])
    rw [(runMethods_cons engine hms a).2] at hin ⊢
    rcases hms m (by simp) with harchives | rfl
    · have hfilter : (m::ms).filter Method.archives = m::ms.filter Method.archives := by
        simp [harchives]
      have hinner : ∀ m' ∈ m::ms.filter Method.archives, m'.Inner :=
        List.forall_mem_cons.mpr ⟨Or.inl harchives,fun m' hm' => Or.inl (List.mem_filter.mp hm').2⟩
      rw [hfilter] at hin' ⊢
      rw [(runMethods_cons engine hinner a').2] at hin' ⊢
      obtain ⟨hwritten,hafter⟩ := perform_alike engine harchives h
        (fun t ht => hin t (List.mem_append_left _ ht)) (fun t ht => hin' t (List.mem_append_left _ ht))
      rw [written_append,written_append,hwritten,ih hmore hafter
        (fun t ht => hin t (List.mem_append_right _ ht))
        (fun t ht => hin' t (List.mem_append_right _ ht))]
    · exact ih hmore (flush_alike engine h) (fun t ht => hin t (List.mem_append_right _ ht)) hin'

end

/-- The blocks of the members that a traversal writes; without any the buffer stays as it is. -/
theorem Works.memberBlocks {b b' : BBuilder} {ts : List Attempt} (h : Works b ts b')
    (hb : b.out.Ready) (hin : ∀ t ∈ ts, t.Intact) :
    b'.out.Ready ∧ (written ts = [] → b'.out.pendingZeros = b.out.pendingZeros) ∧
      ∃ blocks, List.Forall₂ MemberBlocks (written ts) blocks ∧
        b'.out.stream = b.out.stream ++ blocks.flatten := by
  induction h with
  | idle => exact ⟨hb,fun _ => rfl,[],.nil,by simp⟩
  | report h e message path ih => exact ih hin
  | fail h e ih =>
    obtain ⟨hready,hrest⟩ := ih hin
    exact ⟨hready.setErrno e,hrest⟩
  | @write ts b' h c ih =>
    obtain ⟨hready,hpending,blocks,hblocks,hstream⟩ := ih fun t ht => hin t (by simp [ht])
    obtain ⟨-,hready',habsent,hwritten⟩ := (hin ⟨b',c⟩ (by simp)).spec hready
    rw [written_append]
    cases hm : (⟨b',c⟩ : Attempt).member with
    | none =>
      obtain ⟨hsame,hbuf⟩ := habsent hm
      have hnone : written [⟨b',c⟩] = [] := by simp [written,hm]
      rw [hnone,List.append_nil]
      refine ⟨hready',fun hnil => ?_,blocks,hblocks,hsame.trans hstream⟩
      rw [← hpending hnil,Output.pendingZeros,Output.pendingZeros]
      exact congrArg (fun buf : BBuffer => if buf.unused = buf.size then 0 else buf.unused) hbuf
    | some m =>
      obtain ⟨bytes,hbytes,hmember⟩ := hwritten m hm
      have hone : written [⟨b',c⟩] = [m] := by simp [written,hm]
      rw [hone]
      refine ⟨hready',fun hnil => by simp at hnil,blocks ++ [bytes],
        List.rel_append hblocks (.cons hmember .nil),?_⟩
      rw [List.flatten_append,List.flatten_singleton,← List.append_assoc,← hstream]
      exact hbytes

section
variable {μ : Type*} (engine : MatchEngine μ)

/-- Every flush of a run hands over one free block at most, or stands behind the last member. -/
def FlushHarmless : List Method → Archiver μ → Prop
  | [], _ => True
  | m::ms, a =>
    (m = .flush → a.builder.out.pendingZeros ≤ 512 ∨
      written (runMethods engine ms (m.perform engine a).2).attempts = []) ∧
    FlushHarmless ms (m.perform engine a).2

theorem flushHarmless_of_archives (ms : List Method) (hms : ∀ m ∈ ms, m.archives = true)
    (a : Archiver μ) : FlushHarmless engine ms a := by
  induction ms generalizing a with
  | nil => trivial
  | cons m ms ih =>
    refine ⟨?_,ih (fun m' hm' => hms m' (by simp [hm'])) _⟩
    rintro rfl
    exact absurd (hms .flush (by simp)) (by decide)

theorem flushHarmless_of_written (ms : List Method) (hms : ∀ m ∈ ms, m.Inner) {a : Archiver μ}
    (hnone : written (runMethods engine ms a).attempts = []) : FlushHarmless engine ms a := by
  induction ms generalizing a with
  | nil => trivial
  | cons m ms ih =>
    rw [(runMethods_cons engine hms a).2,written_append,List.append_eq_nil_iff] at hnone
    exact ⟨fun _ => Or.inr hnone.2,ih (fun m' hm' => hms m' (by simp [hm'])) hnone.2⟩

end

theorem pendingZeros_block {o : Output} (h : o.Ready) : 512 ∣ o.pendingZeros := by
  unfold Output.pendingZeros
  split
  · exact dvd_zero 512
  · exact h.unusedBlock

theorem readsPast_zeros {n : ℕ} (hn : 512 ∣ n) : ReadsPast none none (zeros n) [] := by
  rcases Nat.lt_or_ge n 1024 with hlt | hge
  · obtain rfl | rfl : n = 0 ∨ n = 512 := by omega
    · exact readsPast_nil none none
    · have hlone := (readsPast_nil none none).lone (by decide : ([] : Bytes).take 512 ≠ zeros 512)
      rwa [List.append_nil] at hlone
  · have hend := readsPast_end hge []
    rwa [List.append_nil] at hend

theorem readsPast_behind {c : ℕ} (hc : c = 0 ∨ c = 512) {m : TarMember} {ms : List TarMember}
    {blocks : List Bytes} {rest : Bytes} {members : List TarMember}
    (h : List.Forall₂ MemberBlocks (m::ms) blocks) (hrest : ReadsPast none none rest members) :
    ReadsPast none none (zeros c ++ (blocks.flatten ++ rest)) (m::ms ++ members) := by
  have hread := readsPast_members h hrest
  rcases hc with rfl | rfl
  · exact hread
  · cases h with
    | cons hm _ =>
      refine hread.lone ?_
      rw [List.flatten_cons,List.append_assoc]
      exact hm.take_ne_zeros _

section
variable {μ : Type*} (engine : MatchEngine μ)

/-- What a reader makes of the part of the stream that some methods add and the zeros at the end,
when a zero block or none is in front of it. -/
structure ReadBack (ms : List Method) (a : Archiver μ) (added : Bytes) : Prop where
  ready : (runMethods engine ms a).archiver.builder.out.Ready
  stream : (runMethods engine ms a).archiver.builder.out.stream = a.builder.out.stream ++ added
  members (c : ℕ) (hc : c = 0 ∨ (c = 512 ∧ a.builder.out.pendingZeros = 0)) :
    ∃ members, ReadsPast none none (zeros c ++ (added ++
        zeros (runMethods engine ms a).archiver.builder.out.pendingZeros)) members ∧
      (members = written (runMethods engine ms a).attempts ↔ FlushHarmless engine ms a)

variable {engine} {ms : List Method} {a : Archiver μ}

theorem ReadBack.archives {m : Method} (hm : m.archives = true) (hms : ∀ m' ∈ ms, m'.Inner)
    (hready : a.builder.out.Ready) (hin : ∀ t ∈ m.attempts engine a, t.Intact)
    (ih : ∀ a' : Archiver μ, a' = (m.perform engine a).2 → a'.builder.out.Ready →
      ∃ added, ReadBack engine ms a' added) :
    ∃ added, ReadBack engine (m::ms) a added := by
  obtain ⟨hready',hpending,blocks,hblocks,hstream⟩ :=
    ((m.perform_performs engine a).works hm).memberBlocks hready hin
  obtain ⟨added,hend,hadded,hmembers⟩ := ih _ rfl hready'
  obtain ⟨harchiver,hattempts⟩ :=
    runMethods_cons engine (List.forall_mem_cons.mpr ⟨Or.inl hm,hms⟩) a
  have hharmless : FlushHarmless engine (m::ms) a ↔
      FlushHarmless engine ms (m.perform engine a).2 := by
    refine and_iff_right ?_
    rintro rfl
    cases hm
  refine ⟨blocks.flatten ++ added,by rwa [harchiver],?_,fun c hc => ?_⟩
  · rw [harchiver,hadded,hstream,List.append_assoc]
  · rw [harchiver,hattempts,written_append,hharmless,List.append_assoc]
    cases hw : written (m.attempts engine a) with
    | nil =>
      rw [hw] at hblocks
      cases hblocks
      obtain ⟨members,hread,hiff⟩ := hmembers c (hc.imp id fun h => ⟨h.1,(hpending hw).trans h.2⟩)
      exact ⟨members,hread,hiff⟩
    | cons first more =>
      rw [hw] at hblocks
      obtain ⟨members,hread,hiff⟩ := hmembers 0 (Or.inl rfl)
      refine ⟨_,readsPast_behind (hc.imp id And.left) hblocks hread,?_⟩
      rw [← hiff]
      exact List.append_right_inj _

/-- A flush in front: two free blocks are an end marker, fewer are stepped over. -/
theorem ReadBack.flush (hms : ∀ m ∈ ms, m.Inner) (hready : a.builder.out.Ready)
    (ih : ∀ a' : Archiver μ, a' = (Method.flush.perform engine a).2 → a'.builder.out.Ready →
      ∃ added, ReadBack engine ms a' added) :
    ∃ added, ReadBack engine (.flush::ms) a added := by
  obtain ⟨out,hperform,hout,hstream,hzero⟩ := flush_perform engine hready
  obtain ⟨added,hend,hadded,hmembers⟩ := ih _ rfl (by rw [hperform]; exact hout)
  obtain ⟨harchiver,hattempts⟩ :=
    runMethods_cons engine (List.forall_mem_cons.mpr ⟨Or.inr rfl,hms⟩) a
  have hblock := pendingZeros_block hready
  refine ⟨zeros a.builder.out.pendingZeros ++ added,by rwa [harchiver],?_,fun c hc => ?_⟩
  · rw [harchiver,hadded,hperform,← List.append_assoc]
    exact congrArg (· ++ added) hstream
  · have hzeros : zeros c ++ (zeros a.builder.out.pendingZeros ++ added ++
        zeros (runMethods engine (.flush::ms) a).archiver.builder.out.pendingZeros) =
        zeros (c+a.builder.out.pendingZeros) ++ (added ++
          zeros (runMethods engine ms (Method.flush.perform engine a).2).archiver.builder.out.pendingZeros) := by
      rw [harchiver,zeros_add,List.append_assoc,List.append_assoc]
    have hsame : written (runMethods engine (.flush::ms) a).attempts =
        written (runMethods engine ms (Method.flush.perform engine a).2).attempts := by
      rw [hattempts]
      rfl
    rw [hzeros,hsame]
    rcases Nat.lt_or_ge 512 (c+a.builder.out.pendingZeros) with hmarker | hfew
    · refine ⟨[],readsPast_end (by omega) _,fun hnil => ?_,fun hharmless => ?_⟩
      · exact ⟨fun _ => Or.inr hnil.symm,flushHarmless_of_written engine ms hms hnil.symm⟩
      · rcases hharmless.1 rfl with hfree | hnone
        · omega
        · exact hnone.symm
    · obtain ⟨members,hread,hiff⟩ := hmembers (c+a.builder.out.pendingZeros) (by
        rcases Nat.eq_zero_or_pos (c+a.builder.out.pendingZeros) with hnone | hsome
        · exact Or.inl hnone
        · exact Or.inr ⟨by omega,by rw [hperform]; exact hzero⟩)
      exact ⟨members,hread,hiff.trans ⟨fun h => ⟨fun _ => Or.inl (by omega),h⟩,And.right⟩⟩

/-- What a run of archiving methods and flushes adds is read back up to its first harmful flush. -/
theorem runMethods_readBack (ms : List Method) (hms : ∀ m ∈ ms, m.Inner) {a : Archiver μ}
    (hready : a.builder.out.Ready) (hin : ∀ t ∈ (runMethods engine ms a).attempts, t.Intact) :
    ∃ added, ReadBack engine ms a added := by
  induction ms generalizing a with
  | nil =>
    refine ⟨[],hready,(List.append_nil _).symm,fun c hc => ⟨[],?_,iff_of_true rfl trivial⟩⟩
    rw [List.nil_append,← zeros_add]
    have hblock := pendingZeros_block hready
    exact readsPast_zeros (Nat.dvd_add (by rcases hc with rfl | ⟨rfl,-⟩ <;> decide) hblock)
  | cons m ms ih =>
    have hmore : ∀ m' ∈ ms, m'.Inner := fun m' hm' => hms m' (by simp [hm'])
    rw [(runMethods_cons engine hms a).2] at hin
    have hrest (a' : Archiver μ) (ha' : a' = (m.perform engine a).2)
        (hready' : a'.builder.out.Ready) : ∃ added, ReadBack engine ms a' added := by
      subst ha'
      exact ih hmore hready' fun t ht => hin t (List.mem_append_right _ ht)
    rcases hms m (by simp) with harchives | rfl
    · exact ReadBack.archives harchives hmore hready (fun t ht => hin t (List.mem_append_left _ ht)) hrest
    · exact ReadBack.flush hmore hready hrest

theorem readTar_delivered (ms : List Method) (hms : ∀ m ∈ ms, m.Inner) {start : Archiver μ}
    (hready : start.builder.out.Ready) (hempty : start.builder.out.stream = [])
    (hin : ∀ t ∈ (runMethods engine ms start).attempts, t.Intact) :
    ∃ members, readTar (delivered (runMethods engine ms start).archiver) = some members ∧
      (members = written (runMethods engine ms start).attempts ↔ FlushHarmless engine ms start) := by
  obtain ⟨added,hready',hstream,hmembers⟩ := runMethods_readBack ms hms hready hin
  obtain ⟨members,hread,hiff⟩ := hmembers 0 (Or.inl rfl)
  rw [hempty,List.nil_append] at hstream
  rw [delivered_eq hready',hstream]
  exact ⟨members,hread.readTar,hiff⟩

variable (engine)

/-- A run with flushes gives a reader the members of the run without them, exactly when no flush
hands over two free blocks before a member. -/
theorem flush_transparent_iff (ms : List Method) (hms : ∀ m ∈ ms, m.Inner) (p : Process)
    {blockFactor : ℕ} (hf : 1 ≤ blockFactor) (hbig : 512*blockFactor < 2^63)
    (options : BBuilderOptions) (userLookup : Option BUserLookup) (matching : μ) {fd : ℤ}
    (hfd : fd ≠ 0) (fifo : Bool) (release : Option (ℕ × ℕ × ℕ)) {sys : Sys} (hsys : sys.Reliable)
    (hfresh : sys.accepted = []) {start : Archiver μ} (hstart : start = builderSetHandle fd fifo
      release sys (newArchiver p blockFactor options userLookup matching)) {r plain : Run μ}
    (hr : r = runMethods engine ms start)
    (hplain : plain = runMethods engine (ms.filter Method.archives) start)
    (hin : ∀ t ∈ r.attempts, t.Intact) (hin' : ∀ t ∈ plain.attempts, t.Intact) :
    ∃ members, readTar (delivered plain.archiver) = some members ∧
      (readTar (delivered r.archiver) = some members ↔ FlushHarmless engine ms start) := by
  subst hr hplain
  obtain ⟨-,hready,hempty⟩ := newArchiver_opened p hf hbig options userLookup matching hfd fifo
    release hsys hfresh hstart
  have hfilter : ∀ m ∈ ms.filter Method.archives, m.archives = true :=
    fun m hm => (List.mem_filter.mp hm).2
  have hsame := written_filter engine ms hms ⟨rfl,hready,hready,rfl,rfl⟩ hin hin'
  obtain ⟨members,hread,hiff⟩ := readTar_delivered ms hms hready hempty hin
  obtain ⟨members',hread',hiff'⟩ := readTar_delivered (ms.filter Method.archives)
    (fun m hm => Or.inl (hfilter m hm)) hready hempty hin'
  have hmembers' := hiff'.mpr (flushHarmless_of_archives engine _ hfilter start)
  refine ⟨members',hread',?_⟩
  rw [hread,Option.some_inj,hmembers',hsame]
  exact hiff

end

def flushedFiles : List Method := [namedFile 102 7 700,.flush,namedFile 103 8 0]

/-- With a buffer of four blocks one of them is free at the flush, and the reader steps over it. -/
theorem flush_transparent_namedFile :
    ((namedFile 102 7 700).perform noPatterns (openArchiver 4)).2.builder.out.pendingZeros = 512 ∧
    ∃ members, readTar (delivered (runMethods noPatterns (flushedFiles.filter Method.archives)
        (openArchiver 4)).archiver) = some members ∧
      readTar (delivered (runMethods noPatterns flushedFiles (openArchiver 4)).archiver) =
        some members := by
  have hall : ∀ t ∈ (runMethods noPatterns flushedFiles (openArchiver 4)).attempts ++
      (runMethods noPatterns (flushedFiles.filter Method.archives) (openArchiver 4)).attempts,
      t.call.st.size < 2^64 ∧ ∀ header ∈ t.header,
        ¬GnuBothLong t.builder.options header ∧ t.builder.options.gnuExtensions = false ∧
        (0 ∉ longlinkPath t.call.memberName t.call.st ∧
          (longlinkPath t.call.memberName t.call.st).length+21 < 2^31) ∧
        (∀ dest ∈ header.linkdest, 0 ∉ dest ∧ dest.length+21 < 2^31) ∧
        ∀ records ∈ t.records header,
          header.size = 0 ∨ (0 < t.call.fd ∧ t.builder.out.buf.canSplice = false ∧
            (match reading t.builder.out.buf.size (freeBehind t.builder.out (records.length+512))
              header.size t.call.src.file with
            | .ok _ => true
            | .error _ => false) = true) := by
    decide +kernel
  have hintact (t : Attempt) (ht : t ∈ (runMethods noPatterns flushedFiles (openArchiver 4)).attempts ++
      (runMethods noPatterns (flushedFiles.filter Method.archives) (openArchiver 4)).attempts) :
      t.Intact := by
    obtain ⟨hsize,hheader⟩ := hall t ht
    refine ⟨fun header hh => (hheader header hh).1,fun header hh => ?_,hsize,fun header hh records hr _ => ?_⟩
    · obtain ⟨-,hgnu,⟨hnul,hshort⟩,hdest,-⟩ := hheader header hh
      exact ⟨⟨hnul,hdest,fun hg => by rw [hgnu] at hg; cases hg⟩,hshort⟩
    · refine ((hheader header hh).2.2.2.2 records hr).imp id fun hdata => ?_
      obtain ⟨hfd,hplain,hreading⟩ := hdata
      refine ⟨hfd,(if_pos (Or.inl hplain)).mpr ?_,if_pos (Or.inl hplain)⟩
      split at hreading
      · exact ⟨_,‹_›⟩
      · cases hreading
  have hinner : ∀ m ∈ flushedFiles, m.Inner := by
    simp only [flushedFiles,List.forall_mem_cons]
    exact ⟨Or.inl rfl,Or.inr rfl,Or.inl rfl,by simp⟩
  obtain ⟨members,hplain,hiff⟩ := flush_transparent_iff noPatterns flushedFiles hinner ⟨false,1⟩
    (by decide : 1 ≤ 4) (by decide) ⟨true,false,false,false,false,false,false⟩ none ()
    (by decide : (4 : ℤ) ≠ 0) false none (by decide : Sys.Reliable ⟨[],[],[],.ok⟩) rfl
    (rfl : openArchiver 4 = _) rfl rfl (fun t ht => hintact t (List.mem_append_left _ ht))
    fun t ht => hintact t (List.mem_append_right _ ht)
  have hpending : ((namedFile 102 7 700).perform noPatterns
      (openArchiver 4)).2.builder.out.pendingZeros = 512 := by
    decide +kernel
  refine ⟨hpending,members,hplain,hiff.mpr ⟨?_,fun _ => Or.inl hpending.le,
    flushHarmless_of_archives noPatterns [namedFile 103 8 0] (by decide) _⟩⟩
  intro hflush
  cases hflush

/-- With a buffer of three blocks two are free at the flush behind an empty file, and the reader
ends there. -/
theorem flush_hides_emptyFile :
    (runMethods noPatterns [emptyFile,.flush,emptyFile] (openArchiver 3)).attempts.map
      Attempt.returned = [true,true] ∧
    (readTar (delivered (runMethods noPatterns [emptyFile,.flush,emptyFile]
      (openArchiver 3)).archiver)).map List.length = some 1 ∧
    (readTar (delivered (runMethods noPatterns [emptyFile,emptyFile]
      (openArchiver 3)).archiver)).map List.length = some 2 := by
  decide +kernel

end ArchiveTarBuilder
