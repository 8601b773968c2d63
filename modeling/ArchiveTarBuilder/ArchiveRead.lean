import ArchiveTarBuilder.MemberRead
import ArchiveTarBuilder.Buffering

/-! An archive read back: after any calls that all succeed, the reader finds one member for each of
them, in their order, and nothing else. -/
namespace ArchiveTarBuilder
open Region CString Output

/-- The calls one after the other; `none` as soon as one does not return 1. -/
def writeAll : List MemberCall → BBuilder → Option BBuilder
  | [], b => some b
  | c::cs, b => if (c.write b).1 then writeAll cs (c.write b).2 else none

/-- What a file system yields: a name without NULs, one of the file types of `stat(2)`, a
descriptor for a regular file, and for a symlink the target that `readlink()` finds, as long as
`st_size` says. -/
structure MemberCall.Exact (c : MemberCall) : Prop where
  name : 0 ∉ c.memberName
  kind : c.st.ifmt ∈ [sIfreg,sIfdir,sIflnk,sIfifo,sIfchr,sIfblk]
  size : c.st.size < 2^64
  descriptor : c.st.ifmt = sIfreg → 0 < c.fd
  target : c.st.ifmt = sIflnk → ∃ target, c.src.target = .ok target ∧ target.length = c.st.size ∧
    0 ∉ target ∧ target.length+21 < 2^31

def flagType (flag : UInt8) : Option ℕ :=
  if flag = 48 then some sIfreg
  else if flag = 50 then some sIflnk
  else if flag = 51 then some sIfchr
  else if flag = 52 then some sIfblk
  else if flag = 53 then some sIfdir
  else if flag = 54 then some sIfifo
  else none

/-- The member that was read is the one that was written. -/
structure ReadsAs (c : MemberCall) (m : TarMember) : Prop where
  type : flagType m.type = some c.st.ifmt
  size : m.size = if c.st.ifmt = sIfreg then c.st.size else 0
  length : m.contents.length = m.size
  contents : m.contents = if c.st.ifmt = sIfreg then c.src.file.contents.take c.st.size else []
  target : if c.st.ifmt = sIflnk then c.src.target = .ok m.target else m.target = []
  name : components m.name = components c.memberName

theorem bReadlink_exact {src : Source} {st : Stat} {target dest : Bytes}
    (htarget : src.target = .ok target) (hlen : target.length = st.size)
    (h : bReadlink src st = .ok dest) : dest = target := by
  have hcut : target.take st.size = target := List.take_of_length_le hlen.le
  by_cases hz : st.size = 0
  · simp [bReadlink,htarget,hz] at h
  · simp only [bReadlink,htarget,hz,if_false,Except.ok.injEq] at h
    rw [← h,hcut,overwrite,List.take_zero,List.nil_append,Nat.zero_add,List.drop_eq_nil_of_le,
      List.append_nil]
    simp only [List.length_append,List.length_take,zeros_length]
    omega

theorem isIfreg_inodeLinktype {st : Stat}
    (h : st.ifmt ∈ [sIfreg,sIfdir,sIflnk,sIfifo,sIfchr,sIfblk]) :
    decide (inodeLinktype st = 48) = decide (st.ifmt = sIfreg) ∧
      flagType (inodeLinktype st) = some st.ifmt := by
  unfold inodeLinktype
  generalize st.ifmt = t at h ⊢
  fin_cases h <;> decide

theorem headerForFile_noCache (src : Source) (memberName : Bytes) (st : Stat) :
    (headerForFile none src memberName st).2 = none := by
  unfold headerForFile
  split
  · rfl
  · simp only
    split
    · split <;> rfl
    · split <;> rfl

theorem components_longlinkPath (name : Bytes) (st : Stat) :
    components (longlinkPath name st) = components name := by
  rw [longlinkPath_eq,dirSlash]
  split
  · exact components_append_slash name
  · rw [List.append_nil]

theorem readBack_components {options : BBuilderOptions} {header : BHeader} {name : Bytes} {st : Stat}
    {d : PathData} (hnul : 0 ∉ name) (hd : pathSplit name st = some d) (data : Bytes) :
    components (readBack options header (longlinkPath name st) d data).name = components name := by
  obtain ⟨pre,suf,hsplit⟩ := pathSplit_split hnul hd
  change components ((recordedPath options header (longlinkPath name st)).getD d.name) = _
  unfold recordedPath
  split
  · exact components_longlinkPath name st
  · exact hsplit.name_components hnul (bPathNew_of_pathSplit hd)

section
variable {c : MemberCall} (hc : c.Exact) {header : BHeader}
  (hof : HeaderOf none c.src c.memberName c.st header)
include hc hof

theorem MemberCall.Exact.type : header.isIfreg = decide (c.st.ifmt = sIfreg) ∧
    flagType header.linktype = some c.st.ifmt := by
  obtain ⟨hreg,hflag⟩ := isIfreg_inodeLinktype hc.kind
  cases hof.link with
  | symlink dest hst hread hdest htype =>
    rw [BHeader.isIfreg,htype,hst]
    decide
  | plain hst hdest htype =>
    rw [BHeader.isIfreg,htype]
    exact ⟨hreg,hflag⟩
  | hardlink entries dest hst hcache hlookup hdest htype => cases hcache

theorem MemberCall.Exact.linkdest :
    if c.st.ifmt = sIflnk then
      ∃ target, c.src.target = .ok target ∧ header.linkdest = some target ∧ 0 ∉ target ∧
        target.length+21 < 2^31
    else header.linkdest = none := by
  cases hof.link with
  | symlink dest hst hread hdest htype =>
    obtain ⟨target,htarget,hlen,hnul,hbound⟩ := hc.target hst
    rw [if_pos hst]
    exact ⟨target,htarget,by rw [hdest,bReadlink_exact htarget hlen hread],hnul,hbound⟩
  | plain hst hdest htype =>
    rw [if_neg hst]
    exact hdest
  | hardlink entries dest hst hcache hlookup hdest htype => cases hcache

theorem MemberCall.Exact.recordable {options : BBuilderOptions}
    (hgnu : options.gnuExtensions = false) :
    Recordable options header (longlinkPath c.memberName c.st) := by
  refine ⟨?_,?_,fun hg => by simp [hgnu] at hg⟩
  · rw [longlinkPath_eq,List.mem_append,not_or,dirSlash]
    refine ⟨hc.name,?_⟩
    split <;> decide
  · intro dest hdest
    have hl := hc.linkdest hof
    split at hl
    · obtain ⟨target,-,htarget,hnul,hbound⟩ := hl
      rw [htarget] at hdest
      obtain rfl := Option.some.inj hdest
      exact ⟨hnul,hbound⟩
    · rw [hl] at hdest
      cases hdest

theorem MemberCall.Exact.readsAs {options : BBuilderOptions} {d : PathData} {data : Bytes}
    (hd : pathSplit c.memberName c.st = some d)
    (hdata : data = if c.st.ifmt = sIfreg then c.src.file.contents.take c.st.size else [])
    (hlen : data.length = if header.isIfreg then header.size else 0) :
    ReadsAs c (readBack options header (longlinkPath c.memberName c.st) d data) := by
  obtain ⟨hreg,hflag⟩ := hc.type hof
  have hsize : (if header.isIfreg then header.size else 0) =
      if c.st.ifmt = sIfreg then c.st.size else 0 := by
    rw [hreg,hof.size]
    by_cases h : c.st.ifmt = sIfreg <;> simp [h]
  refine ⟨hflag,hsize,hlen,hdata,?_,readBack_components hc.name hd data⟩
  have hl := hc.linkdest hof
  split
  · rename_i hlnk
    rw [if_pos hlnk] at hl
    obtain ⟨target,htarget,hdest,-,-⟩ := hl
    simpa only [readBack,hdest,Option.getD_some] using htarget
  · rename_i hlnk
    rw [if_neg hlnk] at hl
    simp only [readBack,hl,Option.getD_none]

end

structure Plain (b : BBuilder) : Prop where
  ready : b.out.Ready
  plain : b.out.buf.canSplice = false
  gnu : b.options.gnuExtensions = false
  cache : b.hardlinkCache = none

theorem MemberCall.write_reads {b : BBuilder} (h : Plain b) {c : MemberCall} (hc : c.Exact)
    (hret : (c.write b).1 = true) :
    ∃ bytes m, Plain (c.write b).2 ∧ (c.write b).2.out.stream = b.out.stream ++ bytes ∧
    ReadsAs c m ∧
      ∀ rest members, Reads none none rest members → Reads none none (bytes ++ rest) (m::members) := by
  have hboth (header : BHeader) : ¬GnuBothLong b.options header := fun hb =>
    Bool.false_ne_true (h.gnu.symm.trans hb.1)
  rcases bBuilderWriteFile_ready h.ready c.path c.memberName c.st c.fd c.src
    (fun header _ => hboth header) with hrefused | ⟨header,records,b',hm⟩
  · exact absurd hret (by rw [MemberCall.write,hrefused.failed]; decide)
  · have hof := memberHeader_of hm.found
    rw [h.cache] at hof
    obtain ⟨hreg,-⟩ := hc.type hof
    have hstart := hm.wrote.rest
    have hcan : b'.out.buf.canSplice = false := hm.wrote.added.frame.canSplice.trans h.plain
    have hresult : c.write b = writeContents b' header c.path c.fd c.src.file := hm.result
    rw [writeContents_eq] at hresult
    cases hcontents : contentsOf b'.out header c.fd c.src.file with
    | mk count out =>
      cases count with
      | none =>
        rw [hcontents] at hresult
        simp [hresult] at hret
      | some n =>
        rw [hcontents] at hresult
        obtain ⟨data,hdata,hlen,hext⟩ := contentsOf_plain hm.wrote.added.ready hcan
          (fun hr => hc.descriptor (by simpa [hreg] using hr)) hcontents
        have hall := hm.wrote.added.trans hext
        obtain ⟨d,hd,-⟩ := hof.split
        have hsize : header.size < 2^64 := by
          have hs := hc.size
          rw [hof.size]
          split <;> omega
        refine ⟨_,readBack b.options header (longlinkPath c.memberName c.st) d data,?_,?_,
          hc.readsAs hof hd ?_ hlen,fun rest members hrest =>
            reads_member hof hd (hc.recordable hof h.gnu) hm.recorded (hboth header) hsize hlen hrest⟩
        · rw [hresult,hstart]
          exact ⟨hall.ready,hall.frame.canSplice.trans h.plain,h.gnu,by
            simp only [memberStart,h.cache,headerForFile_noCache]⟩
        · rw [hresult]
          exact hall.stream
        · rw [hdata,hof.size,hreg]
          by_cases hr : c.st.ifmt = sIfreg <;> simp [hr]

theorem writeAll_reads (calls : List MemberCall) {b b' : BBuilder} (h : Plain b)
    (hc : ∀ c ∈ calls, c.Exact) (hw : writeAll calls b = some b') :
    ∃ bytes members, b'.out.stream = b.out.stream ++ bytes ∧ List.Forall₂ ReadsAs calls members ∧
      Reads none none bytes members := by
  induction calls generalizing b with
  | nil =>
    obtain rfl : b = b' := by simpa [writeAll] using hw
    exact ⟨[],[],by simp,.nil,reads_nil none none⟩
  | cons c cs ih =>
    by_cases hret : (c.write b).1 = true
    · rw [writeAll,if_pos hret] at hw
      obtain ⟨bytes,m,hplain,hstream,hreads,hone⟩ := MemberCall.write_reads h (hc c (by simp)) hret
      obtain ⟨more,members,hstream',hall,hrest⟩ := ih hplain (fun x hx => hc x (by simp [hx])) hw
      exact ⟨bytes ++ more,m::members,by rw [hstream',hstream,List.append_assoc],.cons hreads hall,
        hone more members hrest⟩
    · rw [writeAll,if_neg hret] at hw
      cases hw

def newBuilder (p : Process) (blockFactor : ℕ) (options : BBuilderOptions)
    (userLookup : Option BUserLookup) (handle : PlainHandle) : BBuilder :=
  let b := bBuilderNew p blockFactor handle.sys options userLookup
  { b with out := ⟨bBufferSetFd b.out.buf handle.fd handle.fifo handle.release,handle.sys⟩ }

theorem newBuilder_out (p : Process) {blockFactor : ℕ} (hf : 1 ≤ blockFactor)
    (options : BBuilderOptions) (userLookup : Option BUserLookup) (handle : PlainHandle) :
    (newBuilder p blockFactor options userLookup handle).out = handle.output blockFactor := by
  have hne : blockFactor ≠ 0 := by omega
  simp only [newBuilder,bBuilderNew,hne,ne_eq,not_false_eq_true,if_true,PlainHandle.output,opened]

theorem ready_newBuilder (p : Process) {blockFactor : ℕ} (hf : 1 ≤ blockFactor)
    (hbig : 512*blockFactor < 2^63) (options : BBuilderOptions) (userLookup : Option BUserLookup)
    (handle : PlainHandle) : (newBuilder p blockFactor options userLookup handle).out.Ready := by
  rw [newBuilder_out p hf options userLookup handle]
  exact ready_opened hf hbig handle.given handle.fifo handle.release handle.reliable

theorem plain_newBuilder (p : Process) {blockFactor : ℕ} (hf : 1 ≤ blockFactor)
    (hbig : 512*blockFactor < 2^63) {options : BBuilderOptions}
    (hgnu : options.gnuExtensions = false) (hlinks : options.preserveHardlinks = false)
    (userLookup : Option BUserLookup) (handle : PlainHandle) :
    Plain (newBuilder p blockFactor options userLookup handle) := by
  refine ⟨ready_newBuilder p hf hbig options userLookup handle,?_,hgnu,
    by simp [newBuilder,bBuilderNew,hlinks]⟩
  rw [newBuilder_out p hf options userLookup handle]
  exact handle.plain

/-- What a reader finds in the stream behind any calls that all return 1: one member for each call,
in their order, with the type, size, contents, target and name components of the call. -/
theorem readArchive_writeAll (p : Process) {blockFactor : ℕ} (hf : 1 ≤ blockFactor)
    (hbig : 512*blockFactor < 2^63) {options : BBuilderOptions}
    (hgnu : options.gnuExtensions = false) (hlinks : options.preserveHardlinks = false)
    (userLookup : Option BUserLookup) (handle : PlainHandle) (calls : List MemberCall)
    (hc : ∀ c ∈ calls, c.Exact) {b : BBuilder}
    (hw : writeAll calls (newBuilder p blockFactor options userLookup handle) = some b) :
    ∃ members, readArchive b.out.stream = some members ∧ List.Forall₂ ReadsAs calls members := by
  obtain ⟨bytes,members,hstream,hall,hreads⟩ :=
    writeAll_reads calls (plain_newBuilder p hf hbig hgnu hlinks userLookup handle) hc hw
  have hempty : (newBuilder p blockFactor options userLookup handle).out.stream = [] := by
    rw [newBuilder_out p hf options userLookup handle,PlainHandle.output,stream_opened,handle.fresh]
  rw [hempty,List.nil_append] at hstream
  exact ⟨members,hstream ▸ hreads.archive,hall⟩

def sampleCalls : List MemberCall :=
  let st (mode size : ℕ) : Stat := ⟨mode,0,0,size,0,0,0,7,1⟩
  [⟨[47,100],[100],st (sIfdir+0o755) 0,4,⟨.ok [],[],⟨[],[]⟩⟩⟩,
    ⟨[47,102],List.replicate 300 102,st (sIfreg+0o644) 700,5,
      ⟨.ok [],[],⟨List.replicate 700 1,[.fail .eintr]⟩⟩⟩,
    ⟨[47,108],[100,47,108],st (sIflnk+0o777) 3,-1,⟨.ok [46,46,47],[9],⟨[],[]⟩⟩⟩]

def paxOptions : BBuilderOptions := ⟨true,false,false,false,false,true,false⟩

theorem readArchive_sampleCalls : ∃ b, writeAll sampleCalls
      (newBuilder ⟨false,1⟩ 2 paxOptions none (sampleHandle [.accept 99,.fail .eintr] (by decide))) =
        some b ∧
    ∃ members, readArchive b.out.stream = some members ∧
    List.Forall₂ ReadsAs sampleCalls members := by
  have hw : (writeAll sampleCalls (newBuilder ⟨false,1⟩ 2 paxOptions none
      (sampleHandle [.accept 99,.fail .eintr] (by decide)))).isSome := by decide +kernel
  refine ⟨_,(Option.some_get hw).symm,readArchive_writeAll ⟨false,1⟩ (by decide) (by decide)
    (by rfl : paxOptions.gnuExtensions = false) (by rfl) none
    (sampleHandle [.accept 99,.fail .eintr] (by decide)) sampleCalls ?_ (Option.some_get hw).symm⟩
  intro c hc
  simp only [sampleCalls,List.mem_cons,List.not_mem_nil,or_false] at hc
  rcases hc with rfl | rfl | rfl
  · exact ⟨by decide,by decide,by decide,by decide,fun h => absurd h (by decide)⟩
  · exact ⟨by decide +kernel,by decide,by decide,by decide,fun h => absurd h (by decide)⟩
  · exact ⟨by decide,by decide,by decide,fun h => absurd h (by decide),
      fun _ => ⟨[46,46,47],rfl,rfl,by decide,by decide⟩⟩

end ArchiveTarBuilder
