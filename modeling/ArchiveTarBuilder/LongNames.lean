import ArchiveTarBuilder.ArchiveRead

/-! The GNU records of long names. A name and a link target that are both too long share one header
block: the second header is stored over the first. -/
namespace ArchiveTarBuilder
open Region CString Output

/-- A record: a valid header of this type whose size field is the length of `text`, and the blocks
that hold `text`. -/
def IsRecord (type : UInt8) (text bytes : Bytes) : Prop :=
  ∃ block : BHeaderBlock, block.valid = true ∧ block.linktype = type ∧
    readSize block.size.bytes = text.length ∧ bytes = block.toBytes ++ pad512 text

/-- What a call should add to the stream, in this order: the record of a name that does not fit, the
record of a link target that does not fit, the member's own header, its data. What a spliced
handle gets for data is not said here. -/
structure GnuFramed (b : BBuilder) (c : MemberCall) (header : BHeader)
    (longName longLink data : Bytes) : Prop where
  stream : (c.write b).2.out.stream =
    b.out.stream ++ longName ++ longLink ++ ownHeader b.process header ++ data
  name : if header.truncated then
      IsRecord bHeaderLonglinkType (longlinkPath c.memberName c.st) longName
    else longName = []
  link : if header.truncatedLink then
      ∃ dest ∈ header.linkdest, IsRecord bHeaderLongdestType dest longLink
    else longLink = []
  data : if header.isIfreg && decide (0 < c.fd) then
      b.out.buf.canSplice = false → data = pad512 (c.src.file.contents.take header.size)
    else data = []

theorem IsRecord.length {type : UInt8} {text bytes : Bytes} (h : IsRecord type text bytes) :
    bytes.length = 512+paddedSize text.length := by
  obtain ⟨block,-,-,-,rfl⟩ := h
  rw [List.length_append,BHeaderBlock.toBytes_length,pad512_length]

/-- The record that is written states the length of its text as an `unsigned int`. -/
theorem IsRecord.short {type : UInt8} {text tail bytes tail' : Bytes}
    (hr : IsRecord type text bytes) (h : gnuRecord text type ++ tail = bytes ++ tail') :
    text.length < 2^32 := by
  obtain ⟨block,-,-,hsize,rfl⟩ := hr
  have hfirst := congrArg (List.take 512) h
  simp only [gnuRecord,List.append_assoc] at hfirst
  rw [List.take_left' (by simp),List.take_left' (by simp)] at hfirst
  have hblock := congrArg BHeaderBlock.ofBytes hfirst
  rw [BHeaderBlock.ofBytes_toBytes,BHeaderBlock.ofBytes_toBytes] at hblock
  rw [← hblock,longlinkBlock_size,unsignedInt] at hsize
  omega

theorem isRecord_gnuRecord {text : Bytes} (type : UInt8) (h : text.length < 2^32) :
    IsRecord type text (gnuRecord text type) :=
  ⟨_,longlinkBlock_valid _ _ _,rfl,by rw [longlinkBlock_size,unsignedInt,Nat.mod_eq_of_lt h],rfl⟩

/-- A record whose header goes to any block of the buffer leaves its text at the end of the stream.
-/
theorem encodeLonglink_live {b : BBuilder} (h : b.out.Live) {off : ℕ} (hoff : off+512 ≤ b.out.buf.size)
    (text : Bytes) (type : UInt8) (wrlen : ℕ) :
    ∃ b' front tail, encodeLonglink b off text type wrlen = (some (paddedSize text.length),b') ∧
      b'.out.Live ∧ b'.out.stream = front ++ tail ∧ front.length = b.out.stream.length ∧
      tail.length = paddedSize text.length ∧ tail.take text.length = text := by
  obtain ⟨hlive,hlen⟩ := h.store
    (bHeaderEncodeLonglinkBlock (BHeaderBlock.ofBytes (slice b.out.buf.data off bHeaderSize)) text
      type).toBytes (by simpa using hoff)
  obtain ⟨o,tail,hloop,hlive',hstream,htail⟩ := blocksLoop_live text.length text 0 hlive le_rfl
  refine ⟨{ b with out := o, total := b.total+wrlen+paddedSize text.length },_,tail,?_,hlive',hstream,
    hlen,htail⟩
  rw [Nat.zero_add] at hloop
  simp only [encodeLonglink,bFileWritePathBlocks,BBuilder.encodeAt] at hloop ⊢
  rw [hloop]

theorem writeHeader_live {b : BBuilder} (h : b.out.Live) (header : BHeader) :
    (writeHeader b header).1 = true ∧ ∃ own,
      (writeHeader b header).2.out.stream = b.out.stream ++ own ∧ own.length = 512 := by
  obtain ⟨off,out,hget,ht,-⟩ := h.getBlock (by decide : 0 < bHeaderSize)
    (by simpa [paddedSize,bBufferBlockSize,bHeaderSize] using h.block_le_room)
  rw [show paddedSize bHeaderSize = 512 by decide] at hget ht
  obtain ⟨behind,hstream,hlen⟩ := ht.store_stream (bHeaderEncodeBlock b.process
    (BHeaderBlock.ofBytes (slice out.buf.data off bHeaderSize)) header).toBytes (by simp)
  simp only [writeHeader,hget,BBuilder.encodeAt,true_and]
  exact ⟨_,hstream,hlen⟩

/-- The steps of a member with both strings too long: the header of its second record goes to the
block of the first. -/
theorem writeMember_bothLong_steps {b : BBuilder} (h : b.out.Ready) {header : BHeader}
    (hb : GnuBothLong b.options header) {dest : Bytes} (hd : header.linkdest = some dest)
    (hreg : header.isIfreg = false) (path memberName : Bytes) (st : Stat) (fd : ℤ) (file : File) :
    ∃ out off b₁ b₂ front tail,
      encodeLonglink { b with out := out } off (longlinkPath memberName st) bHeaderLonglinkType 512 =
        (some (paddedSize (longlinkPath memberName st).length),b₁) ∧
      b₁.out.stream.length =
        b.out.stream.length+(512+paddedSize (longlinkPath memberName st).length) ∧
      encodeLonglink b₁ off dest bHeaderLongdestType (paddedSize (longlinkPath memberName st).length) =
        (some (paddedSize dest.length),b₂) ∧
      b₂.out.Live ∧ b₂.out.stream = front ++ tail ∧ front.length = b₁.out.stream.length ∧
      tail.length = paddedSize dest.length ∧ tail.take dest.length = dest ∧
      writeMember b header path memberName st fd file = (true,(writeHeader b₂ header).2) := by
  obtain ⟨hgnu,ht,hl⟩ := hb
  obtain ⟨off,out,hget,hg⟩ := getHeaderBlock h
  obtain ⟨b₁,henc₁,hw₁⟩ := encodeLonglink_wrote hg (longlinkPath memberName st) bHeaderLonglinkType 512
  have hoff := hg.offset
  have hsize₁ := hw₁.added.frame.size
  have hsize := hg.frame.size
  obtain ⟨b₂,front,tail,henc₂,hlive₂,hstream₂,hfront,htail,htake⟩ := encodeLonglink_live
    hw₁.added.ready.live (by simp only [used] at hoff; omega : off+512 ≤ b₁.out.buf.size) dest
    bHeaderLongdestType (paddedSize (longlinkPath memberName st).length)
  have hrecords : writeLongRecords b header memberName st = (true,b₂) := by
    simp [writeLongRecords,ht,hgnu,hget,writeGnuRecords,henc₁,hd,hl,henc₂]
  refine ⟨out,off,b₁,b₂,front,tail,henc₁,?_,henc₂,hlive₂,hstream₂,hfront,htail,htake,?_⟩
  · rw [hw₁.added.stream,gnuRecord]
    simp only [List.length_append,BHeaderBlock.toBytes_length,pad512_length]
  · simp only [writeMember,andWrite,hrecords,(writeHeader_live hlive₂ header).1,if_true,
      writeContents,
      hreg,Bool.false_and,Bool.false_eq_true,if_false]

/-- A member with both strings too long gets one header block for its two records; the text of the
second is all there. -/
theorem writeMember_bothLong_text {b : BBuilder} (h : b.out.Ready) {header : BHeader}
    (hb : GnuBothLong b.options header) {dest : Bytes} (hd : header.linkdest = some dest)
    (hreg : header.isIfreg = false) (path memberName : Bytes) (st : Stat) (fd : ℤ) (file : File) :
    (writeMember b header path memberName st fd file).1 = true ∧ ∃ front tail own,
      (writeMember b header path memberName st fd file).2.out.stream = front ++ tail ++ own ∧
      front.length = b.out.stream.length+(512+paddedSize (longlinkPath memberName st).length) ∧
      tail.length = paddedSize dest.length ∧ tail.take dest.length = dest ∧ own.length = 512 := by
  obtain ⟨-,-,b₁,b₂,front,tail,-,hlen₁,-,hlive₂,hstream₂,hfront,htail,htake,hmember⟩ :=
    writeMember_bothLong_steps h hb hd hreg path memberName st fd file
  obtain ⟨-,own,hstream₃,hown⟩ := writeHeader_live hlive₂ header
  rw [hmember]
  refine ⟨rfl,front,tail,own,?_,hfront.trans hlen₁,htail,htake,hown⟩
  simp only
  rw [hstream₃,hstream₂]

theorem writeMember_bothLong {b : BBuilder} (h : b.out.Ready) {header : BHeader}
    (hb : GnuBothLong b.options header) {dest : Bytes} (hd : header.linkdest = some dest)
    (hreg : header.isIfreg = false) (path memberName : Bytes) (st : Stat) (fd : ℤ) (file : File) :
    (writeMember b header path memberName st fd file).2.out.stream.length = b.out.stream.length+
      (1024+paddedSize (longlinkPath memberName st).length+paddedSize dest.length) := by
  obtain ⟨-,front,tail,own,hstream,hfront,htail,-,hown⟩ :=
    writeMember_bothLong_text h hb hd hreg path memberName st fd file
  rw [hstream,List.length_append,List.length_append,hfront,htail,hown]
  omega

theorem extensionRecords_gnu (p : Process) {options : BBuilderOptions} {header : BHeader}
    (hgnu : options.gnuExtensions = true) (longPath : Bytes) :
    extensionRecords p options header longPath = some (gnuRecords header longPath) := by
  unfold extensionRecords
  by_cases hlong : (header.truncated || header.truncatedLink) = true
  · rw [if_pos hlong,if_pos hgnu]
  · rw [if_neg hlong]
    simp only [Bool.not_eq_true,Bool.or_eq_false_iff] at hlong
    rw [gnuRecords,hlong.1,hlong.2]
    cases header.linkdest <;> rfl

/-- The strings of a member for which the records come out right: not both are too long, and each
length fits an `unsigned int`. -/
def GnuFits (header : BHeader) (longPath : Bytes) : Prop :=
  ¬(header.truncated = true ∧ header.truncatedLink = true) ∧
    (header.truncated = true → longPath.length < 2^32) ∧
    (header.truncatedLink = true → ∀ dest ∈ header.linkdest, dest.length < 2^32)

theorem GnuFits.records {header : BHeader} {longPath : Bytes} (hfits : GnuFits header longPath)
    (hlink : header.truncatedLink = true → header.linkdest.isSome) :
    ∃ longName longLink, gnuRecords header longPath = longName ++ longLink ∧
      (if header.truncated then IsRecord bHeaderLonglinkType longPath longName else longName = []) ∧
      (if header.truncatedLink then ∃ dest ∈ header.linkdest, IsRecord bHeaderLongdestType dest longLink
        else longLink = []) := by
  refine ⟨_,_,rfl,?_,?_⟩
  · split
    · rename_i ht
      exact isRecord_gnuRecord _ (hfits.2.1 ht)
    · rfl
  · by_cases hl : header.truncatedLink = true
    · obtain ⟨dest,hd⟩ := Option.isSome_iff_exists.mp (hlink hl)
      simp only [hl,hd,if_true,Option.mem_def,Option.some.injEq,exists_eq_left']
      exact isRecord_gnuRecord _ (hfits.2.2 hl dest hd)
    · cases header.linkdest <;> simp [hl]

theorem GnuFramed.fits {b : BBuilder} {c : MemberCall} {header : BHeader}
    {longName longLink data : Bytes} (hf : GnuFramed b c header longName longLink data)
    (hboth : ¬(header.truncated = true ∧ header.truncatedLink = true)) {tail : Bytes}
    (hstream : (c.write b).2.out.stream =
      b.out.stream ++ (gnuRecords header (longlinkPath c.memberName c.st) ++ tail)) :
    GnuFits header (longlinkPath c.memberName c.st) := by
  have heq := hstream.symm.trans hf.stream
  simp only [List.append_assoc,List.append_cancel_left_eq] at heq
  have hname := hf.name
  have hlink := hf.link
  refine ⟨hboth,fun ht => ?_,fun hl dest hdest => ?_⟩
  · have hl : header.truncatedLink = false := by simpa [ht] using hboth
    have hrecords : gnuRecords header (longlinkPath c.memberName c.st) =
        gnuRecord (longlinkPath c.memberName c.st) bHeaderLonglinkType := by
      rw [gnuRecords,if_pos ht,hl]
      cases header.linkdest <;> simp
    rw [if_pos ht] at hname
    rw [hrecords] at heq
    exact hname.short heq
  · have ht : header.truncated = false := by simpa [hl] using hboth
    rw [if_neg (by simp [ht])] at hname
    rw [if_pos hl] at hlink
    obtain ⟨dest',hdest',hlink⟩ := hlink
    obtain rfl : dest = dest' := Option.some.inj (hdest.symm.trans hdest')
    have hrecords : gnuRecords header (longlinkPath c.memberName c.st) =
        gnuRecord dest bHeaderLongdestType := by
      simp [gnuRecords,ht,hl,Option.mem_def.mp hdest]
    rw [hrecords,hname,List.nil_append] at heq
    exact hlink.short heq

theorem Headed.data {b b' : BBuilder} {c : MemberCall} {header : BHeader} {records added : Bytes}
    (hm : Headed b c.path c.memberName c.st c.fd c.src (c.write b) header records b')
    (hret : (c.write b).1 = true)
    (hadded : (contentsOf b'.out header c.fd c.src.file).2.stream = b'.out.stream ++ added) :
    if header.isIfreg && decide (0 < c.fd) then
      b.out.buf.canSplice = false → added = pad512 (c.src.file.contents.take header.size)
    else added = [] := by
  obtain ⟨n,hn⟩ := Option.isSome_iff_exists.mp (hm.stream.1.symm.trans hret)
  by_cases hdata : (header.isIfreg && decide (0 < c.fd)) = true
  · rw [if_pos hdata]
    intro hplain
    simp only [Bool.and_eq_true,decide_eq_true_eq] at hdata
    obtain ⟨data,heq,-,hext⟩ := contentsOf_plain (n := n) hm.wrote.added.ready
      (hm.wrote.added.frame.canSplice.trans hplain) (fun _ => hdata.2) (Prod.ext hn rfl)
    rw [hext.stream,List.append_cancel_left_eq] at hadded
    rw [← hadded,heq,if_pos hdata.1]
  · rw [if_neg hdata]
    simp only [contentsOf,hdata,if_false,Bool.false_eq_true] at hadded
    exact List.append_right_eq_self.mp hadded.symm

section
variable {b : BBuilder} (h : b.out.Ready) (hgnu : b.options.gnuExtensions = true) {c : MemberCall}
  {header : BHeader}
  (hheader : memberHeader b.userLookup b.hardlinkCache c.src c.memberName c.st = some header)
include h hgnu hheader

theorem not_gnuFramed_bothLong (hboth : header.truncated = true ∧ header.truncatedLink = true)
    {longName longLink data : Bytes} : ¬GnuFramed b c header longName longLink data := by
  intro hf
  have hof := memberHeader_of hheader
  obtain ⟨dest,hd⟩ := Option.isSome_iff_exists.mp (hof.linkdest_isSome hboth.2)
  have hreg := hof.isIfreg_linkdest hd
  have hname := hf.name
  have hlink := hf.link
  rw [if_pos hboth.1] at hname
  rw [if_pos hboth.2] at hlink
  obtain ⟨dest',hdest',hlink⟩ := hlink
  obtain rfl : dest = dest' := by simpa [hd] using hdest'
  have hactual := writeMember_bothLong (b := memberStart b c.src c.memberName c.st) h
    ⟨hgnu,hboth⟩ hd hreg c.path c.memberName c.st c.fd c.src.file
  rw [← bBuilderWriteFile_some _ _ hheader] at hactual
  have hclaimed := congrArg List.length hf.stream
  simp only [List.length_append,hname.length,hlink.length,ownHeader,BHeaderBlock.toBytes_length]
    at hclaimed
  have heq : (c.write b).2.out.stream.length = b.out.stream.length+
      (1024+paddedSize (longlinkPath c.memberName c.st).length+paddedSize dest.length) := hactual
  omega

/-- With the extensions on, the bytes of a member come in order and state their lengths exactly when
at most one of its strings is too long, by less than four gigabytes. -/
theorem gnuFramed_iff (hret : (c.write b).1 = true) :
    (∃ longName longLink data, GnuFramed b c header longName longLink data) ↔
      GnuFits header (longlinkPath c.memberName c.st) := by
  by_cases hboth : header.truncated = true ∧ header.truncatedLink = true
  · refine iff_of_false ?_ fun hfits => hfits.1 hboth
    rintro ⟨longName,longLink,data,hf⟩
    exact not_gnuFramed_bothLong h hgnu hheader hboth hf
  · rcases bBuilderWriteFile_ready h c.path c.memberName c.st c.fd c.src
      (fun header' hh hb => by
        obtain rfl : header = header' := by simpa [hheader] using hh
        exact hboth hb.2) with hrefused | ⟨header',records,b',hm⟩
    · exact absurd hret (by rw [MemberCall.write,hrefused.failed]; decide)
    · obtain rfl : header = header' := by simpa [hheader] using hm.found
      obtain rfl : gnuRecords header (longlinkPath c.memberName c.st) = records := by
        simpa [extensionRecords_gnu b.process hgnu] using hm.recorded
      obtain ⟨-,-,added,hadded,hstream⟩ := hm.stream
      have hbytes : (c.write b).2.out.stream = b.out.stream ++
          (gnuRecords header (longlinkPath c.memberName c.st) ++
            (ownHeader b.process header ++ added)) := by
        rw [MemberCall.write,hstream]
        simp only [List.append_assoc]
      constructor
      · rintro ⟨longName,longLink,data,hf⟩
        exact hf.fits hboth hbytes
      · intro hfits
        obtain ⟨longName,longLink,hrecords,hname,hlink⟩ :=
          hfits.records fun hl => (memberHeader_of hheader).linkdest_isSome hl
        refine ⟨longName,longLink,added,?_,hname,hlink,hm.data hret hadded⟩
        rw [hbytes,hrecords]
        simp only [List.append_assoc]

end

instance (header : BHeader) (longPath : Bytes) : Decidable (GnuFits header longPath) := by
  unfold GnuFits; infer_instance

def gnuOptions : BBuilderOptions := ⟨true,false,false,false,true,false,false⟩

def gnuBuilder : BBuilder := newBuilder ⟨false,1⟩ 2 gnuOptions none (sampleHandle [] progress_nil)

theorem gnuBuilder_ready : gnuBuilder.out.Ready :=
  ready_newBuilder _ (by decide) (by decide) _ _ _

def symlinkCall (name target : ℕ) : MemberCall :=
  ⟨[47,108],List.replicate name 110,⟨sIflnk+0o777,0,0,target,0,0,0,7,1⟩,-1,
    ⟨.ok (List.replicate target 116),[],⟨[],[]⟩⟩⟩

def symlinkHeader (name target : ℕ) : Option BHeader :=
  memberHeader gnuBuilder.userLookup gnuBuilder.hardlinkCache (symlinkCall name target).src
    (symlinkCall name target).memberName (symlinkCall name target).st

theorem gnuFramed_longName : ∃ header ∈ symlinkHeader 300 20, header.truncated = true ∧
    ∃ longName longLink data, GnuFramed gnuBuilder (symlinkCall 300 20) header longName longLink data := by
  obtain ⟨header,hheader,ht,hfits⟩ : ∃ header ∈ symlinkHeader 300 20, header.truncated = true ∧
      GnuFits header (longlinkPath (symlinkCall 300 20).memberName (symlinkCall 300 20).st) := by
    decide +kernel
  exact ⟨header,hheader,ht,
    (gnuFramed_iff gnuBuilder_ready rfl hheader (by decide +kernel)).mpr hfits⟩

/-- A call that returns 1 and whose bytes are not what they should be. -/
theorem not_gnuFramed_sample : ((symlinkCall 300 200).write gnuBuilder).1 = true ∧
    ∃ header ∈ symlinkHeader 300 200, ¬∃ longName longLink data,
      GnuFramed gnuBuilder (symlinkCall 300 200) header longName longLink data := by
  obtain ⟨header,hheader,hboth⟩ : ∃ header ∈ symlinkHeader 300 200,
      header.truncated = true ∧ header.truncatedLink = true := by decide +kernel
  refine ⟨by decide +kernel,header,hheader,?_⟩
  rintro ⟨longName,longLink,data,hf⟩
  exact not_gnuFramed_bothLong gnuBuilder_ready rfl hheader hboth hf

end ArchiveTarBuilder
