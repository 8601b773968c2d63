import ArchiveTarBuilder.MemberName
import ArchiveTarBuilder.PaxRecord
import ArchiveTarBuilder.SpliceStream

/-! The writes of one member as extensions of the logical stream: its extension records, its own
header, its contents. -/
namespace ArchiveTarBuilder
open Region CString Output

def gnuRecord (text : Bytes) (type : UInt8) : Bytes :=
  (bHeaderEncodeLonglinkBlock .zero text type).toBytes ++ pad512 text

theorem gnuRecord_length (text : Bytes) (type : UInt8) :
    (gnuRecord text type).length = 512+paddedSize text.length := by
  rw [gnuRecord,List.length_append,BHeaderBlock.toBytes_length,pad512_length]

def paxExtension (p : Process) (header : BHeader) (path : Bytes) : Bytes :=
  (bHeaderEncodePaxBlock p .zero header path).toBytes ++ pad512 (paxText path header.linkdest)

def ownHeader (p : Process) (header : BHeader) : Bytes :=
  (bHeaderEncodeBlock p .zero header).toBytes

structure Wrote (b b' : BBuilder) (bytes : Bytes) : Prop where
  rest : b' = { b with out := b'.out, total := b'.total }
  added : Extends b.out b'.out bytes

theorem Wrote.refl {b : BBuilder} (h : b.out.Ready) : Wrote b b [] := ⟨rfl,Extends.refl h⟩

theorem Wrote.trans {b b' b'' : BBuilder} {xs ys : Bytes} (h : Wrote b b' xs) (h' : Wrote b' b'' ys) :
    Wrote b b'' (xs ++ ys) := by
  refine ⟨?_,h.added.trans h'.added⟩
  rw [h'.rest,h.rest]

theorem encodeAt_wrote {b : BBuilder} {out : Output} {off : ℕ} (g : Granted b.out out off 512)
    (encode : BHeaderBlock → BHeaderBlock) (n : ℕ) :
    Wrote b { ({ b with out := out } : BBuilder).encodeAt off encode with total := n }
      (encode .zero).toBytes := by
  have hblank : BHeaderBlock.ofBytes (slice out.buf.data off bHeaderSize) = .zero := by
    rw [bHeaderSize,g.slice_block,BHeaderBlock.ofBytes_zeros]
  have hadd := g.extends (encode .zero).toBytes (by simp) (dvd_refl 512)
  rw [BHeaderBlock.toBytes_length,Nat.sub_self,zeros,List.replicate_zero,List.append_nil] at hadd
  refine ⟨rfl,?_⟩
  simpa only [BBuilder.encodeAt,hblank] using hadd

theorem encodeLonglink_wrote {b : BBuilder} {out : Output} {off : ℕ} (g : Granted b.out out off 512)
    (text : Bytes) (type : UInt8) (wrlen : ℕ) :
    ∃ b', encodeLonglink { b with out := out } off text type wrlen =
        (some (paddedSize text.length),b') ∧ Wrote b b' (gnuRecord text type) := by
  have hhead := encodeAt_wrote g (bHeaderEncodeLonglinkBlock · text type) (b.total+wrlen)
  obtain ⟨o,hloop,hbody⟩ := blocksLoop_ready text.length text 0 hhead.added.ready le_rfl
  refine ⟨{ b with out := o, total := b.total+wrlen+paddedSize text.length },?_,
    hhead.trans ⟨rfl,hbody⟩⟩
  rw [Nat.zero_add] at hloop
  simp only [encodeLonglink,bFileWritePathBlocks,BBuilder.encodeAt] at hloop ⊢
  rw [hloop]

def gnuRecords (header : BHeader) (longPath : Bytes) : Bytes :=
  (if header.truncated then gnuRecord longPath bHeaderLonglinkType else []) ++
    match header.linkdest with
    | none => []
    | some dest => if header.truncatedLink then gnuRecord dest bHeaderLongdestType else []

theorem writeGnuRecords_wrote {b : BBuilder} {out : Output} {off : ℕ} (g : Granted b.out out off 512)
    (header : BHeader) (longPath : Bytes) (wrlen : ℕ)
    (hboth : ¬(header.truncated = true ∧ header.truncatedLink = true))
    (hone : header.truncated = true ∨ header.truncatedLink = true)
    (hlink : header.truncatedLink = true → header.linkdest.isSome) :
    ∃ b', writeGnuRecords { b with out := out } header longPath off wrlen = (true,b') ∧
      Wrote b b' (gnuRecords header longPath) := by
  by_cases ht : header.truncated = true
  · have hl : header.truncatedLink = false := by simpa [ht] using hboth
    obtain ⟨b',henc,hw⟩ := encodeLonglink_wrote g longPath bHeaderLonglinkType wrlen
    refine ⟨b',?_,?_⟩
    · simp only [writeGnuRecords,ht,if_true,henc,hl]
      cases header.linkdest <;> rfl
    · rw [gnuRecords,if_pos ht,hl]
      cases header.linkdest <;> simpa using hw
  · have hl : header.truncatedLink = true := hone.resolve_left ht
    obtain ⟨dest,hd⟩ := Option.isSome_iff_exists.mp (hlink hl)
    obtain ⟨b',henc,hw⟩ := encodeLonglink_wrote g dest bHeaderLongdestType wrlen
    refine ⟨b',?_,?_⟩
    · simp [writeGnuRecords,ht,hd,hl,henc]
    · simpa [gnuRecords,ht,hd,hl] using hw

/-- What stands in front of a member's own header, when it can be written at all. -/
def extensionRecords (p : Process) (options : BBuilderOptions) (header : BHeader) (longPath : Bytes) :
    Option Bytes :=
  if header.truncated || header.truncatedLink then
    if options.gnuExtensions then some (gnuRecords header longPath)
    else if options.paxExtensions && bHeaderComputePaxLength longPath pathKey ≠ 2^64-1 then
      some (paxExtension p header longPath)
    else none
  else some []

/-- The one member kind whose records overwrite each other. -/
def GnuBothLong (options : BBuilderOptions) (header : BHeader) : Prop :=
  options.gnuExtensions = true ∧ header.truncated = true ∧ header.truncatedLink = true

instance (options : BBuilderOptions) (header : BHeader) : Decidable (GnuBothLong options header) := by
  unfold GnuBothLong; infer_instance

theorem getHeaderBlock {o : Output} (h : o.Ready) :
    ∃ off out, bBufferGetBlock o bHeaderSize = (some (off,512),out) ∧ Granted o out off 512 := by
  obtain ⟨off,out,hget,hg,-⟩ := h.getBlankBlock
  exact ⟨off,out,hget,hg⟩

structure RecordsFailed (b b' : BBuilder) : Prop where
  ready : b'.out.Ready
  frame : Frame b.out b'.out
  rest : b' = { b with out := b'.out, total := b'.total, err := b'.err }
  reported : (b'.err.type = .warn ∧ b'.out.stream = b.out.stream) ∨ b'.err.type = .fatal
  added : ∃ data, b'.out.stream = b.out.stream ++ data

theorem writePaxRecords_wrote {b : BBuilder} {out : Output} {off : ℕ} (g : Granted b.out out off 512)
    (header : BHeader) (longPath memberName : Bytes) (wrlen : ℕ)
    (hlen : bHeaderComputePaxLength longPath pathKey ≠ 2^64-1) :
    ∃ b', writePaxRecords { b with out := out } header longPath memberName off wrlen = (true,b') ∧
      Wrote b b' (paxExtension b.process header longPath) := by
  have hhead := encodeAt_wrote g (bHeaderEncodePaxBlock b.process · header longPath)
    (b.total+wrlen)
  obtain ⟨o,hloop,hbody⟩ := blocksLoop_ready (paxText longPath header.linkdest).length
    (paxText longPath header.linkdest) 0 hhead.added.ready le_rfl
  refine ⟨{ b with
    out := o
    total := b.total+wrlen+(0+paddedSize (paxText longPath header.linkdest).length) },?_,
    hhead.trans ⟨rfl,hbody⟩⟩
  simp only [writePaxRecords,bFileWritePaxPathBlocks,hlen,if_false,BBuilder.encodeAt] at hloop ⊢
  rw [hloop]

theorem writePaxRecords_fails {b : BBuilder} {out : Output} {off : ℕ} (g : Granted b.out out off 512)
    (header : BHeader) (longPath memberName : Bytes) (wrlen : ℕ)
    (hlen : bHeaderComputePaxLength longPath pathKey = 2^64-1) :
    ∃ b', writePaxRecords { b with out := out } header longPath memberName off wrlen = (false,b') ∧
      RecordsFailed b b' := by
  have hhead := encodeAt_wrote g (bHeaderEncodePaxBlock b.process · header longPath)
    (b.total+wrlen)
  refine ⟨({ ({ b with out := out } : BBuilder).encodeAt off
      (bHeaderEncodePaxBlock b.process · header longPath) with total := b.total+wrlen } :
      BBuilder).setError .fatal "Cannot write long filename header" memberName,?_,
    hhead.added.ready,hhead.added.frame,rfl,Or.inr rfl,_,hhead.added.stream⟩
  simp only [writePaxRecords,bFileWritePaxPathBlocks,hlen,if_true,BBuilder.encodeAt]

theorem writeLongRecords_ready {b : BBuilder} (h : b.out.Ready) {header : BHeader}
    (memberName : Bytes) (st : Stat) (hboth : ¬GnuBothLong b.options header)
    (hlink : header.truncatedLink = true → header.linkdest.isSome) :
    match extensionRecords b.process b.options header (longlinkPath memberName st) with
    | some records => ∃ b', writeLongRecords b header memberName st = (true,b') ∧ Wrote b b' records
    | none => ∃ b', writeLongRecords b header memberName st = (false,b') ∧ RecordsFailed b b' := by
  by_cases hlong : (header.truncated || header.truncatedLink) = true
  · obtain ⟨off,out,hget,hg⟩ := getHeaderBlock h
    by_cases hgnu : b.options.gnuExtensions = true
    · obtain ⟨b',hwrite,hw⟩ := writeGnuRecords_wrote hg header (longlinkPath memberName st) 512
        (fun hb => hboth ⟨hgnu,hb⟩) (by simpa using hlong) hlink
      simp only [extensionRecords,hlong,hgnu,if_true]
      exact ⟨b',by simpa [writeLongRecords,hlong,hgnu,hget] using hwrite,hw⟩
    · by_cases hpax : b.options.paxExtensions = true
      · have hwrite : writeLongRecords b header memberName st =
          writePaxRecords { b with out := out }
            header (longlinkPath memberName st) memberName off 512 := by
          simp only [writeLongRecords,hlong,hgnu,hpax,hget,if_true,if_false,Bool.false_or,
            Bool.not_true,Bool.false_eq_true]
        rw [hwrite]
        by_cases hlen : bHeaderComputePaxLength (longlinkPath memberName st) pathKey = 2^64-1
        · simp only [extensionRecords,hlong,hgnu,hpax,hlen,if_true,Bool.false_eq_true,if_false,
            ne_eq,not_true_eq_false,decide_false,Bool.and_false]
          exact writePaxRecords_fails hg header _ memberName 512 hlen
        · simp only [extensionRecords,hlong,hgnu,hpax,hlen,if_true,Bool.false_eq_true,if_false,
            ne_eq,not_false_eq_true,decide_true,Bool.and_true]
          exact writePaxRecords_wrote hg header _ memberName 512 hlen
      · simp only [extensionRecords,hlong,hgnu,hpax,if_true,if_false,Bool.false_eq_true,
          Bool.false_and]
        exact ⟨(b.setErrno .enametoolong).setError .warn "File name too long" memberName,
          by simp [writeLongRecords,hlong,hgnu,hpax],h.setErrno .enametoolong,
          (Frame.refl b.out).setErrno _,rfl,Or.inl ⟨rfl,rfl⟩,[],(List.append_nil _).symm⟩
  · simp only [extensionRecords,hlong,if_false,Bool.false_eq_true]
    exact ⟨b,by simp [writeLongRecords,hlong],Wrote.refl h⟩

theorem Output.Aligned.room_le {o : Output} (h : o.Aligned) : o.room ≤ o.buf.size := by
  have hle := h.unused_le
  unfold Output.room
  split <;> omega

/-- The member's own header always gets its block, so the buffer is not empty behind it. -/
theorem writeHeader_wrote {b : BBuilder} (h : b.out.Ready) (header : BHeader) :
    ∃ b', writeHeader b header = (true,b') ∧ Wrote b b' (ownHeader b.process header) ∧
      b'.out.buf.unused < b'.out.buf.size := by
  obtain ⟨off,out,hget,hg⟩ := getHeaderBlock h
  have hw := encodeAt_wrote hg (bHeaderEncodeBlock b.process · header) (b.total+512)
  refine ⟨_,by simp only [writeHeader,hget]; rfl,hw,?_⟩
  have hroom := h.room_le
  have hunused := hg.unused
  have hsize := hg.frame.size
  simp only [BBuilder.encodeAt,Output.store]
  omega

/-- What `b_builder_write_file` does about the contents, on the output alone. -/
def contentsOf (o : Output) (header : BHeader) (fd : ℤ) (file : File) : Option ℕ × Output :=
  if header.isIfreg && decide (0 < fd) then bFileWriteContents o file header.size else (some 0,o)

theorem bFileWriteContents_stream {o : Output} (h : o.Ready) (file : File) (n : ℕ) :
    (bFileWriteContents o file n).2.Ready ∧
      ∃ data, (bFileWriteContents o file n).2.stream = o.stream ++ data := by
  by_cases hmode : o.buf.canSplice = false ∨ n ≤ o.buf.unused
  · have hreads := bFileWriteContents_reads h file n hmode
    split at hreads
    · obtain ⟨p,hp,hready,hstream,-⟩ := hreads
      rw [hp]
      exact ⟨hready,_,hstream⟩
    · obtain ⟨p,k,hp,hs⟩ := hreads
      rw [hp]
      exact ⟨hs.ready,_,hs.stream.trans (List.append_assoc _ _ _)⟩
  · obtain ⟨hcan,hn⟩ := not_or.mp hmode
    have hsplices := bFileWriteContents_splices h (by simpa using hcan) file (by omega : o.buf.unused < n)
    split at hsplices
    · obtain ⟨p,k,hp,hs⟩ := hsplices
      rw [hp]
      exact ⟨hs.ready,_,hs.stream.trans (List.append_assoc _ _ _)⟩
    · simp only at hsplices
      split at hsplices
      · split at hsplices
        · obtain ⟨p,hp,hready,hstream,-⟩ := hsplices
          rw [hp]
          exact ⟨hready,_,hstream.trans (List.append_assoc _ _ _)⟩
        · obtain ⟨p,k,hp,hready,hstream,-⟩ := hsplices
          rw [hp]
          exact ⟨hready,_,by rw [hstream,List.append_assoc,List.append_assoc]⟩
      · obtain ⟨res,p,k,hp,hready,hstream,-⟩ := hsplices
        rw [hp]
        exact ⟨hready,_,hstream.trans (List.append_assoc _ _ _)⟩

theorem contentsOf_stream {o : Output} (h : o.Ready) (header : BHeader) (fd : ℤ) (file : File) :
    (contentsOf o header fd file).2.Ready ∧
      ∃ data, (contentsOf o header fd file).2.stream = o.stream ++ data := by
  unfold contentsOf
  split
  · exact bFileWriteContents_stream h file header.size
  · exact ⟨h,[],by simp⟩

/-- The contents of a member whose call returns 1, on a descriptor that is not spliced. -/
theorem contentsOf_plain {o o' : Output} (h : o.Ready) (hplain : o.buf.canSplice = false)
    {header : BHeader} {fd : ℤ} {file : File} {n : ℕ} (hfd : header.isIfreg = true → 0 < fd)
    (hret : contentsOf o header fd file = (some n,o')) :
    ∃ data, data = (if header.isIfreg then file.contents.take header.size else []) ∧
      data.length = (if header.isIfreg then header.size else 0) ∧ Extends o o' (pad512 data) := by
  unfold contentsOf at hret
  by_cases hreg : header.isIfreg = true
  · simp only [hreg,hfd hreg,decide_true,Bool.and_self,if_true] at hret ⊢
    have hreads := bFileWriteContents_reads h file header.size (Or.inl hplain)
    split at hreads
    · obtain ⟨p,hcontents,hready,hstream,hsup,hframe⟩ := hreads
      obtain ⟨-,rfl⟩ := Prod.mk.inj (hcontents.symm.trans hret)
      exact ⟨_,rfl,by simpa using hsup,hready,hstream,hframe⟩
    · obtain ⟨p,k,hcontents,-⟩ := hreads
      rw [hcontents] at hret
      cases hret
  · simp only [hreg,Bool.false_and,Bool.false_eq_true,if_false] at hret ⊢
    obtain ⟨-,rfl⟩ := Prod.mk.inj hret
    exact ⟨[],rfl,rfl,by simpa using Extends.refl h⟩

theorem writeContents_eq (b : BBuilder) (header : BHeader) (path : Bytes) (fd : ℤ) (file : File) :
    writeContents b header path fd file =
      match contentsOf b.out header fd file with
      | (none,out) =>
        (false,({ b with out := out } : BBuilder).setError .warn "Cannot write file to archive" path)
      | (some n,out) => (true,{ b with out := out, total := b.total+n }) := by
  unfold writeContents contentsOf
  split <;> rfl

theorem writeContents_out (b : BBuilder) (header : BHeader) (path : Bytes) (fd : ℤ) (file : File) :
    (writeContents b header path fd file).1 = (contentsOf b.out header fd file).1.isSome ∧
      (writeContents b header path fd file).2.out = (contentsOf b.out header fd file).2 := by
  rw [writeContents_eq]
  cases contentsOf b.out header fd file with
  | mk count out => cases count <;> exact ⟨rfl,rfl⟩

theorem writeHead_ready {b : BBuilder} (h : b.out.Ready) {header : BHeader} (memberName : Bytes)
    (st : Stat) (hboth : ¬GnuBothLong b.options header)
    (hlink : header.truncatedLink = true → header.linkdest.isSome) {records : Bytes}
    (hrec : extensionRecords b.process b.options header (longlinkPath memberName st) = some records) :
    ∃ b', andWrite (writeLongRecords b header memberName st) (writeHeader · header) = (true,b') ∧
      Wrote b b' (records ++ ownHeader b.process header) ∧
      b'.out.buf.unused < b'.out.buf.size := by
  have hlong := writeLongRecords_ready h memberName st hboth hlink
  rw [hrec] at hlong
  obtain ⟨b₁,hwrite,hw⟩ := hlong
  obtain ⟨b₂,hhead,hw',hused⟩ := writeHeader_wrote hw.added.ready header
  have hprocess : b₁.process = b.process := by rw [hw.rest]
  rw [hprocess] at hw'
  exact ⟨b₂,by simp [andWrite,hwrite,hhead],hw.trans hw',hused⟩

/-- A member whose header is ready: it fails in front of its own header, or its records and its
header reach the stream and its contents follow. -/
theorem writeMember_ready {b : BBuilder} (h : b.out.Ready) {header : BHeader} (path memberName : Bytes)
    (st : Stat) (fd : ℤ) (file : File) (hboth : ¬GnuBothLong b.options header)
    (hlink : header.truncatedLink = true → header.linkdest.isSome) :
    match extensionRecords b.process b.options header (longlinkPath memberName st) with
    | none => ∃ b', writeMember b header path memberName st fd file = (false,b') ∧
    RecordsFailed b b'
    | some records => ∃ b', Wrote b b' (records ++ ownHeader b.process header) ∧
        b'.out.buf.unused < b'.out.buf.size ∧
        writeMember b header path memberName st fd file = writeContents b' header path fd file := by
  cases hrec : extensionRecords b.process b.options header (longlinkPath memberName st) with
  | some records =>
    obtain ⟨b',hhead,hwrote,hused⟩ := writeHead_ready h memberName st hboth hlink hrec
    exact ⟨b',hwrote,hused,by rw [writeMember,hhead]; rfl⟩
  | none =>
    have hlong := writeLongRecords_ready h memberName st hboth hlink
    rw [hrec] at hlong
    obtain ⟨b',hwrite,hf⟩ := hlong
    exact ⟨b',by simp [writeMember,andWrite,hwrite],hf⟩

/-- The header of a member with the names of its owner, when the member gets that far. -/
def memberHeader (lookup : Option BUserLookup) (cache : Option HardlinkCache) (src : Source)
    (memberName : Bytes) (st : Stat) : Option BHeader :=
  match (headerForFile cache src memberName st).1 with
  | .error _ => none
  | .ok header =>
    match lookup with
    | none => some header
    | some lookup =>
      (lookup st.uid st.gid).map fun names => { header with user := names.1, group := names.2 }

inductive LinkSource (cache : Option HardlinkCache) (src : Source) (st : Stat) (header : BHeader) : Prop
  | symlink (dest : Bytes) (hst : st.ifmt = sIflnk) (hread : bReadlink src st = .ok dest)
      (hdest : header.linkdest = some dest) (htype : header.linktype = 50)
  | plain (hst : st.ifmt ≠ sIflnk) (hdest : header.linkdest = none)
      (htype : header.linktype = inodeLinktype st)
  | hardlink (entries : HardlinkCache) (dest : Bytes) (hst : isHardlink st = true)
      (hcache : cache = some entries) (hlookup : entries.lookup (st.dev,st.ino) = some dest)
      (hdest : header.linkdest = some dest) (htype : header.linktype = 49)

structure HeaderOf (cache : Option HardlinkCache) (src : Source) (memberName : Bytes) (st : Stat)
    (header : BHeader) : Prop where
  split : ∃ d, pathSplit memberName st = some d ∧ header.pathPrefix = d.pathPrefix ∧
    header.suffix = d.suffix ∧ header.truncated = d.truncated
  size : header.size = if st.ifmt = sIfreg then st.size else 0
  truncatedLink : header.truncatedLink = true ↔ ∃ dest ∈ header.linkdest, 100 < dest.length
  link : LinkSource cache src st header

theorem HeaderOf.linkdest_isSome {cache : Option HardlinkCache} {src : Source} {memberName : Bytes}
    {st : Stat} {header : BHeader} (h : HeaderOf cache src memberName st header)
    (hl : header.truncatedLink = true) : header.linkdest.isSome := by
  obtain ⟨dest,hd,-⟩ := h.truncatedLink.mp hl
  simp [Option.mem_def.mp hd]

theorem HeaderOf.isIfreg_linkdest {cache : Option HardlinkCache} {src : Source} {memberName : Bytes}
    {st : Stat} {header : BHeader} (h : HeaderOf cache src memberName st header) {dest : Bytes}
    (hd : header.linkdest = some dest) : header.isIfreg = false := by
  cases h.link with
  | symlink _ _ _ _ htype => rw [BHeader.isIfreg,htype]; decide
  | plain _ hdest _ => simp [hd] at hdest
  | hardlink _ _ _ _ _ _ htype => rw [BHeader.isIfreg,htype]; decide

theorem withLinkdest_truncatedLink (header : BHeader) (dest : Bytes) :
    (header.withLinkdest dest).truncatedLink = true ↔
      ∃ d ∈ (header.withLinkdest dest).linkdest, 100 < d.length := by
  constructor
  · exact fun h => ⟨dest,rfl,of_decide_eq_true h⟩
  · rintro ⟨d,hd,hlen⟩
    obtain rfl : dest = d := by simpa [BHeader.withLinkdest] using hd
    exact decide_eq_true hlen

theorem inodeLinktype_symlink {st : Stat} (h : st.ifmt = sIflnk) : inodeLinktype st = 50 := by
  rw [inodeLinktype,h]
  decide

theorem headerForFile_ok {cache cache' : Option HardlinkCache} {src : Source} {memberName : Bytes}
    {st : Stat} {header : BHeader}
    (h : headerForFile cache src memberName st = (.ok header,cache')) :
    HeaderOf cache src memberName st header := by
  unfold headerForFile at h
  cases hsplit : pathSplit memberName st with
  | none => simp [hsplit] at h
  | some d =>
    have hplain (hlnk : st.ifmt ≠ sIflnk) : HeaderOf cache src memberName st (fileHeader d st) :=
      ⟨⟨d,hsplit,rfl,rfl,rfl⟩,rfl,by simp [fileHeader],.plain hlnk rfl rfl⟩
    simp only [hsplit] at h
    by_cases hlnk : st.ifmt = sIflnk
    · rw [if_pos hlnk] at h
      cases hread : bReadlink src st with
      | error e => simp [hread] at h
      | ok dest =>
        obtain ⟨rfl,-⟩ := Prod.mk.inj (by simpa [hread] using h)
        exact ⟨⟨d,hsplit,rfl,rfl,rfl⟩,rfl,withLinkdest_truncatedLink _ _,
          .symlink dest hlnk hread rfl (inodeLinktype_symlink hlnk)⟩
    · rw [if_neg hlnk] at h
      by_cases hhard : isHardlink st = true
      · rw [if_pos hhard] at h
        cases cache with
        | none =>
          obtain ⟨rfl,-⟩ := Prod.mk.inj (by simpa using h)
          exact hplain hlnk
        | some entries =>
          cases hlookup : List.lookup (st.dev,st.ino) entries with
          | none =>
            obtain ⟨rfl,-⟩ := Prod.mk.inj (by simpa [HardlinkCache.lookupPath,hlookup] using h)
            exact hplain hlnk
          | some dest =>
            obtain ⟨rfl,-⟩ := Prod.mk.inj (by simpa [HardlinkCache.lookupPath,hlookup] using h)
            exact ⟨⟨d,hsplit,rfl,rfl,rfl⟩,rfl,withLinkdest_truncatedLink _ _,
              .hardlink entries dest hhard rfl hlookup rfl rfl⟩
      · rw [if_neg hhard] at h
        obtain ⟨rfl,-⟩ := Prod.mk.inj (by simpa using h)
        exact hplain hlnk

theorem memberHeader_of {lookup : Option BUserLookup} {cache : Option HardlinkCache} {src : Source}
    {memberName : Bytes} {st : Stat} {header : BHeader}
    (h : memberHeader lookup cache src memberName st = some header) :
    HeaderOf cache src memberName st header := by
  obtain ⟨r,cache',hr⟩ : ∃ r cache', headerForFile cache src memberName st = (r,cache') := ⟨_,_,rfl⟩
  cases r with
  | error e => simp [memberHeader,hr] at h
  | ok plain =>
    have hplain := headerForFile_ok hr
    cases lookup with
    | none =>
      obtain rfl : plain = header := by simpa [memberHeader,hr] using h
      exact hplain
    | some lookup =>
      simp only [memberHeader,hr,Option.map_eq_some_iff] at h
      obtain ⟨names,-,rfl⟩ := h
      refine ⟨hplain.split,hplain.size,hplain.truncatedLink,?_⟩
      cases hplain.link with
      | symlink dest hst hread hdest htype => exact .symlink dest hst hread hdest htype
      | plain hst hdest htype => exact .plain hst hdest htype
      | hardlink entries dest hst hcache hlookup hdest htype =>
        exact .hardlink entries dest hst hcache hlookup hdest htype

def memberStart (b : BBuilder) (src : Source) (memberName : Bytes) (st : Stat) : BBuilder :=
  { b with
    err := bErrorClear b.err
    hardlinkCache := (headerForFile b.hardlinkCache src memberName st).2 }

theorem bBuilderWriteFile_some {b : BBuilder} (path : Bytes) {memberName : Bytes} {st : Stat}
    (fd : ℤ) {src : Source} {header : BHeader}
    (h : memberHeader b.userLookup b.hardlinkCache src memberName st = some header) :
    bBuilderWriteFile b path memberName st fd src =
      writeMember (memberStart b src memberName st) header path memberName st fd src.file := by
  obtain ⟨r,cache',hr⟩ : ∃ r cache', headerForFile b.hardlinkCache src memberName st = (r,cache') :=
    ⟨_,_,rfl⟩
  cases r with
  | error e => simp [memberHeader,hr] at h
  | ok plain =>
    cases hl : b.userLookup with
    | none =>
      obtain rfl : plain = header := by simpa [memberHeader,hr,hl] using h
      simp only [bBuilderWriteFile,hr,lookupUser,hl,memberStart]
    | some lookup =>
      simp only [memberHeader,hr,hl,Option.map_eq_some_iff] at h
      obtain ⟨names,hnames,rfl⟩ := h
      simp only [bBuilderWriteFile,hr,lookupUser,hl,hnames,memberStart]

structure Unheaded (b : BBuilder) (memberName : Bytes) (st : Stat) (src : Source)
    (r : Bool × BBuilder) : Prop where
  failed : r.1 = false
  out : ∃ e, r.2.out = b.out.setErrno e
  type : r.2.err.type = match (headerForFile b.hardlinkCache src memberName st).1 with
    | .error _ => .fatal
    | .ok _ => .warn
  total : r.2.total = b.total

theorem Unheaded.reported {b : BBuilder} {memberName : Bytes} {st : Stat} {src : Source}
    {r : Bool × BBuilder} (h : Unheaded b memberName st src r) : r.2.err.type ≠ .ok := by
  rw [h.type]
  split <;> decide

theorem bBuilderWriteFile_none {b : BBuilder} (path : Bytes) {memberName : Bytes} {st : Stat}
    (fd : ℤ) {src : Source} (h : memberHeader b.userLookup b.hardlinkCache src memberName st = none) :
    Unheaded b memberName st src (bBuilderWriteFile b path memberName st fd src) := by
  obtain ⟨r,cache',hr⟩ : ∃ r cache', headerForFile b.hardlinkCache src memberName st = (r,cache') :=
    ⟨_,_,rfl⟩
  cases r with
  | error e =>
    simp only [bBuilderWriteFile,hr]
    refine ⟨rfl,?_,by rw [hr]; rfl,rfl⟩
    cases e with
    | none => exact ⟨b.out.sys.errno,rfl⟩
    | some e => exact ⟨e,rfl⟩
  | ok plain =>
    cases hl : b.userLookup with
    | none => simp [memberHeader,hr,hl] at h
    | some lookup =>
      simp only [memberHeader,hr,hl,Option.map_eq_none_iff] at h
      simp only [bBuilderWriteFile,hr,lookupUser,hl,h]
      exact ⟨rfl,⟨b.out.sys.errno,rfl⟩,by rw [hr]; rfl,rfl⟩

/-- The call gave up in front of the member's own header: nothing reached the stream, or the error
is fatal. -/
structure Refused (b : BBuilder) (memberName : Bytes) (st : Stat) (src : Source)
    (r : Bool × BBuilder) : Prop where
  absent : ∀ header ∈ memberHeader b.userLookup b.hardlinkCache src memberName st,
    extensionRecords b.process b.options header (longlinkPath memberName st) = none
  failed : r.1 = false
  ready : r.2.out.Ready
  frame : Frame b.out r.2.out
  reported : r.2.err.type ≠ .ok
  stream : r.2.err.type = .fatal ∨ r.2.out.stream = b.out.stream
  added : ∃ data, r.2.out.stream = b.out.stream ++ data

/-- The call wrote the member's records and its own header, and went on with the contents. -/
structure Headed (b : BBuilder) (path memberName : Bytes) (st : Stat) (fd : ℤ) (src : Source)
    (r : Bool × BBuilder) (header : BHeader) (records : Bytes) (b' : BBuilder) : Prop where
  found : memberHeader b.userLookup b.hardlinkCache src memberName st = some header
  recorded : extensionRecords b.process b.options header (longlinkPath memberName st) = some records
  wrote : Wrote (memberStart b src memberName st) b' (records ++ ownHeader b.process header)
  used : b'.out.buf.unused < b'.out.buf.size
  result : r = writeContents b' header path fd src.file

theorem Headed.stream {b : BBuilder} {path memberName : Bytes} {st : Stat} {fd : ℤ} {src : Source}
    {r : Bool × BBuilder} {header : BHeader} {records : Bytes} {b' : BBuilder}
    (h : Headed b path memberName st fd src r header records b') :
    r.1 = (contentsOf b'.out header fd src.file).1.isSome ∧ r.2.out.Ready ∧
      ∃ data, (contentsOf b'.out header fd src.file).2.stream = b'.out.stream ++ data ∧
        r.2.out.stream = b.out.stream ++ (records ++ ownHeader b.process header) ++ data := by
  obtain ⟨hready,data,hdata⟩ := contentsOf_stream h.wrote.added.ready header fd src.file
  obtain ⟨hfst,hout⟩ := writeContents_out b' header path fd src.file
  rw [h.result,hout]
  exact ⟨hfst,hready,data,hdata,hdata.trans (by rw [h.wrote.added.stream]; rfl)⟩

theorem bBuilderWriteFile_ready {b : BBuilder} (h : b.out.Ready) (path memberName : Bytes) (st : Stat)
    (fd : ℤ) (src : Source)
    (hboth : ∀ header ∈ memberHeader b.userLookup b.hardlinkCache src memberName st,
      ¬GnuBothLong b.options header) :
    Refused b memberName st src (bBuilderWriteFile b path memberName st fd src) ∨
      ∃ header records b', Headed b path memberName st fd src
        (bBuilderWriteFile b path memberName st fd src) header records b' := by
  cases hh : memberHeader b.userLookup b.hardlinkCache src memberName st with
  | none =>
    have hnone := bBuilderWriteFile_none path fd hh
    obtain ⟨e,hout⟩ := hnone.out
    exact Or.inl ⟨by simp [hh],hnone.failed,hout ▸ h.setErrno e,
      hout ▸ (Frame.refl b.out).setErrno e,hnone.reported,
      Or.inr (by rw [hout,stream_setErrno]),[],by rw [hout,stream_setErrno,List.append_nil]⟩
  | some header =>
    have heq := bBuilderWriteFile_some path fd hh
    have hm := writeMember_ready (b := memberStart b src memberName st) h path memberName st fd
      src.file (hboth header hh) fun hl => (memberHeader_of hh).linkdest_isSome hl
    change match extensionRecords b.process b.options header (longlinkPath memberName st) with
      | none => _
      | some records => _ at hm
    cases hrec : extensionRecords b.process b.options header (longlinkPath memberName st) with
    | none =>
      rw [hrec] at hm
      obtain ⟨b',hwrite,hf⟩ := hm
      rw [heq,hwrite]
      refine Or.inl ⟨by simpa [hh] using hrec,rfl,hf.ready,hf.frame,?_,
        hf.reported.symm.imp id And.right,hf.added⟩
      rcases hf.reported with ⟨hw,-⟩ | hfatal
      · simp [hw]
      · simp [hfatal]
    | some records =>
      rw [hrec] at hm
      obtain ⟨b',hwrote,hused,hwrite⟩ := hm
      exact Or.inr ⟨header,records,b',hh,hrec,hwrote,hused,heq.trans hwrite⟩

/-- The arguments of one call of `b_builder_write_file`, with what lies at the path. -/
structure MemberCall where
  path : Bytes
  memberName : Bytes
  st : Stat
  fd : ℤ
  src : Source

def MemberCall.write (c : MemberCall) (b : BBuilder) : Bool × BBuilder :=
  bBuilderWriteFile b c.path c.memberName c.st c.fd c.src

end ArchiveTarBuilder
