import ArchiveTarBuilder.EndMarker
import ArchiveTarBuilder.Framing

/-! The total that `archive_as` returns against the length of the stream. The counts of spliced
contents leave the padding out, those of contents that fail are lost, and a member with two GNU
records has the first one counted twice. -/
namespace ArchiveTarBuilder
open Region CString Output

def ReadsWhole (size free left : ℕ) (file : File) : Prop :=
  ∃ rest, reading size free left file = .ok rest

/-- The contents are read whole and in whole blocks: they do not engage splicing, or the bytes
spliced are whole blocks, and if a `splice()` fails the rest can be read. -/
def WholeBlocks (o : Output) (unused : ℕ) (file : File) (n : ℕ) : Prop :=
  if o.buf.canSplice = false ∨ n ≤ unused then ReadsWhole o.buf.size unused n file
  else
    match reading o.buf.size unused unused file with
    | .error _ => False
    | .ok file' =>
      let r := splicing (n-unused) file'.contents.length o.sys.splices
      let m := unused+r.1
      512 ∣ r.1 ∧
        (r.2 = .failed → ReadsWhole o.buf.size o.buf.size (n-m) ⟨file.contents.drop m,file'.reads⟩)

structure AddsBlocks (o o' : Output) (n : ℕ) : Prop where
  length : o'.stream.length = o.stream.length+n
  blocks : 512 ∣ n

theorem addsBlocks_spliced {o : Output} (file : File) {n m : ℕ} {v : ContentsState}
    (hv : Spliced (contentsStart o file) v m) (hm : m ≤ file.contents.length)
    (hcan : v.out.buf.canSplice = true)
    (hloop : contentsLoop n (n+1) (contentsStart o file) = .leave v) :
    AddsBlocks o (bFileWriteContents o file n).2 ((bFileWriteContents o file n).1.getD 0) ↔
      512 ∣ m := by
  have htotal : v.total = m := by rw [hv.total]; simp [contentsStart]
  have hlen : (file.contents.take m).length = m := by rw [List.length_take]; omega
  have hloop' := hloop
  simp only [contentsStart] at hloop'
  by_cases hblock : 512 ∣ m
  · have hpad : writePadding v = (0,v.out) := by
      have hmod : v.total % bBufferBlockSize = 0 := by rw [htotal]; exact Nat.mod_eq_zero_of_dvd hblock
      simp [writePadding,hmod]
    have hstream := hv.stream
    simp only [contentsStart] at hstream
    have hresult : bFileWriteContents o file n = (some m,v.out) := by
      simp only [bFileWriteContents,hloop',hpad,lt_irrefl,if_false,htotal]
    rw [hresult]
    refine iff_of_true ⟨?_,hblock⟩ hblock
    rw [hstream,List.length_append,hlen]
    rfl
  · refine iff_of_false (fun hadds => ?_) hblock
    obtain ⟨res,o',k,hres,-,hstream,-,-⟩ := bFileWriteContents_leave file hv hcan hloop
    have hcount : res = none ∨ res = some m := by
      simp only [bFileWriteContents,hloop',htotal] at hres
      split at hres
      · exact Or.inl (Prod.mk.inj hres).1.symm
      · exact Or.inr (Prod.mk.inj hres).1.symm
    have hadded := hadds.length
    have hblocks := hadds.blocks
    rw [hres,hstream,List.length_append,List.length_append,hlen] at hadded
    rw [hres] at hblocks
    rcases hcount with rfl | rfl
    · simp only [Option.getD_none] at hadded
      exact hblock ⟨0,by omega⟩
    · exact hblock hblocks

theorem not_addsBlocks_short {o out : Output} {file : File} {left off room k : ℕ}
    (hs : ReadShort (contentsStart o file) out left off room k) :
    ¬AddsBlocks o out ((none : Option ℕ).getD 0) := by
  intro hadds
  obtain ⟨data,hadded⟩ := hs.added le_rfl
  have hlen := hadds.length
  have hroom := hs.lt_room
  rw [hadded.stream,List.length_append,hadded.length] at hlen
  simp only [Option.getD_none] at hlen
  omega

theorem addsBlocks_reads {o : Output} (h : o.Ready) (file : File) (n : ℕ)
    (hmode : o.buf.canSplice = false ∨ n ≤ o.buf.unused) :
    AddsBlocks o (bFileWriteContents o file n).2 ((bFileWriteContents o file n).1.getD 0) ↔
      ReadsWhole o.buf.size o.buf.unused n file := by
  have hreads := bFileWriteContents_reads h file n hmode
  cases hread : reading o.buf.size o.buf.unused n file with
  | ok rest =>
    rw [hread] at hreads
    obtain ⟨o',hp,-,hstream,hsup,-⟩ := hreads
    rw [hp]
    refine iff_of_true ⟨?_,dvd_roundUp 512 n (by decide)⟩ ⟨rest,hread⟩
    rw [hstream,List.length_append,pad512_length,List.length_take,min_eq_left hsup]
    rfl
  | error p =>
    obtain ⟨off,room⟩ := p
    rw [hread] at hreads
    obtain ⟨o',k,hp,hs⟩ := hreads
    rw [hp]
    refine iff_of_false (not_addsBlocks_short hs) ?_
    rintro ⟨rest,hok⟩
    rw [hread] at hok
    cases hok

theorem addsBlocks_iff {o : Output} (h : o.Ready) (file : File) (n : ℕ) :
    AddsBlocks o (bFileWriteContents o file n).2 ((bFileWriteContents o file n).1.getD 0) ↔
      WholeBlocks o o.buf.unused file n := by
  unfold WholeBlocks
  by_cases hmode : o.buf.canSplice = false ∨ n ≤ o.buf.unused
  · rw [if_pos hmode]
    exact addsBlocks_reads h file n hmode
  · rw [if_neg hmode]
    obtain ⟨hcan,hn⟩ := not_or.mp hmode
    have hcan' : o.buf.canSplice = true := by simpa using hcan
    have hn' : o.buf.unused < n := by omega
    have hsplices := bFileWriteContents_splices h hcan' file hn'
    cases hread : reading o.buf.size o.buf.unused o.buf.unused file with
    | error p =>
      obtain ⟨off,room⟩ := p
      rw [hread] at hsplices
      obtain ⟨o',k,hp,hs⟩ := hsplices
      rw [hp]
      exact iff_of_false (not_addsBlocks_short hs) id
    | ok file' =>
      obtain ⟨v,hv,-,-,hle,hend⟩ := contentsLoop_spliced h hcan' file hn' hread
      obtain ⟨hfill,hrest⟩ := readAll_ok h.pos (Nat.lt_succ_self _) hread
      have hunused := h.unusedBlock
      rw [hread] at hsplices
      simp only at hsplices ⊢
      generalize splicing (n-o.buf.unused) file'.contents.length o.sys.splices = r
        at hsplices hv hle hend ⊢
      have hblock : 512 ∣ o.buf.unused+r.1 ↔ 512 ∣ r.1 := (Nat.dvd_add_iff_right hunused).symm
      cases hr : r.2 with
      | complete =>
        simp only [hr] at hend
        rw [addsBlocks_spliced file hv hle hend.1 hend.2,hblock]
        simp
      | eof =>
        simp only [hr] at hend
        rw [addsBlocks_spliced file hv hle hend.1 hend.2,hblock]
        simp
      | failed =>
        simp only [hr] at hsplices
        simp only [forall_const]
        generalize hm : o.buf.unused+r.1 = m at hsplices hle hblock ⊢
        have hlen : (file.contents.take m).length = m := by rw [List.length_take]; omega
        cases hread' : reading o.buf.size o.buf.size (n-m) ⟨file.contents.drop m,file'.reads⟩ with
        | ok rest =>
          rw [hread'] at hsplices
          obtain ⟨o',hp,-,hstream,hsup⟩ := hsplices
          have hlen' : ((file.contents.drop m).take (n-m)).length = n-m := by
            rw [List.length_take,List.length_drop]; omega
          have hpadded : 512 ∣ paddedSize (n-m) := dvd_roundUp 512 (n-m) (by decide)
          have hlength : o'.stream.length = o.stream.length+(m+paddedSize (n-m)) := by
            rw [hstream,List.length_append,List.length_append,hlen,pad512_length,hlen',
              Nat.add_assoc]
          rw [hp]
          constructor
          · intro hadds
            exact ⟨hblock.mp ((Nat.dvd_add_iff_left hpadded).mpr hadds.blocks),rest,hread'⟩
          · rintro ⟨hdvd,-⟩
            exact ⟨hlength,Nat.dvd_add (hblock.mpr hdvd) hpadded⟩
        | error p =>
          obtain ⟨off,room⟩ := p
          rw [hread'] at hsplices
          obtain ⟨o',k,hp,-,hstream,-,-,-,hroom,-,-⟩ := hsplices
          rw [hp]
          refine iff_of_false (fun hadds => ?_) ?_
          · have hadded := hadds.length
            rw [hstream] at hadded
            simp only [List.length_append,zeros_length,Option.getD_none] at hadded
            omega
          · rintro ⟨-,rest,hok⟩
            rw [hread'] at hok
            cases hok

structure Tally (b b' : BBuilder) : Prop where
  even : b'.total+b.out.stream.length = b.total+b'.out.stream.length
  blocks : b'.total % 512 = b.total % 512

theorem Tally.of_adds {b b' : BBuilder} {n : ℕ} (h : AddsBlocks b.out b'.out n)
    (htotal : b'.total = b.total+n) : Tally b b' := by
  have hlen := h.length
  have hblocks := h.blocks
  exact ⟨by omega,by omega⟩

theorem Tally.of_eq {b b' : BBuilder} (hstream : b'.out.stream = b.out.stream)
    (htotal : b'.total = b.total) : Tally b b' := ⟨by rw [htotal,hstream],by rw [htotal]⟩

theorem Tally.trans {b b' b'' : BBuilder} (h : Tally b b') (h' : Tally b' b'') : Tally b b'' := by
  have heven := h.even
  have heven' := h'.even
  exact ⟨by omega,h'.blocks.trans h.blocks⟩

theorem Tally.trans_iff {b b' b'' : BBuilder} (h : Tally b b') : Tally b b'' ↔ Tally b' b'' := by
  refine ⟨fun h'' => ?_,h.trans⟩
  have heven := h.even
  have heven' := h''.even
  exact ⟨by omega,h''.blocks.trans h.blocks.symm⟩

theorem encodeLonglink_total {b b' : BBuilder} {off wrlen n : ℕ} {path : Bytes} {type : UInt8}
    (h : encodeLonglink b off path type wrlen = (some n,b')) : b'.total = b.total+wrlen+n := by
  unfold encodeLonglink at h
  simp only at h
  split at h
  · cases h
  · obtain ⟨hn,rfl⟩ := Prod.mk.inj h
    obtain rfl := Option.some.inj hn
    rfl

theorem encodeLonglink_tally {b : BBuilder} {out : Output} {off : ℕ} (g : Granted b.out out off 512)
    (text : Bytes) (type : UInt8) : ∃ b', encodeLonglink { b with out := out } off text type 512 =
      (some (paddedSize text.length),b') ∧ Tally b b' := by
  obtain ⟨b',henc,hw⟩ := encodeLonglink_wrote g text type 512
  refine ⟨b',henc,.of_adds (n := 512+paddedSize text.length) ⟨?_,?_⟩ ?_⟩
  · rw [hw.added.stream,List.length_append,gnuRecord_length]
  · exact Nat.dvd_add (dvd_refl 512) (dvd_roundUp 512 text.length (by decide))
  · rw [encodeLonglink_total henc,Nat.add_assoc]

theorem writePaxRecords_tally {b : BBuilder} {out : Output} {off : ℕ}
    (g : Granted b.out out off 512) (header : BHeader) (longPath memberName : Bytes) :
    Tally b (writePaxRecords { b with out := out } header longPath memberName off 512).2 := by
  have hhead := (encodeAt_wrote g (bHeaderEncodePaxBlock b.process · header longPath)
    (b.total+512)).added
  have hlen := congrArg List.length hhead.stream
  rw [List.length_append,BHeaderBlock.toBytes_length] at hlen
  unfold writePaxRecords bFileWritePaxPathBlocks
  simp only
  by_cases hfail : bHeaderComputePaxLength longPath pathKey = 2^64-1
  · rw [if_pos hfail]
    exact .of_adds ⟨hlen,dvd_refl 512⟩ rfl
  · rw [if_neg hfail]
    obtain ⟨o,hloop,hbody⟩ := blocksLoop_ready (paxText longPath header.linkdest).length
      (paxText longPath header.linkdest) 0 hhead.ready le_rfl
    simp only [BBuilder.encodeAt] at hloop hlen hbody ⊢
    rw [hloop]
    refine .of_adds (n := 512+paddedSize (paxText longPath header.linkdest).length) ⟨?_,?_⟩ ?_
    · simp only
      rw [hbody.stream,List.length_append,hlen,pad512_length,Nat.add_assoc]
    · exact Nat.dvd_add (dvd_refl 512) (dvd_roundUp 512 _ (by decide))
    · simp only [Nat.zero_add,Nat.add_assoc]

/-- The records of a member that has at most one too long a string are counted, whatever comes of
them. -/
theorem writeLongRecords_tally {b : BBuilder} (h : b.out.Ready) (header : BHeader) (memberName : Bytes)
    (st : Stat) (hboth : ¬GnuBothLong b.options header)
    (hlink : header.truncatedLink = true → header.linkdest.isSome) :
    Tally b (writeLongRecords b header memberName st).2 := by
  unfold writeLongRecords
  by_cases hlong : (header.truncated || header.truncatedLink) = true
  · rw [if_pos hlong]
    split
    · exact .of_eq rfl rfl
    · obtain ⟨off,out,hget,hg⟩ := getHeaderBlock h
      simp only [hget]
      split
      · rename_i hgnu
        unfold writeGnuRecords
        by_cases ht : header.truncated = true
        · have hl : header.truncatedLink = false := by
            by_contra hno
            exact hboth ⟨hgnu,ht,by simpa using hno⟩
          obtain ⟨b',henc,htally⟩ := encodeLonglink_tally hg (longlinkPath memberName st)
            bHeaderLonglinkType
          simp only [ht,if_true,henc,hl,Bool.false_eq_true,if_false]
          cases header.linkdest <;> exact htally
        · have hl : header.truncatedLink = true := by simpa [ht] using hlong
          obtain ⟨dest,hdest⟩ := Option.isSome_iff_exists.mp (hlink hl)
          obtain ⟨b',henc,htally⟩ := encodeLonglink_tally hg dest bHeaderLongdestType
          simp only [ht,if_false,Bool.false_eq_true,hl,if_true,hdest,henc]
          exact htally
      · exact writePaxRecords_tally hg header (longlinkPath memberName st) memberName
  · rw [if_neg hlong]
    exact .of_eq rfl rfl

theorem writeHeader_total {b : BBuilder} (h : b.out.Live) (header : BHeader) :
    (writeHeader b header).2.total = b.total+512 := by
  obtain ⟨off,out,hget,-,-⟩ := h.getBlock (by decide : 0 < bHeaderSize)
    (by simpa [paddedSize,bBufferBlockSize,bHeaderSize] using h.block_le_room)
  rw [show paddedSize bHeaderSize = 512 by decide] at hget
  simp only [writeHeader,hget]
  rfl

theorem writeHeader_tally {b : BBuilder} (h : b.out.Live) (header : BHeader) :
    Tally b (writeHeader b header).2 := by
  obtain ⟨-,own,hstream,hown⟩ := writeHeader_live h header
  exact .of_adds ⟨by rw [hstream,List.length_append,hown],dvd_refl 512⟩ (writeHeader_total h header)

/-- With two GNU records the blocks of the first one's text are counted again in the place of the
header block that the second one does not get. -/
theorem writeMember_bothLong_total {b : BBuilder} (h : b.out.Ready) {header : BHeader}
    (hb : GnuBothLong b.options header) {dest : Bytes} (hd : header.linkdest = some dest)
    (hreg : header.isIfreg = false) (path memberName : Bytes) (st : Stat) (fd : ℤ) (file : File) :
    (writeMember b header path memberName st fd file).2.total = b.total+
      (1024+paddedSize (longlinkPath memberName st).length+paddedSize dest.length)+
      paddedSize (longlinkPath memberName st).length := by
  obtain ⟨out,off,b₁,b₂,-,-,henc₁,-,henc₂,hlive₂,-,-,-,-,hmember⟩ :=
    writeMember_bothLong_steps h hb hd hreg path memberName st fd file
  have htotal₁ := encodeLonglink_total henc₁
  have htotal₂ := encodeLonglink_total henc₂
  have htotal₃ := writeHeader_total hlive₂ header
  rw [hmember]
  simp only at htotal₁ ⊢
  omega

theorem HeaderOf.longlinkPath_ne_nil {cache : Option HardlinkCache} {src : Source}
    {memberName : Bytes} {st : Stat} {header : BHeader} (h : HeaderOf cache src memberName st header) :
    longlinkPath memberName st ≠ [] := by
  obtain ⟨d,hsplit,-⟩ := h.split
  have hname : memberName ≠ [] := by
    rintro rfl
    have hnew : bPathNew [] = [] := by decide
    simp [pathSplit,hnew] at hsplit
  unfold longlinkPath
  split
  · simp
  · exact hname

theorem not_tally_bothLong {b : BBuilder} (h : b.out.Ready) {header : BHeader}
    (hb : GnuBothLong b.options header) {dest : Bytes} (hd : header.linkdest = some dest)
    (hreg : header.isIfreg = false) (path : Bytes) {memberName : Bytes} {st : Stat}
    (hne : longlinkPath memberName st ≠ []) (fd : ℤ) (file : File) :
    ¬Tally b (writeMember b header path memberName st fd file).2 := by
  intro htally
  have hlen := writeMember_bothLong h hb hd hreg path memberName st fd file
  have htotal := writeMember_bothLong_total h hb hd hreg path memberName st fd file
  have heven := htally.even
  have hpos := List.length_pos_iff.mpr hne
  have hpadded : (longlinkPath memberName st).length ≤
    paddedSize (longlinkPath memberName st).length := le_roundUp 512 _
  omega

theorem writeHead_tally {b : BBuilder} (h : b.out.Ready) (header : BHeader) (memberName : Bytes)
    (st : Stat) (hboth : ¬GnuBothLong b.options header)
    (hlink : header.truncatedLink = true → header.linkdest.isSome) :
    Tally b (andWrite (writeLongRecords b header memberName st) (writeHeader · header)).2 := by
  have htally := writeLongRecords_tally h header memberName st hboth hlink
  have hlong := writeLongRecords_ready h memberName st hboth hlink
  have hready : (writeLongRecords b header memberName st).2.out.Ready := by
    cases hrec : extensionRecords b.process b.options header (longlinkPath memberName st) with
    | none =>
      rw [hrec] at hlong
      obtain ⟨b',hwrite,hf⟩ := hlong
      rw [hwrite]
      exact hf.ready
    | some records =>
      rw [hrec] at hlong
      obtain ⟨b',hwrite,hw⟩ := hlong
      rw [hwrite]
      exact hw.added.ready
  unfold andWrite
  split
  · exact htally.trans (writeHeader_tally hready.live header)
  · exact htally

/-- The members that are counted as they are added: not both strings are too long for the header
with the GNU extensions on, and the contents, if any are written, come whole and in whole blocks. -/
def Attempt.Countable (t : Attempt) : Prop :=
  ∀ header ∈ t.header, ¬GnuBothLong t.builder.options header ∧
    ∀ records ∈ t.records header, header.isIfreg = true → 0 < t.call.fd →
      WholeBlocks t.builder.out (freeBehind t.builder.out (records.length+512)) t.call.src.file
          header.size

theorem wholeBlocks_congr {o o' : Output} (hframe : Frame o o') (unused : ℕ) (file : File) (n : ℕ) :
    WholeBlocks o' unused file n ↔ WholeBlocks o unused file n := by
  simp only [WholeBlocks,hframe.size,hframe.canSplice,hframe.sys.splices]

theorem writeContents_tally_iff {b : BBuilder} (h : b.out.Ready) (header : BHeader) (path : Bytes)
    (fd : ℤ) (file : File) : Tally b (writeContents b header path fd file).2 ↔
      (header.isIfreg = true → 0 < fd → WholeBlocks b.out b.out.buf.unused file header.size) := by
  rw [writeContents_eq,contentsOf]
  by_cases hreads : (header.isIfreg && decide (0 < fd)) = true
  · rw [if_pos hreads]
    simp only [Bool.and_eq_true,decide_eq_true_eq] at hreads
    rw [forall_prop_of_true hreads.1,forall_prop_of_true hreads.2,
      ← addsBlocks_iff h file header.size]
    generalize bFileWriteContents b.out file header.size = r
    have hiff {b' : BBuilder} {n : ℕ} (htotal : b'.total = b.total+n) :
        Tally b b' ↔ AddsBlocks b.out b'.out n := by
      refine ⟨fun ht => ?_,fun hadds => .of_adds hadds htotal⟩
      have heven := ht.even
      have hblocks := ht.blocks
      exact ⟨by omega,by omega⟩
    obtain ⟨count,out⟩ := r
    cases count with
    | none => exact hiff rfl
    | some n => exact hiff rfl
  · rw [if_neg hreads]
    refine iff_of_true (.of_eq rfl rfl) fun hreg hfd => absurd ?_ hreads
    simp [hreg,hfd]

/-- A call keeps the total even with the stream exactly if its member is one of these. -/
theorem Attempt.tally_iff {t : Attempt} (h : t.builder.out.Ready) :
    Tally t.builder t.after ↔ t.Countable := by
  obtain ⟨b,c⟩ := t
  unfold Countable
  simp only [after,header,records,MemberCall.write] at h ⊢
  cases hh : memberHeader b.userLookup b.hardlinkCache c.src c.memberName c.st with
  | none =>
    obtain ⟨-,⟨e,hout⟩,-,htotal⟩ := bBuilderWriteFile_none c.path c.fd hh
    refine iff_of_true (.of_eq ?_ htotal) (by simp)
    rw [hout,stream_setErrno]
  | some header =>
    have hof := memberHeader_of hh
    rw [bBuilderWriteFile_some c.path c.fd hh]
    simp only [Option.mem_some_iff,forall_eq']
    generalize hstart : memberStart b c.src c.memberName c.st = start
    have hready : start.out.Ready := hstart ▸ h
    have hsame : Tally b start := hstart ▸ .of_eq rfl rfl
    have hoptions : start.options = b.options := by rw [← hstart]; rfl
    have hprocess : start.process = b.process := by rw [← hstart]; rfl
    have hout : start.out = b.out := by rw [← hstart]; rfl
    rw [hsame.trans_iff]
    by_cases hboth : GnuBothLong b.options header
    · obtain ⟨dest,hd⟩ := Option.isSome_iff_exists.mp (hof.linkdest_isSome hboth.2.2)
      exact iff_of_false (not_tally_bothLong hready (hoptions ▸ hboth) hd (hof.isIfreg_linkdest hd) c.path
        hof.longlinkPath_ne_nil c.fd c.src.file) fun hall => hall.1 hboth
    · have hlink (hl : header.truncatedLink = true) := hof.linkdest_isSome hl
      have htally := writeHead_tally hready header c.memberName c.st (hoptions ▸ hboth) hlink
      cases hrec : extensionRecords b.process b.options header (longlinkPath c.memberName c.st) with
      | none =>
        have hlong := writeLongRecords_ready hready c.memberName c.st (hoptions ▸ hboth) hlink
        rw [hprocess,hoptions,hrec] at hlong
        obtain ⟨b',hwrite,-⟩ := hlong
        simp only [writeMember,andWrite,hwrite,Bool.false_eq_true,if_false] at htally ⊢
        exact iff_of_true htally ⟨hboth,by simp⟩
      | some records =>
        obtain ⟨b',hhead,hw,hused⟩ := writeHead_ready hready c.memberName c.st (hoptions ▸ hboth) hlink
          (hprocess ▸ hoptions ▸ hrec)
        rw [hhead] at htally
        have hbehind := unused_eq_freeBehind hready.toAligned hw.added hused
        rw [List.length_append,ownHeader,BHeaderBlock.toBytes_length,hout] at hbehind
        have hframe : Frame b.out b'.out := hout ▸ hw.added.frame
        rw [writeMember,hhead,andWrite,if_pos rfl,htally.trans_iff,
          writeContents_tally_iff hw.added.ready,hbehind,wholeBlocks_congr hframe]
        simp [hboth]

theorem Attempt.Countable.separate {t : Attempt} (h : t.Countable) : t.Separate :=
  fun header hh => (h header hh).1

section
variable {μ : Type*} (engine : MatchEngine μ)

def Method.total : Method → Archiver μ → Option ℕ
  | archive files, a => (builderArchive engine files a).1.toOption
  | archiveAs args, a => (builderArchiveAs engine args a).1.toOption
  | _, _ => none

theorem archiveArgs_total (args : List ArchiveArg) (a : Archiver μ) {n : ℕ}
    (h : (archiveArgs engine args a).1.toOption = some n) :
    n = (archiveArgs engine args a).2.builder.total := by
  induction args generalizing a with
  | nil => exact (Option.some.inj h).symm
  | cons arg args ih =>
    simp only [archiveArgs] at h ⊢
    split at h
    · cases h
    · rename_i hok
      rw [if_neg hok]
      exact ih _ h

theorem builderArchiveAs_total (args : List ArchiveArg) (a : Archiver μ) {n : ℕ}
    (h : (builderArchiveAs engine args a).1.toOption = some n) :
    n = (builderArchiveAs engine args a).2.builder.total := by
  unfold builderArchiveAs at h ⊢
  split at h
  · cases h
  · rename_i hfd
    rw [if_neg hfd]
    exact archiveArgs_total engine args a h

theorem Method.total_eq {m : Method} {a : Archiver μ} {n : ℕ} (h : m.total engine a = some n) :
    n = (m.perform engine a).2.builder.total := by
  cases m with
  | archive files =>
    simp only [total,perform,builderArchive] at h ⊢
    split at h
    · cases h
    · rename_i hsome
      rw [if_neg hsome]
      exact builderArchiveAs_total engine _ a h
  | archiveAs args => exact builderArchiveAs_total engine args a h
  | setHandle fd fifo release sys => cases h
  | flush => cases h
  | finish => cases h

theorem runMethods_tally (ms : List Method) (hms : ∀ m ∈ ms, m.archives = true) {start : Archiver μ}
    (hready : start.builder.out.Ready)
    (hcount : ∀ t ∈ (runMethods engine ms start).attempts, t.Countable) :
    (runMethods engine ms start).archiver.builder.out.Ready ∧
      Tally start.builder (runMethods engine ms start).archiver.builder := by
  refine runMethods_keeps engine (R := Tally) (fun b => .of_eq rfl rfl) (fun b b' b'' => Tally.trans)
    (fun b e err => .of_eq rfl rfl) (fun t ht hgood => ?_) ms hms hready hcount
  exact ⟨(Attempt.adds ht hgood.separate).1,(Attempt.tally_iff ht).mpr hgood⟩

theorem newArchiver_total (p : Process) (blockFactor : ℕ) (options : BBuilderOptions)
    (userLookup : Option BUserLookup) (matching : μ) (fd : ℤ) (fifo : Bool)
    (release : Option (ℕ × ℕ × ℕ)) (sys : Sys) : (builderSetHandle fd fifo release sys
      (newArchiver p blockFactor options userLookup matching)).builder.total = 0 := rfl

theorem runMethods_append (ms : List Method) (m : Method) (a : Archiver μ) :
    runMethods engine (ms ++ [m]) a = (runMethods engine ms a).after engine m := by
  simp [runMethods,List.foldl_append]

/-- The total that the last call returns is the number of bytes added to the stream, and these are
whole blocks. -/
def ReturnsLength (ms : List Method) (m : Method) (start : Archiver μ) : Prop :=
  ∀ n, m.total engine (runMethods engine ms start).archiver = some n →
    n = (runMethods engine (ms ++ [m]) start).archiver.builder.out.stream.length ∧ 512 ∣ n

/-- So it is when every call on the way is for a member that is counted as it is added. -/
theorem returnsLength (ms : List Method) (m : Method) (hms : ∀ m' ∈ ms ++ [m], m'.archives = true)
    (p : Process) {blockFactor : ℕ} (hf : 1 ≤ blockFactor) (hbig : 512*blockFactor < 2^63)
    (options : BBuilderOptions) (userLookup : Option BUserLookup) (matching : μ) {fd : ℤ}
    (hfd : fd ≠ 0) (fifo : Bool) (release : Option (ℕ × ℕ × ℕ)) {sys : Sys} (hsys : sys.Reliable)
    (hfresh : sys.accepted = []) {start : Archiver μ} (hstart : start = builderSetHandle fd fifo
      release sys (newArchiver p blockFactor options userLookup matching))
    (hcount : ∀ t ∈ (runMethods engine (ms ++ [m]) start).attempts, t.Countable) :
    ReturnsLength engine ms m start := by
  obtain ⟨-,hready,hempty⟩ := newArchiver_opened p hf hbig options userLookup matching hfd fifo
    release hsys hfresh hstart
  have hzero : start.builder.total = 0 := by
    rw [hstart]
    exact newArchiver_total p blockFactor options userLookup matching fd fifo release sys
  intro n hn
  have htotal : n = (runMethods engine (ms ++ [m]) start).archiver.builder.total := by
    rw [runMethods_append]
    exact m.total_eq engine hn
  have htally := (runMethods_tally engine (ms ++ [m]) hms hready hcount).2
  have heven := htally.even
  have hblocks := htally.blocks
  rw [hempty,List.length_nil] at heven
  exact ⟨by omega,by omega⟩

end

def sizedFile (n : ℕ) : Method :=
  .archive [([102],⟨.answering ⟨sIfreg+0o644,0,0,n,0,0,0,7,1⟩ 5 ⟨.ok [],[],⟨List.replicate n 1,[]⟩⟩,
    .eof⟩)]

def longSymlink (name target : ℕ) : Method :=
  .archiveAs [⟨[47,108],List.replicate name 110,⟨.answering ⟨sIflnk+0o777,0,0,target,0,0,0,7,1⟩ (-1)
    ⟨.ok (List.replicate target 116),[],⟨[],[]⟩⟩,.eof⟩⟩]

def pipeArchiver : Archiver Unit :=
  builderSetHandle 4 true (some (5,10,0)) ⟨[],[],[],.ok⟩ (newArchiver ⟨false,1⟩ 2
    ⟨true,false,false,false,false,false,false⟩ none ())

def gnuArchiver : Archiver Unit :=
  builderSetHandle 4 false none ⟨[],[],[],.ok⟩ (newArchiver ⟨false,1⟩ 2
    ⟨true,false,false,false,true,false,false⟩ none ())

instance (size free left : ℕ) (file : File) : Decidable (ReadsWhole size free left file) :=
  decidable_of_iff ((reading size free left file).toOption.isSome = true) <| by
    unfold ReadsWhole
    cases reading size free left file <;> simp [Except.toOption]

/-- On a descriptor that is not spliced the contents only have to be read whole. -/
theorem Attempt.countable_plain {t : Attempt} (hplain : t.builder.out.buf.canSplice = false)
    (h : ∀ header ∈ t.header, ¬GnuBothLong t.builder.options header ∧
      ∀ records ∈ t.records header, ReadsWhole t.builder.out.buf.size
        (freeBehind t.builder.out (records.length+512)) header.size t.call.src.file) :
    t.Countable := by
  intro header hh
  obtain ⟨hboth,hreads⟩ := h header hh
  refine ⟨hboth,fun records hr _ _ => ?_⟩
  rw [WholeBlocks,if_pos (Or.inl hplain)]
  exact hreads records hr

/-- A symlink with a long name, then a file. -/
theorem returnsLength_longName : (sizedFile 700).total noPatterns
      (runMethods noPatterns [longSymlink 300 20] gnuArchiver).archiver = some 3072 ∧
    ReturnsLength noPatterns [longSymlink 300 20] (sizedFile 700) gnuArchiver := by
  refine ⟨by decide +kernel,returnsLength noPatterns [longSymlink 300 20] (sizedFile 700) (by decide)
    ⟨false,1⟩ (by decide : 1 ≤ 2) (by decide) ⟨true,false,false,false,true,false,false⟩ none ()
    (by decide : (4 : ℤ) ≠ 0) false none (by decide : Sys.Reliable ⟨[],[],[],.ok⟩) rfl rfl ?_⟩
  have hall : ∀ t ∈ (runMethods noPatterns ([longSymlink 300 20] ++ [sizedFile 700])
      gnuArchiver).attempts, t.builder.out.buf.canSplice = false ∧
        ∀ header ∈ t.header, ¬GnuBothLong t.builder.options header ∧
          ∀ records ∈ t.records header, ReadsWhole t.builder.out.buf.size
            (freeBehind t.builder.out (records.length+512)) header.size t.call.src.file := by
    decide +kernel
  exact fun t ht => Attempt.countable_plain (hall t ht).1 (hall t ht).2

/-- Contents that are spliced into a pipe and do not fill their last block, and a symlink with a
long name and a long target. -/
theorem not_returnsLength : ¬ReturnsLength noPatterns [] (sizedFile 1300) pipeArchiver ∧
    ¬ReturnsLength noPatterns [] (longSymlink 300 200) gnuArchiver := by
  constructor
  · intro h
    have hreturned : (sizedFile 1300).total noPatterns pipeArchiver = some 1812 := by decide +kernel
    exact absurd (h 1812 hreturned).2 (by decide)
  · intro h
    have hreturned : (longSymlink 300 200).total noPatterns gnuArchiver = some 2560 := by
      decide +kernel
    have hlen : (runMethods noPatterns ([] ++ [longSymlink 300 200])
        gnuArchiver).archiver.builder.out.stream.length = 2048 := by
      decide +kernel
    exact absurd ((h 2560 hreturned).1.trans hlen) (by decide)

end ArchiveTarBuilder
