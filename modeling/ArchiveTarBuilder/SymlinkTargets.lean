import ArchiveTarBuilder.LongNames
import ArchiveTarBuilder.HeaderFields

/-! Symlink targets. The size that `lstat()` reports is taken for the length of what `readlink()`
stores, so a longer target is cut and a shorter one is followed by what the memory held. -/
namespace ArchiveTarBuilder
open Region CString Output

def MemberCall.withHeap (c : MemberCall) (heap : Bytes) : MemberCall :=
  { c with src := { c.src with heap := heap } }

def nameTruncated (name : Bytes) (st : Stat) : Bool :=
  ((pathSplit name st).map PathData.truncated).getD false

/-- What a call that archives a symlink should leave: its records and its header, with the target in
the header if it fits there, else in a `K` record, and in the pax records if there are any. -/
structure TargetRecorded (b : BBuilder) (c : MemberCall) (target : Bytes) (header : BHeader)
    (records : Bytes) : Prop where
  found : memberHeader b.userLookup b.hardlinkCache c.src c.memberName c.st = some header
  stream : (c.write b).2.out.stream = b.out.stream ++ (records ++ ownHeader b.process header)
  field : target.length ≤ 100 →
    cstr (bHeaderEncodeBlock b.process .zero header).linkdest.bytes = target
  gnu : b.options.gnuExtensions = true → ∃ longLink, records =
      (if nameTruncated c.memberName c.st then
        gnuRecord (longlinkPath c.memberName c.st) bHeaderLonglinkType else []) ++ longLink ∧
      if 100 < target.length then IsRecord bHeaderLongdestType target longLink else longLink = []
  pax : b.options.gnuExtensions = false →
    if nameTruncated c.memberName c.st = true ∨ 100 < target.length then
      ∃ path, Recorded path (some target) records
    else records = []

/-- Whatever the memory holds, a call that returns 1 records the target. -/
def TargetExact (b : BBuilder) (c : MemberCall) (target : Bytes) : Prop :=
  ∀ heap, ((c.withHeap heap).write b).1 = true →
    ∃ header records, TargetRecorded b (c.withHeap heap) target header records

/-- The symlinks whose targets come out right: `st_size` is the length of the target, and a target
that needs a record can have one. -/
structure TargetFits (b : BBuilder) (c : MemberCall) (target : Bytes) : Prop where
  size : c.st.size = target.length
  gnu : b.options.gnuExtensions = true → 100 < target.length →
    nameTruncated c.memberName c.st = false ∧ target.length < 2^32
  pax : b.options.gnuExtensions = false →
    (nameTruncated c.memberName c.st = true ∨ 100 < target.length) → ShortRecord linkpathKey target

def readlinkBytes (heap target : Bytes) (size : ℕ) : Bytes :=
  overwrite (heap.take size ++ zeros (size-heap.length)) 0 (target.take size)

theorem readlinkBytes_length (heap target : Bytes) (size : ℕ) :
    (readlinkBytes heap target size).length = size := by
  have hbuf : (heap.take size ++ zeros (size-heap.length)).length = size := by
    simp only [List.length_append,List.length_take,zeros_length]
    omega
  rw [readlinkBytes,overwrite_length _ _ _ (by rw [hbuf,List.length_take]; omega),hbuf]

theorem readlinkBytes_eq {heap target : Bytes} {size : ℕ} (h : size = target.length) :
    readlinkBytes heap target size = target := by
  subst h
  rw [readlinkBytes,List.take_length,overwrite,List.take_zero,List.nil_append,Nat.zero_add,
    List.drop_eq_nil_of_le,List.append_nil]
  simp only [List.length_append,List.length_take,zeros_length]
  omega

theorem readlinkBytes_cut {heap target : Bytes} {size : ℕ} (h : size < target.length) :
    readlinkBytes heap target size = target.take size := by
  rw [readlinkBytes,overwrite,List.take_zero,List.nil_append,Nat.zero_add,List.drop_eq_nil_of_le,
    List.append_nil]
  simp only [List.length_append,List.length_take,zeros_length]
  omega

theorem readlinkBytes_fill {target : Bytes} {size : ℕ} (h : target.length ≤ size) (v : UInt8) :
    readlinkBytes (List.replicate size v) target size =
      target ++ List.replicate (size-target.length) v := by
  rw [readlinkBytes,List.length_replicate,Nat.sub_self,zeros,List.replicate_zero,List.append_nil,
    List.take_of_length_le (by simp),List.take_of_length_le h,overwrite,List.take_zero,
    List.nil_append,Nat.zero_add,List.drop_replicate]

theorem readlinkBytes_nul {target : Bytes} (hnul : 0 ∉ target) (size : ℕ) {v : UInt8} (hv : v ≠ 0) :
    0 ∉ readlinkBytes (List.replicate size v) target size := by
  rcases Nat.le_total target.length size with hle | hle
  · rw [readlinkBytes_fill hle,List.mem_append,not_or]
    exact ⟨hnul,fun hz => hv (List.eq_of_mem_replicate hz).symm⟩
  · rcases hle.lt_or_eq with hlt | heq
    · rw [readlinkBytes_cut hlt]
      exact fun hz => hnul (List.mem_of_mem_take hz)
    · rwa [readlinkBytes_eq heq]

def ownerNames (lookup : Option BUserLookup) (st : Stat) : Option (Option Bytes × Option Bytes) :=
  match lookup with
  | none => some (none,none)
  | some lookup => lookup st.uid st.gid

def symlinkHeaderOf (d : PathData) (st : Stat) (dest : Bytes) (names : Option Bytes × Option Bytes) :
    BHeader :=
  { (fileHeader d st).withLinkdest dest with user := names.1, group := names.2 }

/-- A symlink gets a header exactly if its name has components, its size is not zero and its owner
is found; the memory only shows in the target. -/
theorem memberHeader_symlink {lookup : Option BUserLookup} {cache : Option HardlinkCache}
    {src : Source} {name : Bytes} {st : Stat} {target : Bytes} (hlnk : st.ifmt = sIflnk)
    (htarget : src.target = .ok target) : memberHeader lookup cache src name st =
      (pathSplit name st).bind fun d =>
        if st.size = 0 then none
        else (ownerNames lookup st).map (symlinkHeaderOf d st (readlinkBytes src.heap target st.size)) := by
  cases hsplit : pathSplit name st with
  | none => simp [memberHeader,headerForFile,hsplit]
  | some d =>
    by_cases hz : st.size = 0
    · simp [memberHeader,headerForFile,hsplit,hlnk,bReadlink,htarget,hz]
    · have hread : bReadlink src st = .ok (readlinkBytes src.heap target st.size) := by
        simp only [bReadlink,htarget,hz,if_false,readlinkBytes]
      simp only [memberHeader,headerForFile,hsplit,hlnk,if_true,hread,Option.bind_some,hz,if_false]
      cases lookup <;> rfl

theorem exists_header_of_write {b : BBuilder} {c : MemberCall} (hret : (c.write b).1 = true) :
    ∃ header, memberHeader b.userLookup b.hardlinkCache c.src c.memberName c.st = some header := by
  cases hh : memberHeader b.userLookup b.hardlinkCache c.src c.memberName c.st with
  | some header => exact ⟨header,rfl⟩
  | none =>
    have hfail := (bBuilderWriteFile_none c.path c.fd hh).failed
    rw [MemberCall.write,hfail] at hret
    cases hret

structure SymlinkHeader (b : BBuilder) (c : MemberCall) (target : Bytes) (header : BHeader) : Prop where
  found : memberHeader b.userLookup b.hardlinkCache c.src c.memberName c.st = some header
  linkdest : header.linkdest = some (readlinkBytes c.src.heap target c.st.size)
  truncated : header.truncated = nameTruncated c.memberName c.st
  truncatedLink : header.truncatedLink = decide (100 < c.st.size)
  isIfreg : header.isIfreg = false

section
variable {b : BBuilder} {c : MemberCall} (hlnk : c.st.ifmt = sIflnk) {target : Bytes}
  (htarget : c.src.target = .ok target)
include hlnk htarget

theorem symlinkHeader_of {header : BHeader}
    (hfound : memberHeader b.userLookup b.hardlinkCache c.src c.memberName c.st = some header) :
    SymlinkHeader b c target header := by
  have heq := hfound
  rw [memberHeader_symlink hlnk htarget] at heq
  obtain ⟨d,hd,hrest⟩ := Option.bind_eq_some_iff.mp heq
  split at hrest
  · cases hrest
  · obtain ⟨names,-,rfl⟩ := Option.map_eq_some_iff.mp hrest
    refine ⟨hfound,rfl,?_,?_,?_⟩
    · simp [symlinkHeaderOf,BHeader.withLinkdest,fileHeader,nameTruncated,hd]
    · simp [symlinkHeaderOf,BHeader.withLinkdest,readlinkBytes_length,bHeaderLinkdestSize]
    · have htype := inodeLinktype_symlink hlnk
      simp [symlinkHeaderOf,BHeader.withLinkdest,fileHeader,BHeader.isIfreg,htype]

theorem exists_header_withHeap (heap : Bytes) {header : BHeader}
    (hfound : memberHeader b.userLookup b.hardlinkCache c.src c.memberName c.st = some header) :
    ∃ header', memberHeader b.userLookup b.hardlinkCache (c.withHeap heap).src c.memberName c.st =
      some header' := by
  have heq := hfound
  rw [memberHeader_symlink hlnk htarget] at heq
  obtain ⟨d,hd,hrest⟩ := Option.bind_eq_some_iff.mp heq
  split at hrest
  · cases hrest
  · rename_i hz
    obtain ⟨names,hnames,-⟩ := Option.map_eq_some_iff.mp hrest
    have htarget' : (c.withHeap heap).src.target = .ok target := htarget
    rw [memberHeader_symlink hlnk htarget',hd,hnames]
    simp only [Option.bind_some,hz,if_false,Option.map_some]
    exact ⟨_,rfl⟩

end

section
variable {b : BBuilder} (h : b.out.Ready) {c : MemberCall} {target : Bytes}
include h

theorem symlink_write {header : BHeader} (hs : SymlinkHeader b c target header)
    (hboth : ¬GnuBothLong b.options header) :
    match extensionRecords b.process b.options header (longlinkPath c.memberName c.st) with
    | none => (c.write b).1 = false
    | some records => (c.write b).1 = true ∧
        (c.write b).2.out.stream = b.out.stream ++ (records ++ ownHeader b.process header) := by
  rcases bBuilderWriteFile_ready h c.path c.memberName c.st c.fd c.src (fun header' hh hb => by
    obtain rfl : header = header' := Option.some.inj (hs.found.symm.trans hh)
    exact hboth hb) with hrefused | ⟨header',records,b',hm⟩
  · rw [hrefused.absent header hs.found]
    exact hrefused.failed
  · obtain rfl : header = header' := Option.some.inj (hs.found.symm.trans hm.found)
    rw [hm.recorded]
    have hresult : c.write b = (true,b') := by
      rw [MemberCall.write,hm.result,writeContents]
      simp [hs.isIfreg]
    rw [hresult]
    exact ⟨rfl,hm.wrote.added.stream⟩

end

theorem record_inj {block block' : BHeaderBlock} {text text' rest rest' : Bytes}
    (h : block.toBytes ++ pad512 text ++ rest = block'.toBytes ++ pad512 text' ++ rest')
    (hlen : block = block' → text.length = text'.length) : block = block' ∧ text = text' := by
  have hfirst := congrArg (List.take 512) h
  simp only [List.append_assoc] at hfirst
  rw [List.take_left' (by simp),List.take_left' (by simp)] at hfirst
  have hblock := congrArg BHeaderBlock.ofBytes hfirst
  rw [BHeaderBlock.ofBytes_toBytes,BHeaderBlock.ofBytes_toBytes] at hblock
  refine ⟨hblock,?_⟩
  subst hblock
  rw [List.append_assoc,List.append_assoc,List.append_cancel_left_eq] at h
  have htext := congrArg (List.take text.length) h
  have hle := le_roundUp 512 text.length
  have hle' := le_roundUp 512 text'.length
  rw [pad512_eq,pad512_eq,List.append_assoc,List.append_assoc,List.take_left' rfl,
    List.take_left' (hlen rfl).symm] at htext
  exact htext

theorem recorded_paxExtension {p : Process} {header : BHeader} {longPath dest target : Bytes}
    {path : Option Bytes} (hnul : 0 ∉ longPath)
    (hpath : bHeaderComputePaxLength longPath pathKey ≠ 2^64-1) (hd : header.linkdest = some dest)
    (hdnul : 0 ∉ dest) (h : Recorded path (some target) (paxExtension p header longPath)) :
    target = dest ∧ ShortRecord linkpathKey dest := by
  have hsize : (bHeaderEncodePaxBlock p .zero header longPath).dataSize =
      paxSize longPath header.linkdest := paxBlock_dataSize p header longPath (paxSize_lt hpath _)
  generalize hlink : some target = link at h
  generalize hbytes : paxExtension p header longPath = bytes at h
  unfold paxExtension at hbytes
  cases h with
  | nothing => cases hlink
  | longlink => cases hlink
  | @longdest block data _ size type =>
    have htype (hb : bHeaderEncodePaxBlock p .zero header longPath = block) : False := by
      rw [← hb,paxBlock_linktype] at type
      cases type
    exact (htype (@record_inj _ _ _ _ [] [] (by simpa using hbytes) fun hb => (htype hb).elim).1).elim
  | @pax block data records _ size type read =>
    by_cases hdlen : bHeaderComputePaxLength dest linkpathKey = 2^64-1
    · obtain ⟨htext,hnone⟩ := paxText_overflow hnul hpath hdlen (data.length+1)
      rw [hd] at hbytes hsize
      obtain ⟨-,hdata⟩ := @record_inj _ _ _ _ [] [] (by simpa using hbytes)
        (fun hb => by rw [htext,← hsize,hb,size])
      rw [hdata,read] at hnone
      cases hnone
    · have hread := @paxText_records _ (some dest) hnul hpath (by
        rintro dest' ⟨⟩
        exact ⟨hdnul,hdlen⟩)
      rw [hd] at hbytes hsize
      obtain ⟨-,hdata⟩ := @record_inj _ _ _ _ [] [] (by simpa using hbytes)
        (fun hb => by rw [hread.1,← hsize,hb,size])
      rw [hdata,read] at hread
      rw [Option.some.inj hread.2.2,lookup_linkpathKey] at hlink
      exact ⟨Option.some.inj hlink,(shortRecord_iff hdnul (by decide)).mpr hdlen⟩

theorem IsRecord.ne_nil {type : UInt8} {text bytes : Bytes} (h : IsRecord type text bytes) :
    bytes ≠ [] := by
  intro hnil
  have hlen := h.length
  rw [hnil,List.length_nil] at hlen
  omega

/-- A record that is written for one text is the record of no text of another length. -/
theorem IsRecord.length_eq {type type' : UInt8} {text dest : Bytes}
    (h : IsRecord type' text (gnuRecord dest type)) : dest.length = text.length := by
  have hlen := h.length
  obtain ⟨block,-,-,hsize,hbytes⟩ := h
  have hfirst := congrArg (List.take 512) hbytes
  rw [gnuRecord,List.take_left' (by simp),List.take_left' (by simp)] at hfirst
  have hblock := congrArg BHeaderBlock.ofBytes hfirst
  rw [BHeaderBlock.ofBytes_toBytes,BHeaderBlock.ofBytes_toBytes] at hblock
  rw [← hblock,longlinkBlock_size,unsignedInt] at hsize
  rw [gnuRecord_length,Nat.add_left_cancel_iff,paddedSize,paddedSize,bBufferBlockSize] at hlen
  -- the size field knows the length up to 2^32, the number of blocks up to 512
  split_ifs at hlen <;> omega

section
variable {b : BBuilder} {c : MemberCall} {target : Bytes} {header : BHeader}
  (hs : SymlinkHeader b c target header)
include hs

theorem SymlinkHeader.gnuRecords (longPath : Bytes) : gnuRecords header longPath =
    (if nameTruncated c.memberName c.st then gnuRecord longPath bHeaderLonglinkType else []) ++
      if 100 < c.st.size then
        gnuRecord (readlinkBytes c.src.heap target c.st.size) bHeaderLongdestType else [] := by
  rw [ArchiveTarBuilder.gnuRecords,hs.truncated,hs.linkdest,hs.truncatedLink]
  by_cases hl : 100 < c.st.size <;> simp [hl]

theorem SymlinkHeader.bothLong : GnuBothLong b.options header ↔ b.options.gnuExtensions = true ∧
    nameTruncated c.memberName c.st = true ∧ 100 < c.st.size := by
  rw [GnuBothLong,hs.truncated,hs.truncatedLink,decide_eq_true_iff]

theorem SymlinkHeader.paxRecords (hgnu : b.options.gnuExtensions = false) {longPath records : Bytes}
    (hrec : extensionRecords b.process b.options header longPath = some records) :
    if nameTruncated c.memberName c.st = true ∨ 100 < c.st.size then
      bHeaderComputePaxLength longPath pathKey ≠ 2^64-1 ∧
        records = paxExtension b.process header longPath
    else records = [] := by
  have hlong : (header.truncated || header.truncatedLink) = true ↔
      nameTruncated c.memberName c.st = true ∨ 100 < c.st.size := by
    rw [hs.truncated,hs.truncatedLink,Bool.or_eq_true,decide_eq_true_iff]
  unfold extensionRecords at hrec
  split
  · rename_i hl
    rw [if_pos (hlong.mpr hl),hgnu,if_neg Bool.false_ne_true] at hrec
    split at hrec
    · rename_i hpax
      simp only [Bool.and_eq_true,decide_eq_true_eq] at hpax
      exact ⟨hpax.2,(Option.some.inj hrec).symm⟩
    · cases hrec
  · rename_i hl
    rw [if_neg (hlong.not.mpr hl)] at hrec
    exact (Option.some.inj hrec).symm

end

theorem not_recorded_nil {path : Option Bytes} {target : Bytes} :
    ¬Recorded path (some target) [] := by
  intro h
  generalize hlink : some target = link at h
  generalize hbytes : ([] : Bytes) = bytes at h
  have hnil (block : BHeaderBlock) (data : Bytes) : block.toBytes ++ pad512 data ≠ [] := by
    intro he
    have hlen := congrArg List.length he
    rw [List.length_append,BHeaderBlock.toBytes_length,List.length_nil] at hlen
    omega
  cases h with
  | nothing => cases hlink
  | longlink => cases hlink
  | longdest => exact hnil _ _ hbytes.symm
  | pax => exact hnil _ _ hbytes.symm

section
variable {b : BBuilder} {c : MemberCall} {target : Bytes} {header : BHeader} {records : Bytes}
  (hr : TargetRecorded b c target header records) (hs : SymlinkHeader b c target header)
  (hdnul : 0 ∉ readlinkBytes c.src.heap target c.st.size)
include hr hs hdnul

theorem TargetRecorded.size_eq (ht : target.length ≤ 100) (hl : ¬100 < c.st.size) :
    c.st.size = target.length := by
  have hlen := readlinkBytes_length c.src.heap target c.st.size
  have hread := encodeBlock_linkdest b.process header (by
    rw [hs.linkdest]
    rintro dest ⟨⟩
    exact ⟨hdnul,by rw [hlen]; omega⟩)
  rw [hs.linkdest,hr.field ht] at hread
  rw [hread,Option.getD_some,hlen]

theorem TargetRecorded.fits_gnu (hgnu : b.options.gnuExtensions = true)
    (hboth : ¬(nameTruncated c.memberName c.st = true ∧ 100 < c.st.size))
    (hrec : extensionRecords b.process b.options header (longlinkPath c.memberName c.st) =
      some records) : TargetFits b c target := by
  obtain ⟨longLink,hsplit,hlink⟩ := hr.gnu hgnu
  rw [extensionRecords_gnu b.process hgnu,hs.gnuRecords] at hrec
  have hactual := (Option.some.inj hrec).trans hsplit
  rw [List.append_cancel_left_eq] at hactual
  by_cases hl : 100 < c.st.size
  · rw [if_pos hl] at hactual
    split at hlink
    · rw [← hactual] at hlink
      have hsize : c.st.size = target.length :=
        (readlinkBytes_length c.src.heap target c.st.size).symm.trans hlink.length_eq
      refine ⟨hsize,fun _ _ => ⟨by simpa [hl] using hboth,?_⟩,by simp [hgnu]⟩
      rw [readlinkBytes_eq hsize] at hlink
      exact @IsRecord.short _ _ [] _ [] hlink rfl
    · rw [hlink] at hactual
      have hnil := congrArg List.length hactual
      rw [gnuRecord_length,List.length_nil] at hnil
      omega
  · rw [if_neg hl] at hactual
    split at hlink
    · exact absurd hactual.symm hlink.ne_nil
    · rename_i ht
      exact ⟨hr.size_eq hs hdnul (by omega) hl,fun _ ht' => absurd ht' ht,by simp [hgnu]⟩

theorem TargetRecorded.fits_pax (hgnu : b.options.gnuExtensions = false)
    (hname : 0 ∉ longlinkPath c.memberName c.st)
    (hrec : extensionRecords b.process b.options header (longlinkPath c.memberName c.st) =
      some records) : TargetFits b c target := by
  have hpax := hr.pax hgnu
  have hrecords := hs.paxRecords hgnu hrec
  by_cases ht : nameTruncated c.memberName c.st = true ∨ 100 < target.length
  · rw [if_pos ht] at hpax
    obtain ⟨path,hp⟩ := hpax
    split at hrecords
    · rw [hrecords.2] at hp
      obtain ⟨heq,hshort⟩ := recorded_paxExtension hname hrecords.1 hs.linkdest hdnul hp
      refine ⟨?_,by simp [hgnu],fun _ _ => by rwa [heq]⟩
      rw [heq,readlinkBytes_length]
    · rw [hrecords] at hp
      exact absurd hp not_recorded_nil
  · rw [if_neg ht] at hpax
    split at hrecords
    · have hlen := congrArg List.length (hrecords.2.symm.trans hpax)
      rw [paxExtension,List.length_append,BHeaderBlock.toBytes_length,List.length_nil] at hlen
      omega
    · rename_i hl
      simp only [not_or] at hl ht
      exact ⟨hr.size_eq hs hdnul (by omega) hl.2,by simp [hgnu],fun _ hlong =>
        absurd hlong (not_or.mpr ht)⟩

end

section
variable {b : BBuilder} (h : b.out.Ready) {c : MemberCall} {target : Bytes} {header : BHeader}
  (hs : SymlinkHeader b c target header)
include h hs

theorem targetRecorded_of_fits (hnul : 0 ∉ target) (hname : 0 ∉ longlinkPath c.memberName c.st)
    (hfits : TargetFits b c target) (hret : (c.write b).1 = true) :
    ∃ records, TargetRecorded b c target header records := by
  have hsize := hfits.size
  have hdest : readlinkBytes c.src.heap target c.st.size = target := readlinkBytes_eq hsize
  have hboth : ¬GnuBothLong b.options header := by
    rw [hs.bothLong]
    rintro ⟨hgnu,ht,hl⟩
    simpa [ht] using (hfits.gnu hgnu (by omega)).1
  have hwrite := symlink_write h hs hboth
  cases hrec : extensionRecords b.process b.options header (longlinkPath c.memberName c.st) with
  | none =>
    rw [hrec] at hwrite
    exact absurd hret (by rw [hwrite]; decide)
  | some records =>
    rw [hrec] at hwrite
    refine ⟨records,hs.found,hwrite.2,fun hlen => ?_,fun hgnu => ?_,fun hgnu => ?_⟩
    · have hfield := encodeBlock_linkdest b.process header (by
        rw [hs.linkdest,hdest]
        rintro dest ⟨⟩
        exact ⟨hnul,hlen⟩)
      rwa [hs.linkdest,hdest] at hfield
    · rw [extensionRecords_gnu b.process hgnu,hs.gnuRecords,hdest,hsize] at hrec
      refine ⟨_,(Option.some.inj hrec).symm,?_⟩
      split
      · rename_i hl
        exact isRecord_gnuRecord _ (hfits.gnu hgnu hl).2
      · rfl
    · have hrecords := hs.paxRecords hgnu hrec
      rw [hsize] at hrecords
      split at hrecords
      · rename_i hl
        rw [if_pos hl,hrecords.2]
        have hread := @recorded_pax b.process header _ hname hrecords.1 (by
          rw [hs.linkdest,hdest]
          rintro dest ⟨⟩
          exact ⟨hnul,(shortRecord_iff hnul (by decide)).mp (hfits.pax hgnu hl)⟩)
        rw [hs.linkdest,hdest] at hread
        exact ⟨_,hread⟩
      · rename_i hl
        rw [if_neg hl]
        exact hrecords

/-- Away from the two overlong strings, only a target that fits is recorded when the memory holds no
zeros. -/
theorem TargetRecorded.fits {header' : BHeader} {records : Bytes}
    (hr : TargetRecorded b c target header' records) (hret : (c.write b).1 = true)
    (hboth : ¬GnuBothLong b.options header)
    (hdnul : 0 ∉ readlinkBytes c.src.heap target c.st.size)
    (hname : 0 ∉ longlinkPath c.memberName c.st) : TargetFits b c target := by
  obtain rfl : header = header' := Option.some.inj (hs.found.symm.trans hr.found)
  have hwrite := symlink_write h hs hboth
  cases hrec : extensionRecords b.process b.options header (longlinkPath c.memberName c.st) with
  | none =>
    rw [hrec] at hwrite
    exact absurd hret (by rw [hwrite]; decide)
  | some actual =>
    rw [hrec] at hwrite
    obtain rfl : actual = records := by
      have hstream := hwrite.2.symm.trans hr.stream
      simpa only [List.append_cancel_left_eq,List.append_cancel_right_eq] using hstream
    by_cases hgnu : b.options.gnuExtensions = true
    · exact hr.fits_gnu hs hdnul hgnu (fun hb => hboth (hs.bothLong.mpr ⟨hgnu,hb⟩)) hrec
    · exact hr.fits_pax hs hdnul (by simpa using hgnu) hname hrec

end

/-- Two overlong strings leave no room for the header of the `K` record, unless the memory behind
the target happens to look like one. -/
theorem not_targetRecorded_bothLong {b : BBuilder} (h : b.out.Ready) {c : MemberCall}
    {target : Bytes} {header header' : BHeader} {records : Bytes} (hs : SymlinkHeader b c target header)
    (hboth : GnuBothLong b.options header) {v : UInt8} (hheap : c.src.heap = List.replicate c.st.size v)
    (hv : (pad512 target).getD (c.st.size-513) 0 ≠ v) :
    ¬TargetRecorded b c target header' records := by
  intro hr
  obtain rfl : header = header' := Option.some.inj (hs.found.symm.trans hr.found)
  obtain ⟨hgnu,ht,hl⟩ := hs.bothLong.mp hboth
  have hdlen := readlinkBytes_length c.src.heap target c.st.size
  obtain ⟨-,front,tail,own,hstream,hfront,htail,htake,hown⟩ := writeMember_bothLong_text
    (b := memberStart b c.src c.memberName c.st) h hboth hs.linkdest hs.isIfreg c.path c.memberName
    c.st c.fd c.src.file
  rw [← bBuilderWriteFile_some _ _ hs.found] at hstream
  obtain ⟨longLink,hrecords,hlink⟩ := hr.gnu hgnu
  have hbytes := hstream.symm.trans hr.stream
  rw [hrecords,if_pos ht,List.append_assoc,List.append_assoc,
    ← List.append_assoc b.out.stream] at hbytes
  obtain ⟨-,hrest⟩ := List.append_inj hbytes (by
    rw [hfront,List.length_append,gnuRecord_length]
    rfl)
  obtain ⟨rfl,-⟩ := List.append_inj' hrest (by rw [hown,ownHeader,BHeaderBlock.toBytes_length])
  rw [hdlen] at htail htake
  have hpadded := le_roundUp 512 c.st.size
  rw [← paddedSize_eq,← htail] at hpadded
  split at hlink
  · have hlen := hlink.length
    obtain ⟨block,-,-,-,hblock⟩ := hlink
    have hlt : target.length < c.st.size := by
      rw [htail,paddedSize,paddedSize,bBufferBlockSize] at hlen
      split_ifs at hlen <;> omega
    rw [hheap,readlinkBytes_fill hlt.le] at htake
    -- the last byte of the buffer comes from the memory
    have hlast := congrArg (fun bytes : Bytes => bytes.getD (c.st.size-1) 0) htake
    have hend : (target ++ List.replicate (c.st.size-target.length) v).getD (c.st.size-1) 0 = v := by
      rw [List.getD_eq_getElem?_getD,List.getElem?_append_right (by omega),
        List.getElem?_replicate_of_lt (by omega),Option.getD_some]
    have hpos : 512 ≤ c.st.size-1 := by
      rw [htail,paddedSize,paddedSize,bBufferBlockSize] at hlen
      split_ifs at hlen <;> omega
    have hin : (tail.take c.st.size).getD (c.st.size-1) 0 =
        (pad512 target).getD (c.st.size-513) 0 := by
      rw [hblock,List.getD_eq_getElem?_getD,List.getElem?_take_of_lt (by omega),
        List.getElem?_append_right (by simpa using hpos),BHeaderBlock.toBytes_length,
        List.getD_eq_getElem?_getD,show c.st.size-1-512 = c.st.size-513 by omega]
    exact hv (hin.symm.trans (hlast.trans hend))
  · rw [hlink,List.length_nil] at hpadded
    omega

theorem extensionRecords_isSome (p : Process) (options : BBuilderOptions) {header header' : BHeader}
    (ht : header.truncated = header'.truncated) (hl : header.truncatedLink = header'.truncatedLink)
    (longPath : Bytes) : (extensionRecords p options header longPath).isSome =
      (extensionRecords p options header' longPath).isSome := by
  unfold extensionRecords
  rw [ht,hl]
  split_ifs <;> rfl

theorem write_withHeap {b : BBuilder} (h : b.out.Ready) {c : MemberCall} (hlnk : c.st.ifmt = sIflnk)
    {target : Bytes} (htarget : c.src.target = .ok target) (hret : (c.write b).1 = true)
    (heap : Bytes) : ((c.withHeap heap).write b).1 = true := by
  obtain ⟨header,hfound⟩ := exists_header_of_write hret
  obtain ⟨header',hfound'⟩ := exists_header_withHeap hlnk htarget heap hfound
  have hs : SymlinkHeader b c target header := symlinkHeader_of hlnk htarget hfound
  have hs' : SymlinkHeader b (c.withHeap heap) target header' :=
    symlinkHeader_of (c := c.withHeap heap) hlnk htarget hfound'
  by_cases hboth : GnuBothLong b.options header
  · have hboth' : GnuBothLong b.options header' := hs'.bothLong.mpr (hs.bothLong.mp hboth)
    have hwrite := (writeMember_bothLong_text (b := memberStart b (c.withHeap heap).src c.memberName
      c.st) h hboth' hs'.linkdest hs'.isIfreg c.path c.memberName c.st c.fd c.src.file).1
    exact (congrArg Prod.fst (bBuilderWriteFile_some c.path c.fd hfound')).trans hwrite
  · have hboth' : ¬GnuBothLong b.options header' := fun hb =>
      hboth (hs.bothLong.mpr (hs'.bothLong.mp hb))
    have hwrite := symlink_write h hs hboth
    have hwrite' := symlink_write h hs' hboth'
    have hsome := extensionRecords_isSome b.process b.options (hs.truncated.trans hs'.truncated.symm)
      (hs.truncatedLink.trans hs'.truncatedLink.symm) (longlinkPath c.memberName c.st)
    cases hrec : extensionRecords b.process b.options header (longlinkPath c.memberName c.st) with
    | none =>
      rw [hrec] at hwrite
      exact absurd hret (by rw [hwrite]; decide)
    | some records =>
      rw [hrec,Option.isSome_some] at hsome
      obtain ⟨records',hrec'⟩ := Option.isSome_iff_exists.mp hsome.symm
      change match extensionRecords b.process b.options header' (longlinkPath c.memberName c.st) with
        | none => _
        | some records => _ at hwrite'
      rw [hrec'] at hwrite'
      exact hwrite'.1

/-- The targets that are recorded on a success whatever the memory holds are those of which
`st_size` states the length and which the records can carry. -/
theorem targetExact_iff {b : BBuilder} (h : b.out.Ready) {c : MemberCall} (hlnk : c.st.ifmt = sIflnk)
    {target : Bytes} (htarget : c.src.target = .ok target) (hnul : 0 ∉ target)
    (hname : 0 ∉ c.memberName) (hret : (c.write b).1 = true) :
    TargetExact b c target ↔ TargetFits b c target := by
  have hpath : 0 ∉ longlinkPath c.memberName c.st := by
    rw [longlinkPath_eq,List.mem_append,not_or,dirSlash]
    exact ⟨hname,by split <;> decide⟩
  constructor
  · intro hexact
    obtain ⟨v,hv,hvpad⟩ : ∃ v : UInt8, v ≠ 0 ∧ (pad512 target).getD (c.st.size-513) 0 ≠ v := by
      by_cases hone : (pad512 target).getD (c.st.size-513) 0 = 1
      · exact ⟨2,by decide,by rw [hone]; decide⟩
      · exact ⟨1,by decide,hone⟩
    obtain ⟨header₀,hfound₀⟩ := exists_header_of_write hret
    obtain ⟨header,hfound⟩ := exists_header_withHeap hlnk htarget (List.replicate c.st.size v) hfound₀
    have hs : SymlinkHeader b (c.withHeap (List.replicate c.st.size v)) target header :=
      symlinkHeader_of (c := c.withHeap (List.replicate c.st.size v)) hlnk htarget hfound
    have hret' := write_withHeap h hlnk htarget hret (List.replicate c.st.size v)
    obtain ⟨header',records,hr⟩ := hexact _ hret'
    have hboth : ¬GnuBothLong b.options header := fun hb =>
      not_targetRecorded_bothLong h hs hb rfl hvpad hr
    have hfits := hr.fits h hs hret' hboth (readlinkBytes_nul hnul _ hv) hpath
    exact ⟨hfits.size,hfits.gnu,hfits.pax⟩
  · intro hfits heap hret'
    obtain ⟨header,hfound⟩ := exists_header_of_write hret'
    have hs : SymlinkHeader b (c.withHeap heap) target header :=
      symlinkHeader_of (c := c.withHeap heap) hlnk htarget hfound
    obtain ⟨records,hr⟩ := targetRecorded_of_fits h hs hnul hpath
      ⟨hfits.size,hfits.gnu,hfits.pax⟩ hret'
    exact ⟨header,records,hr⟩

def linkCall (size : ℕ) (target : Bytes) : MemberCall :=
  ⟨[47,108],[108],⟨sIflnk+0o777,0,0,size,0,0,0,7,1⟩,-1,⟨.ok target,[],⟨[],[]⟩⟩⟩

theorem targetExact_linkCall : TargetExact gnuBuilder (linkCall 3 [97,98,99]) [97,98,99] := by
  refine (targetExact_iff gnuBuilder_ready (by decide) rfl (by decide) (by decide)
    (by decide +kernel)).mpr ⟨rfl,fun _ hlong => absurd hlong (by decide),fun hgnu => ?_⟩
  exact absurd hgnu (by decide)

/-- Sizes that are too small or too large: both calls return 1, the first records `ab`, the second
what the memory held behind `abc`. -/
theorem not_targetExact_linkCall :
    ((linkCall 2 [97,98,99]).write gnuBuilder).1 = true ∧
    ¬TargetExact gnuBuilder (linkCall 2 [97,98,99]) [97,98,99] ∧
    ((linkCall 5 [97,98,99]).write gnuBuilder).1 = true ∧
    ¬TargetExact gnuBuilder (linkCall 5 [97,98,99]) [97,98,99] := by
  have hbad (size : ℕ) (hret : (((linkCall size [97,98,99]).withHeap [1,1,1,1,1]).write gnuBuilder).1 = true)
      (hfield : ∀ header ∈ memberHeader gnuBuilder.userLookup gnuBuilder.hardlinkCache
        ((linkCall size [97,98,99]).withHeap [1,1,1,1,1]).src [108] (linkCall size [97,98,99]).st,
        cstr (bHeaderEncodeBlock gnuBuilder.process .zero header).linkdest.bytes ≠ [97,98,99]) :
      ¬TargetExact gnuBuilder (linkCall size [97,98,99]) [97,98,99] := by
    intro hexact
    obtain ⟨header,records,hr⟩ := hexact [1,1,1,1,1] hret
    exact hfield header hr.found (hr.field (by decide))
  exact ⟨by decide +kernel,hbad 2 (by decide +kernel) (by decide +kernel),by decide +kernel,
    hbad 5 (by decide +kernel) (by decide +kernel)⟩

end ArchiveTarBuilder
