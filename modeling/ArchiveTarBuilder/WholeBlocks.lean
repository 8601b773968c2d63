import ArchiveTarBuilder.PlainContents
import ArchiveTarBuilder.ArchiverRuns

/-! The buffer is made of whole blocks, whatever handle is set and whatever fails on the way, and
the answers of `write()` are used up in their order. -/
namespace ArchiveTarBuilder
open Region CString Output

/-- A buffer of `n` bytes whose used and unused parts are whole blocks. -/
structure Output.InBlocks (n : ℕ) (o : Output) : Prop where
  size : o.buf.size = n
  block : 512 ∣ n
  unusedBlock : 512 ∣ o.buf.unused
  unused_le : o.buf.unused ≤ n
  length : o.buf.data.length = n

structure Output.InBlocksFrom (n : ℕ) (o start : Output) : Prop extends o.InBlocks n where
  fd : o.buf.fd = start.buf.fd
  writes : o.sys.writes <:+ start.sys.writes

theorem Sys.write_suffix (sys : Sys) (request : Bytes) :
    (sys.write request).2.writes <:+ sys.writes := by
  unfold Sys.write
  split
  · exact List.suffix_refl _
  · rename_i heq
    rw [heq]
    exact List.suffix_cons _ _
  · rename_i heq
    rw [heq]
    exact List.suffix_cons _ _
  · rename_i heq
    rw [heq]
    exact List.suffix_cons _ _

theorem Sys.splice_writes (sys : Sys) (file : File) (len : ℕ) :
    (sys.splice file len).2.2.writes = sys.writes := by
  unfold Sys.splice
  simp only
  split <;> rfl

theorem flushLoop_suffix (buf : BBuffer) (fuel off : ℕ) (ret : ℤ) (sys : Sys) :
    (flushLoop buf fuel off ret sys).2.writes <:+ sys.writes := by
  induction fuel generalizing off ret sys with
  | zero => exact List.suffix_refl _
  | succ fuel ih =>
    have hwrite := Sys.write_suffix sys (slice buf.data off (buf.size-off))
    simp only [flushLoop]
    split_ifs
    · exact hwrite
    · exact (ih _ _ _).trans hwrite
    · exact hwrite
    · exact (ih _ _ _).trans hwrite
    · exact List.suffix_refl _

variable {n : ℕ} {start : Output}

namespace Output
variable {o p : Output}

theorem InBlocks.of_buf (h : o.InBlocks n) (hbuf : p.buf = o.buf) : p.InBlocks n := by
  obtain ⟨buf,sys⟩ := p
  obtain rfl : buf = o.buf := hbuf
  exact ⟨h.size,h.block,h.unusedBlock,h.unused_le,h.length⟩

theorem InBlocks.refl (h : o.InBlocks n) : o.InBlocksFrom n o := ⟨h,rfl,List.suffix_refl _⟩

theorem InBlocksFrom.of_buf (h : o.InBlocksFrom n start) (hbuf : p.buf = o.buf)
    (hwrites : p.sys.writes <:+ o.sys.writes) : p.InBlocksFrom n start :=
  ⟨h.toInBlocks.of_buf hbuf,(congrArg BBuffer.fd hbuf).trans h.fd,hwrites.trans h.writes⟩

theorem InBlocksFrom.reliable (h : o.InBlocksFrom n start) (hstart : start.sys.Reliable) :
    o.sys.Reliable := fun w hw => hstart w (h.writes.subset hw)

theorem InBlocks.aligned (h : o.InBlocks n) (hfd : o.buf.fd ≠ 0) (hn : n ≠ 0) : o.Aligned :=
  ⟨hfd,h.size ▸ Nat.pos_of_ne_zero hn,h.size ▸ h.block,h.unusedBlock,h.size ▸ h.unused_le,
    h.length.trans h.size.symm⟩

theorem inBlocks_new (factor : ℕ) (sys : Sys) :
    (⟨bBufferNew factor,sys⟩ : Output).InBlocks (bBufferNew factor).size := by
  have hblock : 512 ∣ (bBufferNew factor).size := by
    simp only [bBufferNew,sizeT,bBufferBlockSize,bBufferDefaultFactor]
    split <;> omega
  exact ⟨rfl,hblock,hblock,le_rfl,zeros_length _⟩

theorem InBlocksFrom.flush (h : o.InBlocksFrom n start) :
    (bBufferFlush o).2.InBlocksFrom n start := by
  have hloop := flushLoop_suffix o.buf (flushFuel o.sys) 0 0 o.sys
  unfold bBufferFlush
  split_ifs
  · exact h.of_buf rfl (List.suffix_refl _)
  · exact h
  · exact h
  · split
    · rename_i ret sys heq
      rw [heq] at hloop
      exact h.of_buf rfl hloop
    · rename_i ret sys heq
      rw [heq] at hloop
      exact ⟨⟨h.size,h.block,h.size ▸ h.block,h.size.le,(zeros_length _).trans h.size⟩,h.fd,
        hloop.trans h.writes⟩

theorem InBlocksFrom.flushIfFull (h : o.InBlocksFrom n start) :
    (if bBufferFull o.buf then bBufferFlush o else (0,o)).2.InBlocksFrom n start := by
  split
  · exact h.flush
  · exact h

theorem InBlocksFrom.getBlock (h : o.InBlocksFrom n start) (len : ℕ) : match bBufferGetBlock o len with
    | (none,p) => p.InBlocksFrom n start
    | (some (off,given),p) => p.InBlocksFrom n start ∧ given = paddedSize len ∧ off+given = p.used ∧
        p.buf.unused+p.used = n := by
  have hflushed := h.flushIfFull
  have hdvd : 512 ∣ paddedSize len := dvd_roundUp 512 len (by omega)
  simp only [bBufferGetBlock]
  generalize (if bBufferFull o.buf then bBufferFlush o else (0,o)) = r at hflushed ⊢
  have hle := hflushed.unused_le
  have hsize := hflushed.size
  split_ifs with hlen hfd hneg hroom
  · exact h
  · exact h.of_buf rfl (List.suffix_refl _)
  · exact hflushed
  · exact hflushed.of_buf rfl (List.suffix_refl _)
  · refine ⟨⟨⟨hsize,hflushed.block,Nat.dvd_sub hflushed.unusedBlock hdvd,(Nat.sub_le _ _).trans hle,
      hflushed.length⟩,hflushed.fd,hflushed.writes⟩,rfl,?_,?_⟩
    · simp only [used,setUnused]
      omega
    · simp only [used,setUnused]
      omega

theorem InBlocksFrom.store (h : o.InBlocksFrom n start) {off : ℕ} {bytes : Bytes}
    (hb : off+bytes.length ≤ n) : (o.store off bytes).InBlocksFrom n start :=
  ⟨⟨h.size,h.block,h.unusedBlock,h.unused_le,
    (overwrite_length o.buf.data off bytes (h.length.symm ▸ hb)).trans h.length⟩,h.fd,h.writes⟩

theorem InBlocksFrom.blocksLoop (h : o.InBlocksFrom n start) (fuel : ℕ) (rest : Bytes)
    (total : ℕ) : (blocksLoop fuel rest total o).2.InBlocksFrom n start := by
  have hsize : paddedSize bBufferBlockSize = 512 := by decide
  induction fuel generalizing o rest total with
  | zero => exact h
  | succ fuel ih =>
    simp only [ArchiveTarBuilder.blocksLoop]
    split
    · exact h
    · have hget := h.getBlock bBufferBlockSize
      split
      · rename_i p hp
        rwa [hp] at hget
      · rename_i off given p hp
        rw [hp] at hget
        obtain ⟨hp,hgiven,hend,hused⟩ := hget
        refine ih (hp.store ?_) _ _
        rw [List.length_take,bBufferBlockSize]
        omega

end Output

theorem readRound_inBlocks {s : ContentsState} (h : s.out.InBlocksFrom n start)
    (maxRead : ℕ) : (readRound s maxRead).out.InBlocksFrom n start := by
  have hget := h.getBlock s.out.buf.unused
  unfold readRound
  split
  · rename_i o ho
    rwa [ho] at hget
  · rename_i off blocklen o ho
    rw [ho] at hget
    obtain ⟨ho,hgiven,hend,hroom⟩ := hget
    have hblock : 512 ∣ blocklen := hgiven ▸ dvd_roundUp 512 _ (by omega)
    have hgot := readRetry_length s.file.contents (min maxRead blocklen) s.file.reads o.sys.errno
    simp only
    generalize readRetry s.file.contents (min maxRead blocklen) s.file.reads o.sys.errno =
    r at hgot ⊢
    have hle : r.2.1.length ≤ blocklen := hgot.trans (Nat.min_le_right _ _)
    have hstored : ((o.store off r.2.1).setErrno r.2.2.2).InBlocksFrom n start :=
      (ho.store (by omega)).of_buf rfl (List.suffix_refl _)
    split_ifs with hshort hfull
    · exact hstored
    · rw [endRound_out]
      exact hstored
    · rw [endRound_out]
      unfold bBufferReclaim
      split_ifs
      · exact hstored.of_buf rfl (List.suffix_refl _)
      · have hback : 512 ∣ blocklen-paddedSize r.2.1.length :=
          Nat.dvd_sub hblock (dvd_roundUp 512 _ (by omega))
        refine ⟨⟨hstored.size,hstored.block,Nat.dvd_add hstored.unusedBlock hback,?_,hstored.length⟩,
          hstored.fd,hstored.writes⟩
        simp only [setUnused,Output.setErrno,Output.store]
        omega

theorem spliceRound_inBlocks {s : ContentsState} (h : s.out.InBlocksFrom n start)
    (maxRead : ℕ) : (spliceRound s maxRead).out.InBlocksFrom n start := by
  simp only [spliceRound]
  split_ifs
  · apply readRound_inBlocks
    exact ⟨⟨h.size,h.block,h.unusedBlock,h.unused_le,h.length⟩,h.fd,
      (Sys.splice_writes s.out.sys s.file maxRead).symm ▸ h.writes⟩
  · rw [endRound_out]
    exact h.of_buf rfl (by rw [Sys.splice_writes])

theorem contentsRound_inBlocks {s : ContentsState} (h : s.out.InBlocksFrom n start)
    (fileSize : ℕ) : (contentsRound fileSize s).out.InBlocksFrom n start := by
  have hflushed := h.flushIfFull
  simp only [contentsRound]
  generalize (if bBufferFull s.out.buf then bBufferFlush s.out else (0,s.out)) = r at hflushed ⊢
  split_ifs with hneg hleft hsplice
  · exact hflushed
  · exact hflushed
  · exact spliceRound_inBlocks (s := { s with out := r.2, emptiedBuffer := _ }) hflushed _
  · exact readRound_inBlocks (s := { s with out := r.2, emptiedBuffer := _ }) hflushed _

theorem contentsLoop_inBlocks {s : ContentsState} (h : s.out.InBlocksFrom n start)
    (fileSize fuel : ℕ) : (contentsLoop fileSize fuel s).out.InBlocksFrom n start := by
  induction fuel generalizing s with
  | zero => exact h
  | succ fuel ih =>
    have hround := contentsRound_inBlocks h fileSize
    simp only [contentsLoop]
    generalize contentsRound fileSize s = r at hround ⊢
    cases r with
    | again t => exact ih hround
    | leave t => exact hround
    | errorIo out file => exact hround

theorem errorIo_buf (o : Output) : (errorIo o).2.buf = o.buf := by
  unfold errorIo
  split <;> rfl

theorem writePadding_buf (s : ContentsState) : (writePadding s).2.buf = s.out.buf := by
  unfold writePadding
  split <;> rfl

theorem errorIo_writes (o : Output) : (errorIo o).2.sys.writes = o.sys.writes := by
  unfold errorIo
  simp only
  split <;> rfl

theorem writePadding_writes (s : ContentsState) :
    (writePadding s).2.sys.writes <:+ s.out.sys.writes := by
  unfold writePadding
  split
  · exact Sys.write_suffix _ _
  · exact List.suffix_refl _

theorem bFileWriteContents_inBlocks {o : Output} (h : o.InBlocksFrom n start) (file : File)
    (size : ℕ) : (bFileWriteContents o file size).2.InBlocksFrom n start := by
  have hloop := contentsLoop_inBlocks (s := ⟨o,file,0,0,false,0⟩) h size (size+1)
  simp only [bFileWriteContents]
  generalize contentsLoop size (size+1) ⟨o,file,0,0,false,0⟩ = r at hloop ⊢
  cases r with
  | again t => exact hloop
  | errorIo out file =>
    exact InBlocksFrom.of_buf hloop (errorIo_buf out) (errorIo_writes out ▸ List.suffix_refl _)
  | leave t =>
    simp only
    split
    · exact InBlocksFrom.of_buf hloop ((errorIo_buf _).trans (writePadding_buf t))
        (errorIo_writes (writePadding t).2 ▸ writePadding_writes t)
    · exact InBlocksFrom.of_buf hloop (writePadding_buf t) (writePadding_writes t)

theorem encodeAt_inBlocks {b : BBuilder} (h : b.out.InBlocksFrom n start) {off : ℕ}
    (hoff : off+512 ≤ n) (encode : BHeaderBlock → BHeaderBlock) :
    (b.encodeAt off encode).out.InBlocksFrom n start :=
  h.store (by rw [BHeaderBlock.toBytes_length]; exact hoff)

theorem encodeLonglink_inBlocks {b : BBuilder} (h : b.out.InBlocksFrom n start) {off : ℕ}
    (hoff : off+512 ≤ n) (path : Bytes) (type : UInt8) (wrlen : ℕ) :
    (encodeLonglink b off path type wrlen).2.out.InBlocksFrom n start := by
  have hblocks := (encodeAt_inBlocks h hoff (bHeaderEncodeLonglinkBlock · path type)).blocksLoop
    path.length path 0
  simp only [encodeLonglink,bFileWritePathBlocks]
  split
  · rename_i out heq
    rw [heq] at hblocks
    exact hblocks.of_buf rfl (List.suffix_refl _)
  · rename_i k out heq
    rw [heq] at hblocks
    exact hblocks.of_buf rfl (List.suffix_refl _)

def LeavesInBlocks (n : ℕ) (start : Output) (r : Bool × BBuilder) : Prop :=
  r.2.out.InBlocksFrom n start

theorem writeGnuRecords_inBlocks {b : BBuilder} (h : b.out.InBlocksFrom n start)
    (header : BHeader) (longPath : Bytes) {off : ℕ} (hoff : off+512 ≤ n) (wrlen : ℕ) :
    LeavesInBlocks n start (writeGnuRecords b header longPath off wrlen) := by
  have hfirst : (if header.truncated then encodeLonglink b off longPath bHeaderLonglinkType wrlen
      else (some wrlen,b)).2.out.InBlocksFrom n start := by
    split
    · exact encodeLonglink_inBlocks h hoff longPath bHeaderLonglinkType wrlen
    · exact h
  unfold writeGnuRecords
  simp only
  split
  · rename_i b' heq
    rwa [heq] at hfirst
  · rename_i k b' heq
    rw [heq] at hfirst
    split
    · exact hfirst
    · split
      · exact encodeLonglink_inBlocks hfirst hoff _ bHeaderLongdestType k
      · exact hfirst

theorem writePaxRecords_inBlocks {b : BBuilder} (h : b.out.InBlocksFrom n start)
    (header : BHeader) (longPath memberName : Bytes) {off : ℕ} (hoff : off+512 ≤ n) (wrlen : ℕ) :
    LeavesInBlocks n start (writePaxRecords b header longPath memberName off wrlen) := by
  have hencoded := encodeAt_inBlocks h hoff (bHeaderEncodePaxBlock b.process · header longPath)
  have hblocks : (bFileWritePaxPathBlocks
      (b.encodeAt off (bHeaderEncodePaxBlock b.process · header longPath)).out longPath
      header.linkdest).2.InBlocksFrom n start := by
    unfold bFileWritePaxPathBlocks
    split
    · exact hencoded
    · exact hencoded.blocksLoop _ _ _
  simp only [writePaxRecords]
  split
  · rename_i out heq
    rw [heq] at hblocks
    exact hblocks.of_buf rfl (List.suffix_refl _)
  · rename_i k out heq
    rw [heq] at hblocks
    exact hblocks.of_buf rfl (List.suffix_refl _)

theorem writeLongRecords_inBlocks {b : BBuilder} (h : b.out.InBlocksFrom n start)
    (header : BHeader) (memberName : Bytes) (st : Stat) :
    LeavesInBlocks n start (writeLongRecords b header memberName st) := by
  have hget := h.getBlock bHeaderSize
  have hsize : paddedSize bHeaderSize = 512 := by decide
  unfold writeLongRecords
  generalize bBufferGetBlock b.out bHeaderSize = r at hget ⊢
  rcases r with ⟨_ | ⟨off,wrlen⟩,out⟩
  · simp only
    split_ifs
    · exact h.of_buf rfl (List.suffix_refl _)
    · exact hget
    · exact h
  · obtain ⟨hout,hgiven,hend,hused⟩ := hget
    have hoff : off+512 ≤ n := by omega
    simp only
    split_ifs
    · exact h.of_buf rfl (List.suffix_refl _)
    · exact writeGnuRecords_inBlocks (b := { b with out := out }) hout header _ hoff wrlen
    · exact writePaxRecords_inBlocks (b := { b with out := out }) hout header _ memberName hoff wrlen
    · exact h

theorem writeHeader_inBlocks {b : BBuilder} (h : b.out.InBlocksFrom n start)
    (header : BHeader) : LeavesInBlocks n start (writeHeader b header) := by
  have hget := h.getBlock bHeaderSize
  have hsize : paddedSize bHeaderSize = 512 := by decide
  unfold writeHeader
  split
  · rename_i out heq
    rwa [heq] at hget
  · rename_i off wrlen out heq
    rw [heq] at hget
    obtain ⟨hout,hgiven,hend,hused⟩ := hget
    have hoff : off+512 ≤ n := by omega
    exact encodeAt_inBlocks (b := { b with out := out }) hout hoff (bHeaderEncodeBlock b.process · header)

theorem writeContents_inBlocks {b : BBuilder} (h : b.out.InBlocksFrom n start)
    (header : BHeader) (path : Bytes) (fd : ℤ) (file : File) :
    LeavesInBlocks n start (writeContents b header path fd file) := by
  have hcontents := bFileWriteContents_inBlocks h file header.size
  unfold writeContents
  split
  · split
    · rename_i out heq
      rw [heq] at hcontents
      exact hcontents.of_buf rfl (List.suffix_refl _)
    · rename_i k out heq
      rw [heq] at hcontents
      exact hcontents.of_buf rfl (List.suffix_refl _)
  · exact h

theorem andWrite_inBlocks {r : Bool × BBuilder} {next : BBuilder → Bool × BBuilder}
    (hr : LeavesInBlocks n start r)
    (hnext : ∀ {b : BBuilder}, b.out.InBlocksFrom n start → LeavesInBlocks n start (next b)) :
    LeavesInBlocks n start (andWrite r next) := by
  unfold andWrite
  split
  · exact hnext hr
  · exact hr

theorem memberWrite_inBlocks {b : BBuilder} (h : b.out.InBlocksFrom n start)
    (c : MemberCall) : (c.write b).2.out.InBlocksFrom n start := by
  cases hfound : memberHeader b.userLookup b.hardlinkCache c.src c.memberName c.st with
  | none =>
    obtain ⟨e,hout⟩ := (bBuilderWriteFile_none c.path c.fd hfound).out
    have hsame : (c.write b).2.out = b.out.setErrno e := hout
    rw [hsame]
    exact h.of_buf rfl (List.suffix_refl _)
  | some header =>
    rw [MemberCall.write,bBuilderWriteFile_some c.path c.fd hfound,writeMember]
    have hstart : (memberStart b c.src c.memberName c.st).out.InBlocksFrom n start := h
    exact andWrite_inBlocks (andWrite_inBlocks
      (writeLongRecords_inBlocks hstart header c.memberName c.st)
      fun hb => writeHeader_inBlocks hb header)
      fun hb => writeContents_inBlocks hb header c.path c.fd c.src.file

theorem Works.inBlocks {b b' : BBuilder} {ts : List Attempt} (h : Works b ts b')
    (hb : b.out.InBlocks n) : b'.out.InBlocks n ∧ ∀ t ∈ ts, t.builder.out.InBlocks n := by
  induction h with
  | idle => exact ⟨hb,by simp⟩
  | report h e message path ih => exact ⟨ih.1.of_buf rfl,ih.2⟩
  | fail h e ih => exact ⟨ih.1.of_buf rfl,ih.2⟩
  | @write ts b' h c ih =>
    refine ⟨(memberWrite_inBlocks ih.1.refl c).toInBlocks,fun t ht => ?_⟩
    rcases List.mem_append.mp ht with ht | ht
    · exact ih.2 t ht
    · obtain rfl := List.mem_singleton.mp ht
      exact ih.1

theorem Performs.inBlocks {b b' : BBuilder} {m : Method} {ts : List Attempt}
    (h : Performs b m ts b') (hb : b.out.InBlocks n) :
    b'.out.InBlocks n ∧ ∀ t ∈ ts, t.builder.out.InBlocks n := by
  cases h with
  | archives hm hfd h => exact h.inBlocks hb
  | handle fd fifo release sys =>
    exact ⟨⟨hb.size,hb.block,hb.unusedBlock,hb.unused_le,hb.length⟩,by simp⟩
  | unset hfd => exact ⟨hb,by simp⟩
  | flushed hm hfd => exact ⟨hb.refl.flush.toInBlocks,by simp⟩
  | finished hfd hret hwarn => exact ⟨hb.refl.flush.toInBlocks,by simp⟩

/-- In a run, every call that writes a member starts on a buffer in whole blocks. -/
theorem runMethods_inBlocks {μ : Type*} {engine : MatchEngine μ} (ms : List Method)
    {a : Archiver μ} (h : a.builder.out.InBlocks n) :
    (runMethods engine ms a).archiver.builder.out.InBlocks n ∧
      ∀ ts ∈ (runMethods engine ms a).archives, ∀ t ∈ ts, t.builder.out.InBlocks n := by
  refine runMethods_invariant engine (P := fun b ts earlier => b.out.InBlocks n ∧
    ∀ us ∈ ts::earlier, ∀ t ∈ us, t.builder.out.InBlocks n) ms ⟨h,by simp⟩ ?_
  rintro m - b ts earlier us b' ⟨hb,hall⟩ hperforms
  obtain ⟨hb',hus⟩ := hperforms.inBlocks hb
  have hboth : ∀ t ∈ ts ++ us, t.builder.out.InBlocks n := by
    intro t ht
    exact (List.mem_append.mp ht).elim (hall ts (by simp) t) (hus t)
  refine ⟨hb',?_⟩
  split_ifs
  · simp only [List.forall_mem_cons,List.not_mem_nil,false_implies,implies_true,true_and]
    exact ⟨hboth,fun vs hvs => hall vs (by simp [hvs])⟩
  · rw [List.forall_mem_cons]
    exact ⟨hboth,fun vs hvs => hall vs (by simp [hvs])⟩

theorem newArchiver_inBlocks {μ : Type*} (p : Process) (factor : ℕ) (options : BBuilderOptions)
    (userLookup : Option BUserLookup) (matching : μ) :
    ∃ n, (newArchiver p factor options userLookup matching).builder.out.InBlocks n :=
  ⟨_,inBlocks_new _ _⟩

end ArchiveTarBuilder
