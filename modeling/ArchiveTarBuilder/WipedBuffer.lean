import ArchiveTarBuilder.PlainContents
import ArchiveTarBuilder.ArchiverRuns

/-! The buffer of an archiver through whatever its sink, its files and its headers do: as soon as it
is empty it is as new. -/
namespace ArchiveTarBuilder
open Region CString Output

structure Output.Wiped (n : ℕ) (o : Output) : Prop where
  size : o.buf.size = n
  unused_le : o.buf.unused ≤ n
  blank : o.buf.unused = n → o.buf.data = zeros n

structure Output.Occupied (n : ℕ) (o : Output) : Prop where
  size : o.buf.size = n
  unused_lt : o.buf.unused < n

namespace Output
variable {n : ℕ} {o p : Output}

theorem Occupied.wiped (h : o.Occupied n) : o.Wiped n :=
  ⟨h.size,h.unused_lt.le,fun heq => absurd heq h.unused_lt.ne⟩

theorem Occupied.store (h : o.Occupied n) (off : ℕ) (bytes : Bytes) : (o.store off bytes).Occupied n :=
  ⟨h.size,h.unused_lt⟩

theorem Wiped.of_buf (h : o.Wiped n) (hbuf : p.buf = o.buf) : p.Wiped n := by
  obtain ⟨buf,sys⟩ := p
  obtain rfl : buf = o.buf := hbuf
  exact ⟨h.size,h.unused_le,h.blank⟩

theorem wiped_new (factor : ℕ) (sys : Sys) :
    (⟨bBufferNew factor,sys⟩ : Output).Wiped (bBufferNew factor).size := ⟨rfl,le_rfl,fun _ => rfl⟩

theorem Wiped.flush (h : o.Wiped n) : (bBufferFlush o).2.Wiped n ∧
    (0 ≤ (bBufferFlush o).1 → (bBufferFlush o).2.buf.unused = n) := by
  unfold bBufferFlush
  split_ifs with hfd hsize hempty
  · exact ⟨h.of_buf rfl,fun hret => absurd hret (by decide : ¬(0 : ℤ) ≤ -1)⟩
  · have hzero : n = 0 := h.size.symm.trans hsize
    exact ⟨h,fun _ => Nat.le_antisymm h.unused_le (hzero ▸ Nat.zero_le _)⟩
  · exact ⟨h,fun _ => hempty.trans h.size⟩
  · split
    · rename_i ret sys hloop
      exact ⟨h.of_buf rfl,fun hret => absurd (flushLoop_error hloop) (not_lt.mpr hret)⟩
    · exact ⟨⟨h.size,h.size.le,fun _ => congrArg zeros h.size⟩,fun _ => h.size⟩

theorem Wiped.flushIfFull (h : o.Wiped n) :
    (if bBufferFull o.buf then bBufferFlush o else (0,o)).2.Wiped n := by
  split
  · exact h.flush.1
  · exact h

theorem Wiped.getBlock (h : o.Wiped n) (len : ℕ) : match bBufferGetBlock o len with
    | (none,p) => p.Wiped n
    | (some (_,given),p) => p.Occupied n ∧ given ≤ n ∧ 0 < given ∧ p.buf.unused+given ≤ n := by
  have hflushed := h.flushIfFull
  simp only [bBufferGetBlock]
  generalize (if bBufferFull o.buf then bBufferFlush o else (0,o)) = r at hflushed ⊢
  have hle := hflushed.unused_le
  split_ifs with hlen hfd hneg hroom
  · exact h
  · exact h.of_buf rfl
  · exact hflushed
  · exact hflushed.of_buf rfl
  · have hpos : 0 < paddedSize len :=
      (Nat.pos_of_ne_zero hlen).trans_le (le_roundUp 512 len)
    have hless : r.2.buf.unused-paddedSize len < n := by omega
    exact ⟨⟨hflushed.size,hless⟩,by omega,hpos,by simp only [setUnused]; omega⟩

theorem Wiped.blocksLoop (h : o.Wiped n) (fuel : ℕ) (rest : Bytes) (total : ℕ) :
    (blocksLoop fuel rest total o).2.Wiped n ∧ (o.Occupied n →
      (ArchiveTarBuilder.blocksLoop fuel rest total o).1.isSome = true →
        (ArchiveTarBuilder.blocksLoop fuel rest total o).2.Occupied n) := by
  induction fuel generalizing o rest total with
  | zero => exact ⟨h,fun hused _ => hused⟩
  | succ fuel ih =>
    simp only [ArchiveTarBuilder.blocksLoop]
    split
    · exact ⟨h,fun hused _ => hused⟩
    · have hget := h.getBlock bBufferBlockSize
      split
      · rename_i p hp
        rw [hp] at hget
        exact ⟨hget,fun _ hsome => absurd hsome Bool.false_ne_true⟩
      · rename_i off given p hp
        rw [hp] at hget
        have hstored := hget.1.store off (rest.take bBufferBlockSize)
        have hmore := ih hstored.wiped (rest.drop bBufferBlockSize) (total+given)
        exact ⟨hmore.1,fun _ => hmore.2 hstored⟩

end Output

theorem readRetry_count (contents : Bytes) (len : ℕ) (reads : List ReadAnswer) (e : Errno) :
    (readRetry contents len reads e).1 = (readRetry contents len reads e).2.1.length ∨
      (readRetry contents len reads e).1 = -1 := by
  induction reads generalizing e with
  | nil => exact Or.inl rfl
  | cons a reads ih =>
    cases a with
    | bytes k => exact Or.inl rfl
    | fail e' => cases e' <;> first | exact ih _ | exact Or.inr rfl

/-- A round that reads: what it was given it uses, or gives back all but what it used. -/
theorem readRound_wiped {n : ℕ} {s : ContentsState} (h : s.out.Wiped n) {maxRead : ℕ}
    (hpos : 0 < maxRead) : (readRound s maxRead).out.Wiped n := by
  have hget := h.getBlock s.out.buf.unused
  unfold readRound
  split
  · rename_i o ho
    rw [ho] at hget
    exact hget
  · rename_i off blocklen o ho
    rw [ho] at hget
    obtain ⟨hused,-,hgiven,hroom⟩ := hget
    have hcount := readRetry_count s.file.contents (min maxRead blocklen) s.file.reads o.sys.errno
    simp only
    generalize readRetry s.file.contents (min maxRead blocklen) s.file.reads o.sys.errno =
    r at hcount ⊢
    have hstored : ((o.store off r.2.1).setErrno r.2.2.2).Occupied n := ⟨hused.size,hused.unused_lt⟩
    split_ifs with hshort hfull
    · exact hstored.wiped
    · rw [endRound_out]
      exact hstored.wiped
    · rw [endRound_out]
      -- a read that was not short got something
      have hgot : 0 < r.2.1.length := by
        rcases hcount with hcount | hcount <;> omega
      have hpadded : 0 < paddedSize r.2.1.length := hgot.trans_le (le_roundUp 512 _)
      unfold bBufferReclaim
      split_ifs
      · exact hstored.wiped.of_buf rfl
      · refine Occupied.wiped ⟨hused.size,?_⟩
        simp only [setUnused,Output.setErrno,Output.store]
        omega

theorem spliceRound_wiped {n : ℕ} {s : ContentsState} (h : s.out.Wiped n) {maxRead : ℕ}
    (hpos : 0 < maxRead) : (spliceRound s maxRead).out.Wiped n := by
  simp only [spliceRound]
  split_ifs
  · apply readRound_wiped _ hpos
    exact ⟨h.size,h.unused_le,h.blank⟩
  · rw [endRound_out]
    exact h.of_buf rfl

theorem contentsRound_wiped {n : ℕ} {s : ContentsState} (h : s.out.Wiped n) (fileSize : ℕ) :
    (contentsRound fileSize s).out.Wiped n := by
  have hflushed := h.flushIfFull
  simp only [contentsRound]
  generalize (if bBufferFull s.out.buf then bBufferFlush s.out else (0,s.out)) = r at hflushed ⊢
  split_ifs with hneg hleft hsplice
  · exact hflushed
  · exact hflushed
  · exact spliceRound_wiped (s := { s with out := r.2, emptiedBuffer := _ }) hflushed
      (lt_min (Nat.pos_of_ne_zero hleft) (by decide))
  · exact readRound_wiped (s := { s with out := r.2, emptiedBuffer := _ }) hflushed
      (lt_min (Nat.pos_of_ne_zero hleft) (by decide))

theorem contentsLoop_wiped {n : ℕ} {s : ContentsState} (h : s.out.Wiped n) (fileSize fuel : ℕ) :
    (contentsLoop fileSize fuel s).out.Wiped n := by
  induction fuel generalizing s with
  | zero => exact h
  | succ fuel ih =>
    have hround := contentsRound_wiped h fileSize
    simp only [contentsLoop]
    generalize contentsRound fileSize s = r at hround ⊢
    cases r with
    | again t => exact ih hround
    | leave t => exact hround
    | errorIo out file => exact hround

theorem errorIo_wiped {n : ℕ} {o : Output} (h : o.Wiped n) : (errorIo o).2.Wiped n := by
  unfold errorIo
  simp only
  split
  · exact h.of_buf rfl
  · exact h

theorem bFileWriteContents_wiped {n : ℕ} {o : Output} (h : o.Wiped n) (file : File) (size : ℕ) :
    (bFileWriteContents o file size).2.Wiped n := by
  have hloop : (contentsLoop size (size+1) ⟨o,file,0,0,false,0⟩).out.Wiped n :=
    contentsLoop_wiped (s := ⟨o,file,0,0,false,0⟩) h size (size+1)
  simp only [bFileWriteContents]
  generalize contentsLoop size (size+1) ⟨o,file,0,0,false,0⟩ = r at hloop ⊢
  cases r with
  | again t => exact hloop
  | errorIo out file => exact errorIo_wiped hloop
  | leave t =>
    have hpadded : (writePadding t).2.Wiped n := by
      unfold writePadding
      split
      · exact Output.Wiped.of_buf hloop rfl
      · exact hloop
    simp only
    split
    · exact errorIo_wiped hpadded
    · exact hpadded

/-- A record is encoded in a block that is used, also when the pointer to it is stale. -/
theorem encodeLonglink_wiped {n : ℕ} {b : BBuilder} (h : b.out.Occupied n) (off : ℕ) (path : Bytes)
    (type : UInt8) (wrlen : ℕ) : (encodeLonglink b off path type wrlen).2.out.Wiped n ∧
      ((encodeLonglink b off path type wrlen).1.isSome = true →
        (encodeLonglink b off path type wrlen).2.out.Occupied n) := by
  have hencoded : (b.encodeAt off (bHeaderEncodeLonglinkBlock · path type)).out.Occupied n :=
    h.store off _
  obtain ⟨hwiped,hused⟩ := hencoded.wiped.blocksLoop path.length path 0
  simp only [encodeLonglink,bFileWritePathBlocks]
  split
  · rename_i out heq
    rw [heq] at hwiped
    exact ⟨hwiped,fun hsome => absurd hsome Bool.false_ne_true⟩
  · rename_i k out heq
    rw [heq] at hwiped hused
    exact ⟨hwiped,fun _ => hused hencoded rfl⟩

def LeavesWiped (n : ℕ) (r : Bool × BBuilder) : Prop := r.2.out.Wiped n

theorem writeGnuRecords_wiped {n : ℕ} {b : BBuilder} (h : b.out.Occupied n) (header : BHeader)
    (longPath : Bytes) (off wrlen : ℕ) :
    LeavesWiped n (writeGnuRecords b header longPath off wrlen) := by
  have hfirst : (if header.truncated then encodeLonglink b off longPath bHeaderLonglinkType wrlen
        else (some wrlen,b)).2.out.Wiped n ∧
      ((if header.truncated then encodeLonglink b off longPath bHeaderLonglinkType wrlen
        else (some wrlen,b)).1.isSome = true →
      (if header.truncated then encodeLonglink b off longPath bHeaderLonglinkType wrlen
        else (some wrlen,b)).2.out.Occupied n) := by
    split
    · exact encodeLonglink_wiped h off longPath bHeaderLonglinkType wrlen
    · exact ⟨h.wiped,fun _ => h⟩
  unfold writeGnuRecords
  simp only
  split
  · rename_i b' heq
    rw [heq] at hfirst
    exact hfirst.1
  · rename_i k b' heq
    rw [heq] at hfirst
    split
    · exact hfirst.1
    · split
      · exact (encodeLonglink_wiped (hfirst.2 rfl) off _ bHeaderLongdestType k).1
      · exact hfirst.1

theorem writePaxRecords_wiped {n : ℕ} {b : BBuilder} (h : b.out.Occupied n) (header : BHeader)
    (longPath memberName : Bytes) (off wrlen : ℕ) :
    LeavesWiped n (writePaxRecords b header longPath memberName off wrlen) := by
  have hencoded : (b.encodeAt off (bHeaderEncodePaxBlock b.process · header longPath)).out.Occupied n :=
    h.store off _
  have hblocks : (bFileWritePaxPathBlocks
      (b.encodeAt off (bHeaderEncodePaxBlock b.process · header longPath)).out longPath
      header.linkdest).2.Wiped n := by
    unfold bFileWritePaxPathBlocks
    split
    · exact hencoded.wiped
    · exact (hencoded.wiped.blocksLoop _ _ _).1
  simp only [writePaxRecords]
  split
  · rename_i out heq
    rw [heq] at hblocks
    exact hblocks
  · rename_i k out heq
    rw [heq] at hblocks
    exact hblocks

theorem writeLongRecords_wiped {n : ℕ} {b : BBuilder} (h : b.out.Wiped n) (header : BHeader)
    (memberName : Bytes) (st : Stat) : LeavesWiped n (writeLongRecords b header memberName st) := by
  have hget := h.getBlock bHeaderSize
  unfold writeLongRecords
  generalize bBufferGetBlock b.out bHeaderSize = r at hget ⊢
  rcases r with ⟨_ | ⟨off,wrlen⟩,out⟩
  · simp only
    split_ifs
    · exact h.of_buf rfl
    · exact hget
    · exact h
  · obtain ⟨hused,-⟩ := hget
    simp only
    split_ifs
    · exact h.of_buf rfl
    · exact writeGnuRecords_wiped (b := { b with out := out }) hused header _ off wrlen
    · exact writePaxRecords_wiped (b := { b with out := out }) hused header _ memberName off wrlen
    · exact h

theorem writeHeader_wiped {n : ℕ} {b : BBuilder} (h : b.out.Wiped n) (header : BHeader) :
    LeavesWiped n (writeHeader b header) := by
  have hget := h.getBlock bHeaderSize
  unfold writeHeader
  split
  · rename_i out heq
    rw [heq] at hget
    exact hget
  · rename_i off wrlen out heq
    rw [heq] at hget
    exact (hget.1.store off _).wiped

theorem writeContents_wiped {n : ℕ} {b : BBuilder} (h : b.out.Wiped n) (header : BHeader)
    (path : Bytes) (fd : ℤ) (file : File) : LeavesWiped n (writeContents b header path fd file) := by
  have hcontents := bFileWriteContents_wiped h file header.size
  unfold writeContents
  split
  · split
    · rename_i out heq
      rw [heq] at hcontents
      exact hcontents
    · rename_i k out heq
      rw [heq] at hcontents
      exact hcontents
  · exact h

theorem writeMember_wiped {n : ℕ} {b : BBuilder} (h : b.out.Wiped n) (header : BHeader)
    (path memberName : Bytes) (st : Stat) (fd : ℤ) (file : File) :
    LeavesWiped n (writeMember b header path memberName st fd file) := by
  have hand {r : Bool × BBuilder} {next : BBuilder → Bool × BBuilder} (hr : LeavesWiped n r)
      (hnext : ∀ {b' : BBuilder}, b'.out.Wiped n → LeavesWiped n (next b')) :
      LeavesWiped n (andWrite r next) := by
    unfold andWrite
    split
    · exact hnext hr
    · exact hr
  exact hand (hand (writeLongRecords_wiped h header memberName st) fun hb => writeHeader_wiped hb header)
    fun hb => writeContents_wiped hb header path fd file

theorem bBuilderWriteFile_wiped {n : ℕ} {b : BBuilder} (h : b.out.Wiped n) (path memberName : Bytes)
    (st : Stat) (fd : ℤ) (src : Source) : (bBuilderWriteFile b path memberName st fd src).2.out.Wiped n := by
  cases hheader : memberHeader b.userLookup b.hardlinkCache src memberName st with
  | none =>
    obtain ⟨e,hout⟩ := (bBuilderWriteFile_none path fd hheader).out
    exact h.of_buf (by rw [hout]; rfl)
  | some header =>
    rw [bBuilderWriteFile_some path fd hheader]
    have hstart : (memberStart b src memberName st).out.Wiped n := h
    exact writeMember_wiped hstart header path memberName st fd src.file

theorem Works.wiped {n : ℕ} {b b' : BBuilder} {ts : List Attempt} (h : Works b ts b')
    (hb : b.out.Wiped n) : b'.out.Wiped n := by
  induction h with
  | idle => exact hb
  | report h e message path ih => exact ih
  | fail h e ih => exact ih.of_buf rfl
  | write h c ih => exact bBuilderWriteFile_wiped ih c.path c.memberName c.st c.fd c.src

theorem Performs.wiped {n : ℕ} {b b' : BBuilder} {m : Method} {ts : List Attempt}
    (h : Performs b m ts b') (hb : b.out.Wiped n) : b'.out.Wiped n := by
  cases h with
  | archives hm hfd h => exact h.wiped hb
  | handle fd fifo release sys => exact ⟨hb.size,hb.unused_le,hb.blank⟩
  | unset hfd => exact hb
  | flushed hm hfd => exact hb.flush.1
  | finished hfd hret hwarn => exact hb.flush.1

end ArchiveTarBuilder
