import ArchiveTarBuilder.ContentStream

/-! The contents of a file behind a handle that is not spliced, in every state that the buffer can
come to, also through writes and reads that failed. -/
namespace ArchiveTarBuilder
open Region CString Output

/-- A call that puts something into the buffer, or empties it. -/
inductive StreamCall
  | flush
  | block (bytes : Bytes)
  | pathBlocks (path : Bytes)
  | paxBlocks (path : Bytes) (linkdest : Option Bytes)
  | contents (file : File) (size : ℕ)

def StreamCall.perform (o : Output) : StreamCall → Output
  | .flush => (bBufferFlush o).2
  | .block bytes =>
    match bBufferGetBlock o bytes.length with
    | (none,o) => o
    | (some (off,_),o) => o.store off bytes
  | .pathBlocks path => (bFileWritePathBlocks o path).2
  | .paxBlocks path linkdest => (bFileWritePaxPathBlocks o path linkdest).2
  | .contents file size => (bFileWriteContents o file size).2

structure Output.Unspliced (o : Output) : Prop extends Clean o where
  plain : o.buf.canSplice = false

theorem Output.Unspliced.of_buf {o p : Output} (h : o.Unspliced) (hbuf : p.buf = o.buf) :
    p.Unspliced := by
  obtain ⟨buf,sys⟩ := p
  obtain rfl : buf = o.buf := hbuf
  exact ⟨⟨⟨h.handle,h.pos,h.block,h.unusedBlock,h.unused_le,h.length⟩,h.blank⟩,h.plain⟩

theorem unspliced_opened {factor : ℕ} (hbig : 512*factor < 2^63) {fd : ℤ}
    (hfd : fd ≠ 0) (fifo : Bool) (release : Option (ℕ × ℕ × ℕ)) (sys : Sys)
    (hplain : (bBufferSetFd (bBufferNew factor) fd fifo release).canSplice = false) :
    (opened factor fd fifo release sys).Unspliced := by
  have hquiet : (⟨[],[],[],.ok⟩ : Sys).Reliable := by simp [Sys.Reliable]
  have hready : (opened factor fd fifo release ⟨[],[],[],.ok⟩).Ready := by
    by_cases hf : factor = 0
    · subst hf
      exact ready_opened (by decide : 1 ≤ bBufferDefaultFactor) (by decide) hfd fifo release hquiet
    · exact ready_opened (Nat.pos_of_ne_zero hf) hbig hfd fifo release hquiet
  have hfirst : (opened factor fd fifo release ⟨[],[],[],.ok⟩).Unspliced := ⟨hready.toClean,hplain⟩
  exact hfirst.of_buf rfl

namespace Output.Unspliced

theorem append {o : Output} (h : o.Unspliced) (bytes : Bytes) {k : ℕ} (hb : bytes.length ≤ k)
    (hk : k ≤ o.buf.unused) (hd : 512 ∣ k) :
    ((o.store o.used bytes).setUnused (o.buf.unused-k)).Unspliced := by
  have hle := h.unused_le
  have hlen := h.length
  have hover := overwrite_length o.buf.data o.used bytes (by rw [hlen,used]; omega)
  refine ⟨⟨⟨h.handle,h.pos,h.block,Nat.dvd_sub h.unusedBlock hd,?_,hover.trans hlen⟩,?_⟩,h.plain⟩
  · exact (Nat.sub_le _ _).trans hle
  · apply (h.blank.overwrite bytes (by rw [hlen,used]; omega)).mono
    simp only [used,setUnused,store]
    omega

theorem setErrno {o : Output} (h : o.Unspliced) (e : Errno) : (o.setErrno e).Unspliced :=
  h.of_buf rfl

theorem flush {o : Output} (h : o.Unspliced) : (bBufferFlush o).2.Unspliced ∧
    (0 ≤ (bBufferFlush o).1 → (bBufferFlush o).2.buf.unused = o.buf.size) := by
  have hpos := h.pos.ne'
  simp only [bBufferFlush,h.handle,hpos,if_false]
  split
  · exact ⟨h,fun _ => ‹_›⟩
  · split
    · rename_i ret sys hloop
      exact ⟨h.of_buf rfl,fun hret => absurd (flushLoop_error hloop) (not_lt.mpr hret)⟩
    · exact ⟨⟨h.toAligned.emptied _,h.plain⟩,fun _ => rfl⟩

theorem flushIfFull {o : Output} (h : o.Unspliced) :
    (if bBufferFull o.buf then bBufferFlush o else (0,o)).2.Unspliced ∧
      (0 ≤ (if bBufferFull o.buf then bBufferFlush o else (0,o)).1 →
        0 < (if bBufferFull o.buf then bBufferFlush o else (0,o)).2.buf.unused) := by
  split
  · exact ⟨h.flush.1,fun hret => (h.flush.2 hret).symm ▸ h.pos⟩
  · rename_i hfull
    refine ⟨h,fun _ => ?_⟩
    simp only [bBufferFull,decide_eq_true_eq] at hfull
    exact Nat.pos_of_ne_zero hfull

theorem getBlock {o : Output} (h : o.Unspliced) (len : ℕ) :
    match bBufferGetBlock o len with
    | (none,p) => p.Unspliced
    | (some (off,_),p) => ∀ bytes : Bytes, bytes.length ≤ len → (p.store off bytes).Unspliced := by
  by_cases hlen : len = 0
  · simpa [bBufferGetBlock,hlen] using h
  · obtain ⟨hflushed,-⟩ := h.flushIfFull
    simp only [bBufferGetBlock,hlen,h.handle,if_false]
    generalize (if bBufferFull o.buf then bBufferFlush o else (0,o)) = r at hflushed ⊢
    by_cases hneg : r.1 < 0
    · simpa [hneg] using hflushed
    · by_cases hroom : r.2.buf.unused < paddedSize len
      · simpa [hneg,hroom] using hflushed.setErrno .efbig
      · simp only [hneg,hroom,if_false]
        intro bytes hb
        exact hflushed.append bytes (hb.trans (le_roundUp 512 len)) (not_lt.mp hroom)
          (dvd_roundUp 512 len (by omega))

theorem blocksLoop {o : Output} (h : o.Unspliced) (fuel : ℕ) (rest : Bytes) (total : ℕ) :
    (blocksLoop fuel rest total o).2.Unspliced := by
  induction fuel generalizing o rest total with
  | zero => exact h
  | succ fuel ih =>
    simp only [ArchiveTarBuilder.blocksLoop]
    split
    · exact h
    · have hget := h.getBlock bBufferBlockSize
      split
      · rename_i p hp
        rwa [hp] at hget
      · rename_i off given p hp
        rw [hp] at hget
        exact ih (hget _ (List.length_take_le _ _)) _ _

end Output.Unspliced

theorem readRetry_length (contents : Bytes) (len : ℕ) (reads : List ReadAnswer) (e : Errno) :
    (readRetry contents len reads e).2.1.length ≤ len := by
  induction reads generalizing e with
  | nil => exact List.length_take_le _ _
  | cons a reads ih =>
    cases a with
    | bytes n => exact (List.length_take_le _ _).trans (Nat.min_le_right _ _)
    | fail e' => cases e' <;> first | exact ih _ | exact Nat.zero_le _

def Round.out : Round → Output
  | .again s => s.out
  | .leave s => s.out
  | .errorIo out _ => out

theorem endRound_out (s : ContentsState) (rlen : ℕ) : (endRound s rlen).out = s.out := by
  unfold endRound
  split <;> rfl

theorem readRound_unspliced {s : ContentsState} (h : s.out.Unspliced) (hfree : 0 < s.out.buf.unused)
    (maxRead : ℕ) : (readRound s maxRead).out.Unspliced := by
  have hpad : paddedSize s.out.buf.unused = s.out.buf.unused := paddedSize_of_dvd h.unusedBlock
  have hget : bBufferGetBlock s.out s.out.buf.unused =
      (some (s.out.used,s.out.buf.unused),s.out.setUnused 0) := by
    simp [bBufferGetBlock,hfree.ne',h.handle,bBufferFull,hpad]
  have hgot := readRetry_length s.file.contents (min maxRead s.out.buf.unused) s.file.reads
    s.out.sys.errno
  have hread : (s.out.setUnused 0).sys.errno = s.out.sys.errno := rfl
  simp only [readRound,hget,hread]
  generalize readRetry s.file.contents (min maxRead s.out.buf.unused) s.file.reads
    s.out.sys.errno = r at hgot ⊢
  have hle : r.2.1.length ≤ s.out.buf.unused := hgot.trans (Nat.min_le_right _ _)
  split
  · apply Output.Unspliced.setErrno
    have hall := h.append r.2.1 hle le_rfl h.unusedBlock
    rwa [Nat.sub_self] at hall
  · rw [endRound_out,reclaim_spare _ hle h.unusedBlock hfree]
    have hkeep := h.append r.2.1 (le_roundUp 512 _) (paddedSize_le_of_dvd hle h.unusedBlock)
      (dvd_roundUp 512 _ (by omega))
    refine (hkeep.setErrno r.2.2.2).of_buf ?_
    simp [Output.setErrno,setUnused,store,paddedSize_eq]

theorem contentsRound_unspliced {s : ContentsState} (h : s.out.Unspliced) (fileSize : ℕ) :
    (contentsRound fileSize s).out.Unspliced := by
  obtain ⟨hflushed,hroom⟩ := h.flushIfFull
  simp only [contentsRound]
  generalize (if bBufferFull s.out.buf then bBufferFlush s.out else (0,s.out)) =
  r at hflushed hroom ⊢
  split
  · exact hflushed
  · rename_i hret
    split
    · exact hflushed
    · simp only [hflushed.plain,Bool.and_false,Bool.false_eq_true,if_false]
      exact readRound_unspliced hflushed (hroom (not_lt.mp hret)) _

theorem contentsLoop_unspliced {s : ContentsState} (h : s.out.Unspliced) (fileSize fuel : ℕ) :
    (contentsLoop fileSize fuel s).out.Unspliced := by
  induction fuel generalizing s with
  | zero => exact h
  | succ fuel ih =>
    have hround := contentsRound_unspliced h fileSize
    simp only [contentsLoop]
    generalize contentsRound fileSize s = r at hround ⊢
    cases r with
    | again t => exact ih hround
    | leave t => exact hround
    | errorIo out file => exact hround

namespace Output.Unspliced

theorem errorIo {o : Output} (h : o.Unspliced) : (errorIo o).2.Unspliced := by
  obtain ⟨e,he⟩ := errorIo_eq o
  rw [he]
  exact h.setErrno e

theorem contents {o : Output} (h : o.Unspliced) (file : File) (n : ℕ) :
    (bFileWriteContents o file n).2.Unspliced := by
  have hloop : (contentsLoop n (n+1) ⟨o,file,0,0,false,0⟩).out.Unspliced :=
    @contentsLoop_unspliced ⟨o,file,0,0,false,0⟩ h n (n+1)
  simp only [bFileWriteContents]
  generalize contentsLoop n (n+1) ⟨o,file,0,0,false,0⟩ = r at hloop ⊢
  cases r with
  | again t => exact hloop
  | leave t =>
    have hplain : t.out.buf.canSplice = false := hloop.plain
    have hout : t.out.Unspliced := hloop
    simpa [writePadding,hplain] using hout
  | errorIo out file => exact hloop.errorIo

theorem perform {o : Output} (h : o.Unspliced) (call : StreamCall) : (call.perform o).Unspliced := by
  cases call with
  | flush => exact h.flush.1
  | block bytes =>
    have hget := h.getBlock bytes.length
    simp only [StreamCall.perform]
    split
    · rename_i p hp
      rwa [hp] at hget
    · rename_i off given p hp
      rw [hp] at hget
      exact hget bytes le_rfl
  | pathBlocks path => exact h.blocksLoop _ _ _
  | paxBlocks path linkdest =>
    simp only [StreamCall.perform,bFileWritePaxPathBlocks]
    split
    · exact h
    · exact h.blocksLoop _ _ _
  | contents file size => exact h.contents file size

/-- Whatever happened before, nothing stale lies in the free part of the buffer. -/
theorem performs {o : Output} (h : o.Unspliced) (calls : List StreamCall) :
    (calls.foldl StreamCall.perform o).Unspliced := by
  induction calls generalizing o with
  | nil => exact h
  | cons call calls ih => exact ih (h.perform call)

end Output.Unspliced

/-- A read that failed for good. -/
def ReadAnswer.Fails : ReadAnswer → Prop
  | .bytes _ => False
  | .fail e => e ≠ .eintr

instance decidableReadFails (a : ReadAnswer) : Decidable a.Fails := by
  cases a <;> unfold ReadAnswer.Fails <;> infer_instance

/-- A read that does not fail gets all it asks for, up to `size` bytes, unless the file ends. -/
def FullReads (size : ℕ) (reads : List ReadAnswer) : Prop := ∀ n, .bytes n ∈ reads → size ≤ n

theorem FullReads.of_append {size : ℕ} {made rest : List ReadAnswer}
    (h : FullReads size (made ++ rest)) : FullReads size rest :=
  fun n hn => h n (List.mem_append_right _ hn)

def Round.file : Round → File
  | .again s => s.file
  | .leave s => s.file
  | .errorIo _ file => file

/-- The file that `b_file_write_contents` leaves, at the offset it has read to. -/
def contentsFile (o : Output) (file : File) (fileSize : ℕ) : File :=
  (contentsLoop fileSize (fileSize+1) (contentsStart o file)).file

/-- One read with its retries uses up the answers it got. It gets all, unless the file ends, or it
fails and gets nothing. -/
theorem readFile_made {size : ℕ} (file : File) (hfull : FullReads size file.reads) {len : ℕ}
    (hlen : len ≤ size) : ∃ made, file.reads = made ++ (readFile file len).2.2.reads ∧
      (((∀ a ∈ made, ¬a.Fails) ∧ (readFile file len).1 = (file.contents.take len).length ∧
          (readFile file len).2.2.contents = file.contents.drop len) ∨
        ((∃ a ∈ made, a.Fails) ∧ (readFile file len).1 = -1 ∧
          (readFile file len).2.2.contents = file.contents)) := by
  obtain ⟨contents,reads⟩ := file
  induction reads with
  | nil => exact ⟨[],rfl,Or.inl ⟨by simp,rfl,rfl⟩⟩
  | cons a reads ih =>
    cases a with
    | bytes n =>
      have hn : min n len = len := Nat.min_eq_right (hlen.trans (hfull n (by simp)))
      have hread : readFile ⟨contents,.bytes n::reads⟩ len = (((contents.take len).length : ℤ),
          contents.take len,⟨contents.drop len,reads⟩) := by
        simp only [readFile,readRetry,hn]
      rw [hread]
      exact ⟨[.bytes n],rfl,Or.inl ⟨by simp [ReadAnswer.Fails],rfl,rfl⟩⟩
    | fail e =>
      by_cases he : e = .eintr
      · subst he
        have hskip : readFile ⟨contents,.fail .eintr::reads⟩ len = readFile ⟨contents,reads⟩ len :=
          readRetry_eq contents len reads .eintr
        obtain ⟨made,hmade,hcases⟩ := ih fun n hn => hfull n (List.mem_cons_of_mem _ hn)
        rw [hskip]
        refine ⟨.fail .eintr::made,congrArg _ hmade,hcases.imp ?_ ?_⟩
        · rintro ⟨hall,hrest⟩
          exact ⟨by simpa [ReadAnswer.Fails] using hall,hrest⟩
        · rintro ⟨⟨a,ha,hf⟩,hrest⟩
          exact ⟨⟨a,List.mem_cons_of_mem _ ha,hf⟩,hrest⟩
      · have hread : readFile ⟨contents,.fail e::reads⟩ len = (-1,[],⟨contents,reads⟩) := by
          cases e <;> first | rfl | exact absurd rfl he
        rw [hread]
        exact ⟨[.fail e],rfl,Or.inr ⟨⟨.fail e,by simp,he⟩,rfl,rfl⟩⟩

/-- What the loop has read: `left` bytes and no failure when it leaves, fewer bytes and a reason
when it gives up. -/
def ReadTo (s : ContentsState) (left : ℕ) (made : List ReadAnswer) : Round → Prop
  | .again _ => False
  | .leave t => (∀ a ∈ made, ¬a.Fails) ∧ left ≤ s.file.contents.length ∧
      t.file.contents = s.file.contents.drop left
  | .errorIo _ file => (s.file.contents.length < left ∨ ∃ a ∈ made, a.Fails) ∧
      ∃ k < left, file.contents = s.file.contents.drop k

/-- The loop behind a handle that is not spliced ends, and reads no byte that it does not need. -/
theorem contentsLoop_made (fileSize fuel : ℕ) (s : ContentsState) (h : s.out.Ready)
    (hplain : s.out.buf.canSplice = false) (hfull : FullReads s.out.buf.size s.file.reads) {left : ℕ}
    (hleft : fileSize-s.realTotal = left) (hfuel : left < fuel) :
    ∃ made, s.file.reads = made ++ (contentsLoop fileSize fuel s).file.reads ∧
      ReadTo s left made (contentsLoop fileSize fuel s) := by
  induction fuel generalizing s left with
  | zero => omega
  | succ fuel ih =>
    by_cases hzero : left = 0
    · subst hzero
      obtain ⟨out,emptied,hround,-⟩ := contentsRound_done h hleft
      simp only [contentsLoop,hround]
      exact ⟨[],rfl,by simp,Nat.zero_le _,rfl⟩
    · obtain ⟨out,emptied,hround,hready,-,hframe,hunused,-⟩ :=
        @contentsRound_reads fileSize s h (by omega) (Or.inl hplain)
      rw [hleft] at hround
      have hfree : 0 < out.buf.unused := hunused ▸ h.room_pos
      have hmax : 0 < min left maxChunkSize := by unfold maxChunkSize; omega
      generalize hrequest : min (min left maxChunkSize) out.buf.unused = request
      have hle : request ≤ s.out.buf.size := by
        have hu := hready.unused_le
        rw [hframe.size] at hu
        omega
      have hpos : 0 < request := by omega
      obtain ⟨made,hmade,hends⟩ := readFile_made s.file hfull hle
      rcases readRound_ready { s with out := out, emptiedBuffer := emptied } (min left maxChunkSize)
        hready hfree hmax hrequest.symm rfl with
        ⟨hshort,out',hrr,-⟩ | ⟨hwhole,out',hrr,hready',-,hframe',-⟩
      · simp only [contentsLoop,hround,hrr]
        refine ⟨made,hmade,?_⟩
        rcases hends with ⟨-,hcount,hdrop⟩ | ⟨hfails,-,hsame⟩
        · have hend : s.file.contents.length < request := by
            simp only [hcount,List.length_take] at hshort
            omega
          refine ⟨Or.inl (by omega),s.file.contents.length,by omega,hdrop.trans ?_⟩
          rw [List.drop_length,List.drop_eq_nil_of_le hend.le]
        · exact ⟨Or.inr hfails,0,by omega,hsame⟩
      · have hgot := readFile_whole hwhole
        simp only at hgot
        obtain ⟨hsup,-,hdrop⟩ := hgot
        have hfails : ∀ a ∈ made, ¬a.Fails := by
          rcases hends with hall | ⟨-,hneg,-⟩
          · exact hall.1
          · simp only [hneg] at hwhole
            omega
        have hrest : FullReads out'.buf.size (readFile s.file request).2.2.reads := by
          rw [hframe'.size,hframe.size]
          exact (hmade ▸ hfull).of_append
        obtain ⟨later,hlater,hto⟩ := @ih { s with
            out := out', emptiedBuffer := emptied, file := (readFile s.file request).2.2
            total := s.total+paddedSize request, realTotal := s.realTotal+request } hready'
          ((hframe'.canSplice.trans hframe.canSplice).trans hplain) hrest (left-request)
          (by simp only; omega) (by omega)
        simp only [contentsLoop,hround,hrr]
        refine ⟨made ++ later,by rw [List.append_assoc,← hlater,hmade],?_⟩
        generalize contentsLoop fileSize fuel _ = r at hto ⊢
        cases r with
        | again t => exact hto
        | leave t =>
          obtain ⟨hall,hlen,hcontents⟩ := hto
          simp only [hdrop,List.length_drop,List.drop_drop] at hlen hcontents
          refine ⟨?_,by omega,by rw [hcontents]; congr 1; omega⟩
          intro a ha
          exact (List.mem_append.mp ha).elim (hfails a) (hall a)
        | errorIo o file =>
          obtain ⟨hwhy,k,hk,hcontents⟩ := hto
          simp only [hdrop,List.length_drop,List.drop_drop] at hwhy hcontents
          refine ⟨hwhy.imp (fun hlt => by omega) ?_,request+k,by omega,hcontents⟩
          rintro ⟨a,ha,hf⟩
          exact ⟨a,List.mem_append_right _ ha,hf⟩

/-- In every state that the buffer can come to, behind a handle that is not spliced and whose
writes succeed from now on: the file is supplied exactly, or `-1` says that it ended or a read
failed. Any fuel above the file's size does, so the loop ends by itself. -/
theorem contents_exact {factor : ℕ} (hbig : 512*factor < 2^63) {fd : ℤ}
    (hfd : fd ≠ 0) (fifo : Bool) (release : Option (ℕ × ℕ × ℕ)) (sys : Sys)
    (hplain : (bBufferSetFd (bBufferNew factor) fd fifo release).canSplice = false)
    (calls : List StreamCall) {o : Output}
    (ho : calls.foldl StreamCall.perform (opened factor fd fifo release sys) = o)
    (hr : o.sys.Reliable) (file : File) (hfull : FullReads o.buf.size file.reads) (n : ℕ) :
    (∀ fuel, n < fuel → ∀ s, contentsLoop n fuel (contentsStart o file) ≠ .again s) ∧
      ∃ made, file.reads = made ++ (contentsFile o file n).reads ∧
        ((n ≤ file.contents.length ∧ ∀ a ∈ made, ¬a.Fails) →
          (bFileWriteContents o file n).1 = some (paddedSize n) ∧
            (bFileWriteContents o file n).2.stream =
              o.stream ++ file.contents.take n ++ zeros (paddedSize n-n) ∧
            (contentsFile o file n).contents = file.contents.drop n) ∧
        ((file.contents.length < n ∨ ∃ a ∈ made, a.Fails) →
          (bFileWriteContents o file n).1 = none ∧
            ∃ k < n, (contentsFile o file n).contents = file.contents.drop k) := by
  have hunspliced : o.Unspliced :=
    ho ▸ (unspliced_opened hbig hfd fifo release sys hplain).performs calls
  have hready : o.Ready := ⟨hunspliced.toClean,hr⟩
  have hloop (fuel : ℕ) (hfuel : n < fuel) :=
    @contentsLoop_made n fuel (contentsStart o file) hready hunspliced.plain hfull n (by rfl) hfuel
  constructor
  · intro fuel hfuel s hagain
    obtain ⟨made,-,hto⟩ := hloop fuel hfuel
    rwa [hagain] at hto
  · obtain ⟨made,hmade,hto⟩ := hloop (n+1) (Nat.lt_succ_self n)
    refine ⟨made,hmade,?_⟩
    have hreads := @contentsLoop_reads n (n+1) (contentsStart o file) hready n (by rfl) (by omega)
      (Or.inl hunspliced.plain)
    have hwrites := bFileWriteContents_reads hready file n (Or.inl hunspliced.plain)
    unfold reading at hwrites
    cases hread : readAll o.buf.size (n+1) o.buf.unused n file with
    | ok rest =>
      rw [hread] at hwrites
      simp only [contentsStart,hread] at hreads hto
      obtain ⟨t,hleave,-⟩ := hreads
      obtain ⟨o',hres,-,hstream,hlen,-⟩ := hwrites
      rw [hleave] at hto
      obtain ⟨hall,hsup,hdrop⟩ := hto
      rw [hres]
      refine ⟨fun _ => ⟨rfl,?_,?_⟩,fun hwhy => ?_⟩
      · rw [hstream,pad512_take hsup,List.append_assoc]
      · simp only [contentsFile,contentsStart,hleave]
        exact hdrop
      · rcases hwhy with hshort | ⟨a,ha,hfails⟩
        · exact absurd hsup (not_le.mpr hshort)
        · exact absurd hfails (hall a ha)
    | error p =>
      obtain ⟨off,room⟩ := p
      rw [hread] at hwrites
      simp only [contentsStart,hread] at hreads hto
      obtain ⟨out,file',k,hgives,-⟩ := hreads
      obtain ⟨o',m,hres,-⟩ := hwrites
      rw [hgives] at hto
      obtain ⟨hwhy,j,hj,hdrop⟩ := hto
      rw [hres]
      refine ⟨?_,fun _ => ⟨rfl,j,hj,?_⟩⟩
      · rintro ⟨hsup,hall⟩
        rcases hwhy with hshort | ⟨a,ha,hfails⟩
        · exact absurd hsup (not_le.mpr hshort)
        · exact absurd hfails (hall a ha)
      · simp only [contentsFile,contentsStart,hgives]
        exact hdrop

def fullDevice : List StreamCall := [.block (List.replicate 1000 97),.flush]

def fullDeviceSys : Sys := ⟨[],[.fail (.other 28)],[],.ok⟩

def interruptedFile : File := ⟨List.replicate 900 98,[.fail .eintr]⟩

theorem contents_exact_fullDevice : (bFileWriteContents
    (fullDevice.foldl StreamCall.perform (opened 2 5 false none fullDeviceSys)) interruptedFile
    700).1 = some (paddedSize 700) := by
  obtain ⟨-,made,hmade,hwhole,-⟩ := contents_exact (by decide : 512*2 < 2^63)
    (by decide : (5 : ℤ) ≠ 0) false none fullDeviceSys rfl fullDevice rfl (by decide +kernel)
    interruptedFile (fun n hn => by cases List.mem_singleton.mp hn) 700
  have hall : ∀ a ∈ made, ¬a.Fails := by
    intro a ha
    have hreads : a ∈ interruptedFile.reads := hmade ▸ List.mem_append_left _ ha
    rw [List.mem_singleton.mp hreads]
    decide
  exact (hwhole ⟨by decide +kernel,hall⟩).1

end ArchiveTarBuilder
