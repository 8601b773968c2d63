import ArchiveTarBuilder.BufferStream

/-! File contents through the buffer. Every read that gets all it asked for adds its chunk to the
stream; the first one that falls short ends the member with the rest of the buffer taken. -/
namespace ArchiveTarBuilder
open Region CString Output

def readFile (file : File) (len : ℕ) : ℤ × Bytes × File :=
  let r := readRetry file.contents len file.reads .ok
  (r.1,r.2.1,r.2.2.1)

theorem readRetry_eq (contents : Bytes) (len : ℕ) (reads : List ReadAnswer) (e : Errno) :
    let r := readRetry contents len reads e
    (r.1,r.2.1,r.2.2.1) = readFile ⟨contents,reads⟩ len := by
  induction reads generalizing e with
  | nil => rfl
  | cons a reads ih =>
    cases a with
    | bytes n => rfl
    | fail e' => cases e' <;> rfl

/-- A read gives bytes from the front of the file, at most as many as asked for, or fails. -/
theorem readFile_cases (file : File) (len : ℕ) :
    (∃ k ≤ len, readFile file len = (((file.contents.take k).length : ℤ),file.contents.take k,
        ⟨file.contents.drop k,(readFile file len).2.2.reads⟩)) ∨
    (∃ reads, readFile file len = (-1,[],⟨file.contents,reads⟩)) := by
  obtain ⟨contents,reads⟩ := file
  induction reads with
  | nil => exact Or.inl ⟨len,le_rfl,rfl⟩
  | cons a reads ih =>
    cases a with
    | bytes n => exact Or.inl ⟨min n len,Nat.min_le_right n len,rfl⟩
    | fail e =>
      by_cases he : e = .eintr
      · subst he
        have hskip : readFile ⟨contents,.fail .eintr::reads⟩ len = readFile ⟨contents,reads⟩ len :=
          readRetry_eq contents len reads .eintr
        rw [hskip]
        exact ih
      · refine Or.inr ⟨reads,?_⟩
        cases e <;> first | rfl | exact absurd rfl he

theorem readFile_whole {file : File} {len : ℕ} (h : ¬(readFile file len).1 < len) :
    len ≤ file.contents.length ∧ (readFile file len).2.1 = file.contents.take len ∧
      (readFile file len).2.2.contents = file.contents.drop len := by
  rcases readFile_cases file len with ⟨k,hk,he⟩ | ⟨reads,he⟩
  · have h1 := congrArg Prod.fst he
    rw [h1,List.length_take] at h
    obtain rfl : k = len := by omega
    refine ⟨by omega,?_,?_⟩
    · rw [he]
    · rw [he]
  · rw [he] at h
    simp only at h
    omega

theorem readFile_short {file : File} {len : ℕ} (hlen : 0 < len) (h : (readFile file len).1 < len) :
    (readFile file len).2.1.length < len ∧
      (readFile file len).2.1 = file.contents.take (readFile file len).2.1.length := by
  rcases readFile_cases file len with ⟨k,hk,he⟩ | ⟨reads,he⟩
  · have h1 := congrArg Prod.fst he
    have h2 := congrArg (fun r => r.2.1) he
    simp only at h1 h2
    rw [h1] at h
    rw [h2]
    refine ⟨by omega,?_⟩
    rw [List.length_take,← List.take_take]
    simp
  · have h2 := congrArg (fun r => r.2.1) he
    simp only at h2
    rw [h2]
    exact ⟨by simpa using hlen,by simp⟩

/-- What the reads for `left` bytes come to when `free` bytes of a buffer of `size` bytes are free
to begin with and a full buffer is flushed: the file they leave, or where the first read that
falls short starts and the room the buffer has there. -/
def readAll (size : ℕ) : ℕ → ℕ → ℕ → File → Except (ℕ × ℕ) File
  | 0, _, _, file => .ok file
  | fuel+1, free, left, file =>
    if left = 0 then .ok file
    else
      let room := if free = 0 then size else free
      let request := min (min left maxChunkSize) room
      let r := readFile file request
      if r.1 < request then .error (0,room)
      else (readAll size fuel (room-paddedSize request) (left-request) r.2.2).mapError
        fun p => (request+p.1,p.2)

theorem paddedSize_of_dvd {n : ℕ} (h : 512 ∣ n) : paddedSize n = n := roundUp_of_dvd h

theorem paddedSize_le_of_dvd {n m : ℕ} (h : n ≤ m) (hd : 512 ∣ m) : paddedSize n ≤ m := by
  unfold paddedSize bBufferBlockSize
  split_ifs <;> omega

theorem reclaim_spare (o : Output) {used given : ℕ} (hle : used ≤ given) (hd : 512 ∣ given)
    (hpos : 0 < given) :
    (if given-used = 0 then ((0 : ℤ),o) else bBufferReclaim o used given) =
      (((given-paddedSize used : ℕ) : ℤ),o.setUnused (o.buf.unused+(given-paddedSize used))) := by
  by_cases heq : given-used = 0
  · obtain rfl : used = given := by omega
    simp [paddedSize_of_dvd hd,setUnused]
  · have hmod : ¬(given = 0 ∨ given % bBufferBlockSize ≠ 0) := by
      unfold bBufferBlockSize; omega
    simp only [heq,if_false,bBufferReclaim,hmod]

/-- A round that reads: the whole chunk reaches the stream, padded, and the spare blocks go back;
or the read falls short and the block stays taken. -/
theorem readRound_ready (s : ContentsState) (maxRead : ℕ) (h : s.out.Ready)
    (hfree : 0 < s.out.buf.unused) (hmax : 0 < maxRead) {request : ℕ}
    (hrequest : request = min maxRead s.out.buf.unused) {r : ℤ × Bytes × File}
    (hread : readFile s.file request = r) :
    (r.1 < request ∧ ∃ out, readRound s maxRead = .errorIo out r.2.2 ∧ out.Ready ∧
      out.stream = s.out.stream ++ r.2.1 ++ zeros (s.out.buf.unused-r.2.1.length) ∧
      Frame s.out out) ∨
    (¬(r.1 < request) ∧ ∃ out, readRound s maxRead = .again { s with
        out := out, file := r.2.2, total := s.total+paddedSize request,
        realTotal := s.realTotal+request } ∧ out.Ready ∧
      out.stream = s.out.stream ++ pad512 r.2.1 ∧ Frame s.out out ∧
      out.buf.unused = s.out.buf.unused-paddedSize request) := by
  have hpad : paddedSize s.out.buf.unused = s.out.buf.unused := paddedSize_of_dvd h.unusedBlock
  have hroom : s.out.room = s.out.buf.unused := by simp [room,hfree.ne']
  obtain ⟨off,o,hget,hg⟩ := h.getBlock hfree (by omega)
  rw [hpad] at hget hg
  have hretry := readRetry_eq s.file.contents request s.file.reads o.sys.errno
  rw [hread] at hretry
  simp only [Prod.ext_iff] at hretry
  obtain ⟨hr1,hr2,hr3⟩ := hretry
  have hreq : 0 < request := by omega
  by_cases hshort : r.1 < request
  · left
    have hgot := (readFile_short hreq (hread ▸ hshort)).1
    rw [hread] at hgot
    obtain ⟨hready,hstream⟩ := hg.store r.2.1 (by omega) h.unusedBlock
    refine ⟨hshort,(o.store off r.2.1).setErrno
      (readRetry s.file.contents request s.file.reads o.sys.errno).2.2.2,?_,hready.setErrno _,
      by simpa using hstream,(hg.frame_store _).setErrno _⟩
    simp only [readRound,hget,← hrequest,hr1,hr2,hr3,if_pos hshort]
  · right
    obtain ⟨hle,hgot,hleft⟩ := readFile_whole (hread ▸ hshort)
    rw [hread] at hgot
    have hlen : r.2.1.length = request := by rw [hgot,List.length_take]; omega
    have hkeep : paddedSize request ≤ s.out.buf.unused :=
      paddedSize_le_of_dvd (by omega) h.unusedBlock
    have hge : request ≤ paddedSize request := le_roundUp 512 request
    have hdvd : 512 ∣ paddedSize request := dvd_roundUp 512 request (by omega)
    obtain ⟨hready,hstream⟩ := hg.store_keep r.2.1 (hlen.le.trans hge) hkeep hdvd h.unusedBlock
    have hunused := hg.unused
    have hpadded : r.2.1 ++ zeros (paddedSize request-r.2.1.length) = pad512 r.2.1 := by
      rw [pad512_eq,hlen]
    rw [List.append_assoc,hpadded] at hstream
    refine ⟨hshort,((o.store off r.2.1).setUnused (o.buf.unused+
      (s.out.buf.unused-paddedSize request))).setErrno
      (readRetry s.file.contents request s.file.reads o.sys.errno).2.2.2,?_,hready.setErrno _,
      by simpa using hstream,?_,?_⟩
    · have hspare := reclaim_spare ((o.store off r.2.1).setErrno
        (readRetry s.file.contents request s.file.reads o.sys.errno).2.2.2)
        (by omega : request ≤ s.out.buf.unused) h.unusedBlock hfree
      have htotal : ((s.total : ℤ)+s.out.buf.unused-
          ((s.out.buf.unused-paddedSize request : ℕ) : ℤ)).toNat = s.total+paddedSize request := by
        omega
      simp only [readRound,hget,← hrequest,hr1,hr2,hr3,if_neg hshort,hlen,hspare,htotal,endRound,
        hreq,if_true]
      rfl
    · exact ⟨hg.frame.fd,hg.frame.size,hg.frame.canSplice,
        ⟨hg.frame.sys.splices,hg.frame.sys.writes⟩,hg.frame.whole.imp fun _ hk =>
          ⟨hk.accepted,hk.answers⟩⟩
    · simp only [buf_setErrno,setUnused]
      omega

/-- Reading into the buffer only, to the end of the file: either splicing is off, or the rest fits
into the buffer that is not full yet. -/
def ReadsOnly (s : ContentsState) (left : ℕ) : Prop :=
  s.out.buf.canSplice = false ∨ (s.emptiedBuffer = false ∧ left ≤ s.out.buf.unused)

theorem contentsRound_reads {fileSize : ℕ} {s : ContentsState} (h : s.out.Ready)
    (hleft : 0 < fileSize-s.realTotal) (hreads : ReadsOnly s (fileSize-s.realTotal)) :
    ∃ out emptied, contentsRound fileSize s =
        readRound { s with out := out, emptiedBuffer := emptied }
          (min (fileSize-s.realTotal) maxChunkSize) ∧
      out.Ready ∧ out.stream = s.out.stream ∧ Frame s.out out ∧ out.buf.unused = s.out.room ∧
      (s.out.buf.canSplice = false ∨ emptied = false ∧ out = s.out) := by
  obtain ⟨ret,out,hflush,hret,hready,hstream,hframe,hunused,hsame⟩ := h.flushIfFull
  have hl : fileSize-s.realTotal ≠ 0 := by omega
  refine ⟨out,s.emptiedBuffer || bBufferFull s.out.buf,?_,hready,hstream,hframe,hunused,?_⟩
  · simp only [contentsRound,hflush,not_lt.mpr hret,hl,if_false]
    rcases hreads with hoff | ⟨hemp,hle⟩
    · simp [hframe.canSplice,hoff]
    · have hfull : bBufferFull s.out.buf = false := by simp [bBufferFull]; omega
      simp [hemp,hfull]
  · rcases hreads with hoff | ⟨hemp,hle⟩
    · exact Or.inl hoff
    · have hfull : bBufferFull s.out.buf = false := by simp [bBufferFull]; omega
      exact Or.inr ⟨by simp [hemp,hfull],hsame (by omega)⟩

theorem contentsRound_done {fileSize : ℕ} {s : ContentsState} (h : s.out.Ready)
    (hleft : fileSize-s.realTotal = 0) :
    ∃ out emptied, contentsRound fileSize s = .leave { s with
        out := out, emptiedBuffer := emptied } ∧
      out.Ready ∧ out.stream = s.out.stream ∧ Frame s.out out := by
  obtain ⟨ret,out,hflush,hret,hready,hstream,hframe,-,-⟩ := h.flushIfFull
  refine ⟨out,s.emptiedBuffer || bBufferFull s.out.buf,?_,hready,hstream,hframe⟩
  simp only [contentsRound,hflush,not_lt.mpr hret,hleft,if_false,if_true]

structure ReadWhole (s t : ContentsState) (left : ℕ) : Prop where
  ready : t.out.Ready
  stream : t.out.stream = s.out.stream ++ pad512 (s.file.contents.take left)
  supplied : left ≤ s.file.contents.length
  frame : Frame s.out t.out
  total : t.total = s.total+paddedSize left
  spliceTotal : t.spliceTotal = s.spliceTotal

/-- The read at `off` fell short with `n` bytes read in all; the `room` the buffer had there is
used up, its rest holding zeros. -/
structure ReadShort (s : ContentsState) (out : Output) (left off room n : ℕ) : Prop where
  ready : out.Ready
  stream : out.stream = s.out.stream ++ s.file.contents.take n ++ zeros (off+room-n)
  frame : Frame s.out out
  offBlock : 512 ∣ off
  roomBlock : 512 ∣ room
  off_le : off ≤ n
  lt_room : n < off+room
  lt_left : n < left
  supplied : n ≤ s.file.contents.length

/-- What a round that read `request` bytes and is not the last leaves to be shown of the rest. -/
theorem ReadWhole.after {s t u : ContentsState} {request left : ℕ}
    (h : ReadWhole t u (left-request)) (hr : 512 ∣ request)
    (hlt : request < left) (hs : request ≤ s.file.contents.length)
    (hfile : t.file.contents = s.file.contents.drop request)
    (hstream : t.out.stream = s.out.stream ++ pad512 (s.file.contents.take request))
    (hframe : Frame s.out t.out) (htotal : t.total = s.total+paddedSize request)
    (hsplice : t.spliceTotal = s.spliceTotal) : ReadWhole s u left := by
  have hlen : (s.file.contents.take request).length = request := by
    rw [List.length_take]; omega
  have hsup := h.supplied
  rw [hfile,List.length_drop] at hsup
  refine ⟨h.ready,?_,by omega,hframe.trans h.frame,?_,h.spliceTotal.trans hsplice⟩
  · have hsplit : s.file.contents.take left =
        s.file.contents.take request ++ (s.file.contents.drop request).take (left-request) := by
      rw [← List.take_add]; congr 1; omega
    have hpad : pad512 (s.file.contents.take left) = pad512 (s.file.contents.take request) ++
        pad512 ((s.file.contents.drop request).take (left-request)) := by
      have hwhole : pad512 (s.file.contents.take request) = s.file.contents.take request :=
        padTo_of_dvd 0 (by rwa [hlen])
      rw [hwhole,hsplit]
      exact padTo_append 0 _ (by rwa [hlen])
    rw [h.stream,hstream,hfile,hpad,List.append_assoc]
  · have hpad : paddedSize left = paddedSize request+paddedSize (left-request) := by
      rw [paddedSize_of_dvd hr,paddedSize_eq,paddedSize_eq,← roundUp_add_of_dvd _ hr]
      congr 1; omega
    rw [h.total,htotal,hpad,Nat.add_assoc]

theorem ReadWhole.last {s t u : ContentsState} {left : ℕ} (h : ReadWhole t u 0)
    (hs : left ≤ s.file.contents.length)
    (hstream : t.out.stream = s.out.stream ++ pad512 (s.file.contents.take left))
    (hframe : Frame s.out t.out) (htotal : t.total = s.total+paddedSize left)
    (hsplice : t.spliceTotal = s.spliceTotal) : ReadWhole s u left := by
  have hstream' := h.stream
  have htotal' := h.total
  simp only [List.take_zero,pad512,padTo_nil,List.append_nil] at hstream'
  exact ⟨h.ready,hstream'.trans hstream,hs,hframe.trans h.frame,
    htotal'.trans (by simpa [paddedSize] using htotal),h.spliceTotal.trans hsplice⟩

theorem ReadShort.after {s t : ContentsState} {out : Output} {request left off room n : ℕ}
    (h : ReadShort t out (left-request) off room n)
    (hr : 512 ∣ request) (hlt : request < left) (hs : request ≤ s.file.contents.length)
    (hfile : t.file.contents = s.file.contents.drop request)
    (hstream : t.out.stream = s.out.stream ++ pad512 (s.file.contents.take request))
    (hframe : Frame s.out t.out) :
    ReadShort s out left (request+off) room (request+n) := by
  have hlen : (s.file.contents.take request).length = request := by
    rw [List.length_take]; omega
  have hsup := h.supplied
  have hoff := h.off_le
  have hroom := h.lt_room
  have hleft := h.lt_left
  rw [hfile,List.length_drop] at hsup
  refine ⟨h.ready,?_,hframe.trans h.frame,Nat.dvd_add hr h.offBlock,h.roomBlock,by omega,by omega,
    by omega,by omega⟩
  have hpad : pad512 (s.file.contents.take request) = s.file.contents.take request :=
    padTo_of_dvd 0 (by rwa [hlen])
  rw [h.stream,hstream,hfile,hpad,List.take_add,show request+off+room-(request+n) = off+room-n by omega]
  simp only [List.append_assoc]

@[simp] theorem readAll_zero (size fuel free : ℕ) (file : File) :
    readAll size fuel free 0 file = .ok file := by cases fuel <;> simp [readAll]

/-- The loop while it only reads: the file is supplied whole unless some read falls short. -/
theorem contentsLoop_reads (fileSize fuel : ℕ) (s : ContentsState) (h : s.out.Ready)
    {left : ℕ} (hleft : fileSize-s.realTotal = left) (hfuel : left < fuel)
    (hreads : ReadsOnly s left) :
    match readAll s.out.buf.size fuel s.out.buf.unused left s.file with
    | .ok file => ∃ t, contentsLoop fileSize fuel s = .leave t ∧ ReadWhole s t left ∧ t.file = file
    | .error (off,room) => ∃ out file n, contentsLoop fileSize fuel s = .errorIo out file ∧
        ReadShort s out left off room n := by
  induction fuel generalizing s left with
  | zero => omega
  | succ fuel ih =>
    by_cases hzero : left = 0
    · subst hzero
      obtain ⟨out,emptied,hround,hready,hstream,hframe⟩ := contentsRound_done h hleft
      simp only [readAll,if_true]
      refine ⟨{ s with out := out, emptiedBuffer := emptied },by simp only [contentsLoop,hround],
        ⟨hready,?_,by omega,hframe,?_,rfl⟩,rfl⟩
      · simp [hstream]
      · simp [paddedSize]
    · obtain ⟨out,emptied,hround,hready,hstream,hframe,hunused,hmode⟩ :=
        contentsRound_reads h (by omega) (hleft.symm ▸ hreads)
      rw [hleft] at hround
      have hfree : 0 < out.buf.unused := hunused ▸ h.room_pos
      have hmax : 0 < min left maxChunkSize := by unfold maxChunkSize; omega
      have hroom : (if s.out.buf.unused = 0 then s.out.buf.size else s.out.buf.unused) =
          out.buf.unused := hunused.symm
      generalize hrequest : min (min left maxChunkSize) out.buf.unused = request
      generalize hread : readFile s.file request = r
      have hpos : 0 < request := by omega
      simp only [readAll,hzero,if_false,hroom,hrequest,hread]
      rcases readRound_ready { s with out := out, emptiedBuffer := emptied } (min left maxChunkSize)
        hready hfree hmax hrequest.symm hread with
        ⟨hshort,out',hrr,hready',hstream',hframe'⟩ | ⟨hwhole,out',hrr,hready',hstream',hframe',hun'⟩
      · rw [if_pos hshort]
        obtain ⟨hlt,hgot⟩ := readFile_short hpos (hread ▸ hshort)
        rw [hread] at hlt hgot
        have hsup := congrArg List.length hgot
        rw [List.length_take] at hsup
        refine ⟨out',r.2.2,r.2.1.length,by simp only [contentsLoop,hround,hrr],hready',?_,
          hframe.trans hframe',dvd_zero _,hready.unusedBlock,by omega,by omega,by omega,by omega⟩
        rw [hstream',hstream,← hgot,Nat.zero_add]
      · rw [if_neg hwhole]
        obtain ⟨hle,hgot,hdrop⟩ := readFile_whole (hread ▸ hwhole)
        rw [hread] at hgot hdrop
        rw [hstream,hgot] at hstream'
        have hframe1 := hframe.trans hframe'
        have hun1 : out'.buf.unused = out.buf.unused-paddedSize request := hun'
        have hstep : contentsLoop fileSize (fuel+1) s = contentsLoop fileSize fuel
            { s with
              out := out', emptiedBuffer := emptied, file := r.2.2
              total := s.total+paddedSize request, realTotal := s.realTotal+request } := by
          simp only [contentsLoop,hround,hrr]
        have hblock : request = left ∨ 512 ∣ request := by
          have hub := hready.unusedBlock
          unfold maxChunkSize at hrequest
          omega
        have honly : ReadsOnly { s with
            out := out', emptiedBuffer := emptied, file := r.2.2
            total := s.total+paddedSize request, realTotal := s.realTotal+request }
            (left-request) := by
          rcases hmode with hoff | ⟨hemp,hsame⟩
          · exact Or.inl (hframe1.canSplice.trans hoff)
          · rcases hreads with hoff | ⟨_,hle'⟩
            · exact Or.inl (hframe1.canSplice.trans hoff)
            · have hkeep : paddedSize request-request = 0 ∨ request = left := by
                rcases hblock with hlast | hdvd
                · exact Or.inr hlast
                · exact Or.inl (by rw [paddedSize_of_dvd hdvd]; omega)
              rw [hsame] at hun1
              have hgoal : left-request ≤ out'.buf.unused := by omega
              exact Or.inr ⟨hemp,hgoal⟩
        have hrec := @ih _ hready' (left-request) (by simp only; omega) (by omega) honly
        simp only [hun1,hframe1.size] at hrec
        rw [hstep]
        by_cases hlast : request = left
        · subst hlast
          simp only [Nat.sub_self,readAll_zero,Except.mapError] at hrec ⊢
          obtain ⟨t,hloop,hw,hfile⟩ := hrec
          exact ⟨t,hloop,hw.last hle hstream' hframe1 rfl rfl,hfile⟩
        · have hdvd : 512 ∣ request := hblock.resolve_left hlast
          split at hrec
          · rename_i file hok
            obtain ⟨t,hloop,hw,hfile⟩ := hrec
            simp only [hok,Except.mapError]
            exact ⟨t,hloop,hw.after hdvd (by omega) hle hdrop hstream' hframe1 rfl rfl,hfile⟩
          · rename_i off room herr
            obtain ⟨o'',file,n,hloop,hw⟩ := hrec
            simp only [herr,Except.mapError]
            exact ⟨o'',file,request+n,hloop,
              hw.after hdvd (by omega) hle hdrop hstream' hframe1⟩

theorem readAll_fuel {size : ℕ} (hsize : 0 < size) (fuel fuel' free left : ℕ) (file : File)
    (h : left < fuel) (h' : left < fuel') :
    readAll size fuel free left file = readAll size fuel' free left file := by
  induction fuel generalizing fuel' free left file with
  | zero => omega
  | succ fuel ih =>
    obtain ⟨fuel',rfl⟩ : ∃ k, fuel' = k+1 := ⟨fuel'-1,by omega⟩
    by_cases hzero : left = 0
    · simp [readAll,hzero]
    · have hchunk : 0 < maxChunkSize := by decide
      have hpos : 0 < min (min left maxChunkSize) (if free = 0 then size else free) := by
        split <;> omega
      simp only [readAll,hzero,if_false]
      rw [ih fuel' _ (left-_) _ (by omega) (by omega)]

/-- The reads for `left` bytes, with as much fuel as they can need. -/
def reading (size free left : ℕ) (file : File) : Except (ℕ × ℕ) File :=
  readAll size (left+1) free left file

theorem ReadShort.setErrno {s : ContentsState} {out : Output} {left off room n : ℕ}
    (h : ReadShort s out left off room n) (e : Errno) :
    ReadShort s (out.setErrno e) left off room n :=
  ⟨h.ready.setErrno e,h.stream,h.frame.setErrno e,h.offBlock,h.roomBlock,h.off_le,h.lt_room,
    h.lt_left,h.supplied⟩

theorem errorIo_eq (o : Output) : ∃ e, errorIo o = (none,o.setErrno e) := by
  by_cases h : o.sys.errno = .ok
  · exact ⟨.einval,by simp [errorIo,h]⟩
  · exact ⟨o.sys.errno,by simp [errorIo,h,Output.setErrno]⟩

def contentsStart (o : Output) (file : File) : ContentsState := ⟨o,file,0,0,false,0⟩

/-- Contents that are only read: all of them, padded, or an error and a member cut short. -/
theorem bFileWriteContents_reads {o : Output} (h : o.Ready) (file : File) (n : ℕ)
    (hmode : o.buf.canSplice = false ∨ n ≤ o.buf.unused) :
    match reading o.buf.size o.buf.unused n file with
    | .ok _ => ∃ o', bFileWriteContents o file n = (some (paddedSize n),o') ∧ o'.Ready ∧
        o'.stream = o.stream ++ pad512 (file.contents.take n) ∧ n ≤ file.contents.length ∧
        Frame o o'
    | .error (off,room) => ∃ o' k, bFileWriteContents o file n = (none,o') ∧
        ReadShort (contentsStart o file) o' n off room k := by
  have hloop := @contentsLoop_reads n (n+1) (contentsStart o file) h n (by rfl) (by omega)
    (hmode.imp id fun hle => ⟨rfl,hle⟩)
  simp only [contentsStart] at hloop
  unfold reading
  split at hloop
  · obtain ⟨t,hl,hw,-⟩ := hloop
    have hsplice : t.spliceTotal = 0 := hw.spliceTotal
    have htotal : t.total = paddedSize n := by simpa using hw.total
    refine ⟨t.out,?_,hw.ready,hw.stream,hw.supplied,hw.frame⟩
    simp [bFileWriteContents,hl,writePadding,hsplice,htotal]
  · obtain ⟨out,file',k,hl,hw⟩ := hloop
    obtain ⟨e,he⟩ := errorIo_eq out
    exact ⟨out.setErrno e,k,by simp only [bFileWriteContents,hl,he],hw.setErrno e⟩

end ArchiveTarBuilder
