import ArchiveTarBuilder.ContentStream

/-! Spliced contents. Once the buffer has been emptied the bytes go straight from the file to the
descriptor; the first failure turns back to reading. -/
namespace ArchiveTarBuilder
open Region CString Output

inductive SpliceEnd
  | complete | eof | failed
  deriving DecidableEq, Repr

def spliceFails : List SpliceAnswer → Bool
  | .fail _::_ => true
  | _ => false

def spliceAsk (answers : List SpliceAnswer) (len : ℕ) : ℕ :=
  match answers with
  | .moved n::_ => min (n+1) len
  | _ => len

/-- What the splices for `left` bytes move out of a file that holds `avail`, and how they end. -/
def spliceAll : ℕ → ℕ → ℕ → List SpliceAnswer → ℕ × SpliceEnd
  | 0, _, _, _ => (0,.complete)
  | fuel+1, left, avail, answers =>
    if left = 0 then (0,.complete)
    else if spliceFails answers then (0,.failed)
    else
      let k := min (spliceAsk answers (min left maxChunkSize)) avail
      if k = 0 then (0,.eof)
      else
        let r := spliceAll fuel (left-k) (avail-k) answers.tail
        (k+r.1,r.2)

theorem spliceAsk_le (answers : List SpliceAnswer) (len : ℕ) : spliceAsk answers len ≤ len := by
  unfold spliceAsk
  split <;> omega

theorem spliceAsk_pos (answers : List SpliceAnswer) {len : ℕ} (h : 0 < len) :
    0 < spliceAsk answers len := by
  unfold spliceAsk
  split <;> omega

theorem spliceAll_fuel (fuel fuel' left avail : ℕ) (answers : List SpliceAnswer) (h : left < fuel)
    (h' : left < fuel') : spliceAll fuel left avail answers = spliceAll fuel' left avail answers := by
  induction fuel generalizing fuel' left avail answers with
  | zero => omega
  | succ fuel ih =>
    obtain ⟨fuel',rfl⟩ : ∃ k, fuel' = k+1 := ⟨fuel'-1,by omega⟩
    by_cases hzero : left = 0
    · simp [spliceAll,hzero]
    · by_cases hk : min (spliceAsk answers (min left maxChunkSize)) avail = 0
      · simp [spliceAll,hk]
      · simp only [spliceAll,hzero,hk,if_false]
        rw [ih fuel' _ _ _ (by omega) (by omega)]

theorem spliceAll_moved (fuel left avail : ℕ) (answers : List SpliceAnswer) (h : left < fuel) :
    (spliceAll fuel left avail answers).1 ≤ avail ∧
      match (spliceAll fuel left avail answers).2 with
      | .complete => (spliceAll fuel left avail answers).1 = left
      | .eof => (spliceAll fuel left avail answers).1 = avail ∧ avail < left
      | .failed => (spliceAll fuel left avail answers).1 < left := by
  induction fuel generalizing left avail answers with
  | zero => omega
  | succ fuel ih =>
    by_cases hzero : left = 0
    · simp [spliceAll,hzero]
    · by_cases hfails : spliceFails answers = true
      · simp only [spliceAll,hzero,hfails,if_true,if_false]
        omega
      · have hask := spliceAsk_le answers (min left maxChunkSize)
        have hpos := @spliceAsk_pos answers (min left maxChunkSize)
          (by unfold maxChunkSize; omega)
        by_cases hk : min (spliceAsk answers (min left maxChunkSize)) avail = 0
        · simp only [spliceAll,hzero,hfails,hk,if_true,if_false,Bool.false_eq_true]
          omega
        · simp only [spliceAll,hzero,hfails,hk,if_false,Bool.false_eq_true]
          generalize hmove : min (spliceAsk answers (min left maxChunkSize)) avail = k at hk ⊢
          have hrest := ih (left-k) (avail-k) answers.tail (by omega)
          refine ⟨by omega,?_⟩
          have hend := hrest.2
          split at hend <;> simp_all <;> omega

/-- The splices for `left` bytes, with as much fuel as they can need. -/
def splicing (left avail : ℕ) (answers : List SpliceAnswer) : ℕ × SpliceEnd :=
  spliceAll (left+1) left avail answers

theorem splicing_moved (left avail : ℕ) (answers : List SpliceAnswer) :
    (splicing left avail answers).1 ≤ avail ∧
      match (splicing left avail answers).2 with
      | .complete => (splicing left avail answers).1 = left
      | .eof => (splicing left avail answers).1 = avail ∧ avail < left
      | .failed => (splicing left avail answers).1 < left :=
  spliceAll_moved (left+1) left avail answers (by omega)

theorem Sys.splice_moves (sys : Sys) (file : File) (len : ℕ) (h : spliceFails sys.splices = false) :
    sys.splice file len = (((min (spliceAsk sys.splices len) file.contents.length : ℕ) : ℤ),
      { file with contents := file.contents.drop (spliceAsk sys.splices len) },
      { sys with
        accepted := sys.accepted ++ file.contents.take (spliceAsk sys.splices len)
        splices := sys.splices.tail }) := by
  unfold Sys.splice spliceAsk
  split <;> simp_all [spliceFails]

theorem Sys.splice_fails (sys : Sys) (file : File) (len : ℕ) (h : spliceFails sys.splices = true) :
    ∃ e, sys.splice file len = (-1,file,{ sys with splices := sys.splices.tail, errno := e }) := by
  unfold Sys.splice
  split
  · simp_all [spliceFails]
  · simp_all [spliceFails]
  · rename_i e ss he
    exact ⟨e,by simp [he]⟩

/-- The state in which `n` more bytes have reached the descriptor and the buffer is empty. -/
structure Spliced (s t : ContentsState) (n : ℕ) : Prop where
  ready : t.out.Ready
  stream : t.out.stream = s.out.stream ++ s.file.contents.take n
  fd : t.out.buf.fd = s.out.buf.fd
  size : t.out.buf.size = s.out.buf.size
  unused : t.out.buf.unused = s.out.buf.size
  contents : t.file.contents = s.file.contents.drop n
  total : t.total = s.total+n
  realTotal : t.realTotal = s.realTotal+n
  spliceTotal : t.spliceTotal % 512 = (s.spliceTotal+n) % 512

theorem Spliced.after {s t u : ContentsState} {k n : ℕ} (h : Spliced s t k) (h' : Spliced t u n) :
    Spliced s u (k+n) where
  ready := h'.ready
  stream := by
    rw [h'.stream,h.stream,h.contents,List.take_add,List.append_assoc]
  fd := h'.fd.trans h.fd
  size := h'.size.trans h.size
  unused := h'.unused.trans h.size
  contents := by rw [h'.contents,h.contents,List.drop_drop]
  total := by rw [h'.total,h.total,Nat.add_assoc]
  realTotal := by rw [h'.realTotal,h.realTotal,Nat.add_assoc]
  spliceTotal := by
    have h₁ := h.spliceTotal
    have h₂ := h'.spliceTotal
    omega

/-- The state in which `n` more bytes have been spliced, past the buffer and its answers. -/
structure Moved (s t : ContentsState) (n : ℕ) : Prop where
  buf : t.out.buf = { s.out.buf with canSplice := t.out.buf.canSplice }
  accepted : t.out.sys.accepted = s.out.sys.accepted ++ s.file.contents.take n
  writes : t.out.sys.writes = s.out.sys.writes
  contents : t.file.contents = s.file.contents.drop n
  reads : t.file.reads = s.file.reads
  total : t.total = s.total+n
  realTotal : t.realTotal = s.realTotal+n
  spliceTotal : t.spliceTotal % 512 = (s.spliceTotal+n) % 512

theorem Moved.refl (s : ContentsState) : Moved s s 0 :=
  ⟨rfl,by simp,rfl,rfl,rfl,rfl,rfl,rfl⟩

theorem Moved.after {s t u : ContentsState} {k n : ℕ} (h : Moved s t k) (h' : Moved t u n) :
    Moved s u (k+n) where
  buf := by rw [h'.buf,h.buf]
  accepted := by rw [h'.accepted,h.accepted,h.contents,List.take_add,List.append_assoc]
  writes := h'.writes.trans h.writes
  contents := by rw [h'.contents,h.contents,List.drop_drop]
  reads := h'.reads.trans h.reads
  total := by rw [h'.total,h.total,Nat.add_assoc]
  realTotal := by rw [h'.realTotal,h.realTotal,Nat.add_assoc]
  spliceTotal := by
    have h₁ := h.spliceTotal
    have h₂ := h'.spliceTotal
    omega

theorem stream_of_empty {o : Output} (h : o.buf.unused = o.buf.size) : o.stream = o.sys.accepted := by
  simp [Output.stream,Output.used,h]

/-- The state behind one `splice()` that moved the `k` bytes it may. -/
def ContentsState.afterSplice (s : ContentsState) (ask k : ℕ) : ContentsState :=
  { s with
    out := { s.out with sys := { s.out.sys with
      accepted := s.out.sys.accepted ++ s.file.contents.take ask
      splices := s.out.sys.splices.tail } }
    file := { s.file with contents := s.file.contents.drop ask }
    total := s.total+k
    realTotal := s.realTotal+k
    spliceTotal := (s.spliceTotal+k) % 2^32 }

theorem moved_afterSplice (s : ContentsState) (ask : ℕ) :
    Moved s (s.afterSplice ask (min ask s.file.contents.length))
      (min ask s.file.contents.length) := by
  have htake : s.file.contents.take (min ask s.file.contents.length) = s.file.contents.take ask := by
    rw [List.take_eq_take_iff]; simp
  have hdrop : s.file.contents.drop (min ask s.file.contents.length) = s.file.contents.drop ask := by
    rcases Nat.le_total ask s.file.contents.length with hle | hle
    · rw [Nat.min_eq_left hle]
    · rw [Nat.min_eq_right hle,List.drop_length,List.drop_eq_nil_of_le hle]
  refine ⟨rfl,by rw [htake]; rfl,rfl,hdrop.symm,rfl,rfl,rfl,?_⟩
  simp only [ContentsState.afterSplice]
  omega

theorem moved_failed (s : ContentsState) (splices : List SpliceAnswer) (e : Errno) :
    Moved s { s with out := {
      buf := { s.out.buf with canSplice := false }
      sys := { s.out.sys with splices := splices, errno := e } } } 0 :=
  ⟨rfl,by simp,rfl,rfl,rfl,rfl,rfl,rfl⟩

theorem Moved.aligned {s t : ContentsState} {n : ℕ} (hmoved : Moved s t n) (h : s.out.Aligned) :
    t.out.Aligned := by
  have hbuf := hmoved.buf
  refine ⟨?_,?_,?_,?_,?_,?_⟩
  · rw [hbuf]; exact h.handle
  · rw [hbuf]; exact h.pos
  · rw [hbuf]; exact h.block
  · rw [hbuf]; exact h.unusedBlock
  · rw [hbuf]; exact h.unused_le
  · rw [hbuf]; exact h.length

theorem Moved.spliced {s t : ContentsState} {n : ℕ} (hmoved : Moved s t n) (h : s.out.Ready)
    (hempty : s.out.buf.unused = s.out.buf.size) : Spliced s t n := by
  have hbuf := hmoved.buf
  have hunused : t.out.buf.unused = t.out.buf.size := by rw [hbuf]; exact hempty
  have hused : t.out.used = s.out.used := by rw [used,hbuf]; rfl
  have hready : t.out.Ready := by
    refine ⟨⟨hmoved.aligned h.toAligned,?_⟩,?_⟩
    · rw [hused,hbuf]; exact h.blank
    · rw [Sys.Reliable,hmoved.writes]; exact h.reliable
  refine ⟨hready,?_,by rw [hbuf],by rw [hbuf],by rw [hbuf]; exact hempty,hmoved.contents,
    hmoved.total,hmoved.realTotal,hmoved.spliceTotal⟩
  rw [stream_of_empty hunused,stream_of_empty hempty,hmoved.accepted]

theorem contentsRound_empty {fileSize : ℕ} {s : ContentsState} (hp : 0 < s.out.buf.size)
    (hempty : s.out.buf.unused = s.out.buf.size) (hemptied : s.emptiedBuffer = true)
    (hleft : fileSize-s.realTotal ≠ 0) :
    contentsRound fileSize s =
      if s.out.buf.canSplice then spliceRound s (min (fileSize-s.realTotal) maxChunkSize)
      else readRound s (min (fileSize-s.realTotal) maxChunkSize) := by
  have hfull : bBufferFull s.out.buf = false := by simp [bBufferFull]; omega
  have hs : { s with emptiedBuffer := true } = s := by rw [← hemptied]
  simp [contentsRound,hfull,hleft,hemptied,hs]

/-- The loop past an empty buffer: it splices until all is moved, the file ends or a call fails,
and from a failure on it goes on as if it had never spliced. -/
theorem contentsLoop_splices (fileSize fuel : ℕ) (s : ContentsState) (hp : 0 < s.out.buf.size)
    (hempty : s.out.buf.unused = s.out.buf.size) (hemptied : s.emptiedBuffer = true)
    (hcan : s.out.buf.canSplice = true) {left : ℕ} (hleft : fileSize-s.realTotal = left)
    (hfuel : left < fuel) :
    ∃ t, Moved s t (spliceAll fuel left s.file.contents.length s.out.sys.splices).1 ∧
      match (spliceAll fuel left s.file.contents.length s.out.sys.splices).2 with
      | .failed => t.out.buf.canSplice = false ∧ t.emptiedBuffer = true ∧
          ∃ fuel', fileSize-t.realTotal < fuel' ∧
            contentsLoop fileSize fuel s = contentsLoop fileSize fuel' t
      | _ => t.out.buf.canSplice = true ∧ contentsLoop fileSize fuel s = .leave t := by
  induction fuel generalizing s left with
  | zero => omega
  | succ fuel ih =>
    by_cases hzero : left = 0
    · subst hzero
      have hfull : bBufferFull s.out.buf = false := by simp [bBufferFull]; omega
      have hround : contentsRound fileSize s = .leave s := by
        simp [contentsRound,hfull,hleft]
      simp only [spliceAll,if_true]
      exact ⟨s,.refl s,hcan,by simp only [contentsLoop,hround]⟩
    · have hround := contentsRound_empty hp hempty hemptied (by omega : fileSize-s.realTotal ≠ 0)
      simp only [hcan,if_true,hleft] at hround
      by_cases hfails : spliceFails s.out.sys.splices = true
      · -- the failing call reads in the same round, as the round of the state it leaves does
        obtain ⟨e,hsplice⟩ := Sys.splice_fails s.out.sys s.file (min left maxChunkSize) hfails
        simp only [spliceAll,hzero,hfails,if_true,if_false]
        have hsp := moved_failed s s.out.sys.splices.tail e
        refine ⟨_,hsp,rfl,hemptied,fuel+1,by simp only; omega,?_⟩
        have hround' := @contentsRound_empty fileSize { s with out := {
          buf := { s.out.buf with canSplice := false }
          sys := { s.out.sys with splices := s.out.sys.splices.tail, errno := e } } } hp hempty hemptied
          (by simp only; omega)
        simp only [Bool.false_eq_true,if_false,hleft] at hround'
        rw [contentsLoop,contentsLoop,hround',hround,spliceRound,hsplice]
        simp
      · have hfails' : spliceFails s.out.sys.splices = false := by simpa using hfails
        have hsplice := Sys.splice_moves s.out.sys s.file (min left maxChunkSize) hfails'
        have hpos := @spliceAsk_pos s.out.sys.splices (min left maxChunkSize)
          (by unfold maxChunkSize; omega)
        have hstep := moved_afterSplice s (spliceAsk s.out.sys.splices (min left maxChunkSize))
        simp only [spliceAll,hzero,hfails,if_false,Bool.false_eq_true]
        generalize spliceAsk s.out.sys.splices (min left maxChunkSize) = ask
          at hsplice hpos hstep ⊢
        generalize hk : min ask s.file.contents.length = k at hsplice hstep ⊢
        have hspliced : spliceRound s (min left maxChunkSize) = endRound
            { s.afterSplice ask k with realTotal := s.realTotal } k := by
          simp [spliceRound,hsplice,ContentsState.afterSplice]
        have hcan' : (s.afterSplice ask k).out.buf.canSplice = true := hcan
        by_cases hnone : k = 0
        · subst hnone
          simp only [if_true]
          refine ⟨_,hstep,hcan',?_⟩
          rw [contentsLoop,hround,hspliced]
          simp [endRound,ContentsState.afterSplice]
        · have hlen : (s.afterSplice ask k).file.contents.length = s.file.contents.length-k := by
            rw [hstep.contents,List.length_drop]
          have hloop : contentsLoop fileSize (fuel+1) s =
              contentsLoop fileSize fuel (s.afterSplice ask k) := by
            rw [contentsLoop,hround,hspliced]
            simp [endRound,ContentsState.afterSplice,Nat.pos_of_ne_zero hnone]
          have hempty' : (s.afterSplice ask k).out.buf.unused =
              (s.afterSplice ask k).out.buf.size :=
            hempty
          obtain ⟨t,ht,hend⟩ := @ih (s.afterSplice ask k) hp hempty' hemptied hcan'
            (left-k) (by rw [hstep.realTotal]; omega) (by omega)
          rw [hlen] at ht hend
          simp only [hnone,if_false]
          refine ⟨t,hstep.after ht,?_⟩
          rw [hloop]
          exact hend

theorem readAll_ok {size fuel free left : ℕ} {file rest : File} (hsize : 0 < size)
    (hfuel : left < fuel) (h : readAll size fuel free left file = .ok rest) :
    left ≤ file.contents.length ∧ rest.contents = file.contents.drop left := by
  induction fuel generalizing free left file with
  | zero => omega
  | succ fuel ih =>
    by_cases hzero : left = 0
    · obtain rfl : file = rest := by simpa [readAll,hzero] using h
      simp [hzero]
    · have hchunk : 0 < maxChunkSize := by decide
      simp only [readAll,hzero,if_false] at h
      generalize hroom : (if free = 0 then size else free) = room at h
      have hrpos : 0 < room := by rw [← hroom]; split <;> omega
      generalize hrequest : min (min left maxChunkSize) room = request at h
      by_cases hshort : (readFile file request).1 < request
      · simp [hshort] at h
      · obtain ⟨hle,-,hdrop⟩ := readFile_whole hshort
        rw [if_neg hshort] at h
        cases hrec : readAll size fuel (room-paddedSize request) (left-request)
            (readFile file request).2.2 with
        | error p => simp [hrec,Except.mapError] at h
        | ok file' =>
          obtain rfl : file' = rest := by simpa [hrec,Except.mapError] using h
          obtain ⟨hsup,hcontents⟩ := ih (by omega) hrec
          rw [hdrop,List.length_drop] at hsup
          rw [hcontents,hdrop,List.drop_drop]
          exact ⟨by omega,by congr 1; omega⟩

/-- The rounds that fill the buffer before the first flush: they read whatever the descriptor is. -/
theorem contentsLoop_fills (fileSize fuel : ℕ) (s : ContentsState) (h : s.out.Ready)
    (hemptied : s.emptiedBuffer = false) {left free : ℕ} (hleft : fileSize-s.realTotal = left)
    (hunused : s.out.buf.unused = free) (hpos : 0 < free) (hlt : free < left)
    (hfuel : left < fuel) :
    match readAll s.out.buf.size fuel free free s.file with
    | .ok file => ∃ t fuel', contentsLoop fileSize fuel s = contentsLoop fileSize fuel' t ∧
        fileSize-t.realTotal < fuel' ∧ ReadWhole s t free ∧ t.file = file ∧
        t.realTotal = s.realTotal+free ∧ t.out.buf.unused = 0
    | .error (off,room) => ∃ out file n, contentsLoop fileSize fuel s = .errorIo out file ∧
        ReadShort s out free off room n := by
  induction fuel generalizing s left free with
  | zero => omega
  | succ fuel ih =>
    have hfull : bBufferFull s.out.buf = false := by simp [bBufferFull]; omega
    have hround : contentsRound fileSize s = readRound s (min left maxChunkSize) := by
      have hl : fileSize-s.realTotal ≠ 0 := by omega
      have hs : { s with emptiedBuffer := false } = s := by rw [← hemptied]
      have hl' : left ≠ 0 := by omega
      simp [contentsRound,hfull,hemptied,hs,hleft,hl']
    have hchunk : 0 < maxChunkSize := by decide
    have hask : min (min left maxChunkSize) s.out.buf.unused = min (min free maxChunkSize) free := by
      omega
    generalize hrequest : min (min free maxChunkSize) free = request at hask
    generalize hread : readFile s.file request = r
    have hreq : 0 < request := by omega
    simp only [readAll,hpos.ne',if_false,hrequest,hread]
    rcases readRound_ready s (min left maxChunkSize) h (by omega) (by omega) hask.symm hread with
      ⟨hshort,out,hrr,hready,hstream,hframe⟩ | ⟨hwhole,out,hrr,hready,hstream,hframe,hun⟩
    · obtain ⟨hfew,hgot⟩ := readFile_short hreq (hread ▸ hshort)
      rw [hread] at hfew hgot
      have hsup := congrArg List.length hgot
      rw [List.length_take] at hsup
      rw [if_pos hshort]
      refine ⟨out,r.2.2,r.2.1.length,by simp only [contentsLoop,hround,hrr],hready,?_,hframe,
        dvd_zero _,hunused ▸ h.unusedBlock,by omega,by omega,by omega,by omega⟩
      rw [hstream,hunused,← hgot,Nat.zero_add]
    · obtain ⟨hle,hgot,hdrop⟩ := readFile_whole (hread ▸ hwhole)
      rw [hread] at hgot hdrop
      rw [hgot] at hstream
      have hstep : contentsLoop fileSize (fuel+1) s = contentsLoop fileSize fuel
          { s with
            out := out, file := r.2.2
            total := s.total+paddedSize request, realTotal := s.realTotal+request } := by
        simp only [contentsLoop,hround,hrr]
      have hblock : 512 ∣ request := by
        have hub := h.unusedBlock
        unfold maxChunkSize at hrequest
        omega
      have hpad := paddedSize_of_dvd hblock
      rw [if_neg hwhole,hstep]
      by_cases hlast : request = free
      · subst hlast
        simp only [Nat.sub_self,readAll_zero,Except.mapError]
        exact ⟨_,fuel,rfl,by simp only; omega,⟨hready,hstream,hle,hframe,rfl,rfl⟩,rfl,rfl,
          by simp only; omega⟩
      · have hrec := @ih { s with
            out := out, file := r.2.2
            total := s.total+paddedSize request, realTotal := s.realTotal+request }
          hready hemptied (left-request) (free-request)
          (by simp only; omega) (by simp only; omega) (by omega) (by omega) (by omega)
        rw [hframe.size] at hrec
        have htotal : s.total+request = s.total+paddedSize request := by rw [hpad]
        rw [hpad]
        simp only [← htotal] at hrec
        split at hrec
        · rename_i file hok
          obtain ⟨t,fuel',hloop,hf,hw,hfile,hreal,hzero⟩ := hrec
          simp only [hok,Except.mapError]
          exact ⟨t,fuel',hloop,hf,hw.after hblock (by omega) hle hdrop hstream hframe htotal rfl,
            hfile,by omega,hzero⟩
        · rename_i off room herr
          obtain ⟨out',file,n,hloop,hw⟩ := hrec
          simp only [herr,Except.mapError]
          exact ⟨out',file,request+n,hloop,hw.after hblock (by omega) hle hdrop hstream hframe⟩

/-- A full buffer is flushed at the start of a round, and the round then knows of it. -/
theorem contentsLoop_flushed (fileSize fuel : ℕ) (s : ContentsState) (h : s.out.Ready)
    (hfull : s.out.buf.unused = 0) (hfuel : 0 < fuel) :
    ∃ out, contentsLoop fileSize fuel s =
        contentsLoop fileSize fuel { s with out := out, emptiedBuffer := true } ∧
      out.Ready ∧ out.stream = s.out.stream ∧ Frame s.out out ∧
      out.buf.unused = out.buf.size := by
  obtain ⟨fuel,rfl⟩ : ∃ k, fuel = k+1 := ⟨fuel-1,by omega⟩
  obtain ⟨ret,out,hflush,hret,hready,hstream,hframe,hunused,-⟩ := h.flushIfFull
  have hempty : out.buf.unused = out.buf.size := by
    rw [hunused,hframe.size]; simp [room,hfull]
  have hnot : bBufferFull out.buf = false := by
    have hp := hready.pos
    simp [bBufferFull]; omega
  have hwas : bBufferFull s.out.buf = true := by simp [bBufferFull,hfull]
  refine ⟨out,?_,hready,hstream,hframe,hempty⟩
  simp only [hwas,if_true] at hflush
  have hround : contentsRound fileSize s =
      contentsRound fileSize { s with out := out, emptiedBuffer := true } := by
    simp only [contentsRound,hflush,not_lt.mpr hret,hnot,hwas,Bool.or_true,Bool.false_eq_true,
      if_true,if_false,lt_irrefl,Bool.or_false]
  rw [contentsLoop,contentsLoop,hround]

/-- The buffer is filled and flushed before the first splice of a file that does not fit in it. -/
theorem contentsLoop_engages {o : Output} (h : o.Ready) (file : File) {n : ℕ}
    (hn : o.buf.unused < n) :
    match reading o.buf.size o.buf.unused o.buf.unused file with
    | .ok file' => ∃ t fuel,
        contentsLoop n (n+1) (contentsStart o file) = contentsLoop n fuel t ∧
        n-t.realTotal < fuel ∧ ReadWhole (contentsStart o file) t o.buf.unused ∧ t.file = file' ∧
        t.realTotal = o.buf.unused ∧ t.out.buf.unused = t.out.buf.size ∧ t.emptiedBuffer = true
    | .error (off,room) => ∃ out file' k,
        contentsLoop n (n+1) (contentsStart o file) = .errorIo out file' ∧
        ReadShort (contentsStart o file) out o.buf.unused off room k := by
  have hfilled : match reading o.buf.size o.buf.unused o.buf.unused file with
      | .ok file' => ∃ t fuel,
          contentsLoop n (n+1) (contentsStart o file) = contentsLoop n fuel t ∧
          n-t.realTotal < fuel ∧ ReadWhole (contentsStart o file) t o.buf.unused ∧ t.file = file' ∧
          t.realTotal = o.buf.unused ∧ t.out.buf.unused = 0
      | .error (off,room) => ∃ out file' k,
          contentsLoop n (n+1) (contentsStart o file) = .errorIo out file' ∧
          ReadShort (contentsStart o file) out o.buf.unused off room k := by
    by_cases hzero : o.buf.unused = 0
    · simp only [hzero,reading,readAll_zero]
      refine ⟨contentsStart o file,n+1,rfl,by simp [contentsStart],⟨h,?_,by simp,Frame.refl _,?_,rfl⟩,
        rfl,rfl,hzero⟩
      · simp
      · simp [paddedSize]
    · have hfills := @contentsLoop_fills n (n+1) (contentsStart o file) h rfl n o.buf.unused rfl
        rfl (by omega) hn (by omega)
      have hfuel := readAll_fuel h.pos (n+1) (o.buf.unused+1) o.buf.unused o.buf.unused file
        (by omega) (by omega)
      simp only [contentsStart,hfuel,Nat.zero_add] at hfills
      exact hfills
  split at hfilled
  · obtain ⟨t,fuel,hloop,hfuel,hw,hfile,hreal,hfull⟩ := hfilled
    obtain ⟨out,hflushed,hready,hstream,hframe,hempty⟩ :=
      contentsLoop_flushed n fuel t hw.ready hfull (by omega)
    refine ⟨_,fuel,hloop.trans hflushed,hfuel,⟨hready,hstream.trans hw.stream,hw.supplied,
      hw.frame.trans hframe,hw.total,hw.spliceTotal⟩,hfile,hreal,hempty,rfl⟩
  · exact hfilled

theorem Sys.write_takesAll (sys : Sys) {request : Bytes} (hreq : request ≠ []) :
    (sys.write request).1 = request.length ↔ takesAll sys.writes request.length = true := by
  have hlen := List.length_pos_iff.mpr hreq
  match hws : sys.writes with
  | [] => simp [Sys.write,hws,takesAll]
  | .accept k::ws =>
    simp only [Sys.write,hws,takesAll,Nat.cast_inj,decide_eq_true_eq]
    omega
  | .zero::ws =>
    simp only [Sys.write,hws,takesAll,decide_eq_true_eq]
    omega
  | .fail e::ws =>
    simp only [Sys.write,hws,takesAll,decide_eq_true_eq]
    omega

/-- The padding behind spliced bytes: as many zeros as the descriptor takes in one call. -/
theorem writePadding_ready {s : ContentsState} (h : s.out.Ready)
    (hempty : s.out.buf.unused = s.out.buf.size) (hcan : s.out.buf.canSplice = true)
    (hsplice : s.spliceTotal % 512 = s.total % 512) :
    ∃ ret o' k, writePadding s = (ret,o') ∧ o'.Ready ∧ o'.stream = s.out.stream ++ zeros k ∧
      k ≤ paddedSize s.total-s.total ∧
      (k = paddedSize s.total-s.total ↔
        takesAll s.out.sys.writes (paddedSize s.total-s.total) = true) ∧
      (k = paddedSize s.total-s.total → 0 ≤ ret) := by
  by_cases hblock : s.total % 512 = 0
  · have hpad : paddedSize s.total = s.total := paddedSize_of_dvd (Nat.dvd_of_mod_eq_zero hblock)
    refine ⟨0,s.out,0,by simp [writePadding,bBufferBlockSize,hblock],h,by simp [zeros],by omega,
      ?_,fun _ => le_rfl⟩
    rw [hpad,Nat.sub_self]
    exact iff_of_true rfl (takesAll_zero _)
  · have hcond : s.spliceTotal ≠ 0 ∧ s.out.buf.canSplice = true ∧ s.total % bBufferBlockSize ≠ 0 :=
      ⟨by omega,hcan,hblock⟩
    have hpad : paddedSize s.total-s.total = 512-s.total % 512 := by
      unfold paddedSize bBufferBlockSize; split <;> omega
    have hle := h.block_le
    have hzeros : s.out.buf.data.take (512-s.total % 512) = zeros (512-s.total % 512) := by
      have hdata := h.blank.drop_eq
      simp only [used,hempty,Nat.sub_self,List.drop_zero,Nat.sub_zero] at hdata
      rw [hdata,List.take_replicate,h.length,zeros]
      congr 1
      omega
    have hne : zeros (512-s.total % 512) ≠ [] := by
      intro he
      have hz := congrArg List.length he
      simp only [zeros_length,List.length_nil] at hz
      omega
    have hready (sys : Sys) (hr : sys.Reliable) : Ready { s.out with sys := sys } :=
      ⟨⟨⟨h.handle,h.pos,h.block,h.unusedBlock,h.unused_le,h.length⟩,h.blank⟩,hr⟩
    have hstream := stream_of_empty hempty
    have hwrite : writePadding s = ((s.out.sys.write (zeros (512-s.total % 512))).1,
        { s.out with sys := (s.out.sys.write (zeros (512-s.total % 512))).2 }) := by
      rw [writePadding,if_pos hcond]
      simp only [bBufferBlockSize,hzeros]
    rw [hwrite,hpad]
    have htakes := Sys.write_takesAll s.out.sys hne
    rw [zeros_length] at htakes
    rcases Sys.write_reliable s.out.sys (zeros (512-s.total % 512)) h.reliable hne with
      ⟨k,sys',hw,hk,hkle,hacc,hrel,-⟩ | ⟨sys',hw,herr,hacc,hrel,-⟩
    · rw [zeros_length] at hkle
      rw [hw] at htakes
      refine ⟨k,_,k,by rw [hw],hready sys' hrel,?_,hkle,Nat.cast_inj.symm.trans htakes,
        fun _ => Int.natCast_nonneg k⟩
      rw [stream_of_empty (by exact hempty),hstream,hacc,zeros,List.take_replicate,zeros,
        Nat.min_eq_left hkle]
    · rw [hw] at htakes
      refine ⟨-1,_,0,by rw [hw],hready sys' hrel,?_,by omega,
        iff_of_false (by omega) fun ht => absurd (htakes.mpr ht) (by simp only; omega),by omega⟩
      rw [stream_of_empty (by exact hempty),hstream,hacc]
      simp [zeros]

/-- Splicing from the start of a file on: the buffer first takes what it has room for. -/
theorem contentsLoop_spliced {o : Output} (h : o.Ready) (hcan : o.buf.canSplice = true)
    (file : File) {n : ℕ} (hn : o.buf.unused < n) {file' : File}
    (hok : reading o.buf.size o.buf.unused o.buf.unused file = .ok file') :
    ∃ v, Spliced (contentsStart o file) v
        (o.buf.unused+(splicing (n-o.buf.unused) file'.contents.length o.sys.splices).1) ∧
      v.file.reads = file'.reads ∧ v.out.sys.writes = flushAnswers o.buf.size o.sys.writes ∧
      o.buf.unused+(splicing (n-o.buf.unused) file'.contents.length o.sys.splices).1 ≤
        file.contents.length ∧
      match (splicing (n-o.buf.unused) file'.contents.length o.sys.splices).2 with
      | .failed => v.out.buf.canSplice = false ∧ ∃ fuel, n-v.realTotal < fuel ∧
          contentsLoop n (n+1) (contentsStart o file) = contentsLoop n fuel v
      | _ => v.out.buf.canSplice = true ∧
          contentsLoop n (n+1) (contentsStart o file) = .leave v := by
  have hengages := contentsLoop_engages h file hn
  rw [hok] at hengages
  obtain ⟨t,fuel,hloop,hfuel,hw,hfile,hreal,hempty,hemptied⟩ := hengages
  have hsup : o.buf.unused ≤ file.contents.length := hw.supplied
  have hcontents := (readAll_ok h.pos (by omega) hok).2
  have hfilled : Spliced (contentsStart o file) t o.buf.unused := by
    refine ⟨hw.ready,?_,hw.frame.fd,hw.frame.size,hempty.trans hw.frame.size,
      by rw [hfile,hcontents]; rfl,?_,by rw [hreal]; simp [contentsStart],?_⟩
    · have hlen : (file.contents.take o.buf.unused).length = o.buf.unused := by
        rw [List.length_take]; omega
      rw [hw.stream]
      simp only [contentsStart]
      rw [pad512,padTo_of_dvd 0 (by rw [hlen]; exact h.unusedBlock)]
    · rw [hw.total,paddedSize_of_dvd h.unusedBlock]
    · have hd := h.unusedBlock
      have hz : t.spliceTotal = 0 := hw.spliceTotal
      simp only [hz,contentsStart]
      omega
  have hflushed : t.out.sys.writes = flushAnswers o.buf.size o.sys.writes := by
    obtain ⟨k,hk,hused⟩ := hw.frame.flushed h.toAligned hw.ready.toAligned hfilled.stream
    have hlen : (file.contents.take o.buf.unused).length = o.buf.unused := by
      rw [List.length_take]; omega
    have hpos := h.pos
    have hle := h.unused_le
    have hone : k*o.buf.size = 1*o.buf.size := by
      simp only [contentsStart,used,hempty,hlen] at hused
      omega
    rw [hk.answers,Nat.eq_of_mul_eq_mul_right hpos hone]
    rfl
  obtain ⟨v,hsp,hend⟩ := @contentsLoop_splices n fuel t hw.ready.pos hempty hemptied
    (hw.frame.canSplice.trans hcan) (n-o.buf.unused) (by rw [hreal]) (by omega)
  have hrun : spliceAll fuel (n-o.buf.unused) t.file.contents.length t.out.sys.splices =
      splicing (n-o.buf.unused) file'.contents.length o.sys.splices := by
    have hsplices : t.out.sys.splices = o.sys.splices := hw.frame.sys.splices
    rw [hfile,hsplices]
    exact spliceAll_fuel _ _ _ _ _ (by omega) (by omega)
  rw [hrun] at hsp hend
  have hv := hsp.spliced hw.ready hempty
  have hmoved := (splicing_moved (n-o.buf.unused) file'.contents.length o.sys.splices).1
  rw [hloop]
  refine ⟨v,hfilled.after hv,hsp.reads.trans (by rw [hfile]),hsp.writes.trans hflushed,?_,?_⟩
  · rw [hcontents,List.length_drop] at hmoved ⊢
    omega
  · generalize splicing (n-o.buf.unused) file'.contents.length o.sys.splices = r at hend ⊢
    cases hr : r.2 with
    | complete => simpa [hr] using hend
    | eof => simpa [hr] using hend
    | failed =>
      simp only [hr] at hend
      exact ⟨hend.1,hend.2.2⟩

theorem bFileWriteContents_leave {o : Output} (file : File) {n m : ℕ} {v : ContentsState}
    (hv : Spliced (contentsStart o file) v m) (hcan : v.out.buf.canSplice = true)
    (hloop : contentsLoop n (n+1) (contentsStart o file) = .leave v) :
    ∃ res o' k, bFileWriteContents o file n = (res,o') ∧ o'.Ready ∧
      o'.stream = o.stream ++ file.contents.take m ++ zeros k ∧ k ≤ paddedSize m-m ∧
      (k = paddedSize m-m ↔ takesAll v.out.sys.writes (paddedSize m-m) = true) ∧
      (k = paddedSize m-m → res = some m) := by
  have htotal : v.total = m := by rw [hv.total]; simp [contentsStart]
  have hsplice : v.spliceTotal % 512 = v.total % 512 := by
    rw [hv.spliceTotal,htotal]; simp [contentsStart]
  obtain ⟨ret,o',k,hp,hready,hstream,hk,htakes,hall⟩ :=
    writePadding_ready hv.ready (hv.unused.trans hv.size.symm) hcan hsplice
  rw [htotal] at hk htakes hall
  rw [hv.stream] at hstream
  simp only [contentsStart] at hloop
  by_cases hneg : ret < 0
  · obtain ⟨e,he⟩ := errorIo_eq o'
    refine ⟨none,o'.setErrno e,k,?_,hready.setErrno e,hstream,hk,htakes,
      fun hfull => absurd (hall hfull) (not_le.mpr hneg)⟩
    simp only [bFileWriteContents,hloop,hp,hneg,if_true,he]
  · refine ⟨some v.total,o',k,?_,hready,hstream,hk,htakes,fun _ => by rw [htotal]⟩
    simp only [bFileWriteContents,hloop,hp,hneg,if_false]

/-- Contents that engage splicing. They end with all bytes moved or at the end of the file, both
with the padding of the count; or with a failed call, behind which the rest is read. -/
theorem bFileWriteContents_splices {o : Output} (h : o.Ready) (hcan : o.buf.canSplice = true)
    (file : File) {n : ℕ} (hn : o.buf.unused < n) :
    match reading o.buf.size o.buf.unused o.buf.unused file with
    | .error (off,room) => ∃ o' k, bFileWriteContents o file n = (none,o') ∧
        ReadShort (contentsStart o file) o' o.buf.unused off room k
    | .ok file' =>
      let r := splicing (n-o.buf.unused) file'.contents.length o.sys.splices
      let m := o.buf.unused+r.1
      match r.2 with
      | .failed =>
        match reading o.buf.size o.buf.size (n-m) ⟨file.contents.drop m,file'.reads⟩ with
        | .ok _ => ∃ o', bFileWriteContents o file n = (some (m+paddedSize (n-m)),o') ∧ o'.Ready ∧
            o'.stream = o.stream ++ file.contents.take m ++
              pad512 ((file.contents.drop m).take (n-m)) ∧
            n ≤ file.contents.length
        | .error (off,room) => ∃ o' k, bFileWriteContents o file n = (none,o') ∧ o'.Ready ∧
            o'.stream = o.stream ++ file.contents.take m ++ (file.contents.drop m).take k ++
              zeros (off+room-k) ∧
            512 ∣ off ∧ 512 ∣ room ∧ off ≤ k ∧ k < off+room ∧ k < n-m ∧
            k ≤ (file.contents.drop m).length
      | _ => ∃ res o' k, bFileWriteContents o file n = (res,o') ∧ o'.Ready ∧
          o'.stream = o.stream ++ file.contents.take m ++ zeros k ∧ k ≤ paddedSize m-m ∧
          (k = paddedSize m-m ↔
            takesAll (flushAnswers o.buf.size o.sys.writes) (paddedSize m-m) = true) ∧
          (k = paddedSize m-m → res = some m) := by
  cases hok : reading o.buf.size o.buf.unused o.buf.unused file with
  | error p =>
    obtain ⟨off,room⟩ := p
    have hengages := contentsLoop_engages h file hn
    rw [hok] at hengages
    obtain ⟨out,file',k,hloop,hs⟩ := hengages
    obtain ⟨e,he⟩ := errorIo_eq out
    simp only [contentsStart] at hloop
    exact ⟨out.setErrno e,k,by simp only [bFileWriteContents,hloop,he],hs.setErrno e⟩
  | ok file' =>
    obtain ⟨v,hv,hreads,hwrites,hle,hend⟩ := contentsLoop_spliced h hcan file hn hok
    simp only
    generalize splicing (n-o.buf.unused) file'.contents.length o.sys.splices = r at hv hend hle ⊢
    generalize o.buf.unused+r.1 = m at hv hle ⊢
    cases hr : r.2 with
    | complete =>
      simp only [hr] at hend
      exact hwrites ▸ bFileWriteContents_leave file hv hend.1 hend.2
    | eof =>
      simp only [hr] at hend
      exact hwrites ▸ bFileWriteContents_leave file hv hend.1 hend.2
    | failed =>
      simp only [hr] at hend
      obtain ⟨hcanv,fuel,hfuel,hloop⟩ := hend
      have hreal : v.realTotal = m := by rw [hv.realTotal]; simp [contentsStart]
      have htotal : v.total = m := by rw [hv.total]; simp [contentsStart]
      have hcontents : v.file.contents = file.contents.drop m := hv.contents
      have hrun : readAll v.out.buf.size fuel v.out.buf.unused (n-m) v.file =
          reading o.buf.size o.buf.size (n-m) ⟨file.contents.drop m,file'.reads⟩ := by
        have hsize : v.out.buf.size = o.buf.size := hv.size
        have hunused : v.out.buf.unused = o.buf.size := hv.unused
        rw [reading,← hcontents,← hreads,hsize,hunused]
        exact readAll_fuel h.pos _ _ _ _ _ (by omega) (by omega)
      have hrest := @contentsLoop_reads n fuel v hv.ready (n-m) (by rw [hreal]) (by omega)
        (Or.inl hcanv)
      rw [hrun] at hrest
      simp only [contentsStart] at hloop
      cases hread : reading o.buf.size o.buf.size (n-m) ⟨file.contents.drop m,file'.reads⟩ with
      | ok _ =>
        rw [hread] at hrest
        obtain ⟨w,hl,hw,-⟩ := hrest
        have hsup := hw.supplied
        have hcanw : w.out.buf.canSplice = false := hw.frame.canSplice.trans hcanv
        have hstream := hw.stream
        rw [hv.stream,hcontents] at hstream
        rw [hcontents,List.length_drop] at hsup
        refine ⟨w.out,?_,hw.ready,hstream,by omega⟩
        simp [bFileWriteContents,hloop,hl,writePadding,hcanw,hw.total,htotal]
      | error p =>
        obtain ⟨off,room⟩ := p
        rw [hread] at hrest
        obtain ⟨out,file'',k,hl,hw⟩ := hrest
        obtain ⟨e,he⟩ := errorIo_eq out
        have hstream := hw.stream
        rw [hv.stream,hcontents] at hstream
        refine ⟨out.setErrno e,k,by simp only [bFileWriteContents,hloop,hl,he],hw.ready.setErrno e,
          hstream,hw.offBlock,hw.roomBlock,hw.off_le,hw.lt_room,hw.lt_left,hcontents ▸ hw.supplied⟩

end ArchiveTarBuilder
