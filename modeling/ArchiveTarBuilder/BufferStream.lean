import ArchiveTarBuilder.Archiver

/-! The buffer seen as a stream. Sizes are whole blocks and the free part is all zeros; every
block handed out is therefore blank, and what is stored there extends the logical stream. -/
namespace ArchiveTarBuilder
open Region CString

abbrev pad512 (bytes : Bytes) : Bytes := padTo 512 0 bytes

theorem paddedSize_eq (n : ℕ) : paddedSize n = roundUp 512 n := rfl

theorem pad512_eq (bytes : Bytes) :
    pad512 bytes = bytes ++ zeros (paddedSize bytes.length-bytes.length) := rfl

theorem pad512_length (bytes : Bytes) : (pad512 bytes).length = paddedSize bytes.length :=
  padTo_length 512 0 bytes

theorem pad512_take {bytes : Bytes} {n : ℕ} (h : n ≤ bytes.length) :
    pad512 (bytes.take n) = bytes.take n ++ zeros (paddedSize n-n) := by
  rw [pad512_eq,List.length_take,min_eq_left h]

theorem paddedSize_drop_block {n : ℕ} (h : 0 < n) : 512+paddedSize (n-512) = paddedSize n := by
  unfold paddedSize bBufferBlockSize
  split_ifs <;> omega

/-- The answers of `write()` that are left when a flush has handed over `n` bytes. -/
def flushAnswers : ℕ → List WriteAnswer → List WriteAnswer
  | _, [] => []
  | n, w::ws =>
    if n = 0 then w::ws
    else
      match w with
      | .accept k => flushAnswers (n-(k+1)) ws
      | _ => flushAnswers n ws

@[simp] theorem flushAnswers_zero (ws : List WriteAnswer) : flushAnswers 0 ws = ws := by
  cases ws <;> rfl

def takesAll : List WriteAnswer → ℕ → Bool
  | [], _ => true
  | .accept k::_, n => decide (n ≤ k+1)
  | _::_, n => decide (n = 0)

theorem takesAll_zero (ws : List WriteAnswer) : takesAll ws 0 = true := by
  unfold takesAll
  split <;> simp

/-- What writing leaves alone: the answers of `splice()`, and a descriptor that takes everything. -/
structure Sys.Frame (sys sys' : Sys) : Prop where
  splices : sys'.splices = sys.splices
  writes : sys.writes = [] → sys'.writes = []

theorem Sys.Frame.refl (sys : Sys) : Sys.Frame sys sys := ⟨rfl,id⟩

theorem Sys.Frame.trans {sys sys' sys'' : Sys} (h : Sys.Frame sys sys') (h' : Sys.Frame sys' sys'') :
    Sys.Frame sys sys'' := ⟨h'.splices.trans h.splices,fun hw => h'.writes (h.writes hw)⟩

namespace Output

structure Aligned (o : Output) : Prop where
  handle : o.buf.fd ≠ 0
  pos : 0 < o.buf.size
  block : 512 ∣ o.buf.size
  unusedBlock : 512 ∣ o.buf.unused
  unused_le : o.buf.unused ≤ o.buf.size
  length : o.buf.data.length = o.buf.size

/-- The buffer invariant: nothing stale lies in the free part. -/
structure Clean (o : Output) : Prop extends Aligned o where
  blank : BlankFrom 0 o.buf.data o.used

structure Live (o : Output) : Prop extends Aligned o where
  reliable : o.sys.Reliable

/-- A clean buffer in front of a descriptor whose writes succeed. -/
structure Ready (o : Output) : Prop extends Clean o where
  reliable : o.sys.Reliable

theorem Ready.live {o : Output} (h : o.Ready) : o.Live := ⟨h.toAligned,h.reliable⟩

structure Flushed (o o' : Output) (k : ℕ) : Prop where
  accepted : o'.sys.accepted.length = o.sys.accepted.length+k*o.buf.size
  answers : o'.sys.writes = (flushAnswers o.buf.size)^[k] o.sys.writes

/-- What the buffer operations leave alone; whatever they flush is a whole buffer. -/
structure Frame (o o' : Output) : Prop where
  fd : o'.buf.fd = o.buf.fd
  size : o'.buf.size = o.buf.size
  canSplice : o'.buf.canSplice = o.buf.canSplice
  sys : Sys.Frame o.sys o'.sys
  whole : ∃ k, Flushed o o' k

theorem Frame.refl (o : Output) : Frame o o :=
  ⟨rfl,rfl,rfl,Sys.Frame.refl _,0,by simp,by rw [Function.iterate_zero,id]⟩

theorem Frame.trans {o o' o'' : Output} (h : Frame o o') (h' : Frame o' o'') : Frame o o'' := by
  refine ⟨h'.fd.trans h.fd,h'.size.trans h.size,h'.canSplice.trans h.canSplice,h.sys.trans h'.sys,?_⟩
  obtain ⟨k,hk⟩ := h.whole
  obtain ⟨k',hk'⟩ := h'.whole
  refine ⟨k+k',?_,?_⟩
  · rw [hk'.accepted,hk.accepted,h.size,Nat.add_mul,Nat.add_assoc]
  · rw [hk'.answers,hk.answers,h.size,Nat.add_comm,Function.iterate_add_apply]

theorem Frame.setErrno {o o' : Output} (h : Frame o o') (e : Errno) : Frame o (o'.setErrno e) :=
  ⟨h.fd,h.size,h.canSplice,⟨h.sys.splices,h.sys.writes⟩,h.whole.imp fun _ hk =>
    ⟨hk.accepted,hk.answers⟩⟩

theorem Aligned.block_le {o : Output} (h : o.Aligned) : 512 ≤ o.buf.size :=
  Nat.le_of_dvd h.pos h.block

theorem Ready.setErrno {o : Output} (h : o.Ready) (e : Errno) : (o.setErrno e).Ready :=
  ⟨⟨⟨h.handle,h.pos,h.block,h.unusedBlock,h.unused_le,h.length⟩,h.blank⟩,h.reliable⟩

@[simp] theorem stream_setErrno (o : Output) (e : Errno) : (o.setErrno e).stream = o.stream := rfl
@[simp] theorem buf_setErrno (o : Output) (e : Errno) : (o.setErrno e).buf = o.buf := rfl

def room (o : Output) : ℕ := if o.buf.unused = 0 then o.buf.size else o.buf.unused

theorem Aligned.room_block {o : Output} (h : o.Aligned) : 512 ∣ o.room := by
  unfold room
  split
  · exact h.block
  · exact h.unusedBlock

theorem Aligned.room_pos {o : Output} (h : o.Aligned) : 0 < o.room := by
  have hp := h.pos
  unfold room
  split <;> omega

theorem Aligned.block_le_room {o : Output} (h : o.Aligned) : 512 ≤ o.room :=
  Nat.le_of_dvd h.room_pos h.room_block

end Output

def BBuffer.emptied (buf : BBuffer) : BBuffer :=
  { buf with data := zeros buf.size, unused := buf.size }

theorem flushLoop_done (buf : BBuffer) (fuel off : ℕ) (ret : ℤ) (sys : Sys)
    (hoff : buf.size ≤ off) (hret : 0 ≤ ret) : flushLoop buf fuel off ret sys = (.ok ret,sys) := by
  cases fuel with
  | zero => rfl
  | succ fuel =>
    have hcond : ¬(off < buf.size ∨ (ret < 0 ∧ sys.errno = .eintr)) := by omega
    simp [flushLoop,hcond]

theorem flushLoop_error {buf : BBuffer} {fuel off : ℕ} {ret v : ℤ} {sys sys' : Sys}
    (h : flushLoop buf fuel off ret sys = (.error v,sys')) : v < 0 := by
  induction fuel generalizing off ret sys with
  | zero => cases h
  | succ fuel ih =>
    simp only [flushLoop] at h
    split_ifs at h with hmore hneg he hzero
    · cases h
      exact hneg
    · exact ih h
    · cases h
    · exact ih h
    · cases h

/-- What one `write()` of a reliable descriptor does: it takes a positive part of the request, or
it is interrupted and takes nothing. Either way a scheduled answer is gone, or all is written. -/
theorem Sys.write_reliable (sys : Sys) (request : Bytes) (hr : sys.Reliable) (hreq : request ≠ []) :
    (∃ (k : ℕ) (sys' : Sys), sys.write request = ((k : ℤ),sys') ∧ 0 < k ∧ k ≤ request.length ∧
      sys'.accepted = sys.accepted ++ request.take k ∧ sys'.Reliable ∧
      Sys.Frame sys sys' ∧
      flushAnswers (request.length-k) sys'.writes = flushAnswers request.length sys.writes ∧
      (k = request.length ∨ sys'.writes.length < sys.writes.length)) ∨
    (∃ sys' : Sys, sys.write request = (-1,sys') ∧ sys'.errno = .eintr ∧
      sys'.accepted = sys.accepted ∧ sys'.Reliable ∧ Sys.Frame sys sys' ∧
      flushAnswers request.length sys'.writes = flushAnswers request.length sys.writes ∧
      sys'.writes.length < sys.writes.length) := by
  have hlen := List.length_pos_iff.mpr hreq
  have htail {w : WriteAnswer} {ws : List WriteAnswer} (h : sys.writes = w::ws) :
      w.Progress ∧ ∀ x ∈ ws, x.Progress :=
    ⟨hr w (by simp [h]),fun x hx => hr x (by simp [h,hx])⟩
  match h : sys.writes with
  | [] =>
    left
    refine ⟨request.length,{ sys with accepted := sys.accepted ++ request },?_,hlen,le_rfl,?_,
      hr,⟨rfl,id⟩,by simp [h,flushAnswers],Or.inl rfl⟩
    · simp [Sys.write,h]
    · simp
  | .accept n::ws =>
    left
    refine ⟨min (n+1) request.length,{ sys with
      accepted := sys.accepted ++ request.take (min (n+1) request.length), writes := ws },
      by simp only [Sys.write,h],?_,Nat.min_le_right _ _,rfl,(htail h).2,⟨rfl,by simp [h]⟩,?_,Or.inr ?_⟩
    · omega
    · rw [flushAnswers,if_neg hlen.ne']
      simp only
      congr 1
      omega
    · simp
  | .zero::ws => exact absurd (htail h).1 (by simp [WriteAnswer.Progress])
  | .fail e::ws =>
    right
    exact ⟨{ sys with writes := ws, errno := e },by simp only [Sys.write,h],(htail h).1,rfl,
      (htail h).2,⟨rfl,by simp [h]⟩,by rw [flushAnswers,if_neg hlen.ne']; simp,by simp⟩

theorem flushLoop_reliable (buf : BBuffer) (hlen : buf.data.length = buf.size) (fuel off : ℕ)
    (ret : ℤ) (sys : Sys) (hr : sys.Reliable) (hoff : off < buf.size)
    (hfuel : sys.writes.length+1 ≤ fuel) :
    ∃ ret' sys', flushLoop buf fuel off ret sys = (.ok ret',sys') ∧ 0 ≤ ret' ∧
      sys'.accepted = sys.accepted ++ buf.data.drop off ∧ sys'.Reliable ∧
      Sys.Frame sys sys' ∧ sys'.writes = flushAnswers (buf.size-off) sys.writes := by
  induction fuel generalizing off ret sys with
  | zero => omega
  | succ fuel ih =>
    have hcond : off < buf.size ∨ (ret < 0 ∧ sys.errno = .eintr) := Or.inl hoff
    have hslice : slice buf.data off (buf.size-off) = buf.data.drop off := by
      rw [slice,List.take_of_length_le (by simp [hlen])]
    have hreq : buf.data.drop off ≠ [] := by
      intro he
      have hz := congrArg List.length he
      simp only [List.length_drop,List.length_nil] at hz
      omega
    simp only [flushLoop,hcond,if_true,hslice]
    rcases Sys.write_reliable sys (buf.data.drop off) hr hreq with
      ⟨k,sys',hw,hk,hle,hacc,hrel,hsp,hleft,hprog⟩ | ⟨sys',hw,herr,hacc,hrel,hsp,hleft,hprog⟩
    · simp only [List.length_drop,hlen] at hle hprog hleft
      have hneg : ¬((k : ℤ) < 0) := by omega
      have hzero : ¬((k : ℤ) = 0) := by omega
      simp only [hw,hneg,hzero,if_false,Int.toNat_natCast]
      by_cases hmore : off+k < buf.size
      · obtain ⟨ret'',sys'',hloop,hret,hacc',hrel',hsp',hleft'⟩ :=
          ih (off+k) k sys' hrel hmore (by omega)
        refine ⟨ret'',sys'',hloop,hret,?_,hrel',hsp.trans hsp',?_⟩
        · rw [hacc',hacc,List.append_assoc,← List.drop_drop,List.take_append_drop]
        · rw [hleft',← hleft,Nat.sub_sub]
      · refine ⟨k,sys',flushLoop_done buf fuel (off+k) k sys' (by omega) (by omega),by omega,?_,
          hrel,hsp,?_⟩
        · rw [hacc,List.take_of_length_le (by simp only [List.length_drop,hlen]; omega)]
        · rw [← hleft,show buf.size-off-k = 0 by omega,flushAnswers_zero]
    · simp only [hw,herr,ne_eq,not_true_eq_false,if_false]
      obtain ⟨ret'',sys'',hloop,hret,hacc',hrel',hsp',hleft'⟩ :=
        ih off (-1) sys' hrel hoff (by omega)
      rw [List.length_drop,hlen] at hleft
      exact ⟨ret'',sys'',by simpa using hloop,hret,by rw [hacc',hacc],hrel',hsp.trans hsp',
        hleft'.trans hleft⟩

namespace Output

theorem Frame.flushed {o o' : Output} (hframe : Frame o o') (h : o.Aligned) (h' : o'.Aligned)
    {bytes : Bytes} (hstream : o'.stream = o.stream ++ bytes) :
    ∃ k, Flushed o o' k ∧ o'.used+k*o.buf.size = o.used+bytes.length := by
  obtain ⟨k,hk⟩ := hframe.whole
  have hlen := congrArg List.length hstream
  have hle := h.unused_le
  have hle' := h'.unused_le
  simp only [stream,List.length_append,List.length_take,h.length,h'.length,hk.accepted] at hlen
  refine ⟨k,hk,?_⟩
  simp only [used] at hlen ⊢
  omega

/-- A flush hands over the whole buffer, its free part included, unless nothing is used. -/
theorem Live.flush {o : Output} (h : o.Live) :
    ∃ ret sys', bBufferFlush o =
        (ret,⟨if o.buf.unused = o.buf.size then o.buf else o.buf.emptied,sys'⟩) ∧ 0 ≤ ret ∧
      sys'.accepted = o.sys.accepted ++ (if o.buf.unused = o.buf.size then [] else o.buf.data) ∧
      sys'.Reliable ∧ Sys.Frame o.sys sys' := by
  have hsize : o.buf.size ≠ 0 := h.pos.ne'
  by_cases hempty : o.buf.unused = o.buf.size
  · exact ⟨0,o.sys,by simp [bBufferFlush,h.handle,hsize,hempty],le_rfl,by simp [hempty],h.reliable,
      Sys.Frame.refl _⟩
  · obtain ⟨ret,sys',hloop,hret,hacc,hrel,hsp,-⟩ := flushLoop_reliable o.buf h.length
      (flushFuel o.sys) 0 0 o.sys h.reliable h.pos (by simp [flushFuel])
    refine ⟨ret,sys',?_,hret,by simpa [hempty] using hacc,hrel,hsp⟩
    simp only [bBufferFlush,h.handle,hsize,hempty,if_false,hloop,BBuffer.emptied]

theorem Live.flush_answers {o : Output} (h : o.Live) (hused : o.buf.unused ≠ o.buf.size) :
    (bBufferFlush o).2.sys.writes = flushAnswers o.buf.size o.sys.writes := by
  obtain ⟨ret,sys',hloop,-,-,-,-,hleft⟩ := flushLoop_reliable o.buf h.length
    (flushFuel o.sys) 0 0 o.sys h.reliable h.pos (by simp [flushFuel])
  simp only [bBufferFlush,h.handle,h.pos.ne',hused,if_false,hloop]
  simpa using hleft

theorem Aligned.emptied {o : Output} (h : o.Aligned) (sys : Sys) : Clean ⟨o.buf.emptied,sys⟩ where
  handle := h.handle
  pos := h.pos
  block := h.block
  unusedBlock := h.block
  unused_le := le_rfl
  length := zeros_length _
  blank := blankFrom_replicate 0 _ _

theorem Clean.eq_emptied {o : Output} (h : o.Clean) (hempty : o.buf.unused = o.buf.size) :
    o.buf.emptied = o.buf := by
  have hblank : o.buf.data = zeros o.buf.size := by
    have hb := h.blank.drop_eq
    simpa [used,hempty,h.length,zeros] using hb
  rw [BBuffer.emptied,← hblank]
  nth_rewrite 2 [← hempty]
  rfl

theorem Ready.flush {o : Output} (h : o.Ready) :
    ∃ ret sys', bBufferFlush o = (ret,⟨o.buf.emptied,sys'⟩) ∧ 0 ≤ ret ∧
      sys'.accepted = o.sys.accepted ++ (if o.buf.unused = o.buf.size then [] else o.buf.data) ∧
      sys'.Reliable ∧ Sys.Frame o.sys sys' := by
  obtain ⟨ret,sys',hflush,hrest⟩ := h.live.flush
  refine ⟨ret,sys',?_,hrest⟩
  by_cases hempty : o.buf.unused = o.buf.size
  · rw [hflush,if_pos hempty,h.eq_emptied hempty]
  · rw [hflush,if_neg hempty]

/-- The state behind a successful `b_buffer_get_block`: `n` bytes at `off`, with the stream of `o`
in front of them. -/
structure Taken (o o' : Output) (off n : ℕ) : Prop extends Live o' where
  offset : off+n = o'.used
  before : o'.sys.accepted ++ o'.buf.data.take off = o.stream
  frame : Frame o o'
  unused : o'.buf.unused+n = o.room

structure Granted (o o' : Output) (off n : ℕ) : Prop extends Taken o o' off n where
  blank : BlankFrom 0 o'.buf.data off

/-- The flush in front of a block: it changes the place of the stream, never the stream. -/
theorem Live.flushIfFull {o : Output} (h : o.Live) :
    ∃ ret o', (if bBufferFull o.buf then bBufferFlush o else (0,o)) = (ret,o') ∧ 0 ≤ ret ∧
      o'.Live ∧ o'.stream = o.stream ∧ Frame o o' ∧ o'.buf.unused = o.room ∧
      (o.buf.unused ≠ 0 → o' = o) ∧ (o.Clean → o'.Clean) := by
  by_cases hfull : o.buf.unused = 0
  · obtain ⟨ret,sys',hflush,hret,hacc,hrel,hsp⟩ := h.flush
    have hne : ¬(o.buf.unused = o.buf.size) := by have hp := h.pos; omega
    have hclean := h.toAligned.emptied sys'
    have hanswers := h.flush_answers hne
    simp only [hne,if_false] at hflush hacc
    rw [hflush] at hanswers
    refine ⟨ret,⟨o.buf.emptied,sys'⟩,by simp [bBufferFull,hfull,hflush],hret,
      ⟨hclean.toAligned,hrel⟩,?_,⟨rfl,rfl,rfl,hsp,1,by simp [hacc,h.length],hanswers⟩,
      by simp [BBuffer.emptied,room,hfull],fun hno => absurd hfull hno,fun _ => hclean⟩
    have htake := List.take_of_length_le h.length.le
    simp [stream,used,BBuffer.emptied,hacc,hfull,htake]
  · exact ⟨0,o,by simp [bBufferFull,hfull],le_rfl,h,rfl,Frame.refl o,by simp [room,hfull],
      fun _ => rfl,id⟩

theorem Ready.flushIfFull {o : Output} (h : o.Ready) :
    ∃ ret o', (if bBufferFull o.buf then bBufferFlush o else (0,o)) = (ret,o') ∧ 0 ≤ ret ∧
      o'.Ready ∧ o'.stream = o.stream ∧ Frame o o' ∧ o'.buf.unused = o.room ∧
      (o.buf.unused ≠ 0 → o' = o) := by
  obtain ⟨ret,o',hflush,hret,hlive,hs,hf,hu,hsame,hclean⟩ := h.live.flushIfFull
  exact ⟨ret,o',hflush,hret,⟨hclean h.toClean,hlive.reliable⟩,hs,hf,hu,hsame⟩

theorem Live.getBlock {o : Output} (h : o.Live) {len : ℕ} (hpos : 0 < len)
    (hroom : paddedSize len ≤ o.room) :
    ∃ off o', bBufferGetBlock o len = (some (off,paddedSize len),o') ∧
      Taken o o' off (paddedSize len) ∧ (o.Clean → BlankFrom 0 o'.buf.data off) := by
  obtain ⟨ret,p,hflush,hret,hp,hs,hf,hr,-,hclean⟩ := h.flushIfFull
  have hdvd : 512 ∣ paddedSize len := dvd_roundUp 512 len (by omega)
  have hle := hp.unused_le
  refine ⟨p.used,p.setUnused (p.buf.unused-paddedSize len),?_,?_,fun hc => (hclean hc).blank⟩
  · have hlen : len ≠ 0 := by omega
    have hnot : ¬(p.buf.unused < paddedSize len) := by omega
    simp only [bBufferGetBlock,hlen,h.handle,hflush,not_lt.mpr hret,hnot,if_false]
  · refine ⟨⟨⟨hp.handle,hp.pos,hp.block,Nat.dvd_sub hp.unusedBlock hdvd,?_,hp.length⟩,hp.reliable⟩,
      ?_,hs,⟨hf.fd,hf.size,hf.canSplice,hf.sys,
        hf.whole.imp fun _ hk => ⟨hk.accepted,hk.answers⟩⟩,?_⟩
    · exact (Nat.sub_le _ _).trans hle
    · simp only [used,setUnused]; omega
    · simp only [setUnused]; omega

/-- What is stored in a block just taken ends the stream, with whatever the block held behind it. -/
theorem Taken.store_stream {o o' : Output} {off n : ℕ} (t : Taken o o' off n) (bytes : Bytes)
    (hb : bytes.length ≤ n) : ∃ behind, (o'.store off bytes).stream =
    o.stream ++ (bytes ++ behind) ∧
      (bytes ++ behind).length = n := by
  have hle := t.unused_le
  have hlen := t.length
  have hoff := t.offset
  have hol : off ≤ o'.buf.data.length := by simp only [used] at hoff; omega
  have htake := take_overwrite_add o'.buf.data off (n-bytes.length) bytes hol
  rw [show off+bytes.length+(n-bytes.length) = o'.used by omega] at htake
  refine ⟨(o'.buf.data.drop (off+bytes.length)).take (n-bytes.length),?_,?_⟩
  · rw [stream,show (o'.store off bytes).used = o'.used from rfl]
    simp only [store]
    rw [htake,← t.before]
    simp only [List.append_assoc]
  · simp only [List.length_append,List.length_take,List.length_drop]
    simp only [used] at hoff
    omega

theorem Live.store {o : Output} (h : o.Live) {off : ℕ} (bytes : Bytes)
    (hb : off+bytes.length ≤ o.buf.size) :
    (o.store off bytes).Live ∧ (o.store off bytes).stream.length = o.stream.length := by
  have hlen := h.length
  have hover := overwrite_length o.buf.data off bytes (by omega)
  refine ⟨⟨⟨h.handle,h.pos,h.block,h.unusedBlock,h.unused_le,hover.trans hlen⟩,h.reliable⟩,?_⟩
  simp only [stream,Output.store,List.length_append,List.length_take,hover]
  rfl

theorem Ready.getBlock {o : Output} (h : o.Ready) {len : ℕ} (hpos : 0 < len)
    (hroom : paddedSize len ≤ o.room) :
    ∃ off o', bBufferGetBlock o len = (some (off,paddedSize len),o') ∧
      Granted o o' off (paddedSize len) := by
  obtain ⟨off,o',hget,htaken,hblank⟩ := h.live.getBlock hpos hroom
  exact ⟨off,o',hget,htaken,hblank h.toClean⟩

def opened (factor : ℕ) (fd : ℤ) (fifo : Bool) (release : Option (ℕ × ℕ × ℕ)) (sys : Sys) : Output :=
  ⟨bBufferSetFd (bBufferNew factor) fd fifo release,sys⟩

theorem opened_size {factor : ℕ} (hf : 1 ≤ factor) (hbig : 512*factor < 2^63) (fd : ℤ) (fifo : Bool)
    (release : Option (ℕ × ℕ × ℕ)) (sys : Sys) :
    (opened factor fd fifo release sys).buf.size = 512*factor := by
  have hne : factor ≠ 0 := by omega
  simp only [opened,bBufferSetFd,bBufferNew,hne,ne_eq,not_false_eq_true,if_true,sizeT,
    bBufferBlockSize]
  rw [Nat.mod_eq_of_lt (by omega),Nat.mul_comm]

theorem ready_opened {factor : ℕ} (hf : 1 ≤ factor) (hbig : 512*factor < 2^63) {fd : ℤ}
    (hfd : fd ≠ 0) (fifo : Bool) (release : Option (ℕ × ℕ × ℕ)) {sys : Sys} (hr : sys.Reliable) :
    (opened factor fd fifo release sys).Ready := by
  have hsize := opened_size hf hbig fd fifo release sys
  have hdvd : 512 ∣ (opened factor fd fifo release sys).buf.size := ⟨factor,hsize⟩
  exact ⟨⟨⟨hfd,by omega,hdvd,hdvd,le_rfl,zeros_length _⟩,blankFrom_replicate 0 _ _⟩,hr⟩

@[simp] theorem stream_opened (factor : ℕ) (fd : ℤ) (fifo : Bool) (release : Option (ℕ × ℕ × ℕ))
    (sys : Sys) : (opened factor fd fifo release sys).stream = sys.accepted := by
  simp [opened,stream,used,bBufferSetFd,bBufferNew]

/-- Bytes stored in a granted block of which whole blocks are kept extend the stream. -/
theorem Granted.store_keep {o o' : Output} {off n : ℕ} (g : Granted o o' off n) (bytes : Bytes)
    {m : ℕ} (hb : bytes.length ≤ m) (hm : m ≤ n) (hdvd : 512 ∣ m) (hn : 512 ∣ n) :
    ((o'.store off bytes).setUnused (o'.buf.unused+(n-m))).Ready ∧
      ((o'.store off bytes).setUnused (o'.buf.unused+(n-m))).stream =
        o.stream ++ bytes ++ zeros (m-bytes.length) := by
  have hle := g.unused_le
  have hlen := g.length
  have hoff := g.offset
  have hol : off ≤ o'.buf.data.length := by simp only [used] at hoff; omega
  have hend : off+bytes.length ≤ o'.buf.data.length := by simp only [used] at hoff; omega
  have hused : ((o'.store off bytes).setUnused (o'.buf.unused+(n-m))).used = off+m := by
    simp only [used,setUnused,store] at hoff ⊢; omega
  refine ⟨⟨⟨⟨g.handle,g.pos,g.block,?_,?_,?_⟩,?_⟩,g.reliable⟩,?_⟩
  · exact Nat.dvd_add g.unusedBlock (Nat.dvd_sub hn hdvd)
  · simp only [used,setUnused,store] at hoff ⊢; omega
  · simpa [setUnused,store,overwrite_length _ _ _ hend] using hlen
  · rw [hused]
    exact (g.blank.overwrite bytes hol).mono (by omega)
  · have htail : (o'.buf.data.drop (off+bytes.length)).take (m-bytes.length) =
        zeros (m-bytes.length) := by
      rw [(g.blank.mono (Nat.le_add_right off bytes.length)).drop_eq,List.take_replicate,zeros]
      congr 1
      simp only [used] at hoff
      omega
    have htake := take_overwrite_add o'.buf.data off (m-bytes.length) bytes hol
    rw [show off+bytes.length+(m-bytes.length) = off+m by omega,htail] at htake
    rw [stream,hused]
    simp only [setUnused,store]
    rw [htake,← g.before]
    simp only [List.append_assoc]

theorem Granted.store {o o' : Output} {off n : ℕ} (g : Granted o o' off n) (bytes : Bytes)
    (hb : bytes.length ≤ n) (hn : 512 ∣ n) :
    (o'.store off bytes).Ready ∧
      (o'.store off bytes).stream = o.stream ++ bytes ++ zeros (n-bytes.length) := by
  have h := g.store_keep bytes hb le_rfl hn hn
  rwa [show (o'.store off bytes).setUnused (o'.buf.unused+(n-n)) = o'.store off bytes by
    simp [setUnused,Output.store]] at h

theorem Granted.frame_store {o o' : Output} {off n : ℕ} (g : Granted o o' off n) (bytes : Bytes) :
    Frame o (o'.store off bytes) := ⟨g.frame.fd,g.frame.size,g.frame.canSplice,g.frame.sys,
      g.frame.whole.imp fun _ hk => ⟨hk.accepted,hk.answers⟩⟩

theorem Granted.slice_block {o o' : Output} {off n : ℕ} (g : Granted o o' off n) :
    slice o'.buf.data off n = zeros n := by
  have hle := g.unused_le
  have hlen := g.length
  have hoff := g.offset
  rw [slice,g.blank.drop_eq,List.take_replicate,zeros]
  congr 1
  simp only [used] at hoff
  omega

/-- Bytes added at the end of the stream, through the buffer and nothing else. -/
structure Extends (o o' : Output) (bytes : Bytes) : Prop where
  ready : o'.Ready
  stream : o'.stream = o.stream ++ bytes
  frame : Frame o o'

theorem Extends.refl {o : Output} (h : o.Ready) : Extends o o [] := ⟨h,by simp,Frame.refl o⟩

theorem Extends.trans {o o' o'' : Output} {xs ys : Bytes} (h : Extends o o' xs)
    (h' : Extends o' o'' ys) : Extends o o'' (xs ++ ys) :=
  ⟨h'.ready,by rw [h'.stream,h.stream,List.append_assoc],h.frame.trans h'.frame⟩

theorem Granted.extends {o o' : Output} {off n : ℕ} (g : Granted o o' off n) (bytes : Bytes)
    (hb : bytes.length ≤ n) (hn : 512 ∣ n) :
    Extends o (o'.store off bytes) (bytes ++ zeros (n-bytes.length)) := by
  obtain ⟨hready,hstream⟩ := g.store bytes hb hn
  exact ⟨hready,by rw [hstream,List.append_assoc],g.frame_store bytes⟩

theorem Ready.getBlankBlock {o : Output} (h : o.Ready) :
    ∃ off o', bBufferGetBlock o bBufferBlockSize = (some (off,512),o') ∧ Granted o o' off 512 ∧
      slice o'.buf.data off 512 = zeros 512 := by
  obtain ⟨off,o',hget,hg⟩ := h.getBlock (by decide : 0 < bBufferBlockSize)
    (by simpa [paddedSize,bBufferBlockSize] using h.block_le_room)
  exact ⟨off,o',hget,hg,hg.slice_block⟩

end Output

open Output

theorem pad512_block (bytes : Bytes) (h : bytes ≠ []) : pad512 bytes =
    bytes.take 512 ++ zeros (512-(bytes.take 512).length) ++ pad512 (bytes.drop 512) := by
  have hpos := List.length_pos_iff.mpr h
  by_cases hshort : bytes.length ≤ 512
  · have hround : roundUp 512 bytes.length = 512 := by unfold roundUp; split <;> omega
    simp [List.drop_eq_nil_of_le hshort,List.take_of_length_le hshort,pad512,padTo,hround,zeros]
  · have hfull : (bytes.take 512).length = 512 := by rw [List.length_take]; omega
    have hpad : pad512 (bytes.take 512 ++ bytes.drop 512) =
        bytes.take 512 ++ pad512 (bytes.drop 512) := padTo_append 0 _ (by rw [hfull])
    rw [List.take_append_drop] at hpad
    rw [hpad,hfull]
    simp [zeros]

/-- The path writers take as many blocks from a buffer that is not clean; what lies behind the last
bytes there stays. -/
theorem blocksLoop_live (fuel : ℕ) (rest : Bytes) (total : ℕ) {o : Output} (h : o.Live)
    (hfuel : rest.length ≤ fuel) :
    ∃ o' tail, blocksLoop fuel rest total o = (some (total+paddedSize rest.length),o') ∧ o'.Live ∧
      o'.stream = o.stream ++ tail ∧ tail.length = paddedSize rest.length ∧
      tail.take rest.length = rest := by
  induction fuel generalizing rest total o with
  | zero =>
    obtain rfl : rest = [] := List.length_eq_zero_iff.mp (by omega)
    exact ⟨o,[],by simp [blocksLoop,paddedSize_eq],h,by simp,by simp [paddedSize_eq],rfl⟩
  | succ fuel ih =>
    by_cases hnil : rest = []
    · subst hnil
      exact ⟨o,[],by simp [blocksLoop,paddedSize_eq],h,by simp,by simp [paddedSize_eq],rfl⟩
    · obtain ⟨off,o',hget,ht,-⟩ := h.getBlock (by decide : 0 < bBufferBlockSize)
        (by simpa [paddedSize,bBufferBlockSize] using h.block_le_room)
      rw [show paddedSize bBufferBlockSize = 512 by decide] at hget ht
      have hoff := ht.offset
      have hblock : off+(rest.take bBufferBlockSize).length ≤ o'.buf.size := by
        simp only [used,List.length_take,bBufferBlockSize] at hoff ⊢
        omega
      obtain ⟨hlive,-⟩ := ht.toLive.store (rest.take bBufferBlockSize) hblock
      obtain ⟨behind,hstream,hlen⟩ := ht.store_stream (rest.take bBufferBlockSize)
        (by simp [bBufferBlockSize])
      have hpos := List.length_pos_iff.mpr hnil
      obtain ⟨o'',tail,hloop,hlive',hstream',hlen',htake⟩ := ih (rest.drop bBufferBlockSize)
        (total+512) hlive (by simp only [List.length_drop,bBufferBlockSize]; omega)
      have htotal : 512+paddedSize (rest.drop bBufferBlockSize).length = paddedSize rest.length := by
        rw [List.length_drop]
        exact paddedSize_drop_block hpos
      refine ⟨o'',(rest.take bBufferBlockSize ++ behind) ++ tail,
        by simp only [blocksLoop,hnil,if_false,hget,hloop,Nat.add_assoc,htotal],hlive',?_,?_,?_⟩
      · rw [hstream',hstream,List.append_assoc]
      · rw [List.length_append,hlen,hlen',htotal]
      · -- a short block ends the text, a full one leaves nothing behind it
        rcases Nat.le_total rest.length bBufferBlockSize with hshort | hlong
        · rw [List.take_of_length_le hshort,List.append_assoc,List.take_left' rfl]
        · have hchunk : (rest.take bBufferBlockSize).length = 512 := by
            rw [List.length_take,min_eq_left hlong]
            rfl
          obtain rfl : behind = [] := by
            rw [List.length_append,hchunk] at hlen
            exact List.length_eq_zero_iff.mp (by omega)
          rw [List.append_nil,List.take_append,hchunk,
            List.take_of_length_le (by rw [hchunk]; exact hlong)]
          rw [List.length_drop] at htake
          exact (congrArg _ htake).trans (List.take_append_drop _ rest)

theorem blocksLoop_ready (fuel : ℕ) (rest : Bytes) (total : ℕ) {o : Output} (h : o.Ready)
    (hfuel : rest.length ≤ fuel) :
    ∃ o', blocksLoop fuel rest total o = (some (total+paddedSize rest.length),o') ∧
      Extends o o' (pad512 rest) := by
  induction fuel generalizing rest total o with
  | zero =>
    obtain rfl : rest = [] := List.length_eq_zero_iff.mp (by omega)
    exact ⟨o,by simp [blocksLoop,paddedSize_eq],by simpa using Extends.refl h⟩
  | succ fuel ih =>
    by_cases hnil : rest = []
    · subst hnil
      exact ⟨o,by simp [blocksLoop,paddedSize_eq],by simpa using Extends.refl h⟩
    · obtain ⟨off,o',hget,hg,-⟩ := h.getBlankBlock
      have hfirst := hg.extends (rest.take bBufferBlockSize) (by simp [bBufferBlockSize])
        (dvd_refl 512)
      have hpos := List.length_pos_iff.mpr hnil
      obtain ⟨o'',hloop,hrest⟩ := ih (rest.drop bBufferBlockSize) (total+512) hfirst.ready
        (by simp only [List.length_drop,bBufferBlockSize]; omega)
      have htotal : total+512+paddedSize (rest.drop bBufferBlockSize).length =
          total+paddedSize rest.length := by
        rw [List.length_drop,Nat.add_assoc]
        exact congrArg _ (paddedSize_drop_block hpos)
      refine ⟨o'',by simp only [blocksLoop,hnil,if_false,hget,hloop,htotal],?_⟩
      rw [pad512_block rest hnil]
      exact hfirst.trans hrest

end ArchiveTarBuilder
