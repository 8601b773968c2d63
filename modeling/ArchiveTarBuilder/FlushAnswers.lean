import ArchiveTarBuilder.WholeBlocks

/-! What the answers of `write()` come to, whatever they are. They last for so many flushes of the
whole buffer, and how many of these are made follows from how full it is. -/
namespace ArchiveTarBuilder
open Region CString Output

/-- A `write()` that failed. One that was only interrupted is made again. -/
def WriteAnswer.Fails : WriteAnswer → Prop
  | .fail e => e ≠ .eintr
  | _ => False

instance decidableWriteFails : (w : WriteAnswer) → Decidable w.Fails
  | .fail e => inferInstanceAs (Decidable (e ≠ .eintr))
  | .accept _ => .isFalse id
  | .zero => .isFalse id

def Sys.Quiet (sys sys' : Sys) : Prop :=
  ∃ made, sys.writes = made ++ sys'.writes ∧ ∀ w ∈ made, ¬w.Fails

def Sys.WriteFailed (sys sys' : Sys) : Prop :=
  ∃ made, sys.writes = made ++ sys'.writes ∧ ∃ w ∈ made, w.Fails

namespace Sys

theorem Quiet.of_writes {sys sys' : Sys} (h : sys'.writes = sys.writes) : Quiet sys sys' :=
  ⟨[],h.symm,by simp⟩

theorem Quiet.refl (sys : Sys) : Quiet sys sys := .of_writes rfl

theorem Quiet.trans {sys sys' sys'' : Sys} (h : Quiet sys sys') (h' : Quiet sys' sys'') :
    Quiet sys sys'' := by
  obtain ⟨made,hmade,hq⟩ := h
  obtain ⟨made',hmade',hq'⟩ := h'
  refine ⟨made ++ made',by rw [hmade,hmade',List.append_assoc],?_⟩
  intro w hw
  exact (List.mem_append.mp hw).elim (hq w) (hq' w)

theorem Quiet.not_failed {sys sys' : Sys} (h : Quiet sys sys') : ¬WriteFailed sys sys' := by
  rintro ⟨made,hmade,w,hw,hf⟩
  obtain ⟨made',hmade',hq⟩ := h
  obtain rfl : made = made' := List.append_cancel_right (hmade.symm.trans hmade')
  exact hq w hw hf

theorem Quiet.failed_iff {sys sys' sys'' : Sys} (h : Quiet sys sys') :
    WriteFailed sys sys'' ↔ WriteFailed sys' sys'' := by
  obtain ⟨made,hmade,hq⟩ := h
  constructor
  · rintro ⟨all,hall,w,hw,hf⟩
    rcases List.append_eq_append_iff.mp (hall.symm.trans hmade) with ⟨c,hc,-⟩ | ⟨c,hc,hrest⟩
    · exact absurd hf (hq w (hc ▸ List.mem_append_left c hw))
    · refine ⟨c,hrest,w,?_,hf⟩
      rw [hc] at hw
      exact (List.mem_append.mp hw).resolve_left fun hw => hq w hw hf
  · rintro ⟨later,hlater,w,hw,hf⟩
    exact ⟨made ++ later,by rw [hmade,hlater,List.append_assoc],w,List.mem_append_right _ hw,hf⟩

theorem write_quiet {sys : Sys} (request : Bytes) (h : 0 ≤ (sys.write request).1) :
    Quiet sys (sys.write request).2 := by
  unfold write at h ⊢
  split
  · exact .refl sys
  · exact ⟨[_],‹_›,by simp [WriteAnswer.Fails]⟩
  · exact ⟨[_],‹_›,by simp [WriteAnswer.Fails]⟩
  · rename_i hw
    simp [hw] at h

theorem write_interrupted {sys : Sys} (request : Bytes)
    (he : (sys.write request).2.errno = .eintr) : Quiet sys (sys.write request).2 := by
  unfold write at he ⊢
  split
  · exact .refl sys
  · exact ⟨[_],‹_›,by simp [WriteAnswer.Fails]⟩
  · exact ⟨[_],‹_›,by simp [WriteAnswer.Fails]⟩
  · rename_i e ws hw
    simp only [hw] at he
    exact ⟨[_],hw,by simp [WriteAnswer.Fails,he]⟩

end Sys

theorem flushLoop_quiet {buf : BBuffer} {fuel off : ℕ} {ret v : ℤ} {sys sys' : Sys}
    (h : flushLoop buf fuel off ret sys = (.ok v,sys')) : Sys.Quiet sys sys' := by
  induction fuel generalizing off ret sys with
  | zero =>
    obtain ⟨-,rfl⟩ := Prod.mk.inj h
    exact .refl sys
  | succ fuel ih =>
    simp only [flushLoop] at h
    split_ifs at h with hmore hneg he hzero
    · cases h
    · have hint := Sys.write_interrupted (slice buf.data off (buf.size-off)) (not_not.mp he)
      exact hint.trans (ih h)
    · obtain ⟨-,rfl⟩ := Prod.mk.inj h
      exact Sys.write_quiet _ (not_lt.mp hneg)
    · exact (Sys.write_quiet _ (not_lt.mp hneg)).trans (ih h)
    · obtain ⟨-,rfl⟩ := Prod.mk.inj h
      exact .refl sys

theorem bBufferFlush_quiet {o : Output} (h : 0 ≤ (bBufferFlush o).1) :
    Sys.Quiet o.sys (bBufferFlush o).2.sys := by
  unfold bBufferFlush at h ⊢
  split_ifs with hfd hsize hempty
  · exact .refl _
  · exact .refl _
  · exact .refl _
  · simp only [hfd,hsize,hempty,if_false] at h
    split
    · rename_i ret sys hloop
      rw [hloop] at h
      exact absurd (flushLoop_error hloop) (not_lt.mpr h)
    · rename_i ret sys hloop
      exact flushLoop_quiet hloop

theorem bBufferGetBlock_quiet {o o' : Output} {len : ℕ} {block : ℕ × ℕ}
    (h : bBufferGetBlock o len = (some block,o')) : Sys.Quiet o.sys o'.sys := by
  have hflush : 0 ≤ (if bBufferFull o.buf then bBufferFlush o else (0,o)).1 →
      Sys.Quiet o.sys (if bBufferFull o.buf then bBufferFlush o else (0,o)).2.sys := by
    split
    · exact bBufferFlush_quiet
    · exact fun _ => .refl _
  simp only [bBufferGetBlock] at h
  generalize (if bBufferFull o.buf then bBufferFlush o else (0,o)) = r at h hflush
  split_ifs at h with hlen hfd hneg hroom
  · cases h
  · cases h
  · cases h
  · cases h
  · obtain ⟨-,rfl⟩ := Prod.mk.inj h
    exact hflush (not_lt.mp hneg)

theorem blocksLoop_quiet {fuel : ℕ} {rest : Bytes} {total n : ℕ} {o o' : Output}
    (h : blocksLoop fuel rest total o = (some n,o')) : Sys.Quiet o.sys o'.sys := by
  induction fuel generalizing rest total o with
  | zero =>
    obtain ⟨-,rfl⟩ := Prod.mk.inj h
    exact .refl _
  | succ fuel ih =>
    simp only [blocksLoop] at h
    split at h
    · obtain ⟨-,rfl⟩ := Prod.mk.inj h
      exact .refl _
    · split at h
      · cases h
      · rename_i off given p hget
        have hrest := ih h
        exact (bBufferGetBlock_quiet hget).trans hrest

/-- A round ends without an error in this state. -/
def Round.Ends (r : Round) (t : ContentsState) : Prop := r = .again t ∨ r = .leave t

theorem endRound_ends {s t : ContentsState} {rlen : ℕ} (h : (endRound s rlen).Ends t) :
    t.out = s.out := by
  unfold endRound at h
  split at h
  · obtain h | h := h <;> cases h
    rfl
  · obtain h | h := h <;> cases h
    rfl

theorem readRound_quiet {s t : ContentsState} {maxRead : ℕ} (h : (readRound s maxRead).Ends t) :
    Sys.Quiet s.out.sys t.out.sys := by
  simp only [readRound] at h
  split at h
  · obtain h | h := h <;> cases h
  · rename_i off blocklen o hget
    split at h
    · obtain h | h := h <;> cases h
    · have hout := endRound_ends h
      refine (bBufferGetBlock_quiet hget).trans (.of_writes ?_)
      rw [hout]
      simp only [bBufferReclaim]
      split_ifs <;> rfl

theorem contentsRound_quiet {fileSize : ℕ} {s t : ContentsState}
    (h : (contentsRound fileSize s).Ends t) : Sys.Quiet s.out.sys t.out.sys := by
  have hflush : 0 ≤ (if bBufferFull s.out.buf then bBufferFlush s.out else (0,s.out)).1 →
      Sys.Quiet s.out.sys (if bBufferFull s.out.buf then bBufferFlush s.out else (0,s.out)).2.sys := by
    split
    · exact bBufferFlush_quiet
    · exact fun _ => .refl _
  simp only [contentsRound] at h
  generalize (if bBufferFull s.out.buf then bBufferFlush s.out else (0,s.out)) = r at h hflush
  split at h
  · obtain h | h := h <;> cases h
  · rename_i hneg
    have hquiet := hflush (not_lt.mp hneg)
    split at h
    · obtain h | h := h <;> cases h
      exact hquiet
    · split at h
      · simp only [spliceRound] at h
        have hsplice := Sys.Quiet.of_writes (Sys.splice_writes r.2.sys s.file
          (min (fileSize-s.realTotal) maxChunkSize))
        split at h
        · exact hquiet.trans (hsplice.trans (readRound_quiet h))
        · rw [endRound_ends h]
          exact hquiet.trans hsplice
      · exact hquiet.trans (readRound_quiet h)

theorem contentsLoop_quiet {fileSize fuel : ℕ} {s t : ContentsState}
    (h : (contentsLoop fileSize fuel s).Ends t) : Sys.Quiet s.out.sys t.out.sys := by
  induction fuel generalizing s with
  | zero =>
    obtain h | h := h <;> cases h
    exact .refl _
  | succ fuel ih =>
    simp only [contentsLoop] at h
    split at h
    · rename_i u hu
      exact (contentsRound_quiet (Or.inl hu)).trans (ih h)
    · rename_i r hr
      exact contentsRound_quiet h

/-- The answers that are left when a flush of `n` bytes is through; `none` if it fails. -/
def flushLeft : ℕ → List WriteAnswer → Option (List WriteAnswer)
  | _,[] => some []
  | n,w::ws =>
    if n = 0 then some (w::ws)
    else
      match w with
      | .accept k => flushLeft (n-(k+1)) ws
      | .zero => some ws
      | .fail e => if e = .eintr then flushLeft n ws else none

@[simp] theorem flushLeft_zero (ws : List WriteAnswer) : flushLeft 0 ws = some ws := by
  cases ws <;> simp [flushLeft]

def flushTimes (size : ℕ) : ℕ → List WriteAnswer → Option (List WriteAnswer)
  | 0,ws => some ws
  | k+1,ws => (flushLeft size ws).bind (flushTimes size k)

theorem flushTimes_add (size j k : ℕ) (ws : List WriteAnswer) :
    flushTimes size (j+k) ws = (flushTimes size j ws).bind (flushTimes size k) := by
  induction j generalizing ws with
  | zero => simp [flushTimes]
  | succ j ih =>
    rw [Nat.succ_add]
    cases hleft : flushLeft size ws with
    | none => simp [flushTimes,hleft]
    | some rest => simp [flushTimes,hleft,ih]

structure Level where
  size : ℕ
  used : ℕ
  canSplice : Bool
  writes : List WriteAnswer
  splices : List SpliceAnswer
  deriving DecidableEq, Repr

def Output.level (o : Output) : Level :=
  ⟨o.buf.size,o.used,o.buf.canSplice,o.sys.writes,o.sys.splices⟩

/-- A flush fails up to the request for a block behind `m` more bytes. -/
def Level.Stops (l : Level) (m : ℕ) : Prop := flushTimes l.size ((l.used+m)/l.size) l.writes = none

instance (l : Level) (m : ℕ) : Decidable (l.Stops m) := by unfold Level.Stops; infer_instance

theorem Level.Stops.mono {l : Level} {m n : ℕ} (h : l.Stops m) (hle : m ≤ n) : l.Stops n := by
  obtain ⟨k,hk⟩ := Nat.exists_eq_add_of_le (Nat.div_le_div_right (c := l.size)
    (Nat.add_le_add_left hle l.used))
  unfold Level.Stops at h ⊢
  rw [hk,flushTimes_add,h]
  rfl

theorem flushLoop_left (buf : BBuffer) (hlen : buf.data.length = buf.size) (fuel off : ℕ) (ret : ℤ)
    (sys : Sys) (hoff : off < buf.size) (hfuel : sys.writes.length+1 ≤ fuel) :
    match flushLeft (buf.size-off) sys.writes with
    | none => ∃ v sys', flushLoop buf fuel off ret sys = (.error v,sys') ∧ v < 0 ∧
        Sys.WriteFailed sys sys'
    | some ws => ∃ v sys', flushLoop buf fuel off ret sys = (.ok v,sys') ∧ 0 ≤ v ∧
        sys'.writes = ws ∧ sys'.splices = sys.splices := by
  induction fuel generalizing off ret sys with
  | zero => omega
  | succ fuel ih =>
    have hcond : off < buf.size ∨ (ret < 0 ∧ sys.errno = .eintr) := Or.inl hoff
    have hrequest : (slice buf.data off (buf.size-off)).length = buf.size-off := by
      rw [slice,List.length_take,List.length_drop,hlen,Nat.min_self]
    have hleft : buf.size-off ≠ 0 := by omega
    simp only [flushLoop,hcond,if_true]
    generalize slice buf.data off (buf.size-off) = request at hrequest ⊢
    -- `k` bytes have been taken
    have htaken (k : ℕ) (sys' : Sys) (hk : 0 < k) (hsplices : sys'.splices = sys.splices)
        (hsys : sys'.writes.length+1 ≤ fuel ∨ buf.size ≤ off+k) (made : List WriteAnswer)
        (hmade : sys.writes = made ++ sys'.writes) (hquiet : ∀ w ∈ made,¬w.Fails) :
        match flushLeft (buf.size-(off+k)) sys'.writes with
        | none => ∃ v sys'', flushLoop buf fuel (off+k) k sys' = (.error v,sys'') ∧ v < 0 ∧
            Sys.WriteFailed sys sys''
        | some ws => ∃ v sys'', flushLoop buf fuel (off+k) k sys' = (.ok v,sys'') ∧ 0 ≤ v ∧
            sys''.writes = ws ∧ sys''.splices = sys.splices := by
      by_cases hmore : off+k < buf.size
      · have hrest := ih (off+k) k sys' hmore (hsys.resolve_right (by omega))
        split at hrest
        · obtain ⟨v,sys'',hloop,hv,hfailed⟩ := hrest
          exact ⟨v,sys'',hloop,hv,(Sys.Quiet.failed_iff ⟨made,hmade,hquiet⟩).mpr hfailed⟩
        · obtain ⟨v,sys'',hloop,hv,hwrites,hsame⟩ := hrest
          exact ⟨v,sys'',hloop,hv,hwrites,hsame.trans hsplices⟩
      · rw [show buf.size-(off+k) = 0 by omega,flushLeft_zero]
        exact ⟨k,sys',flushLoop_done buf fuel (off+k) k sys' (by omega) (by omega),by omega,rfl,
          hsplices⟩
    cases hwrites : sys.writes with
    | nil =>
      have hall := htaken (buf.size-off) { sys with accepted := sys.accepted ++ request }
        (by omega) rfl (Or.inr (by omega)) [] (by simp) (by simp)
      have hpos : ¬((buf.size-off : ℕ) : ℤ) < 0 := by omega
      have hzero : ¬((buf.size-off : ℕ) : ℤ) = 0 := by omega
      simp only [Sys.write,hwrites,hrequest,hpos,hzero,if_false,Int.toNat_natCast,flushLeft]
      simpa only [show buf.size-(off+(buf.size-off)) = 0 by omega,flushLeft_zero,hwrites] using hall
    | cons w ws =>
      simp only [hwrites,List.length_cons] at hfuel
      cases w with
      | accept n =>
        have hall := htaken (min (n+1) (buf.size-off)) { sys with
            accepted := sys.accepted ++ request.take (min (n+1) (buf.size-off)), writes := ws }
          (by omega) rfl (Or.inl (by simp only; omega)) [.accept n] hwrites
          (by simp [WriteAnswer.Fails])
        have hpos : ¬((min (n+1) (buf.size-off) : ℕ) : ℤ) < 0 := by omega
        have hzero : ¬((min (n+1) (buf.size-off) : ℕ) : ℤ) = 0 := by omega
        simp only [Sys.write,hwrites,hrequest,hpos,hzero,if_false,Int.toNat_natCast,flushLeft,hleft]
        rwa [show buf.size-(off+min (n+1) (buf.size-off)) = buf.size-off-(n+1) by omega] at hall
      | zero =>
        simp only [Sys.write,hwrites,lt_irrefl,if_false,if_true,flushLeft,hleft]
        exact ⟨0,_,rfl,le_rfl,rfl,rfl⟩
      | fail e =>
        have hneg : (-1 : ℤ) < 0 := by decide
        simp only [Sys.write,hwrites,hneg,if_true,flushLeft,hleft,if_false]
        by_cases he : e = .eintr
        · subst he
          have hrest := ih off (-1) { sys with writes := ws, errno := .eintr } hoff
            (by simp only; omega)
          have hquiet : Sys.Quiet sys { sys with writes := ws, errno := .eintr } :=
            ⟨[.fail .eintr],hwrites,by simp [WriteAnswer.Fails]⟩
          simp only [ne_eq,not_true_eq_false,if_false,if_true]
          cases hrec : flushLeft (buf.size-off) ws with
          | none =>
            rw [hrec] at hrest
            obtain ⟨v,sys'',hloop,hv,hfailed⟩ := hrest
            exact ⟨v,sys'',hloop,hv,hquiet.failed_iff.mpr hfailed⟩
          | some ws' =>
            rw [hrec] at hrest
            exact hrest
        · simp only [ne_eq,he,not_false_eq_true,if_true,if_false]
          exact ⟨-1,_,rfl,hneg,[.fail e],hwrites,_,List.mem_singleton_self _,he⟩

namespace Output

theorem Aligned.flushIfFull {o : Output} (h : o.Aligned) :
    let r := if bBufferFull o.buf then bBufferFlush o else (0,o)
    (o.level.Stops 0 ∧ r.1 < 0 ∧ Sys.WriteFailed o.sys r.2.sys) ∨
      (¬o.level.Stops 0 ∧ 0 ≤ r.1 ∧ r.2.Aligned ∧ r.2.buf.fd = o.buf.fd ∧
        r.2.buf.size = o.buf.size ∧ r.2.buf.canSplice = o.buf.canSplice ∧
        r.2.sys.splices = o.sys.splices ∧ r.2.buf.unused = o.room ∧
        flushTimes o.buf.size (o.used/o.buf.size) o.sys.writes = some r.2.sys.writes ∧
        (o.buf.unused ≠ 0 → r.2 = o)) := by
  have hpos := h.pos
  have hle := h.unused_le
  by_cases hfull : o.buf.unused = 0
  · have hloop := flushLoop_left o.buf h.length (flushFuel o.sys) 0 0 o.sys hpos (by simp [flushFuel])
    have hone : o.used/o.buf.size = 1 := by
      rw [used,hfull,Nat.sub_zero,Nat.div_self hpos]
    have hstops : o.level.Stops 0 ↔ flushLeft o.buf.size o.sys.writes = none := by
      rw [Level.Stops,level,Nat.add_zero]
      simp only [hone,flushTimes]
      cases flushLeft o.buf.size o.sys.writes <;> simp
    have hne : ¬o.buf.unused = o.buf.size := by omega
    have herror {ret : ℤ} {sys : Sys}
        (heq : flushLoop o.buf (flushFuel o.sys) 0 0 o.sys = (.error ret,sys)) :
        bBufferFlush o = (ret,{ o with sys := sys }) := by
      simp only [bBufferFlush,h.handle,hpos.ne',hne,if_false,heq]
    have hok {ret : ℤ} {sys : Sys}
        (heq : flushLoop o.buf (flushFuel o.sys) 0 0 o.sys = (.ok ret,sys)) :
        bBufferFlush o = (ret,⟨o.buf.emptied,sys⟩) := by
      simp only [bBufferFlush,h.handle,hpos.ne',hne,if_false,heq]
      rfl
    simp only [bBufferFull,hfull,decide_true,if_true]
    rw [Nat.sub_zero] at hloop
    cases hleft : flushLeft o.buf.size o.sys.writes with
    | none =>
      rw [hleft] at hloop
      obtain ⟨v,sys',heq,hv,hfailed⟩ := hloop
      rw [herror heq]
      exact Or.inl ⟨hstops.mpr hleft,hv,hfailed⟩
    | some ws =>
      rw [hleft] at hloop
      obtain ⟨v,sys',heq,hv,hwrites,hsplices⟩ := hloop
      rw [hok heq]
      refine Or.inr ⟨fun hno => by simp [hstops.mp hno] at hleft,hv,(h.emptied sys').toAligned,rfl,
        rfl,rfl,hsplices,by simp [room,hfull,BBuffer.emptied],?_,fun hno => absurd rfl hno⟩
      rw [hone]
      simp [flushTimes,hleft,hwrites]
  · have hnone : o.used/o.buf.size = 0 := Nat.div_eq_of_lt (by rw [used]; omega)
    have hnot : ¬o.level.Stops 0 := by
      simp [Level.Stops,level,hnone,flushTimes]
    simp only [bBufferFull,hfull,decide_false,Bool.false_eq_true,if_false]
    exact Or.inr ⟨hnot,le_rfl,h,trivial,trivial,trivial,trivial,by simp [room,hfull],
      by rw [hnone]; rfl,fun _ => trivial⟩

end Output

/-- `m` more bytes have gone into the buffer, which was flushed when it was full and more came. -/
structure Fed (o o' : Output) (m : ℕ) : Prop where
  aligned : o'.Aligned
  fd : o'.buf.fd = o.buf.fd
  size : o'.buf.size = o.buf.size
  canSplice : o'.buf.canSplice = o.buf.canSplice
  splices : o'.sys.splices = o.sys.splices
  answers : flushTimes o.buf.size ((o.used+m-1)/o.buf.size) o.sys.writes = some o'.sys.writes
  used : o'.used+(o.used+m-1)/o.buf.size*o.buf.size = o.used+m

theorem Fed.refl {o : Output} (h : o.Aligned) : Fed o o 0 := by
  have hpos := h.pos
  have hle : o.used ≤ o.buf.size := by rw [Output.used]; omega
  have hnone : (o.used+0-1)/o.buf.size = 0 := Nat.div_eq_of_lt (by omega)
  exact ⟨h,rfl,rfl,rfl,rfl,by rw [hnone]; rfl,by rw [hnone]; simp⟩

theorem Fed.trans {o o' o'' : Output} {m n : ℕ} (h : Fed o o' m) (h' : Fed o' o'' n) :
    Fed o o'' (m+n) := by
  have hpos : 0 < o.buf.size := h.size ▸ h.aligned.pos
  have hsplit : (o.used+(m+n)-1)/o.buf.size =
      (o.used+m-1)/o.buf.size+(o'.used+n-1)/o.buf.size := by
    have hused := h.used
    by_cases hzero : o'.used = 0
    · have hsmall : (o.used+m-1)/o.buf.size*o.buf.size ≤ o.used+m-1 := Nat.div_mul_le_self _ _
      have hnil : o.used+m = 0 := by omega
      rw [show o.used+(m+n)-1 = n-1 by omega,hnil,hzero]
      simp
    · rw [show o.used+(m+n)-1 = o'.used+n-1+(o.used+m-1)/o.buf.size*o.buf.size by omega,
        Nat.add_mul_div_right _ _ hpos,Nat.add_comm]
  have hanswers := h'.answers
  have hused := h'.used
  rw [h.size] at hanswers hused
  refine ⟨h'.aligned,h'.fd.trans h.fd,h'.size.trans h.size,h'.canSplice.trans h.canSplice,
    h'.splices.trans h.splices,?_,?_⟩
  · rw [hsplit,flushTimes_add,h.answers]
    exact hanswers
  · rw [hsplit,Nat.add_mul]
    have := h.used
    omega

theorem Fed.stops_iff {o o' : Output} {m : ℕ} (h : Fed o o' m) (n : ℕ) :
    o'.level.Stops n ↔ o.level.Stops (m+n) := by
  have hpos : 0 < o.buf.size := h.size ▸ h.aligned.pos
  have hsplit : (o.used+(m+n))/o.buf.size = (o.used+m-1)/o.buf.size+(o'.used+n)/o.buf.size := by
    have hused := h.used
    rw [show o.used+(m+n) = o'.used+n+(o.used+m-1)/o.buf.size*o.buf.size by omega,
      Nat.add_mul_div_right _ _ hpos,Nat.add_comm]
  simp only [Level.Stops,Output.level]
  rw [hsplit,flushTimes_add,h.answers,h.size]
  rfl

theorem Fed.not_stops {o o' : Output} {m : ℕ} (h : Fed o o' (m+512)) (ho : o.Aligned)
    (hm : 512 ∣ m) : ¬o.level.Stops m := by
  have hused : 512 ∣ o.used := Nat.dvd_sub ho.block ho.unusedBlock
  obtain ⟨a,ha⟩ := Nat.dvd_add hused hm
  obtain ⟨b,hb⟩ := ho.block
  have hpos := ho.pos
  have hsame : (o.used+m)/o.buf.size = (o.used+(m+512)-1)/o.buf.size := by
    rw [show o.used+(m+512)-1 = 512*a+511 by omega,ha,hb,← Nat.div_div_eq_div_mul,
      ← Nat.div_div_eq_div_mul]
    congr 1
    omega
  have hanswers := h.answers
  rw [← hsame] at hanswers
  simp only [Level.Stops,Output.level,hanswers]
  exact Option.some_ne_none _

theorem Fed.store {o o' : Output} {m : ℕ} (h : Fed o o' m) {off : ℕ} {bytes : Bytes}
    (hb : off+bytes.length ≤ o.buf.size) : Fed o (o'.store off bytes) m := by
  have hlen := h.aligned.length
  have hover := overwrite_length o'.buf.data off bytes (by rw [hlen,h.size]; exact hb)
  exact ⟨⟨h.aligned.handle,h.aligned.pos,h.aligned.block,h.aligned.unusedBlock,h.aligned.unused_le,
    hover.trans hlen⟩,h.fd,h.size,h.canSplice,h.splices,h.answers,h.used⟩

theorem Fed.setErrno {o o' : Output} {m : ℕ} (h : Fed o o' m) (e : Errno) :
    Fed o (o'.setErrno e) m :=
  ⟨⟨h.aligned.handle,h.aligned.pos,h.aligned.block,h.aligned.unusedBlock,h.aligned.unused_le,
    h.aligned.length⟩,h.fd,h.size,h.canSplice,h.splices,h.answers,h.used⟩

namespace Output

/-- Blocks have been taken of the room that there is behind the flush of a full buffer. -/
theorem Aligned.fed {o o' : Output} (h : o.Aligned) (h' : o'.Aligned) (hfd : o'.buf.fd = o.buf.fd)
    (hsize : o'.buf.size = o.buf.size) (hcan : o'.buf.canSplice = o.buf.canSplice)
    (hsplices : o'.sys.splices = o.sys.splices) {m : ℕ} (hpos : 0 < m) (hle : m ≤ o.room)
    (hunused : o'.buf.unused = o.room-m)
    (hanswers : flushTimes o.buf.size (o.used/o.buf.size) o.sys.writes = some o'.sys.writes) :
    Fed o o' m := by
  have hp := h.pos
  have hule := h.unused_le
  have hused' : o'.used = o.buf.size-(o.room-m) := by rw [used,hunused,hsize]
  have htimes : (o.used+m-1)/o.buf.size = o.used/o.buf.size ∧
      o'.used+o.used/o.buf.size*o.buf.size = o.used+m := by
    by_cases hfull : o.buf.unused = 0
    · have hroom : o.room = o.buf.size := by rw [room,if_pos hfull]
      have hused : o.used = o.buf.size := by rw [used,hfull,Nat.sub_zero]
      rw [hused',hused,Nat.div_self hp,hroom]
      have hlast : (o.buf.size+m-1)/o.buf.size = 1 := by
        rw [show o.buf.size+m-1 = (m-1)+o.buf.size by omega,Nat.add_div_right _ hp,
          Nat.div_eq_of_lt (by omega)]
      exact ⟨hlast,by omega⟩
    · have hroom : o.room = o.buf.unused := by rw [room,if_neg hfull]
      have hused : o.used = o.buf.size-o.buf.unused := rfl
      have hnone : o.used/o.buf.size = 0 := Nat.div_eq_of_lt (by omega)
      rw [hused',hnone,Nat.div_eq_of_lt (by omega : o.used+m-1 < o.buf.size)]
      exact ⟨rfl,by omega⟩
  exact ⟨h',hfd,hsize,hcan,hsplices,by rw [htimes.1]; exact hanswers,by rw [htimes.1]; exact htimes.2⟩

/-- A request that fits is refused if and only if the flush in front of it fails. -/
theorem Aligned.getBlock {o : Output} (h : o.Aligned) (len : ℕ) (hpos : 0 < len)
    (hroom : paddedSize len ≤ o.room) :
    (o.level.Stops 0 ∧ ∃ o', bBufferGetBlock o len = (none,o') ∧ Sys.WriteFailed o.sys o'.sys) ∨
      (¬o.level.Stops 0 ∧ ∃ off o', bBufferGetBlock o len = (some (off,paddedSize len),o') ∧
        off+paddedSize len ≤ o.buf.size ∧ o'.buf.unused = o.room-paddedSize len ∧
        Fed o o' (paddedSize len)) := by
  have hflush := h.flushIfFull
  have hdvd : 512 ∣ paddedSize len := dvd_roundUp 512 len (by omega)
  have hge : len ≤ paddedSize len := le_roundUp 512 len
  simp only [bBufferGetBlock,hpos.ne',h.handle,if_false]
  generalize (if bBufferFull o.buf then bBufferFlush o else (0,o)) = r at hflush ⊢
  rcases hflush with ⟨hstops,hneg,hfailed⟩ |
    ⟨hstops,hnonneg,hp,hfd,hsize,hcan,hsplices,hunused,hanswers,-⟩
  · exact Or.inl ⟨hstops,r.2,by rw [if_pos hneg],hfailed⟩
  · have hule := hp.unused_le
    have hfits : ¬r.2.buf.unused < paddedSize len := by omega
    refine Or.inr ⟨hstops,r.2.used,r.2.setUnused (r.2.buf.unused-paddedSize len),
      by rw [if_neg (not_lt.mpr hnonneg),if_neg hfits],?_,by simp only [setUnused,hunused],?_⟩
    · rw [used,hsize]
      omega
    · have halign : (r.2.setUnused (r.2.buf.unused-paddedSize len)).Aligned :=
        ⟨hp.handle,hp.pos,hp.block,Nat.dvd_sub hp.unusedBlock hdvd,(Nat.sub_le _ _).trans hule,
          hp.length⟩
      exact h.fed halign hfd hsize hcan hsplices (by omega) hroom
        (by simp only [setUnused,hunused]) hanswers

end Output

theorem blocksLoop_fed (fuel : ℕ) (rest : Bytes) (total : ℕ) {o : Output} (h : o.Aligned)
    (hfuel : rest.length ≤ fuel) :
    match blocksLoop fuel rest total o with
    | (none,_) => 512 ≤ paddedSize rest.length ∧ o.level.Stops (paddedSize rest.length-512)
    | (some _,o') => Fed o o' (paddedSize rest.length) := by
  have hnil : paddedSize 0 = 0 := by decide
  induction fuel generalizing rest total o with
  | zero =>
    rw [blocksLoop,Nat.le_zero.mp hfuel,hnil]
    exact .refl h
  | succ fuel ih =>
    rw [blocksLoop]
    by_cases hempty : rest = []
    · rw [if_pos hempty,hempty,List.length_nil,hnil]
      exact .refl h
    · rw [if_neg hempty]
      have hlen := List.length_pos_iff.mpr hempty
      have hblock : paddedSize bBufferBlockSize = 512 := by decide
      have hmore := paddedSize_drop_block hlen
      have hget := h.getBlock bBufferBlockSize (by decide) (hblock ▸ h.block_le_room)
      rw [hblock] at hget
      rcases hget with ⟨hstops,o',heq,-⟩ | ⟨-,off,o',heq,hoff,-,hfed⟩
      · rw [heq]
        exact ⟨by omega,hstops.mono (Nat.zero_le _)⟩
      · rw [heq]
        simp only
        have hfits : off+(rest.take bBufferBlockSize).length ≤ o.buf.size := by
          rw [List.length_take,bBufferBlockSize]
          omega
        have hstored := hfed.store hfits
        have hrest := ih (rest.drop bBufferBlockSize) (total+512) hstored.aligned
          (by rw [List.length_drop,bBufferBlockSize]; omega)
        have hdrop : (rest.drop bBufferBlockSize).length = rest.length-512 := List.length_drop
        rw [hdrop] at hrest
        generalize blocksLoop fuel (rest.drop bBufferBlockSize) (total+512)
          (o'.store off (rest.take bBufferBlockSize)) = r at hrest ⊢
        obtain ⟨count,o''⟩ := r
        cases count with
        | none =>
          obtain ⟨hone,hstops⟩ := hrest
          refine ⟨by omega,?_⟩
          rw [show paddedSize rest.length-512 = 512+(paddedSize (rest.length-512)-512) by omega]
          exact (hstored.stops_iff _).mp hstops
        | some n =>
          rw [← hmore]
          exact hstored.trans hrest

/-- The level behind `m` more bytes, if no flush fails on the way. -/
def Level.behind (l : Level) (m : ℕ) : Level :=
  let flushes := (l.used+m-1)/l.size
  { l with
    used := l.used+m-flushes*l.size
    writes := (flushTimes l.size flushes l.writes).getD [] }

theorem Fed.level {o o' : Output} {m : ℕ} (h : Fed o o' m) : o'.level = o.level.behind m := by
  have hused := h.used
  simp only [Output.level,Level.behind,h.size,h.canSplice,h.splices,h.answers,Option.getD_some]
  congr 1
  omega

/-- What reads for `left` bytes put into the buffer, in whole blocks: all of them, or those in front
of the read that falls short. -/
def reached (left : ℕ) : Except (ℕ × ℕ) File → ℕ
  | .ok _ => paddedSize left
  | .error (off,_) => off

def readTo (size free left : ℕ) (file : File) : ℕ := reached left (reading size free left file)

theorem reached_mapError {request left : ℕ} (hle : request ≤ left) (hblock : 512 ∣ request)
    (r : Except (ℕ × ℕ) File) : reached left (r.mapError fun p => (request+p.1,p.2)) =
      paddedSize request+reached (left-request) r := by
  rw [paddedSize_of_dvd hblock]
  cases r with
  | ok file =>
    simp only [Except.mapError,reached]
    rw [paddedSize_eq,paddedSize_eq,← roundUp_add_of_dvd _ hblock]
    congr 1
    omega
  | error p => rfl

/-- A read that takes blocks of the buffer: what it does not fill it gives back, or it fails. -/
theorem readRound_aligned (s : ContentsState) (maxRead : ℕ) (h : s.out.Aligned)
    (hfree : 0 < s.out.buf.unused) (hmax : 0 < maxRead) {request : ℕ}
    (hrequest : request = min maxRead s.out.buf.unused) {r : ℤ × Bytes × File}
    (hread : readFile s.file request = r) :
    (r.1 < request ∧ ∃ out, readRound s maxRead = .errorIo out r.2.2 ∧
      out.sys.writes = s.out.sys.writes) ∨
    (¬(r.1 < request) ∧ ∃ out, readRound s maxRead = .again { s with
        out := out, file := r.2.2, total := s.total+paddedSize request,
        realTotal := s.realTotal+request } ∧
      out.Aligned ∧ out.buf.fd = s.out.buf.fd ∧ out.buf.size = s.out.buf.size ∧
      out.buf.canSplice = s.out.buf.canSplice ∧ out.sys.splices = s.out.sys.splices ∧
      out.sys.writes = s.out.sys.writes ∧
      out.buf.unused = s.out.buf.unused-paddedSize request) := by
  have hpad : paddedSize s.out.buf.unused = s.out.buf.unused := paddedSize_of_dvd h.unusedBlock
  have hule := h.unused_le
  have hlen := h.length
  have hget : bBufferGetBlock s.out s.out.buf.unused =
      (some (s.out.used,s.out.buf.unused),s.out.setUnused 0) := by
    have hfull : bBufferFull s.out.buf = false := by simp [bBufferFull,hfree.ne']
    simp only [bBufferGetBlock,hfree.ne',h.handle,hfull,hpad,if_false,Bool.false_eq_true,lt_irrefl,
      Nat.sub_self]
  have hretry := readRetry_eq s.file.contents request s.file.reads s.out.sys.errno
  rw [hread] at hretry
  simp only [Prod.ext_iff] at hretry
  obtain ⟨hr1,hr2,hr3⟩ := hretry
  have hreq : 0 < request := by omega
  have herrno : (s.out.setUnused 0).sys.errno = s.out.sys.errno := rfl
  by_cases hshort : r.1 < request
  · refine Or.inl ⟨hshort,((s.out.setUnused 0).store s.out.used r.2.1).setErrno
      (readRetry s.file.contents request s.file.reads s.out.sys.errno).2.2.2,?_,rfl⟩
    simp only [readRound,hget,herrno,← hrequest,hr1,hr2,hr3,if_pos hshort]
  · obtain ⟨-,hgot,-⟩ := readFile_whole (hread ▸ hshort)
    have hwhole := (readFile_whole (hread ▸ hshort)).1
    rw [hread] at hgot
    have hbytes : r.2.1.length = request := by rw [hgot,List.length_take]; omega
    have hkeep : paddedSize request ≤ s.out.buf.unused :=
      paddedSize_le_of_dvd (by omega) h.unusedBlock
    have hdvd : 512 ∣ paddedSize request := dvd_roundUp 512 request (by omega)
    have hspare := reclaim_spare (((s.out.setUnused 0).store s.out.used r.2.1).setErrno
      (readRetry s.file.contents request s.file.reads s.out.sys.errno).2.2.2)
      (by omega : request ≤ s.out.buf.unused) h.unusedBlock hfree
    have htotal : ((s.total : ℤ)+s.out.buf.unused-
        ((s.out.buf.unused-paddedSize request : ℕ) : ℤ)).toNat = s.total+paddedSize request := by
      omega
    refine Or.inr ⟨hshort,(((s.out.setUnused 0).store s.out.used r.2.1).setErrno
      (readRetry s.file.contents request s.file.reads s.out.sys.errno).2.2.2).setUnused
      (s.out.buf.unused-paddedSize request),?_,?_,rfl,rfl,rfl,rfl,rfl,rfl⟩
    · simp only [readRound,hget,herrno,← hrequest,hr1,hr2,hr3,if_neg hshort,hbytes,hspare,htotal,
        endRound,hreq,if_true]
      simp only [setUnused,store,Output.setErrno,Nat.zero_add]
    · have hover := overwrite_length s.out.buf.data s.out.used r.2.1 (by rw [used]; omega)
      exact ⟨h.handle,h.pos,h.block,Nat.dvd_sub h.unusedBlock hdvd,(Nat.sub_le _ _).trans hule,
        hover.trans hlen⟩

/-- A round flushes a full buffer, and then reads or splices if anything is left. -/
theorem contentsRound_flushes (fileSize : ℕ) {s : ContentsState} (h : s.out.Aligned) :
    (s.out.level.Stops 0 ∧ ∃ out, contentsRound fileSize s = .errorIo out s.file ∧
      Sys.WriteFailed s.out.sys out.sys) ∨
    (¬s.out.level.Stops 0 ∧ ∃ out, out.Aligned ∧ out.buf.fd = s.out.buf.fd ∧
      out.buf.size = s.out.buf.size ∧ out.buf.canSplice = s.out.buf.canSplice ∧
      out.sys.splices = s.out.sys.splices ∧ out.buf.unused = s.out.room ∧
      flushTimes s.out.buf.size (s.out.used/s.out.buf.size) s.out.sys.writes = some out.sys.writes ∧
      Sys.Quiet s.out.sys out.sys ∧
      contentsRound fileSize s =
        let t := { s with out := out, emptiedBuffer := s.emptiedBuffer || bBufferFull s.out.buf }
        if fileSize-s.realTotal = 0 then .leave t
        else if t.emptiedBuffer && s.out.buf.canSplice then
          spliceRound t (min (fileSize-s.realTotal) maxChunkSize)
        else readRound t (min (fileSize-s.realTotal) maxChunkSize)) := by
  have hflush := h.flushIfFull
  have hquiet : 0 ≤ (if bBufferFull s.out.buf then bBufferFlush s.out else (0,s.out)).1 →
      Sys.Quiet s.out.sys (if bBufferFull s.out.buf then bBufferFlush s.out else (0,s.out)).2.sys := by
    split
    · exact bBufferFlush_quiet
    · exact fun _ => .refl _
  simp only [contentsRound]
  generalize (if bBufferFull s.out.buf then bBufferFlush s.out else (0,s.out)) =
  r at hflush hquiet ⊢
  rcases hflush with ⟨hstops,hneg,hfailed⟩ |
    ⟨hstops,hnonneg,hp,hfd,hsize,hcan,hsplices,hunused,hanswers,-⟩
  · exact Or.inl ⟨hstops,r.2,by rw [if_pos hneg],hfailed⟩
  · refine Or.inr ⟨hstops,r.2,hp,hfd,hsize,hcan,hsplices,hunused,hanswers,hquiet hnonneg,?_⟩
    rw [if_neg (not_lt.mpr hnonneg),hcan]

/-- Contents that are only read, by the answers: the loop leaves if no flush fails and no read falls
short, and a write has failed exactly when a flush in front of that read fails. -/
theorem contentsLoop_flushes (fileSize fuel : ℕ) (s : ContentsState) (h : s.out.Aligned) {left : ℕ}
    (hleft : fileSize-s.realTotal = left) (hfuel : left < fuel) (hreads : ReadsOnly s left) :
    let n := reached left (readAll s.out.buf.size fuel s.out.buf.unused left s.file)
    (∃ t, contentsLoop fileSize fuel s = .leave t ∧ t.spliceTotal = s.spliceTotal ∧
      t.out.buf.canSplice = s.out.buf.canSplice ∧ ¬s.out.level.Stops n) ∨
    (∃ out file, contentsLoop fileSize fuel s = .errorIo out file ∧
      (Sys.WriteFailed s.out.sys out.sys ↔ s.out.level.Stops n)) := by
  induction fuel generalizing s left with
  | zero => omega
  | succ fuel ih =>
    rcases contentsRound_flushes fileSize h with ⟨hstops,out,hround,hfailed⟩ |
      ⟨hstops,out,halign,hfd,hsize,hcan,hsplices,hunused,hanswers,hquiet,hround⟩
    · right
      exact ⟨out,s.file,by simp only [contentsLoop,hround],
        iff_of_true hfailed (hstops.mono (Nat.zero_le _))⟩
    rw [hleft] at hround
    by_cases hzero : left = 0
    · subst hzero
      rw [readAll_zero]
      rw [if_pos rfl] at hround
      left
      exact ⟨{ s with out := out, emptiedBuffer := s.emptiedBuffer || bBufferFull s.out.buf },
        by simp only [contentsLoop,hround],rfl,hcan,hstops⟩
    have hread : contentsRound fileSize s = readRound { s with
        out := out, emptiedBuffer := s.emptiedBuffer || bBufferFull s.out.buf }
        (min left maxChunkSize) := by
      rw [hround,if_neg hzero]
      rcases hreads with hoff | ⟨hemptied,hle⟩
      · simp [hoff]
      · have hfull : bBufferFull s.out.buf = false := by simp [bBufferFull]; omega
        simp [hemptied,hfull]
    have hfree : 0 < out.buf.unused := hunused ▸ h.room_pos
    have hroom : (if s.out.buf.unused = 0 then s.out.buf.size else s.out.buf.unused) =
        out.buf.unused := hunused.symm
    generalize hrequest : min (min left maxChunkSize) out.buf.unused = request
    generalize hfile : readFile s.file request = r
    have hpos : 0 < request := by unfold maxChunkSize at hrequest; omega
    simp only [readAll,hzero,if_false,hroom,hrequest,hfile]
    rcases readRound_aligned { s with
      out := out, emptiedBuffer := s.emptiedBuffer || bBufferFull s.out.buf } (min left maxChunkSize)
      halign hfree (by unfold maxChunkSize; omega) hrequest.symm hfile with
      ⟨hshort,out',hrr,hwrites⟩ | ⟨hwhole,out',hrr,halign',hfd',hsize',hcan',hsplices',hwrites,hun⟩
    · -- the read falls short
      rw [if_pos hshort]
      right
      exact ⟨out',r.2.2,by simp only [contentsLoop,hread,hrr],
        iff_of_false (hquiet.trans (.of_writes hwrites)).not_failed hstops⟩
    · rw [if_neg hwhole]
      have hblock : request = left ∨ 512 ∣ request := by
        have hub := halign.unusedBlock
        unfold maxChunkSize at hrequest
        omega
      have hub := halign.unusedBlock
      have hkeep : paddedSize request ≤ out.buf.unused := paddedSize_le_of_dvd (by omega) hub
      have hge : request ≤ paddedSize request := le_roundUp 512 request
      have hfed : Fed s.out out' (paddedSize request) :=
        h.fed halign' (hfd'.trans hfd) (hsize'.trans hsize) (hcan'.trans hcan)
          (hsplices'.trans hsplices) (by omega) (hunused ▸ hkeep) (by rw [hun]; exact congrArg (· - _) hunused)
          (hanswers.trans (congrArg some hwrites.symm))
      have hstep : contentsLoop fileSize (fuel+1) s = contentsLoop fileSize fuel { s with
          out := out', emptiedBuffer := s.emptiedBuffer || bBufferFull s.out.buf, file := r.2.2
          total := s.total+paddedSize request, realTotal := s.realTotal+request } := by
        simp only [contentsLoop,hread,hrr]
      have hnext := @ih { s with
          out := out', emptiedBuffer := s.emptiedBuffer || bBufferFull s.out.buf, file := r.2.2
          total := s.total+paddedSize request, realTotal :=
            s.realTotal+request } halign' (left-request)
        (by simp only; omega) (by omega) (by
          rcases hreads with hoff | ⟨hemptied,hle⟩
          · exact Or.inl ((hcan'.trans hcan).trans hoff)
          · have hfull : bBufferFull s.out.buf = false := by simp [bBufferFull]; omega
            have hroomy : s.out.room = s.out.buf.unused := by rw [room,if_neg (by omega)]
            refine Or.inr ⟨by simp [hemptied,hfull],?_⟩
            have hgoal : left-request ≤ out'.buf.unused := by
              rcases hblock with hlast | hdvd
              · omega
              · have hwholeBlocks := paddedSize_of_dvd hdvd
                simp only at hun
                omega
            exact hgoal)
      have hsteps : reached left ((readAll s.out.buf.size fuel (out.buf.unused-paddedSize request)
          (left-request) r.2.2).mapError fun p => (request+p.1,p.2)) = paddedSize request+
            reached (left-request) (readAll s.out.buf.size fuel (out.buf.unused-paddedSize request)
              (left-request) r.2.2) := by
        rcases hblock with rfl | hdvd
        · rw [Nat.sub_self,readAll_zero]
          simp [Except.mapError,reached,paddedSize]
        · exact reached_mapError (by omega) hdvd _
      rw [hstep,hsteps]
      simp only [hun,hsize',hsize] at hnext
      rcases hnext with ⟨t,hloop,hsame,hoff,hno⟩ | ⟨out'',file,hloop,hiff⟩
      · left
        exact ⟨t,hloop,hsame,hoff.trans (hcan'.trans hcan),fun hyes => hno ((hfed.stops_iff _).mpr hyes)⟩
      · right
        refine ⟨out'',file,hloop,?_⟩
        rw [(hquiet.trans (.of_writes hwrites)).failed_iff,hiff]
        exact hfed.stops_iff _

theorem contentsLoop_fillsUp (fileSize fuel : ℕ) (s : ContentsState) (h : s.out.Aligned)
    (hemptied : s.emptiedBuffer = false) {left free : ℕ} (hleft : fileSize-s.realTotal = left)
    (hunused : s.out.buf.unused = free) (hlt : free < left) (hfuel : left < fuel) :
    match readAll s.out.buf.size fuel free free s.file with
    | .error (off,_) => off < free ∧ ∃ out file, contentsLoop fileSize fuel s = .errorIo out file ∧
        out.sys.writes = s.out.sys.writes
    | .ok file => ∃ out fuel', contentsLoop fileSize fuel s = contentsLoop fileSize fuel' { s with
          out := out, file := file, total := s.total+free, realTotal := s.realTotal+free } ∧
        left-free < fuel' ∧ out.Aligned ∧ out.buf.size = s.out.buf.size ∧
        out.buf.canSplice = s.out.buf.canSplice ∧ out.sys.splices = s.out.sys.splices ∧
        out.sys.writes = s.out.sys.writes ∧ out.buf.unused = 0 := by
  induction fuel generalizing s left free with
  | zero => omega
  | succ fuel ih =>
    by_cases hpos : 0 < free
    · have hfull : bBufferFull s.out.buf = false := by simp [bBufferFull]; omega
      have hround : contentsRound fileSize s = readRound s (min left maxChunkSize) := by
        have hl : fileSize-s.realTotal ≠ 0 := by omega
        have hs : { s with emptiedBuffer := false } = s := by rw [← hemptied]
        have hl' : left ≠ 0 := by omega
        simp [contentsRound,hfull,hemptied,hs,hleft,hl']
      have hchunk : 0 < maxChunkSize := by decide
      have hask : min (min left maxChunkSize) s.out.buf.unused =
          min (min free maxChunkSize) free := by
        omega
      generalize hrequest : min (min free maxChunkSize) free = request at hask
      generalize hread : readFile s.file request = r
      have hreq : 0 < request := by omega
      simp only [readAll,hpos.ne',if_false,hrequest,hread]
      rcases readRound_aligned s (min left maxChunkSize) h (by omega) (by omega) hask.symm hread with
        ⟨hshort,out,hrr,hwrites⟩ | ⟨hwhole,out,hrr,halign,-,hsize,hcan,hsplices,hwrites,hun⟩
      · rw [if_pos hshort]
        exact ⟨hpos,out,r.2.2,by simp only [contentsLoop,hround,hrr],hwrites⟩
      · have hblock : 512 ∣ request := by
          have hub := h.unusedBlock
          unfold maxChunkSize at hrequest
          omega
        have hpad := paddedSize_of_dvd hblock
        rw [hpad] at hrr hun
        have hstep : contentsLoop fileSize (fuel+1) s = contentsLoop fileSize fuel
            { s with
              out := out, file := r.2.2, total := s.total+request
              realTotal := s.realTotal+request } := by
          simp only [contentsLoop,hround,hrr]
        have hrec := @ih { s with
            out := out, file := r.2.2, total := s.total+request, realTotal := s.realTotal+request }
          halign hemptied (left-request) (free-request) (by simp only; omega) (by simp only; omega)
          (by omega) (by omega)
        rw [if_neg hwhole,hstep,hpad]
        simp only [hsize] at hrec
        cases hall : readAll s.out.buf.size fuel (free-request) (free-request) r.2.2 with
        | error p =>
          rw [hall] at hrec
          obtain ⟨hoff,out',file,hloop,hsame⟩ := hrec
          exact ⟨by omega,out',file,hloop,hsame.trans hwrites⟩
        | ok file =>
          rw [hall] at hrec
          obtain ⟨out',fuel',hloop,hf,halign',hsize',hcan',hsplices',hwrites',hzero⟩ := hrec
          refine ⟨out',fuel',?_,by omega,halign',hsize',hcan'.trans hcan,hsplices'.trans hsplices,
            hwrites'.trans hwrites,hzero⟩
          rw [hloop]
          congr 2
          all_goals omega
    · obtain rfl : free = 0 := by omega
      rw [readAll_zero]
      exact ⟨s.out,fuel+1,rfl,by omega,h,rfl,rfl,rfl,rfl,hunused⟩

def PaddingFails (o : Output) (file : File) (n : ℕ) : Prop :=
  ∃ t, contentsLoop n (n+1) ⟨o,file,0,0,false,0⟩ = .leave t ∧ (writePadding t).1 < 0

/-- Some `write()` for the contents of a file fails, an interruption of the last one included. -/
def ContentsWriteFails (o : Output) (file : File) (n : ℕ) : Prop :=
  Sys.WriteFailed o.sys (bFileWriteContents o file n).2.sys ∨ PaddingFails o file n

def paddingFails : List WriteAnswer → Bool
  | .fail _::_ => true
  | _ => false

/-- A write for the contents of a file of `n` bytes fails, by how full the buffer is and the answers
to come. Contents that are spliced first fill the buffer, and it is flushed once. -/
def Level.contentsFail (l : Level) (file : File) (n : ℕ) : Bool :=
  let free := l.size-l.used
  if l.canSplice = false ∨ n ≤ free then decide (l.Stops (readTo l.size free n file))
  else
    match reading l.size free free file with
    | .error (off,_) => decide (l.Stops off)
    | .ok rest =>
      let moved := splicing (n-free) rest.contents.length l.splices
      let m := free+moved.1
      decide (l.Stops free) ||
        match moved.2 with
        | .failed =>
          decide (l.Stops (free+readTo l.size l.size (n-m) ⟨file.contents.drop m,rest.reads⟩))
        | _ => decide (m % 512 ≠ 0) && (flushTimes l.size 1 l.writes).any paddingFails

theorem Sys.writeFailed_congr {sys sys' sys'' : Sys} (h : sys''.writes = sys'.writes) :
    Sys.WriteFailed sys sys'' ↔ Sys.WriteFailed sys sys' := by
  unfold Sys.WriteFailed
  rw [h]

theorem contentsWriteFails_errorIo {o out : Output} {file file' : File} {n : ℕ}
    (hloop : contentsLoop n (n+1) (contentsStart o file) = .errorIo out file') :
    ContentsWriteFails o file n ↔ Sys.WriteFailed o.sys out.sys := by
  simp only [contentsStart] at hloop
  rw [ContentsWriteFails,PaddingFails,bFileWriteContents,hloop]
  simp only
  rw [Sys.writeFailed_congr (errorIo_writes out)]
  exact or_iff_left (by simp)

theorem contentsWriteFails_leave {o : Output} {file : File} {n : ℕ} {t : ContentsState}
    (hloop : contentsLoop n (n+1) (contentsStart o file) = .leave t) :
    ContentsWriteFails o file n ↔ (writePadding t).1 < 0 := by
  have hquiet : Sys.Quiet o.sys t.out.sys := contentsLoop_quiet (Or.inr hloop)
  simp only [contentsStart] at hloop
  have hpadding : PaddingFails o file n ↔ (writePadding t).1 < 0 := by
    rw [PaddingFails,hloop]
    constructor
    · rintro ⟨u,hu,hneg⟩
      cases hu
      exact hneg
    · exact fun hneg => ⟨t,rfl,hneg⟩
  rw [ContentsWriteFails,hpadding]
  refine or_iff_right_of_imp fun hfailed => ?_
  by_contra hnonneg
  refine Sys.Quiet.not_failed (hquiet.trans ?_) hfailed
  simp only [bFileWriteContents,hloop,if_neg hnonneg]
  unfold writePadding at hnonneg ⊢
  split_ifs with hpad
  · rw [if_pos hpad] at hnonneg
    exact Sys.write_quiet _ (not_lt.mp hnonneg)
  · exact .refl _

theorem writePadding_fails {t : ContentsState} (hcan : t.out.buf.canSplice = true)
    (hsplice : t.total % 512 ≠ 0 → t.spliceTotal ≠ 0) : (writePadding t).1 < 0 ↔
      t.total % 512 ≠ 0 ∧ paddingFails t.out.sys.writes = true := by
  unfold writePadding bBufferBlockSize
  by_cases hblock : t.total % 512 = 0
  · simp [hblock]
  · rw [if_pos ⟨hsplice hblock,hcan,hblock⟩]
    refine Iff.trans ?_ (and_iff_right hblock).symm
    simp only [Sys.write]
    split <;> simp_all [paddingFails]
    exact Int.natCast_nonneg _

theorem contentsWriteFails_spliced {o : Output} (h : o.Aligned) {file rest : File} {n : ℕ}
    (hn : o.buf.unused < n)
    (hok : reading o.buf.size o.buf.unused o.buf.unused file = .ok rest)
    (hcan : o.buf.canSplice = true) :
    ContentsWriteFails o file n ↔ o.level.contentsFail file n = true := by
  have hle := h.unused_le
  have hpos := h.pos
  have hfree : o.buf.size-o.used = o.buf.unused := by rw [used]; omega
  have hmode : ¬(o.level.canSplice = false ∨ n ≤ o.level.size-o.level.used) := by
    simp only [Output.level,hcan,hfree]
    simp
    omega
  rw [Level.contentsFail]
  simp only [if_neg hmode]
  simp only [show o.level.size = o.buf.size from rfl,show o.level.used = o.used from rfl,
    show o.level.writes = o.sys.writes from rfl,show o.level.splices =
      o.sys.splices from rfl,hfree,hok,
    Bool.or_eq_true,decide_eq_true_eq]
  have hfills := @contentsLoop_fillsUp n (n+1) (contentsStart o file) h rfl n o.buf.unused rfl rfl hn
    (by omega)
  have hfuel := readAll_fuel hpos (n+1) (o.buf.unused+1) o.buf.unused o.buf.unused file
    (by omega) (by omega)
  simp only [contentsStart,hfuel] at hfills
  rw [reading] at hok
  rw [hok] at hfills
  simp only [Nat.zero_add] at hfills
  obtain ⟨out,fuel,hfilled,hmore,halign,hsize,hsame,hsplices,hwrites,hfull⟩ := hfills
  obtain ⟨k,rfl⟩ : ∃ k, fuel = k+1 := ⟨fuel-1,by omega⟩
  -- the flush of the full buffer
  have hone : (o.used+o.buf.unused)/o.buf.size = 1 := by
    rw [show o.used+o.buf.unused = o.buf.size by rw [used]; omega,Nat.div_self hpos]
  have hfullUsed : out.used = out.buf.size := by rw [used,hfull,Nat.sub_zero]
  have hstops : out.level.Stops 0 ↔ o.level.Stops o.buf.unused := by
    simp only [Level.Stops,Output.level,hone,hwrites,hsize,hfullUsed,Nat.add_zero,Nat.div_self hpos]
  have hround := contentsRound_flushes n (s := ⟨out,rest,o.buf.unused,o.buf.unused,false,0⟩) halign
  rcases hround with ⟨hno,out',hround,hfailed⟩ |
    ⟨hno,p,halign',-,hsize',hcan',hsplices',hunused',hanswers,hquiet,hround⟩
  · have hloop : contentsLoop n (n+1) (contentsStart o file) = .errorIo out' rest := by
      simp only [contentsStart]
      rw [hfilled,contentsLoop,hround]
    rw [contentsWriteFails_errorIo hloop]
    refine iff_of_true ?_ (Or.inl (hstops.mp hno))
    obtain ⟨made,hmade,hw⟩ := hfailed
    exact ⟨made,hwrites.symm.trans hmade,hw⟩
  have hno' : ¬o.level.Stops o.buf.unused := fun hyes => hno (hstops.mpr hyes)
  have hroom : out.room = o.buf.size := by rw [room,if_pos hfull,hsize]
  have hempty : p.buf.unused = p.buf.size := by
    rw [hunused',hsize',hsize]
    exact hroom
  have hcanp : p.buf.canSplice = true := hcan'.trans (hsame.trans hcan)
  have hp : p.buf.size = o.buf.size := hsize'.trans hsize
  -- the same round is the first one past the empty buffer
  have hpast : contentsLoop n (n+1) (contentsStart o file) =
      contentsLoop n (k+1) ⟨p,rest,o.buf.unused,o.buf.unused,true,0⟩ := by
    have hround' := @contentsRound_empty n ⟨p,rest,o.buf.unused,o.buf.unused,true,0⟩ halign'.pos hempty
      rfl (by simp only; omega)
    have hleft : ¬n-o.buf.unused = 0 := by omega
    have hwas : bBufferFull out.buf = true := by simp [bBufferFull,hfull]
    simp only [hcanp,if_true] at hround'
    simp only [hleft,hwas,Bool.or_true,Bool.true_and,hsame,hcan,if_true,if_false] at hround
    simp only [contentsStart]
    rw [hfilled,contentsLoop,contentsLoop,hround,hround']
  obtain ⟨v,hv,hend⟩ := @contentsLoop_splices n (k+1) ⟨p,rest,o.buf.unused,o.buf.unused,true,0⟩
    halign'.pos hempty rfl hcanp (n-o.buf.unused) rfl hmore
  have hrun : spliceAll (k+1) (n-o.buf.unused) rest.contents.length p.sys.splices =
      splicing (n-o.buf.unused) rest.contents.length o.sys.splices := by
    rw [hsplices'.trans hsplices]
    exact spliceAll_fuel _ _ _ _ _ (by omega) (by omega)
  simp only [hrun] at hv hend
  have hanswered : flushTimes o.buf.size 1 o.sys.writes = some v.out.sys.writes := by
    simp only [hfullUsed,hsize,Nat.div_self hpos,hwrites] at hanswers
    rw [hv.writes]
    exact hanswers
  have hrest := (readAll_ok hpos (by omega) hok).2
  generalize splicing (n-o.buf.unused) rest.contents.length o.sys.splices = moved at hv hend ⊢
  have hbuf := hv.buf
  have htotal : v.total = o.buf.unused+moved.1 := hv.total
  have hreal : v.realTotal = o.buf.unused+moved.1 := hv.realTotal
  have hsplice : v.total % 512 ≠ 0 → v.spliceTotal ≠ 0 := by
    have hdvd := h.unusedBlock
    have hcount := hv.spliceTotal
    simp only [Nat.zero_add] at hcount
    omega
  have hleave (hcanv : v.out.buf.canSplice = true)
      (hloop : contentsLoop n (k+1) ⟨p,rest,o.buf.unused,o.buf.unused,true,0⟩ = .leave v) :
      ContentsWriteFails o file n ↔ o.level.Stops o.buf.unused ∨
        (decide ((o.buf.unused+moved.1) % 512 ≠ 0) &&
          (flushTimes o.buf.size 1 o.sys.writes).any paddingFails) = true := by
    rw [contentsWriteFails_leave (hpast.trans hloop),writePadding_fails hcanv hsplice,
      or_iff_right hno',hanswered,htotal]
    simp
  obtain ⟨count,ending⟩ := moved
  cases ending with
  | complete => exact hleave hend.1 hend.2
  | eof => exact hleave hend.1 hend.2
  | failed =>
    obtain ⟨hoff,-,fuel',hfuel',hloop⟩ := hend
    have hv' : v.out.buf.size = o.buf.size ∧ v.out.buf.unused = o.buf.size := by
      rw [hbuf]
      exact ⟨hp,hempty.trans hp⟩
    have hvUsed : v.out.used = 0 := by rw [used,hv'.1,hv'.2,Nat.sub_self]
    have hfile : v.file = ⟨file.contents.drop (o.buf.unused+count),rest.reads⟩ := by
      rw [← List.drop_drop,← hrest]
      exact congrArg₂ File.mk hv.contents hv.reads
    have hread : readAll v.out.buf.size fuel' v.out.buf.unused (n-(o.buf.unused+count)) v.file =
        reading o.buf.size o.buf.size (n-(o.buf.unused+count))
          ⟨file.contents.drop (o.buf.unused+count),rest.reads⟩ := by
      rw [hv'.1,hv'.2,hfile]
      exact readAll_fuel hpos _ _ _ _ _ (hreal ▸ hfuel') (by omega)
    have hbehind (m : ℕ) : v.out.level.Stops m ↔ o.level.Stops (o.buf.unused+m) := by
      have htwo : (o.used+(o.buf.unused+m))/o.buf.size = 1+m/o.buf.size := by
        rw [show o.used+(o.buf.unused+m) = m+o.buf.size by rw [used]; omega,
          Nat.add_div_right _ hpos,
          Nat.add_comm]
      simp only [Level.Stops,Output.level,hv'.1,hvUsed,Nat.zero_add,htwo]
      rw [flushTimes_add,hanswered]
      rfl
    have hquietly : Sys.Quiet o.sys v.out.sys :=
      (Sys.Quiet.of_writes hwrites).trans (hquiet.trans (.of_writes hv.writes))
    have hrounds := contentsLoop_flushes n fuel' v (hv.aligned halign') rfl hfuel' (Or.inl hoff)
    rw [hreal] at hrounds
    simp only [hread,hbehind] at hrounds
    rw [or_iff_right hno',decide_eq_true_eq,readTo]
    rcases hrounds with ⟨w,hw,-,hcanw,hnone⟩ | ⟨out',file',hw,hiff⟩
    · rw [contentsWriteFails_leave (hpast.trans (hloop.trans hw))]
      refine iff_of_false ?_ hnone
      rw [writePadding,if_neg (by simp [hcanw,hoff])]
      exact lt_irrefl 0
    · rw [contentsWriteFails_errorIo (hpast.trans (hloop.trans hw)),hquietly.failed_iff]
      exact hiff

/-- Whether a write for the contents of a file fails can be told from how full the buffer is and
from the answers to come. -/
theorem contentsWriteFails_iff {o : Output} (h : o.Aligned) (file : File) (n : ℕ) :
    ContentsWriteFails o file n ↔ o.level.contentsFail file n = true := by
  have hle := h.unused_le
  have hfree : o.buf.size-o.used = o.buf.unused := by rw [used]; omega
  by_cases hmode : o.buf.canSplice = false ∨ n ≤ o.buf.unused
  · have hfail : o.level.contentsFail file n =
        decide (o.level.Stops (readTo o.buf.size o.buf.unused n file)) := by
      rw [Level.contentsFail]
      simp only [show o.level.size = o.buf.size from rfl,show o.level.used = o.used from rfl,hfree]
      exact if_pos hmode
    have hloop := contentsLoop_flushes n (n+1) (contentsStart o file) h rfl (Nat.lt_succ_self n)
      (hmode.imp id fun hn => ⟨rfl,hn⟩)
    rw [hfail,decide_eq_true_eq,readTo,reading]
    rcases hloop with ⟨t,ht,hsplice,-,hno⟩ | ⟨out,file',ht,hiff⟩
    · rw [contentsWriteFails_leave ht]
      refine iff_of_false ?_ hno
      rw [writePadding,if_neg (fun hpad => hpad.1 hsplice)]
      exact lt_irrefl 0
    · rw [contentsWriteFails_errorIo ht]
      exact hiff
  · obtain ⟨hcan,hn⟩ := not_or.mp hmode
    rw [Bool.not_eq_false] at hcan
    rw [not_le] at hn
    cases hok : reading o.buf.size o.buf.unused o.buf.unused file with
    | ok rest => exact contentsWriteFails_spliced h hn hok hcan
    | error p =>
      -- no flush is made in front of the read that falls short
      obtain ⟨off,room⟩ := p
      have hfills := @contentsLoop_fillsUp n (n+1) (contentsStart o file) h rfl n o.buf.unused rfl rfl hn
        (by omega)
      have hfuel := readAll_fuel h.pos (n+1) (o.buf.unused+1) o.buf.unused o.buf.unused file
        (by omega) (by omega)
      rw [reading,← hfuel] at hok
      simp only [contentsStart,hok] at hfills
      obtain ⟨hoff,out,file',hloop,hwrites⟩ := hfills
      rw [contentsWriteFails_errorIo hloop]
      have hfail : o.level.contentsFail file n = decide (o.level.Stops off) := by
        have hmode' : ¬(o.level.canSplice = false ∨ n ≤ o.level.size-o.level.used) := by
          rw [show o.level.size-o.level.used = o.buf.unused from hfree]
          exact hmode
        rw [Level.contentsFail]
        simp only [if_neg hmode']
        simp only [show o.level.size = o.buf.size from rfl,show o.level.used = o.used from rfl,hfree,
          reading,← hfuel,hok]
      rw [hfail,decide_eq_true_eq]
      refine iff_of_false (Sys.Quiet.of_writes hwrites).not_failed ?_
      have hnone : (o.used+off)/o.buf.size = 0 := Nat.div_eq_of_lt (by rw [used]; omega)
      simp [Level.Stops,Output.level,hnone,flushTimes]

end ArchiveTarBuilder
