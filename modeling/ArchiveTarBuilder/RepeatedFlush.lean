import ArchiveTarBuilder.BufferStream

/-! `b_buffer_flush` called again after a failure. It always starts at the front of the buffer,
and what it got rid of before is known to nobody. -/
namespace ArchiveTarBuilder
open Region Output

/-- A buffer that holds something for its descriptor. -/
structure Output.Pending (o : Output) : Prop where
  handle : o.buf.fd ≠ 0
  used : o.buf.unused < o.buf.size
  length : o.buf.data.length = o.buf.size

def flushes (k : ℕ) (o : Output) : Output := (fun p => (bBufferFlush p).2)^[k] o

theorem flushes_succ (k : ℕ) (o : Output) : flushes (k+1) o = flushes k (bBufferFlush o).2 := rfl

def Output.calm (o : Output) : Output := { o with sys := { o.sys with writes := [] } }

/-- The first of the calls that succeeds has delivered the buffer once and in order; behind calls
that failed, a call that meets no more trouble would do so. -/
def DeliversOnce (o : Output) : Prop :=
  ∀ k, (∀ i < k, (bBufferFlush (flushes i o)).1 < 0) →
    (0 ≤ (bBufferFlush (flushes k o)).1 →
      (flushes (k+1) o).sys.accepted = o.sys.accepted ++ o.buf.data) ∧
    ((bBufferFlush (flushes k o)).1 < 0 →
      (bBufferFlush (flushes (k+1) o).calm).2.sys.accepted = o.sys.accepted ++ o.buf.data)

/-- The answers to a buffer of `size` bytes, `off` of which this call has got rid of: until all
are accepted no `write()` returns 0, and none fails for good once a byte of the call is gone. -/
def Unbroken (size : ℕ) : ℕ → List WriteAnswer → Prop
  | _, [] => True
  | off, .accept n::ws => size ≤ off+(n+1) ∨ Unbroken size (off+(n+1)) ws
  | _, .zero::_ => False
  | off, .fail e::ws => if e = .eintr then Unbroken size off ws else off = 0 ∧ Unbroken size 0 ws

instance decidableUnbroken (size : ℕ) :
    (off : ℕ) → (ws : List WriteAnswer) → Decidable (Unbroken size off ws)
  | _, [] => .isTrue trivial
  | off, .accept n::ws =>
    have := decidableUnbroken size (off+(n+1)) ws
    inferInstanceAs (Decidable (size ≤ off+(n+1) ∨ Unbroken size (off+(n+1)) ws))
  | _, .zero::_ => .isFalse id
  | off, .fail e::ws =>
    have := decidableUnbroken size off ws
    have := decidableUnbroken size 0 ws
    inferInstanceAs (Decidable (if e = .eintr then _ else _))

/-- Where the loop stands after `m` more bytes: at the end of the buffer when it returns no error,
before it otherwise, and then with fewer answers left. -/
theorem flushLoop_ends (buf : BBuffer) (hlen : buf.data.length = buf.size) (fuel off : ℕ) (ret : ℤ)
    (sys : Sys) (hoff : off < buf.size) (hfuel : sys.writes.length+1 ≤ fuel) :
    ∃ r sys' m, flushLoop buf fuel off ret sys = (r,sys') ∧
      sys'.accepted = sys.accepted ++ (buf.data.drop off).take m ∧ off+m ≤ buf.size ∧
      match r with
      | .ok v => 0 ≤ v ∧ (Unbroken buf.size off sys.writes ↔ off+m = buf.size)
      | .error v => v < 0 ∧ sys'.writes.length < sys.writes.length ∧ off+m < buf.size ∧
        (Unbroken buf.size off sys.writes ↔ off+m = 0 ∧ Unbroken buf.size 0 sys'.writes) := by
  induction fuel generalizing off ret sys with
  | zero => omega
  | succ fuel ih =>
    have hslice : slice buf.data off (buf.size-off) = buf.data.drop off := by
      rw [slice,List.take_of_length_le (by simp [hlen])]
    have hleft : (buf.data.drop off).length = buf.size-off := by simp [hlen]
    simp only [flushLoop,hoff,true_or,if_true,hslice]
    cases hw : sys.writes with
    | nil =>
      have hwrite : sys.write (buf.data.drop off) =
          (((buf.size-off : ℕ) : ℤ),{ sys with accepted := sys.accepted ++ buf.data.drop off }) := by
        simp [Sys.write,hw,hlen]
      have hneg : ¬(((buf.size-off : ℕ) : ℤ) < 0) := by omega
      have hzero : ¬(((buf.size-off : ℕ) : ℤ) = 0) := by omega
      simp only [hwrite,hneg,hzero,if_false,Int.toNat_natCast]
      rw [flushLoop_done buf fuel _ _ _ (by omega) (by omega)]
      refine ⟨_,_,buf.size-off,rfl,?_,by omega,by omega,?_⟩
      · rw [List.take_of_length_le hleft.le]
      · simp only [Unbroken,true_iff]
        omega
    | cons w ws =>
      rw [hw,List.length_cons] at hfuel
      cases w with
      | zero =>
        refine ⟨.ok 0,{ sys with writes := ws },0,?_,by simp,by omega,le_rfl,?_⟩
        · simp [Sys.write,hw]
        · simp only [Unbroken,false_iff]
          omega
      | fail e =>
        have hwrite : sys.write (buf.data.drop off) = (-1,{ sys with writes := ws, errno := e }) := by
          simp only [Sys.write,hw]
        simp only [hwrite,Int.reduceNeg,Int.reduceLT,if_true]
        by_cases he : e = .eintr
        · obtain ⟨r,sys',m,hloop,hacc,hle,hend⟩ :=
            ih off (-1) { sys with writes := ws, errno := e } hoff (by simpa using hfuel)
          refine ⟨r,sys',m,by simpa [he] using hloop,hacc,hle,?_⟩
          simp only [Unbroken,he,if_true]
          cases r with
          | ok v => exact hend
          | error v => exact ⟨hend.1,hend.2.1.trans (by simp),hend.2.2⟩
        · refine ⟨.error (-1),{ sys with writes := ws, errno := e },0,by simp [he],by simp,
            by omega,by omega,by simp,by omega,?_⟩
          simp only [Unbroken,he,if_false,Nat.add_zero]
      | accept n =>
        have hwrite : sys.write (buf.data.drop off) = (((min (n+1) (buf.size-off) : ℕ) : ℤ),
            { sys with
              accepted := sys.accepted ++ (buf.data.drop off).take (min (n+1) (buf.size-off))
              writes := ws }) := by
          simp only [Sys.write,hw,hleft]
        generalize hk : min (n+1) (buf.size-off) = k at hwrite
        have hneg : ¬((k : ℤ) < 0) := by omega
        have hzero : ¬((k : ℤ) = 0) := by omega
        simp only [hwrite,hneg,hzero,if_false,Int.toNat_natCast]
        by_cases hmore : off+k < buf.size
        · obtain rfl : k = n+1 := by omega
          have hnot : ¬(buf.size ≤ off+(n+1)) := by omega
          obtain ⟨r,sys',m,hloop,hacc,hle,hend⟩ := ih (off+(n+1)) (n+1 : ℕ) { sys with
            accepted := sys.accepted ++ (buf.data.drop off).take (n+1), writes := ws } hmore
            (by simpa using hfuel)
          refine ⟨r,sys',n+1+m,hloop,?_,by omega,?_⟩
          · simp only [hacc,List.append_assoc,@List.take_add _ (buf.data.drop off) (n+1) m,
              List.drop_drop]
          · have hrest : Unbroken buf.size off (.accept n::ws) ↔
                Unbroken buf.size (off+(n+1)) ws := or_iff_right hnot
            rw [hrest,← Nat.add_assoc off (n+1) m]
            cases r with
            | ok v => exact hend
            | error v => exact ⟨hend.1,hend.2.1.trans (by simp),hend.2.2⟩
        · rw [flushLoop_done buf fuel _ _ _ (by omega) (by omega)]
          refine ⟨_,_,k,rfl,rfl,by omega,by omega,?_⟩
          simp only [Unbroken]
          exact ⟨fun _ => by omega,fun _ => Or.inl (by omega)⟩

/-- One call on a pending buffer, with the number of bytes the descriptor accepts. A call that
fails leaves the buffer as it was, and the whole of it to the next one. -/
theorem Output.Pending.flush {o : Output} (h : o.Pending) : ∃ m ≤ o.buf.size,
    (bBufferFlush o).2.sys.accepted = o.sys.accepted ++ o.buf.data.take m ∧
      ((0 ≤ (bBufferFlush o).1 ∧ (Unbroken o.buf.size 0 o.sys.writes ↔ m = o.buf.size)) ∨
        ((bBufferFlush o).1 < 0 ∧ (bBufferFlush o).2.buf = o.buf ∧ m < o.buf.size ∧
          (bBufferFlush o).2.sys.writes.length < o.sys.writes.length ∧
          (Unbroken o.buf.size 0 o.sys.writes ↔
            m = 0 ∧ Unbroken o.buf.size 0 (bBufferFlush o).2.sys.writes))) := by
  have hused := h.used
  have hsize : o.buf.size ≠ 0 := by omega
  have hpart : o.buf.unused ≠ o.buf.size := by omega
  obtain ⟨r,sys',m,hloop,hacc,hle,hend⟩ := flushLoop_ends o.buf h.length (flushFuel o.sys) 0 0 o.sys
    (by omega) (by simp [flushFuel])
  simp only [Nat.zero_add,List.drop_zero] at hacc hle hend
  refine ⟨m,hle,?_⟩
  simp only [bBufferFlush,h.handle,hsize,hpart,if_false,hloop]
  cases r with
  | ok v => exact ⟨hacc,Or.inl hend⟩
  | error v =>
    obtain ⟨hneg,hfewer,hlt,hiff⟩ := hend
    exact ⟨hacc,Or.inr ⟨hneg,rfl,hlt,hfewer,hiff⟩⟩

theorem Output.Pending.calm {o : Output} (h : o.Pending) : o.calm.Pending :=
  ⟨h.handle,h.used,h.length⟩

theorem Output.Pending.flush_calm {o : Output} (h : o.Pending) :
    (bBufferFlush o.calm).2.sys.accepted = o.sys.accepted ++ o.buf.data := by
  obtain ⟨m,-,hacc,⟨-,hall⟩ | ⟨-,-,-,hfewer,-⟩⟩ := h.calm.flush
  · have hm : m = o.buf.size := hall.mp trivial
    rw [hacc,hm]
    simp only [Output.calm,← h.length,List.take_length]
  · exact absurd hfewer (Nat.not_lt_zero _)

theorem deliversOnce_succ {o : Output} (hfail : (bBufferFlush o).1 < 0)
    (hbuf : (bBufferFlush o).2.buf = o.buf)
    (hacc : (bBufferFlush o).2.sys.accepted = o.sys.accepted)
    (hcalm : (bBufferFlush (bBufferFlush o).2.calm).2.sys.accepted = o.sys.accepted ++ o.buf.data) :
    DeliversOnce o ↔ DeliversOnce (bBufferFlush o).2 := by
  constructor
  · intro h k hk
    have hnext := h (k+1) fun i hi => by
      cases i with
      | zero => exact hfail
      | succ i => exact hk i (by omega)
    rwa [hbuf,hacc]
  · intro h k hk
    cases k with
    | zero =>
      refine ⟨fun hret => ?_,fun _ => hcalm⟩
      exact absurd hfail (not_lt.mpr hret)
    | succ k =>
      have hrest := h k fun i hi => hk (i+1) (by omega)
      rwa [hbuf,hacc] at hrest

/-- Repeated flushes deliver the buffer exactly once if and only if the answers are unbroken. -/
theorem deliversOnce_iff (o : Output) (h : o.Pending) :
    DeliversOnce o ↔ Unbroken o.buf.size 0 o.sys.writes := by
  induction hn : o.sys.writes.length using Nat.strong_induction_on generalizing o with
  | _ n ih =>
    subst hn
    have hused := h.used
    have hlen := h.length
    have hlength (m : ℕ) (hm : m ≤ o.buf.size) : (o.buf.data.take m).length = m := by
      rw [List.length_take,hlen,Nat.min_eq_left hm]
    obtain ⟨m,hm,hacc,⟨hret,hall⟩ | ⟨hret,hbuf,hlt,hfewer,hiff⟩⟩ := h.flush
    · rw [hall]
      constructor
      · intro hlaw
        have hdata := (hlaw 0 (by simp)).1 hret
        rw [flushes_succ] at hdata
        have hsame := congrArg List.length (List.append_cancel_left (hacc.symm.trans hdata))
        rwa [hlength m hm,hlen] at hsame
      · rintro rfl k hk
        cases k with
        | zero =>
          refine ⟨fun _ => ?_,fun hneg => absurd hneg (not_lt.mpr hret)⟩
          rw [flushes_succ]
          exact hacc.trans (by rw [← hlen,List.take_length])
        | succ k => exact absurd (hk 0 (by omega)) (not_lt.mpr hret)
    · have hpending : (bBufferFlush o).2.Pending := by
        refine ⟨?_,?_,?_⟩ <;> rw [hbuf]
        · exact h.handle
        · exact h.used
        · exact h.length
      have hcalm := hpending.flush_calm
      rw [hbuf,hacc] at hcalm
      rw [hiff]
      by_cases hzero : m = 0
      · subst hzero
        rw [List.take_zero,List.append_nil] at hacc hcalm
        have hrest := ih _ hfewer (bBufferFlush o).2 hpending rfl
        rw [hbuf] at hrest
        rw [deliversOnce_succ hret hbuf hacc hcalm,hrest]
        simp
      · refine iff_of_false (fun hlaw => ?_) (fun hboth => hzero hboth.1)
        have hdata := (hlaw 0 (by simp)).2 hret
        rw [flushes_succ] at hdata
        have hsame := congrArg List.length (hcalm.symm.trans hdata)
        simp only [List.length_append,hlength m hm] at hsame
        omega

def halfUsed (writes : List WriteAnswer) : Output :=
  ⟨⟨5,false,1024,512,List.replicate 512 1 ++ List.replicate 512 0⟩,⟨[],writes,[],.ok⟩⟩

theorem halfUsed_pending (writes : List WriteAnswer) : (halfUsed writes).Pending where
  handle := (by decide : (5 : ℤ) ≠ 0)
  used := (by decide : 512 < 1024)
  length := by
    show (List.replicate 512 (1 : UInt8) ++ List.replicate 512 0).length = 1024
    rw [List.length_append,List.length_replicate,List.length_replicate]

/-- A full device, and later an interruption and a short write. -/
theorem deliversOnce_fullDevice :
    DeliversOnce (halfUsed [.fail (.other 28),.fail .eintr,.accept 199]) :=
  (deliversOnce_iff _ (halfUsed_pending _)).mpr (by decide)

/-- The device fills up in the middle of the buffer: its first 200 bytes are delivered twice. -/
theorem not_deliversOnce_partial : ¬DeliversOnce (halfUsed [.accept 199,.fail (.other 28)]) := by
  intro h
  have hretry := (h 0 (by simp)).2 (by decide +kernel)
  have hlength := congrArg List.length hretry
  revert hlength
  decide +kernel

end ArchiveTarBuilder
