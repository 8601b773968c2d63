import ArchiveTarBuilder.ArchiverRuns
import ArchiveTarBuilder.ArchiveRead

/-! What is delivered behind the last member. No code writes an end marker; there are the zeros of
the last buffer, which `finish` hands over whole, and no more than these. -/
namespace ArchiveTarBuilder
open Region CString Output

/-- The blocks that a call put into the stream. -/
def Attempt.Adds (t : Attempt) (bytes : Bytes) : Prop :=
  t.after.out.stream = t.builder.out.stream ++ bytes

/-- The call is for no member whose GNU records overwrite each other. -/
def Attempt.Separate (t : Attempt) : Prop := ∀ header ∈ t.header, ¬GnuBothLong t.builder.options header

def Output.pendingZeros (o : Output) : ℕ := if o.buf.unused = o.buf.size then 0 else o.buf.unused

theorem contentsOf_frame {o : Output} (h : o.Ready) (hplain : o.buf.canSplice = false)
    (header : BHeader) (fd : ℤ) (file : File) : Frame o (contentsOf o header fd file).2 := by
  unfold contentsOf
  split
  · have hreads := bFileWriteContents_reads h file header.size (Or.inl hplain)
    split at hreads
    · obtain ⟨p,hp,-,-,-,hframe⟩ := hreads
      rwa [hp]
    · obtain ⟨p,k,hp,hs⟩ := hreads
      rw [hp]
      exact hs.frame
  · exact Frame.refl o

/-- A call leaves a clean buffer behind it and only adds to the stream; a descriptor that is not
spliced gets whole buffers. -/
theorem Attempt.adds {t : Attempt} (h : t.builder.out.Ready) (hsep : t.Separate) :
    t.after.out.Ready ∧ (∃ bytes, t.Adds bytes) ∧
      (t.builder.out.buf.canSplice = false → Frame t.builder.out t.after.out) := by
  rcases bBuilderWriteFile_ready h t.call.path t.call.memberName t.call.st t.call.fd t.call.src hsep
    with hrefused | ⟨header,records,b',hm⟩
  · exact ⟨hrefused.ready,hrefused.added,fun _ => hrefused.frame⟩
  · obtain ⟨-,hready,data,-,hstream⟩ := hm.stream
    refine ⟨hready,⟨_,hstream.trans (List.append_assoc _ _ _)⟩,fun hplain => ?_⟩
    have hout := (writeContents_out b' header t.call.path t.call.fd t.call.src.file).2
    have hwrote : Frame t.builder.out b'.out := hm.wrote.added.frame
    have hcontents := contentsOf_frame hm.wrote.added.ready (hwrote.canSplice.trans hplain) header
      t.call.fd t.call.src.file
    rw [← hout,← hm.result] at hcontents
    exact hwrote.trans hcontents

theorem Works.adds {b b' : BBuilder} {ts : List Attempt} (h : Works b ts b') (hb : b.out.Ready)
    (hsep : ∀ t ∈ ts, t.Separate) :
    b'.out.Ready ∧ (b.out.buf.canSplice = false → Frame b.out b'.out) ∧
      ∃ blocks, List.Forall₂ Attempt.Adds ts blocks ∧
        b'.out.stream = b.out.stream ++ blocks.flatten := by
  induction h with
  | idle => exact ⟨hb,fun _ => Frame.refl b.out,[],.nil,by simp⟩
  | report h e message path ih => exact ih hsep
  | fail h e ih =>
    obtain ⟨hready,hframe,blocks,hadds,hstream⟩ := ih hsep
    exact ⟨hready.setErrno e,fun hplain => (hframe hplain).setErrno e,blocks,hadds,hstream⟩
  | @write ts b' h c ih =>
    obtain ⟨hready,hframe,blocks,hadds,hstream⟩ := ih fun t ht => hsep t (by simp [ht])
    obtain ⟨hready',⟨bytes,hbytes⟩,hframe'⟩ :=
      Attempt.adds (t := ⟨b',c⟩) hready (hsep ⟨b',c⟩ (by simp))
    refine ⟨hready',fun hplain => ?_,blocks ++ [bytes],List.rel_append hadds (.cons hbytes .nil),?_⟩
    · have hfirst := hframe hplain
      exact hfirst.trans (hframe' (hfirst.canSplice.trans hplain))
    · rw [List.flatten_append,List.flatten_singleton,← List.append_assoc,← hstream]
      exact hbytes

theorem Output.Ready.flush_accepted {o : Output} (h : o.Ready) :
    0 ≤ (bBufferFlush o).1 ∧ (bBufferFlush o).2.sys.accepted = o.stream ++ zeros o.pendingZeros := by
  obtain ⟨ret,sys',hflush,hret,hacc,-⟩ := h.flush
  have hlen := h.length
  have hle := h.unused_le
  rw [hflush]
  refine ⟨hret,hacc.trans ?_⟩
  unfold pendingZeros
  by_cases hempty : o.buf.unused = o.buf.size
  · simp [stream,used,hempty,zeros]
  · have hdrop := h.blank.drop_eq
    rw [show o.buf.data.length-o.used = o.buf.unused by rw [used]; omega] at hdrop
    rw [if_neg hempty,if_neg hempty,stream,List.append_assoc,zeros,← hdrop,List.take_append_drop]

/-- On a descriptor that got whole buffers so far, the free part follows from the length of the
stream. -/
theorem pendingZeros_plain {o o' : Output} (h : o'.Aligned) (hframe : Frame o o')
    (hfresh : o.sys.accepted = []) :
    o'.pendingZeros = (o'.buf.size-o'.stream.length % o'.buf.size) % o'.buf.size := by
  obtain ⟨k,hk,-⟩ := hframe.whole
  have hpos := h.pos
  have hle := h.unused_le
  have hlen : o'.stream.length = o'.used+k*o'.buf.size := by
    rw [stream,List.length_append,hk,hfresh,hframe.size,List.length_nil,Nat.zero_add,
      List.length_take,h.length,used,min_eq_left (Nat.sub_le _ _),Nat.add_comm]
  rw [hlen,Nat.add_mul_mod_self_right,pendingZeros,used]
  by_cases hfull : o'.buf.unused = 0
  · simp [hfull,hpos.ne]
  · rw [Nat.mod_eq_of_lt (by omega : o'.buf.size-o'.buf.unused < o'.buf.size),
      Nat.sub_sub_self hle]
    split
    · rename_i hempty
      rw [hempty,Nat.mod_self]
    · rw [Nat.mod_eq_of_lt (by omega)]

section
variable {μ : Type*} (engine : MatchEngine μ)

def delivered (a : Archiver μ) : Bytes := (builderFinish a).2.builder.out.sys.accepted

theorem delivered_eq {a : Archiver μ} (h : a.builder.out.Ready) :
    delivered a = a.builder.out.stream ++ zeros a.builder.out.pendingZeros := by
  obtain ⟨hret,hacc⟩ := h.flush_accepted
  rw [← hacc,delivered,builderFinish,if_neg h.handle]
  simp only [not_lt.mpr hret,if_false]
  split <;> rfl

theorem runMethods_adds (ms : List Method) (hms : ∀ m ∈ ms, m.archives = true) {start : Archiver μ}
    (hready : start.builder.out.Ready)
    (hsep : ∀ t ∈ (runMethods engine ms start).attempts, t.Separate) :
    let r := runMethods engine ms start
    r.archiver.builder.out.Ready ∧
      (start.builder.out.buf.canSplice = false → Frame start.builder.out r.archiver.builder.out) ∧
      ∃ blocks, List.Forall₂ Attempt.Adds r.attempts blocks ∧
        r.archiver.builder.out.stream = start.builder.out.stream ++ blocks.flatten := by
  refine runMethods_invariant engine (P := fun b ts _ => (∀ t ∈ ts, t.Separate) → b.out.Ready ∧
    (start.builder.out.buf.canSplice = false → Frame start.builder.out b.out) ∧
    ∃ blocks, List.Forall₂ Attempt.Adds ts blocks ∧
      b.out.stream = start.builder.out.stream ++ blocks.flatten) ms
    (fun _ => ⟨hready,fun _ => Frame.refl _,[],.nil,by simp⟩) ?_ hsep
  intro m hm b ts _ us b' hb hperforms
  rw [Method.starts_of_archives (hms m hm),if_neg Bool.false_ne_true]
  intro hsep
  obtain ⟨hbready,hframe,blocks,hadds,hstream⟩ := hb fun t ht => hsep t (by simp [ht])
  obtain ⟨hready',hframe',more,hadds',hstream'⟩ :=
    (hperforms.works (hms m hm)).adds hbready fun t ht => hsep t (by simp [ht])
  refine ⟨hready',fun hplain => ?_,blocks ++ more,List.rel_append hadds hadds',?_⟩
  · have hfirst := hframe hplain
    exact hfirst.trans (hframe' (hfirst.canSplice.trans hplain))
  · rw [hstream',hstream,List.flatten_append,List.append_assoc]

theorem newArchiver_setHandle (p : Process) {blockFactor : ℕ} (hf : 1 ≤ blockFactor)
    (options : BBuilderOptions) (userLookup : Option BUserLookup) (matching : μ) (fd : ℤ)
    (fifo : Bool) (release : Option (ℕ × ℕ × ℕ)) (sys : Sys) :
    (builderSetHandle fd fifo release sys
      (newArchiver p blockFactor options userLookup matching)).builder.out =
        opened blockFactor fd fifo release sys := by
  have hne : blockFactor ≠ 0 := by omega
  simp only [builderSetHandle,Archiver.setOut,newArchiver,bBuilderNew,hne,ne_eq,not_false_eq_true,
    if_true,opened]

theorem newArchiver_opened (p : Process) {blockFactor : ℕ} (hf : 1 ≤ blockFactor)
    (hbig : 512*blockFactor < 2^63) (options : BBuilderOptions) (userLookup : Option BUserLookup)
    (matching : μ) {fd : ℤ} (hfd : fd ≠ 0) (fifo : Bool) (release : Option (ℕ × ℕ × ℕ)) {sys : Sys}
    (hsys : sys.Reliable) (hfresh : sys.accepted = []) {start : Archiver μ}
    (hstart : start = builderSetHandle fd fifo release sys
      (newArchiver p blockFactor options userLookup matching)) :
    start.builder.out = opened blockFactor fd fifo release sys ∧ start.builder.out.Ready ∧
      start.builder.out.stream = [] := by
  have hout : start.builder.out = opened blockFactor fd fifo release sys := by
    rw [hstart]
    exact newArchiver_setHandle p hf options userLookup matching fd fifo release sys
  refine ⟨hout,?_,?_⟩
  · rw [hout]
    exact ready_opened hf hbig hfd fifo release hsys
  · rw [hout,stream_opened,hfresh]

/-- The archive of any calls: the blocks of the members, then the zeros of the last buffer. So the
end marker of two zero blocks is there exactly when these are enough for it. -/
theorem finish_delivers (ms : List Method) (hms : ∀ m ∈ ms, m.archives = true) (p : Process)
    {blockFactor : ℕ} (hf : 1 ≤ blockFactor) (hbig : 512*blockFactor < 2^63)
    (options : BBuilderOptions) (userLookup : Option BUserLookup) (matching : μ) {fd : ℤ}
    (hfd : fd ≠ 0) (fifo : Bool) (release : Option (ℕ × ℕ × ℕ)) {sys : Sys} (hsys : sys.Reliable)
    (hfresh : sys.accepted = []) {start : Archiver μ} (hstart : start = builderSetHandle fd fifo
      release sys (newArchiver p blockFactor options userLookup matching)) {r : Run μ}
    (hr : r = runMethods engine ms start) (hsep : ∀ t ∈ r.attempts, t.Separate) :
    ∃ blocks, List.Forall₂ Attempt.Adds r.attempts blocks ∧
      delivered r.archiver = blocks.flatten ++ zeros r.archiver.builder.out.pendingZeros ∧
      ((∃ k, 1024 ≤ k ∧ delivered r.archiver = blocks.flatten ++ zeros k) ↔
        1024 ≤ r.archiver.builder.out.pendingZeros) ∧
      (start.builder.out.buf.canSplice = false → r.archiver.builder.out.pendingZeros =
        (512*blockFactor-blocks.flatten.length % (512*blockFactor)) % (512*blockFactor)) := by
  subst hr
  obtain ⟨hout,hready,hempty⟩ := newArchiver_opened p hf hbig options userLookup matching hfd fifo
    release hsys hfresh hstart
  obtain ⟨hready',hframe,blocks,hadds,hstream⟩ := runMethods_adds engine ms hms hready hsep
  rw [hempty,List.nil_append] at hstream
  have hdelivered := delivered_eq hready'
  rw [hstream] at hdelivered
  refine ⟨blocks,hadds,hdelivered,⟨?_,fun hle => ⟨_,hle,hdelivered⟩⟩,fun hplain => ?_⟩
  · rintro ⟨k,hk,hk'⟩
    have hsame := congrArg List.length (List.append_cancel_left (hk'.symm.trans hdelivered))
    rw [zeros_length,zeros_length] at hsame
    omega
  · have hwhole := hframe hplain
    have haccepted : start.builder.out.sys.accepted = [] := by
      rw [hout]
      exact hfresh
    rw [pendingZeros_plain hready'.toAligned hwhole haccepted,hwhole.size,hout,
      opened_size hf hbig fd fifo release sys,hstream]

end

def openArchiver (blockFactor : ℕ) : Archiver Unit :=
  builderSetHandle 4 false none ⟨[],[],[],.ok⟩ (newArchiver ⟨false,1⟩ blockFactor
    ⟨true,false,false,false,false,false,false⟩ none ())

def emptyFile : Method :=
  .archive [([102],⟨.answering ⟨sIfreg+0o644,0,0,0,0,0,0,7,1⟩ 5 ⟨.ok [],[],⟨[],[]⟩⟩,.eof⟩)]

theorem finish_delivers_emptyFile :
    (emptyFile.perform noPatterns (openArchiver 3)).1 = none ∧
    ∃ blocks, List.Forall₂ Attempt.Adds
        (runMethods noPatterns [emptyFile] (openArchiver 3)).attempts blocks ∧
      ∃ k, 1024 ≤ k ∧ delivered (runMethods noPatterns [emptyFile] (openArchiver 3)).archiver =
        blocks.flatten ++ zeros k := by
  obtain ⟨blocks,hadds,-,hiff,-⟩ := finish_delivers noPatterns [emptyFile] (by decide) ⟨false,1⟩
    (by decide : 1 ≤ 3) (by decide) ⟨true,false,false,false,false,false,false⟩ none ()
    (by decide : (4 : ℤ) ≠ 0) false none (by decide : Sys.Reliable ⟨[],[],[],.ok⟩) rfl rfl rfl
    (by unfold Attempt.Separate; decide +kernel)
  exact ⟨by decide +kernel,blocks,hadds,hiff.mpr (by decide +kernel)⟩

/-- With a buffer of one block there is nothing behind the header. -/
theorem no_marker_emptyFile : (emptyFile.perform noPatterns (openArchiver 1)).1 = none ∧
    ¬∃ blocks, List.Forall₂ Attempt.Adds
        (runMethods noPatterns [emptyFile] (openArchiver 1)).attempts blocks ∧
      ∃ k, 1024 ≤ k ∧ delivered (runMethods noPatterns [emptyFile] (openArchiver 1)).archiver =
        blocks.flatten ++ zeros k := by
  refine ⟨by decide +kernel,?_⟩
  rintro ⟨blocks,-,k,hk,hdelivered⟩
  have hlen : (delivered (runMethods noPatterns [emptyFile] (openArchiver 1)).archiver).length =
      512 := by decide +kernel
  rw [hdelivered,List.length_append,zeros_length] at hlen
  omega

end ArchiveTarBuilder
