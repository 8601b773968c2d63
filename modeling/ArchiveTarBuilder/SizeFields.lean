import ArchiveTarBuilder.EndMarker
import ArchiveTarBuilder.Framing
import ArchiveTarBuilder.SilentFailures

/-! The size field of every header against the blocks behind it, for a reader that trusts it
whatever the type. A hard link has the size of its file in the field and no contents behind it. -/
namespace ArchiveTarBuilder
open Region CString Output

/-- Headers of any type, each followed by exactly the blocks of the number in its size field. -/
inductive InStep : Bytes → Prop
  | nil : InStep []
  | header {block : BHeaderBlock} {data rest : Bytes} (valid : block.valid = true)
      (size : data.length = roundUp 512 (readSize block.size.bytes)) (h : InStep rest) :
      InStep (block.toBytes ++ data ++ rest)

theorem InStep.append {xs ys : Bytes} (h : InStep xs) (h' : InStep ys) : InStep (xs ++ ys) := by
  induction h with
  | nil => exact h'
  | header valid size h ih =>
    rw [List.append_assoc]
    exact .header valid size ih

theorem InStep.tail {block : BHeaderBlock} {bytes : Bytes} (h : InStep (block.toBytes ++ bytes)) :
    roundUp 512 (readSize block.size.bytes) ≤ bytes.length ∧
      InStep (bytes.drop (roundUp 512 (readSize block.size.bytes))) := by
  generalize hall : block.toBytes ++ bytes = all at h
  cases h with
  | nil => simpa using congrArg List.length hall
  | header valid size h =>
    obtain ⟨rfl,rfl⟩ := BHeaderBlock.toBytes_append_inj hall
    rw [← size,List.drop_left,List.length_append]
    exact ⟨Nat.le_add_right _ _,h⟩

theorem InStep.next {bytes : Bytes} (h : InStep bytes) (hne : bytes ≠ []) :
    512+roundUp 512 (readSize (BHeaderBlock.ofBytes (bytes.take 512)).size.bytes) ≤ bytes.length ∧
      InStep (bytes.drop (512+roundUp 512
        (readSize (BHeaderBlock.ofBytes (bytes.take 512)).size.bytes))) := by
  cases h with
  | nil => exact absurd rfl hne
  | @header block data rest valid size h =>
    have hstep := (InStep.header valid size h)
    rw [List.append_assoc] at hstep ⊢
    obtain ⟨hle,htail⟩ := hstep.tail
    rw [List.take_left' (by simp),BHeaderBlock.ofBytes_toBytes,← List.drop_drop,
      List.drop_left' (by simp),List.length_append,BHeaderBlock.toBytes_length]
    exact ⟨by omega,htail⟩

/-- Extension records are in step by themselves, so what is behind them decides. -/
theorem Recorded.inStep {path linkpath : Option Bytes} {bytes : Bytes}
    (h : Recorded path linkpath bytes) : InStep bytes ∧
      ∀ rest, InStep (bytes ++ rest) ↔ InStep rest := by
  have hone {block : BHeaderBlock} {data : Bytes} (valid : block.valid = true)
      (size : block.dataSize = data.length) (htype : hasData block.linktype = true) :
      InStep (block.toBytes ++ pad512 data) ∧
        ∀ rest, InStep (block.toBytes ++ pad512 data ++ rest) ↔ InStep rest := by
    rw [BHeaderBlock.dataSize,if_pos htype] at size
    have hpad : (pad512 data).length = roundUp 512 (readSize block.size.bytes) := by
      rw [size]
      exact padTo_length _ _ _
    refine ⟨?_,fun rest => ⟨fun hstep => ?_,.header valid hpad⟩⟩
    · have hstep := InStep.header valid hpad .nil
      rwa [List.append_nil] at hstep
    · rw [List.append_assoc] at hstep
      have htail := hstep.tail.2
      rwa [← hpad,List.drop_left] at htail
  cases h with
  | nothing => exact ⟨.nil,fun rest => Iff.rfl⟩
  | longlink valid size type => exact hone valid size (by rw [type]; decide)
  | longdest valid size type => exact hone valid size (by rw [type]; decide)
  | pax valid size type read => exact hone valid size (by rw [type]; decide)

/-- The number in the member's own header is what follows: it is zero, or the contents are written
and come whole. -/
def SizeFollowed (b : BBuilder) (c : MemberCall) (header : BHeader) (records : Bytes) : Prop :=
  header.size = 0 ∨ (header.isIfreg = true ∧ 0 < c.fd ∧ Delivers b.out (records.length+512)
    (freeBehind b.out (records.length+512)) c.src.file header.size)

theorem headed_writesContents {b : BBuilder} (h : b.out.Ready) {c : MemberCall} {header : BHeader}
    (hfound : memberHeader b.userLookup b.hardlinkCache c.src c.memberName c.st = some header)
    (hboth : ¬GnuBothLong b.options header) {records : Bytes}
    (hrec : extensionRecords b.process b.options header (longlinkPath c.memberName c.st) =
      some records) :
    ∃ b', Headed b c.path c.memberName c.st c.fd c.src (c.write b) header records b' ∧
      andWrite (writeLongRecords (memberStart b c.src c.memberName c.st) header c.memberName c.st)
        (writeHeader · header) = (true,b') := by
  obtain ⟨b',hhead,hwrote,hused⟩ := writeHead_ready (b := memberStart b c.src c.memberName c.st) h
    c.memberName c.st hboth (fun hl => (memberHeader_of hfound).linkdest_isSome hl) hrec
  refine ⟨b',⟨hfound,hrec,hwrote,hused,?_⟩,hhead⟩
  rw [MemberCall.write,bBuilderWriteFile_some c.path c.fd hfound,writeMember,hhead]
  rfl

/-- What a call added behind the records is in step when the number is what follows. -/
theorem Headed.inStep {b : BBuilder} (h : b.out.Ready) {c : MemberCall} {r : Bool × BBuilder}
    {header : BHeader} {records : Bytes} {b' : BBuilder}
    (hm : Headed b c.path c.memberName c.st c.fd c.src r header records b')
    (hsize : header.size < 2^64) (hfollowed : SizeFollowed b c header records) {data : Bytes}
    (hdata : (contentsOf b'.out header c.fd c.src.file).2.stream = b'.out.stream ++ data) :
    InStep (ownHeader b.process header ++ data) := by
  obtain ⟨-,hstream,hlen⟩ := hm.delivers h fun _ => hfollowed.imp id And.right
  obtain rfl := List.append_cancel_left (hdata.symm.trans hstream)
  have hown : (pad512 (if header.isIfreg then c.src.file.contents.take header.size else [])).length =
      roundUp 512 (readSize (bHeaderEncodeBlock b.process .zero header).size.bytes) := by
    rw [encodeBlock_size b.process header hsize,pad512_length,hlen,paddedSize_eq]
    rcases hfollowed with hzero | ⟨hreg,-⟩
    · rw [hzero,ite_self]
    · rw [if_pos hreg]
  have hstep := InStep.header (encodeBlock_valid b.process .zero header) hown .nil
  rwa [List.append_nil] at hstep

/-- Names and targets that a call can be for: no NUL in them, and short enough for the records. -/
def Attempt.Recordable (t : Attempt) : Prop :=
  ∀ header ∈ t.header,
    ArchiveTarBuilder.Recordable t.builder.options header (longlinkPath t.call.memberName t.call.st) ∧
      (longlinkPath t.call.memberName t.call.st).length+21 < 2^31

/-- The number in the member's own header is what follows, if the call gets as far as a header. -/
def Attempt.SizeFollowed (t : Attempt) : Prop :=
  ∀ header ∈ t.header, ∀ records ∈ t.records header,
    ArchiveTarBuilder.SizeFollowed t.builder t.call header records

/-- Records that cannot be written although their text is short enough are not tried. -/
theorem writeLongRecords_none {b : BBuilder} {header : BHeader} {memberName : Bytes} {st : Stat}
    (hrec : extensionRecords b.process b.options header (longlinkPath memberName st) = none)
    (hpax : bHeaderComputePaxLength (longlinkPath memberName st) pathKey ≠ 2^64-1) :
    writeLongRecords b header memberName st =
      (false,(b.setErrno .enametoolong).setError .warn "File name too long" memberName) := by
  unfold extensionRecords at hrec
  split at hrec
  · rename_i hlong
    split at hrec
    · cases hrec
    · rename_i hgnu
      split at hrec
      · cases hrec
      · rename_i hno
        have hpaxOff : b.options.paxExtensions = false := by
          cases hp : b.options.paxExtensions with
          | false => rfl
          | true => exact absurd (by rw [hp]; simpa using hpax) hno
        simp [writeLongRecords,hlong,hgnu,hpaxOff]
  · cases hrec

theorem HeaderOf.size_le {cache : Option HardlinkCache} {src : Source} {memberName : Bytes} {st : Stat}
    {header : BHeader} (h : HeaderOf cache src memberName st header) : header.size ≤ st.size := by
  rw [h.size]
  split
  · exact le_rfl
  · exact Nat.zero_le _

/-- A call keeps a reader in step that trusts the size fields when its own number is what follows.
-/
theorem Attempt.inStep {t : Attempt} (h : t.builder.out.Ready) (hsize : t.call.st.size < 2^64)
    (hsep : t.Separate) (hrecordable : t.Recordable) (hfollowed : t.SizeFollowed) :
    ∃ added, t.Adds added ∧ InStep added := by
  obtain ⟨b,c⟩ := t
  unfold Separate Recordable SizeFollowed Adds at *
  simp only [after,header,records,MemberCall.write] at h hsep hrecordable hfollowed ⊢
  cases hh : memberHeader b.userLookup b.hardlinkCache c.src c.memberName c.st with
  | none =>
    obtain ⟨-,⟨e,hout⟩,-⟩ := bBuilderWriteFile_none c.path c.fd hh
    exact ⟨[],by rw [hout,stream_setErrno,List.append_nil],.nil⟩
  | some header =>
    obtain ⟨hok,hshort⟩ := hrecordable header hh
    have hboth := hsep header hh
    have hof := memberHeader_of hh
    cases hrec : extensionRecords b.process b.options header (longlinkPath c.memberName c.st) with
    | none =>
      have hpax := computePaxLength_ne hok.path (by decide : pathKey.length ≤ 8) hshort
      have hnone := writeLongRecords_none (b := memberStart b c.src c.memberName c.st) hrec hpax
      refine ⟨[],?_,.nil⟩
      rw [bBuilderWriteFile_some c.path c.fd hh,List.append_nil]
      simp only [writeMember,andWrite,hnone,Bool.false_eq_true,if_false]
      rfl
    | some records =>
      obtain ⟨b',hm,hheaded⟩ := headed_writesContents h hh hboth hrec
      obtain ⟨-,-,data,hdata,hstream⟩ := hm.stream
      have hstep := hm.inStep h (hof.size_le.trans_lt hsize) (hfollowed header hh records hrec) hdata
      have hwhole := (recorded_extensionRecords hrec hboth (fun hl => hof.linkdest_isSome hl)
        hok).inStep.2 (ownHeader b.process header ++ data)
      simp only [MemberCall.write] at hstream
      rw [← hwhole,← List.append_assoc] at hstep
      exact ⟨_,hstream.trans (List.append_assoc _ _ _),hstep⟩

/-- The members that keep a reader in step. -/
structure Attempt.Followed (t : Attempt) : Prop where
  separate : t.Separate
  recordable : t.Recordable
  size : t.call.st.size < 2^64
  followed : t.SizeFollowed

section
variable {μ : Type*} (engine : MatchEngine μ)

/-- The archive of any calls, each for a member that keeps a reader in step: headers with exactly
the blocks of their size fields behind them, then zeros. -/
theorem archive_inStep (ms : List Method) (hms : ∀ m ∈ ms, m.archives = true) (p : Process)
    {blockFactor : ℕ} (hf : 1 ≤ blockFactor) (hbig : 512*blockFactor < 2^63)
    (options : BBuilderOptions) (userLookup : Option BUserLookup) (matching : μ) {fd : ℤ}
    (hfd : fd ≠ 0) (fifo : Bool) (release : Option (ℕ × ℕ × ℕ)) {sys : Sys} (hsys : sys.Reliable)
    (hfresh : sys.accepted = []) {start : Archiver μ} (hstart : start = builderSetHandle fd fifo
      release sys (newArchiver p blockFactor options userLookup matching)) {r : Run μ}
    (hr : r = runMethods engine ms start) (hfollowed : ∀ t ∈ r.attempts, t.Followed) :
    InStep r.archiver.builder.out.stream ∧
      (∃ k, delivered r.archiver = r.archiver.builder.out.stream ++ zeros k) ∧
      ∀ t ∈ r.attempts, ∀ header ∈ t.header, ∀ records ∈ t.records header,
        header.linktype = 49 → header.size = 0 := by
  subst hr
  obtain ⟨-,hready,hempty⟩ := newArchiver_opened p hf hbig options userLookup matching hfd fifo
    release hsys hfresh hstart
  obtain ⟨hready',added,hadded,hstep⟩ := runMethods_keeps engine
    (R := fun b b' => ∃ added, b'.out.stream = b.out.stream ++ added ∧ InStep added)
    (fun b => ⟨[],by simp,.nil⟩)
    (fun b b' b'' h h' => by
      obtain ⟨added,hadded,hstep⟩ := h
      obtain ⟨added',hadded',hstep'⟩ := h'
      exact ⟨added ++ added',by rw [hadded',hadded,List.append_assoc],hstep.append hstep'⟩)
    (fun b e err => ⟨[],(List.append_nil _).symm,.nil⟩)
    (fun t ht hgood => ⟨(Attempt.adds ht hgood.separate).1,
      Attempt.inStep ht hgood.size hgood.separate hgood.recordable hgood.followed⟩)
    ms hms hready hfollowed
  rw [hempty,List.nil_append] at hadded
  refine ⟨hadded ▸ hstep,⟨_,delivered_eq hready'⟩,fun t ht header hh records hrec htype => ?_⟩
  rcases (hfollowed t ht).followed header hh records hrec with hzero | ⟨hreg,-⟩
  · exact hzero
  · rw [BHeader.isIfreg,htype] at hreg
    exact absurd hreg (by decide)

end

def linkArchiver : Archiver Unit :=
  builderSetHandle 4 false none ⟨[],[],[],.ok⟩ (newArchiver ⟨false,1⟩ 2
    ⟨true,false,false,true,false,false,false⟩ none ())

def namedFile (name : UInt8) (ino n : ℕ) : Method :=
  .archive [([name],⟨.answering ⟨sIfreg+0o644,0,0,n,0,1,0,ino,2⟩ 5
    ⟨.ok [],[],⟨List.replicate n 1,[]⟩⟩,.eof⟩)]

def emptyLinkRun : Run Unit :=
  runMethods noPatterns [namedFile 102 7 0,namedFile 103 7 0,namedFile 104 8 700] linkArchiver

theorem archive_inStep_emptyLink :
    (emptyLinkRun.attempts.map fun t => t.header.map BHeader.linktype) =
      [some 48,some 49,some 48] ∧ InStep emptyLinkRun.archiver.builder.out.stream := by
  refine ⟨by decide +kernel,(archive_inStep noPatterns
    [namedFile 102 7 0,namedFile 103 7 0,namedFile 104 8 700] (by decide) ⟨false,1⟩
    (by decide : 1 ≤ 2) (by decide) ⟨true,false,false,true,false,false,false⟩ none ()
    (by decide : (4 : ℤ) ≠ 0) false none (by decide : Sys.Reliable ⟨[],[],[],.ok⟩) rfl
    (rfl : linkArchiver = _) (rfl : emptyLinkRun = _) fun t ht => ?_).1⟩
  have hall : ∀ t ∈ emptyLinkRun.attempts, t.call.st.size < 2^64 ∧ ∀ header ∈ t.header,
        ¬GnuBothLong t.builder.options header ∧ t.builder.options.gnuExtensions = false ∧
        (0 ∉ longlinkPath t.call.memberName t.call.st ∧
          (longlinkPath t.call.memberName t.call.st).length+21 < 2^31) ∧
        (∀ dest ∈ header.linkdest, 0 ∉ dest ∧ dest.length+21 < 2^31) ∧
        ∀ records ∈ t.records header,
          header.size = 0 ∨ (header.isIfreg = true ∧ 0 < t.call.fd ∧
            t.builder.out.buf.canSplice = false ∧
            (reading t.builder.out.buf.size (freeBehind t.builder.out (records.length+512))
              header.size t.call.src.file).toOption.isSome = true) := by
    decide +kernel
  obtain ⟨hsize,hheader⟩ := hall t ht
  refine ⟨fun header hh => (hheader header hh).1,fun header hh => ?_,hsize,fun header hh records hr => ?_⟩
  · obtain ⟨-,hgnu,⟨hnul,hshort⟩,hdest,-⟩ := hheader header hh
    exact ⟨⟨hnul,hdest,fun hg => by rw [hgnu] at hg; cases hg⟩,hshort⟩
  · rcases (hheader header hh).2.2.2.2 records hr with hzero | ⟨hreg,hfd,hplain,hreading⟩
    · exact Or.inl hzero
    · refine Or.inr ⟨hreg,hfd,(if_pos (Or.inl hplain)).mpr ?_,if_pos (Or.inl hplain)⟩
      cases hread : reading _ _ _ _ with
      | ok rest => exact ⟨rest,rfl⟩
      | error p => simp [hread,Except.toOption] at hreading

def fullLinkRun : Run Unit :=
  runMethods noPatterns [namedFile 102 7 700,namedFile 103 7 700] linkArchiver

/-- The header of the second name announces two blocks, and there are none. -/
theorem not_inStep_fullLink : fullLinkRun.attempts.map Attempt.returned = [true,true] ∧
    (fullLinkRun.attempts.map fun t => t.header.map fun header => (header.linktype,header.size)) =
      [some (48,700),some (49,700)] ∧
    ¬InStep fullLinkRun.archiver.builder.out.stream := by
  refine ⟨by decide +kernel,by decide +kernel,fun hstep => ?_⟩
  have hsecond := (hstep.next (by decide +kernel)).2
  have hdata := (hsecond.next (by decide +kernel)).1
  exact absurd hdata (by decide +kernel)

end ArchiveTarBuilder
