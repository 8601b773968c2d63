import ArchiveTarBuilder.LongNames

/-! What a call that fails leaves in the stream. The header has been written when the contents turn
out to be too short, and the rest of the buffer stays taken. -/
namespace ArchiveTarBuilder
open Region CString Output

/-- Complete members one after the other: extension records, then the member's own header, each
header followed by exactly the blocks that its size field announces. -/
inductive WholeMembers : Bytes → Prop
  | nil : WholeMembers []
  | extension {block : BHeaderBlock} {data rest : Bytes} (valid : block.valid = true)
      (size : data.length = roundUp 512 block.dataSize)
      (type : block.linktype ∈ [bHeaderLonglinkType,bHeaderLongdestType,bHeaderPaxType])
      (more : rest ≠ []) (h : WholeMembers rest) : WholeMembers (block.toBytes ++ data ++ rest)
  | member {block : BHeaderBlock} {data rest : Bytes} (valid : block.valid = true)
      (size : data.length = roundUp 512 block.dataSize)
      (type : block.linktype ∉ [bHeaderLonglinkType,bHeaderLongdestType,bHeaderPaxType])
      (h : WholeMembers rest) : WholeMembers (block.toBytes ++ data ++ rest)

theorem BHeaderBlock.toBytes_append_inj {block other : BHeaderBlock} {bytes data rest : Bytes}
    (h : block.toBytes ++ bytes = other.toBytes ++ data ++ rest) :
    other = block ∧ bytes = data ++ rest := by
  rw [List.append_assoc] at h
  obtain ⟨hfirst,hrest⟩ := List.append_inj h (by simp)
  have hcast := congrArg BHeaderBlock.ofBytes hfirst
  rw [BHeaderBlock.ofBytes_toBytes,BHeaderBlock.ofBytes_toBytes] at hcast
  exact ⟨hcast.symm,hrest⟩

theorem zeros_ne_header {n : ℕ} {block : BHeaderBlock} (valid : block.valid = true) (rest : Bytes) :
    zeros n ≠ block.toBytes ++ rest := by
  intro heq
  have htake := congrArg (List.take 512) heq
  have hlen := congrArg List.length heq
  simp only [zeros_length,List.length_append,BHeaderBlock.toBytes_length] at hlen
  rw [List.take_left' (by simp),zeros,List.take_replicate,min_eq_left (by omega)] at htake
  exact toBytes_ne_zeros valid htake.symm

/-- Bytes that begin with a header begin with all its data, and whole members follow. -/
theorem WholeMembers.tail {block : BHeaderBlock} {bytes : Bytes}
    (h : WholeMembers (block.toBytes ++ bytes)) :
    block.valid = true ∧ roundUp 512 block.dataSize ≤ bytes.length ∧
      WholeMembers (bytes.drop (roundUp 512 block.dataSize)) := by
  generalize hall : block.toBytes ++ bytes = all at h
  cases h with
  | nil => simpa using congrArg List.length hall
  | extension valid size type more h =>
    obtain ⟨rfl,rfl⟩ := BHeaderBlock.toBytes_append_inj hall
    rw [← size,List.drop_left,List.length_append]
    exact ⟨valid,Nat.le_add_right _ _,h⟩
  | member valid size type h =>
    obtain ⟨rfl,rfl⟩ := BHeaderBlock.toBytes_append_inj hall
    rw [← size,List.drop_left,List.length_append]
    exact ⟨valid,Nat.le_add_right _ _,h⟩

theorem wholeMembers_zeros {n : ℕ} (h : WholeMembers (zeros n)) : n = 0 := by
  generalize hall : zeros n = all at h
  cases h with
  | nil => simpa using congrArg List.length hall
  | extension valid size type more h =>
    rw [List.append_assoc] at hall
    exact (zeros_ne_header valid _ hall).elim
  | member valid size type h =>
    rw [List.append_assoc] at hall
    exact (zeros_ne_header valid _ hall).elim

theorem Recorded.whole_behind {path linkpath : Option Bytes} {bytes : Bytes}
    (h : Recorded path linkpath bytes) (block : BHeaderBlock) (rest : Bytes) :
    WholeMembers (bytes ++ (block.toBytes ++ rest)) ↔ WholeMembers (block.toBytes ++ rest) := by
  have hne : block.toBytes ++ rest ≠ [] := by
    intro hnil
    have hlen := congrArg List.length hnil
    simp at hlen
  have hone {ext : BHeaderBlock} {data : Bytes} (valid : ext.valid = true)
      (size : ext.dataSize = data.length)
      (type : ext.linktype ∈ [bHeaderLonglinkType,bHeaderLongdestType,bHeaderPaxType]) :
      WholeMembers (ext.toBytes ++ pad512 data ++ (block.toBytes ++ rest)) ↔
        WholeMembers (block.toBytes ++ rest) := by
    have hpad : (pad512 data).length = roundUp 512 ext.dataSize := by rw [size]; exact padTo_length _ _ _
    refine ⟨fun hw => ?_,fun hw => .extension valid hpad type hne hw⟩
    rw [List.append_assoc] at hw
    have htail := hw.tail.2.2
    rwa [← hpad,List.drop_left] at htail
  cases h with
  | nothing => exact Iff.rfl
  | longlink valid size type => exact hone valid size (by rw [type]; decide)
  | longdest valid size type => exact hone valid size (by rw [type]; decide)
  | pax valid size type read => exact hone valid size (by rw [type]; decide)

/-- A member's own header with data behind it of which the part that is too much is zeros. -/
theorem wholeMembers_member_iff {block : BHeaderBlock} {data : Bytes} (hvalid : block.valid = true)
    (htype : block.linktype ∉ [bHeaderLonglinkType,bHeaderLongdestType,bHeaderPaxType])
    (hzeros : ∃ k, data.drop (roundUp 512 block.dataSize) = zeros k) :
    WholeMembers (block.toBytes ++ data) ↔ data.length = roundUp 512 block.dataSize := by
  obtain ⟨k,hk⟩ := hzeros
  constructor
  · intro hw
    obtain ⟨-,hle,htail⟩ := hw.tail
    rw [hk] at htail
    have hnone := congrArg List.length hk
    rw [List.length_drop,zeros_length,wholeMembers_zeros htail] at hnone
    omega
  · intro hlen
    have hw := WholeMembers.member hvalid hlen htype .nil
    rwa [List.append_nil] at hw

/-- The number of bytes that the contents of a file add to the stream when `unused` bytes of the
buffer of `o` are free, from the answers of `read()` and `splice()`: the padded size when every
read gets what it asks for, all that the buffer holds when one falls short. -/
def addedLength (o : Output) (unused : ℕ) (file : File) (n : ℕ) : ℕ :=
  if o.buf.canSplice = false ∨ n ≤ unused then
    match reading o.buf.size unused n file with
    | .ok _ => paddedSize n
    | .error (off,room) => off+room
  else
    match reading o.buf.size unused unused file with
    | .error (off,room) => off+room
    | .ok file' =>
      let r := splicing (n-unused) file'.contents.length o.sys.splices
      let m := unused+r.1
      match r.2 with
      | .failed =>
        match reading o.buf.size o.buf.size (n-m) ⟨file.contents.drop m,file'.reads⟩ with
        | .ok _ => m+paddedSize (n-m)
        | .error (off,room) => m+(off+room)
      | _ => paddedSize m

/-- `data` was added to the stream: `length` bytes, zeros where they are too many. -/
structure Added (o o' : Output) (n length : ℕ) (data : Bytes) : Prop where
  stream : o'.stream = o.stream ++ data
  length : data.length = length
  zeros : ∃ k, data.drop (paddedSize n) = zeros k

theorem drop_zeros {xs : Bytes} (j : ℕ) {n : ℕ} (h : xs.length ≤ n) :
    ∃ k, (xs ++ zeros j).drop (paddedSize n) = zeros k := by
  have hle : n ≤ paddedSize n := le_roundUp 512 n
  refine ⟨j-(paddedSize n-xs.length),?_⟩
  rw [List.drop_append,List.drop_eq_nil_of_le (by omega),List.nil_append,zeros,List.drop_replicate,
    zeros]

theorem ReadShort.added {o out : Output} {file : File} {left off room k n : ℕ}
    (h : ReadShort (contentsStart o file) out left off room k) (hn : left ≤ n) :
    ∃ data, Added o out n (off+room) data := by
  have hsup : k ≤ file.contents.length := h.supplied
  have hroom := h.lt_room
  have hleft := h.lt_left
  have hlen : (file.contents.take k).length = k := by rw [List.length_take]; omega
  refine ⟨_,h.stream.trans (List.append_assoc _ _ _),?_,drop_zeros _ (by simp only [contentsStart]; omega)⟩
  simp only [contentsStart,List.length_append,hlen,zeros_length]
  omega

theorem added_zeros {o p : Output} {n length k : ℕ} {xs : Bytes}
    (hstream : p.stream = o.stream ++ (xs ++ zeros k)) (hxs : xs.length ≤ n)
    (hlen : xs.length+k = length) : ∃ data, Added o p n length data :=
  ⟨_,hstream,by rw [List.length_append,zeros_length,hlen],drop_zeros k hxs⟩

/-- The answers of `write()` that are left when `n` more bytes fill the buffer and are flushed. -/
def Output.answersBehind (o : Output) (n : ℕ) : List WriteAnswer :=
  (flushAnswers o.buf.size)^[(o.used+n)/o.buf.size] o.sys.writes

/-- The one `write()` for the zeros behind spliced contents takes them all, when `taken` bytes come
before the contents and `unused` bytes of the buffer are free then. -/
def paddingTaken (o : Output) (taken unused : ℕ) (file : File) (n : ℕ) : Bool :=
  if o.buf.canSplice = false ∨ n ≤ unused then true
  else
    match reading o.buf.size unused unused file with
    | .error _ => true
    | .ok file' =>
      let r := splicing (n-unused) file'.contents.length o.sys.splices
      let m := unused+r.1
      match r.2 with
      | .failed => true
      | _ => takesAll (o.answersBehind (taken+unused)) (paddedSize m-m)

theorem answersBehind_unused {o : Output} (h : o.Aligned) :
    o.answersBehind (0+o.buf.unused) = flushAnswers o.buf.size o.sys.writes := by
  have hle := h.unused_le
  have hone : (o.used+(0+o.buf.unused))/o.buf.size = 1 := by
    rw [show o.used+(0+o.buf.unused) = o.buf.size by simp only [used]; omega,Nat.div_self h.pos]
  rw [answersBehind,hone]
  rfl

theorem paddingTaken_spliced {o : Output} (h : o.Aligned) {file file' : File} {n : ℕ}
    (hmode : ¬(o.buf.canSplice = false ∨ n ≤ o.buf.unused))
    (hread : reading o.buf.size o.buf.unused o.buf.unused file = .ok file') :
    paddingTaken o 0 o.buf.unused file n =
      let r := splicing (n-o.buf.unused) file'.contents.length o.sys.splices
      match r.2 with
      | .failed => true
      | _ => takesAll (flushAnswers o.buf.size o.sys.writes)
          (paddedSize (o.buf.unused+r.1)-(o.buf.unused+r.1)) := by
  rw [paddingTaken,if_neg hmode,hread,answersBehind_unused h]

theorem paddingTaken_extends {o o' : Output} (h : o.Aligned) {bytes : Bytes}
    (hext : Extends o o' bytes) (unused : ℕ) (file : File) (n : ℕ) :
    paddingTaken o' 0 unused file n = paddingTaken o bytes.length unused file n := by
  obtain ⟨k,hk,hused⟩ := hext.frame.flushed h hext.ready.toAligned hext.stream
  have hanswers : o'.answersBehind (0+unused) = o.answersBehind (bytes.length+unused) := by
    have hcount : (o.used+(bytes.length+unused))/o.buf.size = (o'.used+(0+unused))/o.buf.size+k := by
      rw [show o.used+(bytes.length+unused) = o'.used+(0+unused)+k*o.buf.size by omega,
        Nat.add_mul_div_right _ _ h.pos]
    rw [answersBehind,answersBehind,hext.frame.size,hk.answers,hcount,Function.iterate_add_apply]
  simp only [paddingTaken,hext.frame.size,hext.frame.canSplice,hext.frame.sys.splices,hanswers]

/-- Contents add `length` bytes, less what is missing of the zeros behind spliced bytes. -/
def ContentsAdd (o : Output) (file : File) (n length : ℕ) : Prop :=
  ∃ missing data, Added o (bFileWriteContents o file n).2 n (length-missing) data ∧
    missing ≤ length ∧ (missing = 0 ↔ paddingTaken o 0 o.buf.unused file n = true) ∧
    (0 < missing → length ≤ paddedSize n)

theorem adds_all {o : Output} {file : File} {n length : ℕ}
    (hadded : ∃ data, Added o (bFileWriteContents o file n).2 n length data)
    (htaken : paddingTaken o 0 o.buf.unused file n = true) : ContentsAdd o file n length := by
  obtain ⟨data,hdata⟩ := hadded
  exact ⟨0,data,hdata,Nat.zero_le _,iff_of_true rfl htaken,fun hlt => absurd hlt (lt_irrefl 0)⟩

theorem adds_reads {o : Output} (h : o.Ready) (file : File) (n : ℕ)
    (hmode : o.buf.canSplice = false ∨ n ≤ o.buf.unused) :
    ContentsAdd o file n (addedLength o o.buf.unused file n) := by
  have hreads := bFileWriteContents_reads h file n hmode
  refine adds_all ?_ (if_pos hmode)
  rw [addedLength,if_pos hmode]
  cases hread : reading o.buf.size o.buf.unused n file with
  | ok _ =>
    rw [hread] at hreads
    obtain ⟨p,hp,-,hstream,hsup,-⟩ := hreads
    have hlen : (file.contents.take n).length = n := by rw [List.length_take]; omega
    have hle : n ≤ paddedSize n := le_roundUp 512 n
    rw [pad512_eq,hlen] at hstream
    rw [hp]
    exact added_zeros hstream hlen.le (by simp only [hlen]; omega)
  | error p =>
    obtain ⟨off,room⟩ := p
    rw [hread] at hreads
    obtain ⟨p,k,hp,hs⟩ := hreads
    rw [hp]
    exact hs.added le_rfl

/-- Contents that were spliced to their end: `k` of the zeros behind them are written. -/
theorem adds_leave {o : Output} {file : File} {n m k : ℕ} (hmn : m ≤ n)
    (hm : m ≤ file.contents.length)
    (hstream : (bFileWriteContents o file n).2.stream = o.stream ++ file.contents.take m ++ zeros k)
    (hk : k ≤ paddedSize m-m)
    (htaken : k = paddedSize m-m ↔ paddingTaken o 0 o.buf.unused file n = true) :
    ContentsAdd o file n (paddedSize m) := by
  have hlen : (file.contents.take m).length = m := by rw [List.length_take]; omega
  have hle : m ≤ paddedSize m := le_roundUp 512 m
  rw [List.append_assoc] at hstream
  have hadded : ∃ data, Added o (bFileWriteContents o file n).2 n (m+k) data :=
    added_zeros hstream (by omega) (by omega)
  obtain ⟨data,hdata⟩ := hadded
  refine ⟨paddedSize m-m-k,data,?_,by omega,?_,fun _ => ?_⟩
  · rwa [show paddedSize m-(paddedSize m-m-k) = m+k by omega]
  · rw [← htaken]
    omega
  · exact paddedSize_le_of_dvd (hmn.trans (le_roundUp 512 n)) (dvd_roundUp 512 n (by decide))

/-- What contents add, on any descriptor that makes progress: all of `addedLength` when the zeros
behind spliced bytes are taken, less otherwise. -/
theorem bFileWriteContents_adds {o : Output} (h : o.Ready) (file : File) (n : ℕ) :
    ∃ missing data, Added o (bFileWriteContents o file n).2 n
        (addedLength o o.buf.unused file n-missing) data ∧
      missing ≤ addedLength o o.buf.unused file n ∧
      (missing = 0 ↔ paddingTaken o 0 o.buf.unused file n = true) ∧
      (0 < missing → addedLength o o.buf.unused file n ≤ paddedSize n) := by
  change ContentsAdd o file n (addedLength o o.buf.unused file n)
  by_cases hmode : o.buf.canSplice = false ∨ n ≤ o.buf.unused
  · exact adds_reads h file n hmode
  · rw [addedLength,if_neg hmode]
    obtain ⟨hcan,hn⟩ := not_or.mp hmode
    have hcan' : o.buf.canSplice = true := by simpa using hcan
    have hn' : o.buf.unused < n := by omega
    have hsplices := bFileWriteContents_splices h hcan' file hn'
    cases hread : reading o.buf.size o.buf.unused o.buf.unused file with
    | error p =>
      obtain ⟨off,room⟩ := p
      rw [hread] at hsplices
      obtain ⟨p,k,hp,hs⟩ := hsplices
      refine adds_all ?_ (by rw [paddingTaken,if_neg hmode,hread])
      rw [hp]
      exact hs.added hn'.le
    | ok file' =>
      have htaken := paddingTaken_spliced h.toAligned hmode hread
      have hmoved := splicing_moved (n-o.buf.unused) file'.contents.length o.sys.splices
      have hcontents := (readAll_ok h.pos (by omega) hread).2
      rw [hread] at hsplices
      simp only at hsplices htaken ⊢
      generalize splicing (n-o.buf.unused) file'.contents.length o.sys.splices = r
        at hsplices hmoved htaken ⊢
      have hm : o.buf.unused+r.1 ≤ file.contents.length := by
        have hle := (readAll_ok h.pos (by omega) hread).1
        have hfst := hmoved.1
        rw [hcontents,List.length_drop] at hfst
        omega
      generalize hmdef : o.buf.unused+r.1 = m at hsplices hm htaken ⊢
      have hlen : (file.contents.take m).length = m := by rw [List.length_take]; omega
      cases hr : r.2 with
      | complete =>
        simp only [hr] at hsplices hmoved htaken ⊢
        obtain ⟨res,p,k,hp,-,hstream,hk,htakes,-⟩ := hsplices
        exact adds_leave (by omega) hm (by rw [hp]; exact hstream) hk (by rw [htaken]; exact htakes)
      | eof =>
        simp only [hr] at hsplices hmoved htaken ⊢
        obtain ⟨res,p,k,hp,-,hstream,hk,htakes,-⟩ := hsplices
        exact adds_leave (by omega) hm (by rw [hp]; exact hstream) hk (by rw [htaken]; exact htakes)
      | failed =>
        simp only [hr] at hsplices hmoved htaken ⊢
        refine adds_all ?_ htaken
        cases hread' : reading o.buf.size o.buf.size (n-m) ⟨file.contents.drop m,file'.reads⟩ with
        | ok _ =>
          rw [hread'] at hsplices
          obtain ⟨p,hp,-,hstream,hsup⟩ := hsplices
          have hlen' : ((file.contents.drop m).take (n-m)).length = n-m := by
            rw [List.length_take,List.length_drop]; omega
          have hle : n-m ≤ paddedSize (n-m) := le_roundUp 512 (n-m)
          rw [pad512_eq,hlen',List.append_assoc,← List.append_assoc (file.contents.take m)] at hstream
          rw [hp]
          exact added_zeros hstream (by rw [List.length_append,hlen,hlen']; omega)
            (by simp only [List.length_append,hlen,hlen']; omega)
        | error p =>
          obtain ⟨off,room⟩ := p
          rw [hread'] at hsplices
          obtain ⟨p,k,hp,-,hstream,-,-,-,hroom,hkn,hk⟩ := hsplices
          have hlen' : ((file.contents.drop m).take k).length = k := by
            rw [List.length_take]; omega
          rw [List.append_assoc o.stream,List.append_assoc o.stream] at hstream
          rw [hp]
          exact added_zeros hstream (by rw [List.length_append,hlen,hlen']; omega)
            (by simp only [List.length_append,hlen,hlen']; omega)

/-- The contents of a file come whole when `unused` bytes of the buffer of `o` are free: the reads
get what they ask for, and the splices end with all bytes moved, or fail where a block ends. -/
def ComesWhole (o : Output) (unused : ℕ) (file : File) (n : ℕ) : Prop :=
  if o.buf.canSplice = false ∨ n ≤ unused then ∃ rest, reading o.buf.size unused n file = .ok rest
  else ∃ file', reading o.buf.size unused unused file = .ok file' ∧
    let r := splicing (n-unused) file'.contents.length o.sys.splices
    let m := unused+r.1
    match r.2 with
    | .complete => True
    | .eof => False
    | .failed => 512 ∣ m ∧
      ∃ rest, reading o.buf.size o.buf.size (n-m) ⟨file.contents.drop m,file'.reads⟩ = .ok rest

theorem comesWhole_congr {o o' : Output} (hframe : Frame o o') (unused : ℕ) (file : File) (n : ℕ) :
    ComesWhole o' unused file n ↔ ComesWhole o unused file n := by
  simp only [ComesWhole,hframe.size,hframe.canSplice,hframe.sys.splices]

/-- Contents that come whole, and all of the zeros behind spliced ones, when `taken` bytes come
before them. -/
def Delivers (o : Output) (taken unused : ℕ) (file : File) (n : ℕ) : Prop :=
  ComesWhole o unused file n ∧ paddingTaken o taken unused file n = true

theorem delivers_extends {o o' : Output} (h : o.Aligned) {bytes : Bytes} (hext : Extends o o' bytes)
    (unused : ℕ) (file : File) (n : ℕ) :
    Delivers o' 0 unused file n ↔ Delivers o bytes.length unused file n := by
  rw [Delivers,Delivers,comesWhole_congr hext.frame,paddingTaken_extends h hext]

theorem bFileWriteContents_delivers {o : Output} (h : o.Ready) {file : File} {n : ℕ}
    (hdelivers : Delivers o 0 o.buf.unused file n) :
    (bFileWriteContents o file n).1.isSome = true ∧
      (bFileWriteContents o file n).2.stream = o.stream ++ pad512 (file.contents.take n) ∧
      n ≤ file.contents.length := by
  obtain ⟨hwhole,htaken⟩ := hdelivers
  unfold ComesWhole at hwhole
  split at hwhole
  · rename_i hmode
    obtain ⟨rest,hread⟩ := hwhole
    have hreads := bFileWriteContents_reads h file n hmode
    rw [hread] at hreads
    obtain ⟨o',hwrite,-,hstream,hle,-⟩ := hreads
    rw [hwrite]
    exact ⟨rfl,hstream,hle⟩
  · rename_i hmode
    obtain ⟨hcan,hn⟩ := not_or.mp hmode
    obtain ⟨file',hread,hend⟩ := hwhole
    have hsplices := bFileWriteContents_splices h (by simpa using hcan) file (not_le.mp hn)
    have hmoved := splicing_moved (n-o.buf.unused) file'.contents.length o.sys.splices
    obtain ⟨hfile,hcontents⟩ := readAll_ok h.pos (by omega) hread
    rw [paddingTaken_spliced h.toAligned hmode hread] at htaken
    rw [hread] at hsplices
    simp only at hsplices hend htaken
    generalize splicing (n-o.buf.unused) file'.contents.length o.sys.splices = r at *
    obtain ⟨k,ending⟩ := r
    cases ending with
    | complete =>
      obtain ⟨res,o',j,hwrite,-,hstream,-,htakes,hres⟩ := hsplices
      simp only at hmoved hstream htakes hres htaken
      obtain ⟨hfst,rfl⟩ := hmoved
      have hpad := htakes.mpr htaken
      rw [show o.buf.unused+(n-o.buf.unused) = n by omega] at hpad hstream
      rw [hcontents,List.length_drop] at hfst
      have hle : n ≤ file.contents.length := by omega
      rw [hwrite,hres (htakes.mpr htaken)]
      refine ⟨rfl,?_,hle⟩
      rw [pad512_eq,List.length_take,min_eq_left hle,← hpad,← List.append_assoc]
      exact hstream
    | eof => exact hend.elim
    | failed =>
      obtain ⟨hdvd,rest,hread'⟩ := hend
      simp only at hdvd hread' hsplices hmoved
      rw [hread'] at hsplices
      obtain ⟨o',hwrite,-,hstream,hle'⟩ := hsplices
      rw [hwrite]
      refine ⟨rfl,?_,hle'⟩
      have hsum : o.buf.unused+k ≤ file.contents.length := by omega
      have htake : file.contents.take n = file.contents.take (o.buf.unused+k) ++
          (file.contents.drop (o.buf.unused+k)).take (n-(o.buf.unused+k)) := by
        rw [← List.take_add]
        congr 1
        omega
      have hpad : pad512 (file.contents.take n) = file.contents.take (o.buf.unused+k) ++
          pad512 ((file.contents.drop (o.buf.unused+k)).take (n-(o.buf.unused+k))) := by
        rw [htake]
        refine padTo_append 0 _ ?_
        rwa [List.length_take,min_eq_left hsum]
      rw [hstream,hpad,List.append_assoc]

theorem contentsOf_delivers {o : Output} (h : o.Ready) (header : BHeader) (fd : ℤ) (file : File)
    (hdata : header.isIfreg = true →
      header.size = 0 ∨ (0 < fd ∧ Delivers o 0 o.buf.unused file header.size)) :
    (contentsOf o header fd file).1.isSome = true ∧
      (contentsOf o header fd file).2.stream =
        o.stream ++ pad512 (if header.isIfreg then file.contents.take header.size else []) ∧
      (if header.isIfreg then file.contents.take header.size else []).length =
        if header.isIfreg then header.size else 0 := by
  by_cases hreg : header.isIfreg = true
  · rw [if_pos hreg,if_pos hreg]
    by_cases hfd : 0 < fd
    · have hdelivers : Delivers o 0 o.buf.unused file header.size := by
        rcases hdata hreg with hzero | ⟨-,hdelivers⟩
        · rw [hzero]
          exact ⟨(if_pos (Or.inr (Nat.zero_le _))).mpr ⟨file,by simp [reading]⟩,
            if_pos (Or.inr (Nat.zero_le _))⟩
        · exact hdelivers
      obtain ⟨hsome,hstream,hle⟩ := bFileWriteContents_delivers h hdelivers
      simp only [contentsOf,hreg,hfd,decide_true,Bool.and_self,if_true]
      exact ⟨hsome,hstream,by rw [List.length_take]; omega⟩
    · have hzero : header.size = 0 := (hdata hreg).resolve_right fun hr => hfd hr.1
      simp [contentsOf,hfd,hzero]
  · simp [contentsOf,hreg]

/-- The free space of the buffer when `n` bytes, whole blocks, have been taken from it. -/
def freeBehind (o : Output) (n : ℕ) : ℕ := (o.buf.unused+(o.buf.size-1)*n) % o.buf.size

theorem unused_eq_freeBehind {o o' : Output} {bytes : Bytes} (h : o.Aligned)
    (hext : Extends o o' bytes) (hused : o'.buf.unused < o'.buf.size) :
    o'.buf.unused = freeBehind o bytes.length := by
  have hsize := hext.frame.size
  have hlen := congrArg List.length hext.stream
  have hpos := h.pos
  have hle := h.unused_le
  have hdata := h.length
  have hdata' := hext.ready.length
  obtain ⟨k,hk,-⟩ := hext.frame.whole
  simp only [stream,used,List.length_append,List.length_take,hdata,hdata'] at hlen
  rw [hsize] at hused hlen
  have hsum : o'.buf.unused+bytes.length = o.buf.unused+k*o.buf.size := by omega
  have hprod : o'.buf.unused+bytes.length*o.buf.size =
      o.buf.unused+(o.buf.size-1)*bytes.length+k*o.buf.size := by
    have hsub : (o.buf.size-1)*bytes.length+bytes.length = bytes.length*o.buf.size := by
      rw [← Nat.succ_mul,Nat.mul_comm]
      congr 1
      omega
    omega
  have hmod := congrArg (· % o.buf.size) hprod
  simp only [Nat.add_mul_mod_self_right,Nat.mod_eq_of_lt hused] at hmod
  exact hmod

theorem addedLength_congr {o o' : Output} (hframe : Frame o o') (unused : ℕ) (file : File) (n : ℕ) :
    addedLength o' unused file n = addedLength o unused file n := by
  simp only [addedLength,hframe.size,hframe.canSplice,hframe.sys.splices]

theorem addedLength_zero (o : Output) (unused : ℕ) (file : File) : addedLength o unused file 0 = 0 := by
  simp [addedLength,reading,paddedSize]

theorem Headed.delivers {b : BBuilder} (h : b.out.Ready) {c : MemberCall} {r : Bool × BBuilder}
    {header : BHeader} {records : Bytes} {b' : BBuilder}
    (hm : Headed b c.path c.memberName c.st c.fd c.src r header records b')
    (hdata : header.isIfreg = true → header.size = 0 ∨ (0 < c.fd ∧ Delivers b.out
      (records.length+512) (freeBehind b.out (records.length+512)) c.src.file header.size)) :
    (contentsOf b'.out header c.fd c.src.file).1.isSome = true ∧
      (contentsOf b'.out header c.fd c.src.file).2.stream = b'.out.stream ++
        pad512 (if header.isIfreg then c.src.file.contents.take header.size else []) ∧
      (if header.isIfreg then c.src.file.contents.take header.size else []).length =
        if header.isIfreg then header.size else 0 := by
  refine contentsOf_delivers hm.wrote.added.ready header c.fd c.src.file fun hreg => ?_
  refine (hdata hreg).imp id fun hdelivers => ⟨hdelivers.1,?_⟩
  have hbehind := unused_eq_freeBehind h.toAligned hm.wrote.added hm.used
  rw [delivers_extends h.toAligned hm.wrote.added,hbehind,List.length_append,ownHeader,
    BHeaderBlock.toBytes_length]
  exact hdelivers.2

/-- When the data of a member are complete: there are none to come, or the descriptor is one that
the builder reads from and what comes, with its zeros, fills the blocks that the header announces.
-/
def DataComplete (b : BBuilder) (c : MemberCall) (header : BHeader) (records : Bytes) : Prop :=
  header.isIfreg = false ∨ header.size = 0 ∨
    (0 < c.fd ∧ addedLength b.out (freeBehind b.out (records.length+512)) c.src.file header.size =
        paddedSize header.size ∧
      paddingTaken b.out (records.length+512) (freeBehind b.out (records.length+512)) c.src.file
        header.size = true)

theorem Headed.framed_iff {b : BBuilder} (h : b.out.Ready) {c : MemberCall} {r : Bool × BBuilder}
    {header : BHeader} {records : Bytes} {b' : BBuilder}
    (hm : Headed b c.path c.memberName c.st c.fd c.src r header records b')
    (hsize : header.size < 2^64) {data : Bytes}
    (hdata : (contentsOf b'.out header c.fd c.src.file).2.stream = b'.out.stream ++ data) :
    WholeMembers (ownHeader b.process header ++ data) ↔ DataComplete b c header records := by
  obtain ⟨htype,hhas⟩ := (memberHeader_of hm.found).linktype
  have hframe : Frame b.out b'.out := hm.wrote.added.frame
  have hown : (bHeaderEncodeBlock b.process .zero header).dataSize =
      if header.isIfreg then header.size else 0 := by
    rw [BHeaderBlock.dataSize,encodeBlock_linktype,hhas,encodeBlock_size b.process header hsize]
  have hiff (hzeros : ∃ k, data.drop (roundUp 512
      (bHeaderEncodeBlock b.process .zero header).dataSize) = zeros k) :=
    wholeMembers_member_iff (encodeBlock_valid b.process .zero header) (by simpa using htype) hzeros
  rw [hown] at hiff
  unfold ownHeader DataComplete
  by_cases hreads : (header.isIfreg && decide (0 < c.fd)) = true
  · simp only [Bool.and_eq_true,decide_eq_true_eq] at hreads
    obtain ⟨hreg,hfd⟩ := hreads
    simp only [contentsOf,hreg,hfd,decide_true,Bool.and_self,if_true] at hdata hiff
    obtain ⟨missing,data',hadded,hle,htaken,hless⟩ :=
      bFileWriteContents_adds hm.wrote.added.ready c.src.file header.size
    obtain rfl : data' = data := List.append_cancel_left (hadded.stream.symm.trans hdata)
    have hbehind := unused_eq_freeBehind h.toAligned hm.wrote.added hm.used
    have hextends := paddingTaken_extends h.toAligned hm.wrote.added b'.out.buf.unused c.src.file
      header.size
    rw [List.length_append,ownHeader,BHeaderBlock.toBytes_length] at hbehind hextends
    have hlen := hadded.length
    rw [addedLength_congr hframe] at hlen hle hless
    rw [hextends] at htaken
    rw [hbehind] at hlen hle hless htaken
    rw [hiff hadded.zeros,hlen,← htaken]
    simp only [hreg,hfd,true_and,Bool.true_eq_false,false_or,← paddedSize_eq]
    have hnone (hzero : header.size = 0) : addedLength b.out
        (freeBehind b.out (records.length+512)) c.src.file header.size = 0 := by
      rw [hzero,addedLength_zero]
    generalize addedLength b.out (freeBehind b.out (records.length+512)) c.src.file header.size =
      added at hle hless hnone ⊢
    constructor
    · intro hfills
      by_cases hmissing : missing = 0
      · exact Or.inr ⟨by omega,hmissing⟩
      · have hpadded := hless (by omega)
        omega
    · rintro (hzero | ⟨hfills,rfl⟩)
      · rw [hnone hzero,hzero,Nat.zero_sub]
        rfl
      · exact hfills
  · simp only [contentsOf,hreads,if_false,Bool.false_eq_true] at hdata
    obtain rfl : data = [] := List.append_right_eq_self.mp hdata.symm
    rw [hiff ⟨0,by simp [zeros]⟩,List.length_nil]
    have hround (n : ℕ) : 0 = roundUp 512 n ↔ n = 0 := by
      have hle := le_roundUp 512 n
      refine ⟨by omega,?_⟩
      rintro rfl
      rw [roundUp_zero]
    rw [hround]
    by_cases hreg : header.isIfreg = true
    · have hfd : ¬0 < c.fd := by simpa [hreg] using hreads
      simp [hreg,hfd]
    · simp [hreg]

/-- Strings of which the records come out right: with the GNU extensions not both are too long, and
each can be recorded. -/
def StringsFit (b : BBuilder) (c : MemberCall) : Prop :=
  ∀ header ∈ memberHeader b.userLookup b.hardlinkCache c.src c.memberName c.st,
    ¬GnuBothLong b.options header ∧ Recordable b.options header (longlinkPath c.memberName c.st)

/-- The data are complete, if the call gets as far as the member's own header. -/
def DataFits (b : BBuilder) (c : MemberCall) : Prop :=
  ∀ header ∈ memberHeader b.userLookup b.hardlinkCache c.src c.memberName c.st,
    ∀ records ∈ extensionRecords b.process b.options header (longlinkPath c.memberName c.st),
      DataComplete b c header records

def shrunkCall (left : ℕ) : MemberCall :=
  ⟨[47,102],[102],⟨sIfreg+0o644,0,0,700,0,0,0,7,1⟩,5,⟨.ok [],[],⟨List.replicate left 1,[]⟩⟩⟩

def plainBuilder (blockFactor : ℕ) : BBuilder :=
  newBuilder ⟨false,1⟩ blockFactor paxOptions none (sampleHandle [] progress_nil)

end ArchiveTarBuilder
