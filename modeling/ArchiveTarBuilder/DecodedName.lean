import ArchiveTarBuilder.LongNames

/-! The name that a reader decodes. The short form strips a leading slash and puts a slash behind a
directory; the long forms copy the name of the call. -/
namespace ArchiveTarBuilder
open Region CString Output

/-- The name of the first member of some bytes, known as soon as its own header has been read. The
fuel bounds the number of headers. -/
def readName : ℕ → Option Bytes → Bytes → Option Bytes
  | 0, _, _ => none
  | fuel+1, path, bytes =>
    let block := BHeaderBlock.ofBytes (bytes.take 512)
    if bytes.length < 512 ∨ block.valid = false then none
    else if block.linktype ∈ [bHeaderLonglinkType,bHeaderLongdestType,bHeaderPaxType] then
      match nextRecord bytes with
      | none => none
      | some (block,data,rest) =>
        if block.linktype = bHeaderLonglinkType then readName fuel (some (cstr data)) rest
        else if block.linktype = bHeaderLongdestType then readName fuel path rest
        else
          match paxRecords (data.length+1) data with
          | none => none
          | some records => readName fuel ((records.lookup pathKey).or path) rest
    else some (path.getD block.name)

def decodedName (bytes : Bytes) : Option Bytes := readName (bytes.length+1) none bytes

theorem readName_own {block : BHeaderBlock} (hvalid : block.valid = true)
    (htype : block.linktype ∉ [bHeaderLonglinkType,bHeaderLongdestType,bHeaderPaxType]) (fuel : ℕ)
    (path : Option Bytes) (rest : Bytes) :
    readName (fuel+1) path (block.toBytes ++ rest) = some (path.getD block.name) := by
  have htake : (block.toBytes ++ rest).take 512 = block.toBytes := List.take_left' (by simp)
  have hlen : ¬(block.toBytes ++ rest).length < 512 := by
    rw [List.length_append,BHeaderBlock.toBytes_length]; omega
  simp only [readName,htake,BHeaderBlock.ofBytes_toBytes,hlen,hvalid,htype,if_false,false_or,
    Bool.true_eq_false]

theorem readName_record {block : BHeaderBlock} {data : Bytes} (hvalid : block.valid = true)
    (hdata : block.dataSize = data.length)
    (htype : block.linktype ∈ [bHeaderLonglinkType,bHeaderLongdestType,bHeaderPaxType]) (fuel : ℕ)
    (path : Option Bytes) (rest : Bytes) :
    readName (fuel+1) path (block.toBytes ++ pad512 data ++ rest) =
      if block.linktype = bHeaderLonglinkType then readName fuel (some (cstr data)) rest
      else if block.linktype = bHeaderLongdestType then readName fuel path rest
      else
        match paxRecords (data.length+1) data with
        | none => none
        | some records => readName fuel ((records.lookup pathKey).or path) rest := by
  have hnext := nextRecord_append hvalid hdata rest
  rw [List.append_assoc] at hnext ⊢
  have htake : (block.toBytes ++ (pad512 data ++ rest)).take 512 = block.toBytes :=
    List.take_left' (by simp)
  have hlen : ¬(block.toBytes ++ (pad512 data ++ rest)).length < 512 := by
    rw [List.length_append,BHeaderBlock.toBytes_length]; omega
  simp only [readName,htake,BHeaderBlock.ofBytes_toBytes,hlen,hvalid,htype,if_true,if_false,false_or,
    Bool.true_eq_false,hnext]

theorem Recorded.decodedName {path linkpath : Option Bytes} {bytes : Bytes}
    (h : Recorded path linkpath bytes) {block : BHeaderBlock} (hvalid : block.valid = true)
    (htype : block.linktype ∉ [bHeaderLonglinkType,bHeaderLongdestType,bHeaderPaxType])
    (rest : Bytes) :
    ArchiveTarBuilder.decodedName (bytes ++ block.toBytes ++ rest) = some (path.getD block.name) := by
  have hfuel : ∃ k, (bytes ++ block.toBytes ++ rest).length = k+1 := by
    refine ⟨(bytes ++ block.toBytes ++ rest).length-1,?_⟩
    simp only [List.length_append,BHeaderBlock.toBytes_length]
    omega
  obtain ⟨k,hk⟩ := hfuel
  unfold ArchiveTarBuilder.decodedName
  rw [hk]
  rw [List.append_assoc]
  have hown := readName_own hvalid htype k
  cases h with
  | nothing => exact readName_own hvalid htype (k+1) none rest
  | longlink valid size type =>
    rw [readName_record valid size (by rw [type]; decide),if_pos type]
    exact hown _ rest
  | longdest valid size type =>
    rw [readName_record valid size (by rw [type]; decide),if_neg (by rw [type]; decide),if_pos type]
    exact hown _ rest
  | pax valid size type read =>
    rw [readName_record valid size (by rw [type]; decide),if_neg (by rw [type]; decide),
      if_neg (by rw [type]; decide),read]
    simpa using hown _ rest

/-- A name as `b_find` hands it over. -/
structure CleanName (name : Bytes) : Prop where
  nul : 0 ∉ name
  clean : bPathClean name = name

theorem CleanName.eq {name : Bytes} (h : CleanName name) :
    name = (if isAbsolute name then [slash] else []) ++ joinPath (components name) :=
  h.clean.symm.trans (bPathClean_eq h.nul)

/-- The long forms are the canonical name exactly when the name of the call is relative. -/
theorem CleanName.longlinkPath {name : Bytes} (h : CleanName name) (st : Stat) :
    ArchiveTarBuilder.longlinkPath name st = canonicalName name st ↔ isAbsolute name = false := by
  have heq := h.eq
  rw [longlinkPath_eq,canonicalName,List.append_left_inj]
  by_cases ha : isAbsolute name = true
  · rw [if_pos ha] at heq
    refine iff_of_false (fun hj => ?_) (by simp [ha])
    have hl := congrArg List.length (heq.symm.trans hj)
    simp at hl
  · rw [if_neg ha] at heq
    exact iff_of_true heq (by simpa using ha)

/-- Whether the representation keeps the name. One that stands in a record, its own or one that its
link target made necessary, must be relative; a name in the header must not be `"/"`, nor a
directory's whose last component fills the name field. -/
def NameSurvives (options : BBuilderOptions) (header : BHeader) (name : Bytes) (st : Stat) : Prop :=
  if header.truncated || (header.truncatedLink && !options.gnuExtensions) then isAbsolute name = false
  else components name ≠ [] ∧
    ¬(st.ifmt = sIfdir ∧ ∃ x ∈ (components name).getLast?, 99 ≤ x.length)

def MemberCall.added (c : MemberCall) (b : BBuilder) : Bytes :=
  (c.write b).2.out.stream.drop b.out.stream.length

def paxBuilder : BBuilder := newBuilder ⟨false,1⟩ 2 paxOptions none (sampleHandle [] progress_nil)

def emptyFileCall (name : Bytes) : MemberCall :=
  ⟨[47,102],name,⟨sIfreg+0o644,0,0,0,0,0,0,7,1⟩,5,⟨.ok [],[],⟨[],[]⟩⟩⟩

def longRelativeName : Bytes := [100,47] ++ List.replicate 120 102

end ArchiveTarBuilder
