import ArchiveTarBuilder.MemberStream

/-! One member as the reader sees it: its extension records name it, its own header says what it
is, its data blocks hold what it contains. -/
namespace ArchiveTarBuilder
open Region CString Output

/-- The name that the records in front of a header give, if any. -/
def recordedPath (options : BBuilderOptions) (header : BHeader) (longPath : Bytes) : Option Bytes :=
  if header.truncated || (header.truncatedLink && !options.gnuExtensions) then some longPath else none

def recordedLink (options : BBuilderOptions) (header : BHeader) : Option Bytes :=
  if header.truncatedLink || (header.truncated && !options.gnuExtensions) then header.linkdest
  else none

/-- Strings that the records can carry: no NUL in them, and not longer than their size fields. -/
structure Recordable (options : BBuilderOptions) (header : BHeader) (longPath : Bytes) : Prop where
  path : 0 ∉ longPath
  dest : ∀ dest ∈ header.linkdest, 0 ∉ dest ∧ dest.length+21 < 2^31
  short : options.gnuExtensions = true → header.truncated = true → longPath.length < 2^32

theorem longlinkBlock_dataSize {type : UInt8} (htype : hasData type = true) {text : Bytes}
    (hlen : text.length < 2^32) :
    (bHeaderEncodeLonglinkBlock .zero text type).dataSize = text.length := by
  rw [BHeaderBlock.dataSize,longlinkBlock_linktype,if_pos htype,longlinkBlock_size,unsignedInt,
    Nat.mod_eq_of_lt hlen]

theorem paxBlock_dataSize (p : Process) (header : BHeader) (path : Bytes)
    (h : paxSize path header.linkdest < 8^11) :
    (bHeaderEncodePaxBlock p .zero header path).dataSize = paxSize path header.linkdest := by
  rw [BHeaderBlock.dataSize,paxBlock_linktype,if_pos (by decide),
    paxBlock_size p .zero header path h]

theorem lookup_pathKey (path : Bytes) (linkdest : Option Bytes) :
    (wantedRecords path linkdest).lookup pathKey = some path := by
  simp [wantedRecords]

theorem lookup_linkpathKey (path : Bytes) (linkdest : Option Bytes) :
    (wantedRecords path linkdest).lookup linkpathKey = linkdest := by
  have hne : (linkpathKey == pathKey) = false := by decide
  cases linkdest <;> simp [wantedRecords,List.lookup_cons,hne]

/-- `bytes` are extension records that give a reader this path and this link target. -/
inductive Recorded : Option Bytes → Option Bytes → Bytes → Prop
  | nothing : Recorded none none []
  | longlink {block : BHeaderBlock} {data : Bytes} (valid : block.valid = true)
      (size : block.dataSize = data.length) (type : block.linktype = bHeaderLonglinkType) :
      Recorded (some (cstr data)) none (block.toBytes ++ pad512 data)
  | longdest {block : BHeaderBlock} {data : Bytes} (valid : block.valid = true)
      (size : block.dataSize = data.length) (type : block.linktype = bHeaderLongdestType) :
      Recorded none (some (cstr data)) (block.toBytes ++ pad512 data)
  | pax {block : BHeaderBlock} {data : Bytes} {records : List (Bytes × Bytes)}
      (valid : block.valid = true) (size : block.dataSize = data.length)
      (type : block.linktype = bHeaderPaxType)
      (read : paxRecords (data.length+1) data = some records) :
      Recorded (records.lookup pathKey) (records.lookup linkpathKey) (block.toBytes ++ pad512 data)

theorem Recorded.reads {path linkpath : Option Bytes} {bytes rest : Bytes} {members : List TarMember}
    (h : Recorded path linkpath bytes) (hrest : Reads path linkpath rest members) :
    Reads none none (bytes ++ rest) members := by
  cases h with
  | nothing => exact hrest
  | longlink valid size type => exact Reads.longlink valid size type hrest
  | longdest valid size type => exact Reads.longdest valid size type hrest
  | pax valid size type read => exact Reads.pax valid size type read (by simpa using hrest)

theorem recorded_longlink {text : Bytes} (hnul : 0 ∉ text) (hlen : text.length < 2^32) :
    Recorded (some text) none (gnuRecord text bHeaderLonglinkType) := by
  have h : Recorded (some (cstr text)) none (gnuRecord text bHeaderLonglinkType) :=
    .longlink (longlinkBlock_valid _ _ _) (longlinkBlock_dataSize (by decide) hlen) rfl
  rwa [cstr_of_not_mem text hnul] at h

theorem recorded_longdest {text : Bytes} (hnul : 0 ∉ text) (hlen : text.length < 2^32) :
    Recorded none (some text) (gnuRecord text bHeaderLongdestType) := by
  have h : Recorded none (some (cstr text)) (gnuRecord text bHeaderLongdestType) :=
    .longdest (longlinkBlock_valid _ _ _) (longlinkBlock_dataSize (by decide) hlen) rfl
  rwa [cstr_of_not_mem text hnul] at h

theorem recorded_pax (p : Process) {header : BHeader} {path : Bytes} (hnul : 0 ∉ path)
    (hpath : bHeaderComputePaxLength path pathKey ≠ 2^64-1)
    (hdest : ∀ dest ∈ header.linkdest,
      0 ∉ dest ∧ bHeaderComputePaxLength dest linkpathKey ≠ 2^64-1) :
    Recorded (some path) header.linkdest (paxExtension p header path) := by
  obtain ⟨htext,hsize,hread⟩ := paxText_records hnul hpath hdest
  have h : Recorded _ _ (paxExtension p header path) := .pax (paxBlock_valid p .zero header path)
    ((paxBlock_dataSize p header path hsize).trans htext.symm) rfl hread
  rwa [lookup_pathKey,lookup_linkpathKey] at h

theorem recorded_gnu {options : BBuilderOptions} {header : BHeader} {longPath : Bytes}
    (hgnu : options.gnuExtensions = true) (hlong : header.truncated = true ∨ header.truncatedLink = true)
    (hboth : ¬GnuBothLong options header)
    (hlink : header.truncatedLink = true → header.linkdest.isSome)
    (hok : Recordable options header longPath) :
    Recorded (recordedPath options header longPath) (recordedLink options header)
      (gnuRecords header longPath) := by
  by_cases ht : header.truncated = true
  · have hl : header.truncatedLink = false := by simpa [GnuBothLong,hgnu,ht] using hboth
    have hrecords : gnuRecords header longPath = gnuRecord longPath bHeaderLonglinkType := by
      rw [gnuRecords,if_pos ht,hl]
      cases header.linkdest <;> simp
    have hrec := recorded_longlink hok.path (hok.short hgnu ht)
    simpa [recordedPath,recordedLink,ht,hl,hgnu,hrecords] using hrec
  · have hl : header.truncatedLink = true := hlong.resolve_left ht
    obtain ⟨dest,hd⟩ := Option.isSome_iff_exists.mp (hlink hl)
    obtain ⟨hnul,hlen⟩ := hok.dest dest hd
    have hrecords : gnuRecords header longPath = gnuRecord dest bHeaderLongdestType := by
      simp [gnuRecords,ht,hl,hd]
    have hrec := recorded_longdest hnul (by omega)
    simpa [recordedPath,recordedLink,ht,hl,hgnu,hd,hrecords] using hrec

theorem recorded_extensionRecords {p : Process} {options : BBuilderOptions} {header : BHeader}
    {longPath records : Bytes} (hrec : extensionRecords p options header longPath = some records)
    (hboth : ¬GnuBothLong options header)
    (hlink : header.truncatedLink = true → header.linkdest.isSome)
    (hok : Recordable options header longPath) :
    Recorded (recordedPath options header longPath) (recordedLink options header) records := by
  unfold extensionRecords at hrec
  by_cases hlong : (header.truncated || header.truncatedLink) = true
  · rw [if_pos hlong] at hrec
    by_cases hgnu : options.gnuExtensions = true
    · rw [if_pos hgnu] at hrec
      obtain rfl := Option.some.inj hrec
      exact recorded_gnu hgnu (by simpa using hlong) hboth hlink hok
    · rw [if_neg hgnu] at hrec
      by_cases hpax : (options.paxExtensions &&
          decide (bHeaderComputePaxLength longPath pathKey ≠ 2^64-1)) = true
      · rw [if_pos hpax] at hrec
        obtain rfl := Option.some.inj hrec
        simp only [Bool.and_eq_true,decide_eq_true_eq] at hpax
        have hpath : (header.truncated || (header.truncatedLink && !options.gnuExtensions)) =
            true := by
          simpa [hgnu] using Bool.or_eq_true_iff.mp hlong
        have hdest : (header.truncatedLink || (header.truncated && !options.gnuExtensions)) =
            true := by
          simpa [hgnu,or_comm] using hlong
        rw [recordedPath,if_pos hpath,recordedLink,if_pos hdest]
        refine recorded_pax p hok.path hpax.2 fun dest hd => ?_
        obtain ⟨hnul,hlen⟩ := hok.dest dest hd
        exact ⟨hnul,computePaxLength_ne hnul (by decide) hlen⟩
      · rw [if_neg hpax] at hrec
        cases hrec
  · rw [if_neg hlong] at hrec
    obtain rfl := Option.some.inj hrec
    simp only [Bool.not_eq_true,Bool.or_eq_false_iff] at hlong
    simpa [recordedPath,recordedLink,hlong.1,hlong.2] using Recorded.nothing

theorem HeaderOf.linktype {cache : Option HardlinkCache} {src : Source} {memberName : Bytes} {st : Stat}
    {header : BHeader} (h : HeaderOf cache src memberName st header) :
    header.linktype ∉ [bHeaderLonglinkType,bHeaderLongdestType,bHeaderPaxType] ∧
      hasData header.linktype = header.isIfreg := by
  have hcases : header.linktype ∈ [48,49,50,51,52,53,54] := by
    cases h.link with
    | symlink dest hst hread hdest htype => simp [htype]
    | plain hst hdest htype =>
      rw [htype,inodeLinktype]
      split_ifs <;> decide
    | hardlink entries dest hst hcache hlookup hdest htype => simp [htype]
  unfold BHeader.isIfreg
  generalize header.linktype = t at hcases ⊢
  fin_cases hcases <;> decide

def readBack (options : BBuilderOptions) (header : BHeader) (longPath : Bytes) (d : PathData)
    (data : Bytes) : TarMember where
  name := (recordedPath options header longPath).getD d.name
  type := header.linktype
  size := if header.isIfreg then header.size else 0
  contents := data
  target := header.linkdest.getD []

section
variable {p : Process} {options : BBuilderOptions} {header : BHeader} {cache : Option HardlinkCache}
  {src : Source} {memberName : Bytes} {st : Stat} {d : PathData}
  (hof : HeaderOf cache src memberName st header) (hd : pathSplit memberName st = some d)
  (hok : Recordable options header (longlinkPath memberName st))
include hof hd hok

theorem ownHeader_name (hnone : recordedPath options header (longlinkPath memberName st) = none) :
    (bHeaderEncodeBlock p .zero header).name = d.name := by
  obtain ⟨d',hd',hpre,hsuf,htrunc⟩ := hof.split
  obtain rfl : d' = d := Option.some.inj (hd'.symm.trans hd)
  have hnul : 0 ∉ memberName := by
    have hpath := hok.path
    rw [longlinkPath_eq,List.mem_append,not_or] at hpath
    exact hpath.1
  obtain ⟨pre,suf,hsplit⟩ := pathSplit_split hnul hd
  obtain ⟨hpnul,hsnul⟩ := hsplit.zero_notMem hnul (bPathNew_of_pathSplit hd)
  have ht : header.truncated = false := by
    unfold recordedPath at hnone
    split at hnone
    · cases hnone
    · rename_i hno
      simp only [Bool.not_eq_true,Bool.or_eq_false_iff] at hno
      exact hno.1
  obtain ⟨hplen,hslen⟩ := hsplit.fits (htrunc ▸ ht)
  rw [encodeBlock_name p .zero header (by rwa [hpre]) (by rwa [hpre]) (by rwa [hsuf]) (by rwa [hsuf]),
    hpre,hsuf,PathData.name]

omit hd in
theorem ownHeader_linkdest (hnone : recordedLink options header = none) :
    cstr (bHeaderEncodeBlock p .zero header).linkdest.bytes = header.linkdest.getD [] := by
  apply encodeBlock_linkdest
  intro dest hdest
  refine ⟨(hok.dest dest hdest).1,?_⟩
  by_contra hlong
  have hl : header.truncatedLink = true := hof.truncatedLink.mpr ⟨dest,hdest,by omega⟩
  rw [recordedLink,hl,Bool.true_or,if_pos rfl] at hnone
  simp [hnone] at hdest

omit hd in
theorem recordedLink_getD : (recordedLink options header).getD
    (cstr (bHeaderEncodeBlock p .zero header).linkdest.bytes) = header.linkdest.getD [] := by
  cases hrl : recordedLink options header with
  | none => exact ownHeader_linkdest hof hok hrl
  | some dest =>
    unfold recordedLink at hrl
    split at hrl
    · simp [hrl]
    · cases hrl

theorem reads_member {records data rest : Bytes} {members : List TarMember}
    (hrec : extensionRecords p options header (longlinkPath memberName st) = some records)
    (hboth : ¬GnuBothLong options header) (hsize : header.size < 2^64)
    (hdata : data.length = if header.isIfreg then header.size else 0)
    (h : Reads none none rest members) :
    Reads none none (records ++ ownHeader p header ++ pad512 data ++ rest)
      (readBack options header (longlinkPath memberName st) d data::members) := by
  obtain ⟨htype,hhas⟩ := hof.linktype
  have hdsize : (bHeaderEncodeBlock p .zero header).dataSize =
      if header.isIfreg then header.size else 0 := by
    rw [BHeaderBlock.dataSize,encodeBlock_linktype,hhas,encodeBlock_size p header hsize]
  have hown : Reads (recordedPath options header (longlinkPath memberName st))
      (recordedLink options header) ((bHeaderEncodeBlock p .zero header).toBytes ++ pad512 data ++ rest)
      (member (bHeaderEncodeBlock p .zero header) data
        (recordedPath options header (longlinkPath memberName st))
        (recordedLink options header)::members) :=
    Reads.member (encodeBlock_valid _ _ _) (hdsize.trans hdata.symm) htype h
  have hmember : member (bHeaderEncodeBlock p .zero header) data
      (recordedPath options header (longlinkPath memberName st)) (recordedLink options header) =
      readBack options header (longlinkPath memberName st) d data := by
    have hname : (recordedPath options header (longlinkPath memberName st)).getD
        (bHeaderEncodeBlock p .zero header).name =
        (recordedPath options header (longlinkPath memberName st)).getD d.name := by
      cases hrp : recordedPath options header (longlinkPath memberName st) with
      | none => exact ownHeader_name hof hd hok hrp
      | some path => rfl
    simp only [member,readBack,hname,recordedLink_getD hof hok,hdsize,encodeBlock_linktype]
  rw [hmember] at hown
  have hall :=
    (recorded_extensionRecords hrec hboth (fun hl => hof.linkdest_isSome hl) hok).reads hown
  simpa only [ownHeader,List.append_assoc] using hall

end

end ArchiveTarBuilder
