import ArchiveTarBuilder.FlushPoints
import ArchiveTarBuilder.HardLinks
import ArchiveTarBuilder.PlainContents

/-! Members that are written without fail. With pax records, or under names that are short enough,
a call succeeds on any builder that is in order, and a reader gets all of the member. -/
namespace ArchiveTarBuilder
open Region CString Output

/-- A call for what a file system yields when it works: the contents can be read whole, the target
is not empty, and the header or a pax record holds the strings. -/
structure MemberCall.Archivable (options : BBuilderOptions) (c : MemberCall) : Prop
    extends c.Exact where
  named : bPathNew c.memberName ≠ []
  short : c.memberName.length+22 < 2^31
  pointed : c.st.ifmt = sIflnk → c.st.size ≠ 0
  whole : c.st.ifmt = sIfreg → c.st.size ≤ c.src.file.contents.length ∧
    FullReads maxChunkSize c.src.file.reads ∧ ∀ a ∈ c.src.file.reads, ¬a.Fails
  held : options.paxExtensions = true ∨ (c.memberName.length ≤ 100 ∧
    (∀ d ∈ pathSplit c.memberName c.st, d.truncated = false) ∧
    (c.st.ifmt = sIflnk → c.st.size ≤ 100))

def HardlinkCache.Holdable (options : BBuilderOptions) (cache : Option HardlinkCache) : Prop :=
  ∀ entries ∈ cache, ∀ e ∈ entries, 0 ∉ e.2 ∧ e.2.length+22 < 2^31 ∧
    (options.paxExtensions = true ∨ e.2.length ≤ 100)

def knownAs (cache : Option HardlinkCache) (st : Stat) : Option Bytes :=
  if isHardlink st then cache.bind (List.lookup (st.dev,st.ino)) else none

/-- The member that a reader finds: a link to the name that is known for the inode, or the object
itself. -/
def ReadsIn (cache : Option HardlinkCache) (c : MemberCall) (m : TarMember) : Prop :=
  match knownAs cache c.st with
  | none => ReadsAs c m
  | some first => m.type = 49 ∧ m.contents = [] ∧ m.target = first ∧
      components m.name = components c.memberName

theorem readAll_whole (size fuel free left : ℕ) (file : File)
    (hfull : FullReads maxChunkSize file.reads) (hfine : ∀ a ∈ file.reads, ¬a.Fails)
    (hlen : left ≤ file.contents.length) : ∃ rest, readAll size fuel free left file = .ok rest := by
  induction fuel generalizing free left file with
  | zero => exact ⟨file,rfl⟩
  | succ fuel ih =>
    by_cases hzero : left = 0
    · exact ⟨file,by rw [readAll,if_pos hzero]⟩
    generalize hroom : (if free = 0 then size else free) = room
    generalize hrequest : min (min left maxChunkSize) room = request
    have hle : request ≤ left := by omega
    obtain ⟨made,hmade,hread⟩ := readFile_made file hfull (by omega : request ≤ maxChunkSize)
    have hrest : ∀ a ∈ (readFile file request).2.2.reads, a ∈ file.reads := fun a ha => by
      rw [hmade]
      exact List.mem_append_right _ ha
    rcases hread with ⟨-,hcount,hcontents⟩ | ⟨⟨a,ha,hfails⟩,-⟩
    · rw [List.length_take,min_eq_left (by omega)] at hcount
      obtain ⟨rest,hok⟩ := ih (room-paddedSize request) (left-request) (readFile file request).2.2
        (fun n hn => hfull n (hrest _ hn)) (fun a ha => hfine a (hrest a ha))
        (by rw [hcontents,List.length_drop]; omega)
      refine ⟨rest,?_⟩
      simp only [readAll,hzero,if_false,hroom,hrequest,hcount,lt_irrefl,hok]
      rfl
    · exact absurd hfails (hfine a (by rw [hmade]; exact List.mem_append_left _ ha))

section
variable {options : BBuilderOptions} {cache : Option HardlinkCache} {c : MemberCall}

theorem MemberCall.Archivable.linkdest (h : c.Archivable options)
    (hcache : HardlinkCache.Holdable options cache) {header : BHeader}
    (hof : HeaderOf cache c.src c.memberName c.st header) : ∀ dest ∈ header.linkdest,
      0 ∉ dest ∧ dest.length+21 < 2^31 ∧ (options.paxExtensions = true ∨ dest.length ≤ 100) := by
  intro dest hdest
  rw [Option.mem_def] at hdest
  cases hof.link with
  | symlink dest' hst hread hdest' htype =>
    obtain ⟨target,htarget,hlen,hnul,hbound⟩ := h.target hst
    obtain rfl := Option.some.inj (hdest'.symm.trans hdest)
    obtain rfl := bReadlink_exact htarget hlen hread
    exact ⟨hnul,hbound,h.held.imp id fun hheld => hlen ▸ hheld.2.2 hst⟩
  | plain hst hdest' htype =>
    rw [hdest'] at hdest
    cases hdest
  | hardlink entries dest' hst hcached hlookup hdest' htype =>
    obtain rfl := Option.some.inj (hdest'.symm.trans hdest)
    obtain ⟨front,back,rfl,-⟩ := List.lookup_eq_some_iff.mp hlookup
    obtain ⟨hnul,hshort,hheld⟩ := hcache _ hcached _ (List.mem_append_right _ List.mem_cons_self)
    exact ⟨hnul,by simp only at hshort; omega,hheld⟩

theorem MemberCall.Archivable.longlinkPath (h : c.Archivable options) :
    0 ∉ longlinkPath c.memberName c.st ∧ (longlinkPath c.memberName c.st).length+21 < 2^31 := by
  have hshort := h.short
  rw [longlinkPath_eq,dirSlash]
  split
  · refine ⟨by simpa [slash] using h.name,?_⟩
    rw [List.length_append,List.length_singleton]
    omega
  · rw [List.append_nil]
    exact ⟨h.name,by omega⟩

theorem MemberCall.Archivable.recordable (h : c.Archivable options)
    (hcache : HardlinkCache.Holdable options cache) {header : BHeader}
    (hof : HeaderOf cache c.src c.memberName c.st header) :
    Recordable options header (ArchiveTarBuilder.longlinkPath c.memberName c.st) := by
  obtain ⟨hnul,hshort⟩ := h.longlinkPath
  exact ⟨hnul,fun dest hdest => ⟨(h.linkdest hcache hof dest hdest).1,
    (h.linkdest hcache hof dest hdest).2.1⟩,fun _ _ => by omega⟩

theorem MemberCall.Archivable.header (h : c.Archivable options) {lookup : Option BUserLookup}
    (hlookup : ∀ f ∈ lookup, ∀ uid gid, (f uid gid).isSome = true) :
    (memberHeader lookup cache c.src c.memberName c.st).isSome = true := by
  have hheader : ∃ header, (headerForFile cache c.src c.memberName c.st).1 = .ok header := by
    obtain ⟨d,hd⟩ : ∃ d, pathSplit c.memberName c.st = some d := ⟨_,if_neg h.named⟩
    unfold headerForFile
    simp only [hd]
    by_cases hlnk : c.st.ifmt = sIflnk
    · obtain ⟨target,htarget,-⟩ := h.target hlnk
      simp only [if_pos hlnk,bReadlink,htarget,if_neg (h.pointed hlnk)]
      exact ⟨_,rfl⟩
    · rw [if_neg hlnk]
      by_cases hhard : isHardlink c.st = true
      · rw [if_pos hhard]
        cases cache with
        | none => exact ⟨_,rfl⟩
        | some entries =>
          obtain ⟨r,entries',hr⟩ : ∃ r entries',
            entries.lookupPath c.st.dev c.st.ino c.memberName = (r,entries') := ⟨_,_,rfl⟩
          simp only [hr]
          cases r <;> exact ⟨_,rfl⟩
      · rw [if_neg hhard]
        exact ⟨_,rfl⟩
  obtain ⟨header,hheader⟩ := hheader
  simp only [memberHeader,hheader]
  cases lookup with
  | none => rfl
  | some f =>
    have hsome := hlookup f rfl c.st.uid c.st.gid
    simpa using hsome

theorem MemberCall.Archivable.records (h : c.Archivable options)
    (hcache : HardlinkCache.Holdable options cache) (hgnu : options.gnuExtensions = false)
    {header : BHeader} (hof : HeaderOf cache c.src c.memberName c.st header) (p : Process) :
    (extensionRecords p options header
      (ArchiveTarBuilder.longlinkPath c.memberName c.st)).isSome = true := by
  obtain ⟨hnul,hshort⟩ := h.longlinkPath
  have hlen := computePaxLength_ne hnul (by decide : pathKey.length ≤ 8) hshort
  unfold extensionRecords
  split
  · rename_i hlong
    by_cases hpax : options.paxExtensions = true
    · rw [hgnu,if_neg Bool.false_ne_true,hpax,Bool.true_and,if_pos (decide_eq_true hlen)]
      rfl
    -- without records neither string can be too long
    · obtain ⟨-,hfits,-⟩ := h.held.resolve_left hpax
      obtain ⟨d,hd,-,-,htrunc⟩ := hof.split
      have hnone : header.truncated = false := htrunc.trans (hfits d hd)
      have hlink : header.truncatedLink = true := by simpa [hnone] using hlong
      obtain ⟨dest,hdest,hover⟩ := hof.truncatedLink.mp hlink
      have hle := (h.linkdest hcache hof dest hdest).2.2.resolve_left hpax
      omega
  · rfl

theorem headerOf_unknown {header : BHeader} (hof : HeaderOf cache c.src c.memberName c.st header)
    (hnone : knownAs cache c.st = none) : HeaderOf none c.src c.memberName c.st header := by
  refine ⟨hof.split,hof.size,hof.truncatedLink,?_⟩
  cases hof.link with
  | symlink dest hst hread hdest htype => exact .symlink dest hst hread hdest htype
  | plain hst hdest htype => exact .plain hst hdest htype
  | hardlink entries dest hst hcached hlookup hdest htype =>
    simp [knownAs,hst,hcached,hlookup] at hnone

theorem memberHeader_known {lookup : Option BUserLookup} {header : BHeader}
    (hheader : memberHeader lookup cache c.src c.memberName c.st = some header) {first : Bytes}
    (hknown : knownAs cache c.st = some first) :
    header.linktype = 49 ∧ header.linkdest = some first := by
  unfold knownAs at hknown
  split at hknown
  · rename_i hhard
    obtain ⟨entries,rfl,hlookup⟩ := Option.bind_eq_some_iff.mp hknown
    have hne : c.st.ifmt ≠ sIflnk := by rw [Attempt.isHardlink_ifmt hhard]; decide
    obtain ⟨d,hd,-⟩ := (memberHeader_of hheader).split
    simp only [memberHeader,headerForFile,hd,if_neg hne,if_pos hhard,HardlinkCache.lookupPath,
      hlookup] at hheader
    cases lookup with
    | none =>
      obtain rfl := Option.some.inj hheader
      exact ⟨rfl,rfl⟩
    | some f =>
      obtain ⟨names,-,rfl⟩ := Option.map_eq_some_iff.mp hheader
      exact ⟨rfl,rfl⟩
  · cases hknown

end

namespace Attempt

theorem member_readBack {t : Attempt} {header : BHeader} (hheader : t.header = some header)
    {records : Bytes} (hrec : t.records header = some records) {d : PathData}
    (hd : pathSplit t.call.memberName t.call.st = some d)
    (hok : ArchiveTarBuilder.Recordable t.builder.options header
      (longlinkPath t.call.memberName t.call.st)) (hsize : header.size < 2^64) :
    t.member = some (readBack t.builder.options header (longlinkPath t.call.memberName t.call.st) d
      (t.contents header)) := by
  have hof := memberHeader_of hheader
  obtain ⟨-,hhas⟩ := hof.linktype
  have hname : (recordedPath t.builder.options header
      (longlinkPath t.call.memberName t.call.st)).getD
        (bHeaderEncodeBlock t.builder.process .zero header).name =
      (recordedPath t.builder.options header
        (longlinkPath t.call.memberName t.call.st)).getD d.name := by
    cases hrp : recordedPath t.builder.options header
      (longlinkPath t.call.memberName t.call.st) with
    | none => exact ownHeader_name hof hd hok hrp
    | some path => rfl
  have hdsize : (bHeaderEncodeBlock t.builder.process .zero header).dataSize =
      if header.isIfreg then header.size else 0 := by
    rw [BHeaderBlock.dataSize,encodeBlock_linktype,hhas,encodeBlock_size _ header hsize]
  simp only [member,hheader,Option.bind_some,hrec,Option.map_some,ArchiveTarBuilder.member,readBack,
    hname,recordedLink_getD hof hok,hdsize,encodeBlock_linktype]

end Attempt

/-- A builder in order between two calls: no error, an output that is not spliced, no GNU records,
users that can be looked up, and names in the cache that a link can point at. -/
structure BBuilder.Steady (b : BBuilder) : Prop where
  calm : b.err.type = .ok
  ready : b.out.Ready
  plain : b.out.buf.canSplice = false
  gnu : b.options.gnuExtensions = false
  users : ∀ f ∈ b.userLookup, ∀ uid gid, (f uid gid).isSome = true
  cache : HardlinkCache.Holdable b.options b.hardlinkCache

def MemberCall.cacheAfter (c : MemberCall) (cache : Option HardlinkCache) : Option HardlinkCache :=
  (headerForFile cache c.src c.memberName c.st).2

section
variable {options : BBuilderOptions} {c : MemberCall}

theorem MemberCall.cacheAfter_cases (c : MemberCall) (cache : Option HardlinkCache) :
    c.cacheAfter cache = cache ∨ ∃ entries, cache = some entries ∧ isHardlink c.st = true ∧
      entries.lookup (c.st.dev,c.st.ino) = none ∧
      c.cacheAfter cache = some (((c.st.dev,c.st.ino),c.memberName)::entries) := by
  unfold cacheAfter headerForFile
  cases pathSplit c.memberName c.st with
  | none => exact Or.inl rfl
  | some d =>
    simp only
    by_cases hlnk : c.st.ifmt = sIflnk
    · rw [if_pos hlnk]
      cases bReadlink c.src c.st <;> exact Or.inl rfl
    · rw [if_neg hlnk]
      by_cases hhard : isHardlink c.st = true
      · rw [if_pos hhard]
        cases cache with
        | none => exact Or.inl rfl
        | some entries =>
          cases hlookup : List.lookup (c.st.dev,c.st.ino) entries with
          | none => exact Or.inr ⟨entries,rfl,hhard,hlookup,by simp [HardlinkCache.lookupPath,hlookup]⟩
          | some first => exact Or.inl (by simp [HardlinkCache.lookupPath,hlookup])
      · rw [if_neg hhard]
        exact Or.inl rfl

theorem MemberCall.Archivable.cacheAfter (h : c.Archivable options) {cache : Option HardlinkCache}
    (hcache : HardlinkCache.Holdable options cache) :
    HardlinkCache.Holdable options (c.cacheAfter cache) := by
  rcases c.cacheAfter_cases cache with hsame | ⟨entries,rfl,-,-,hafter⟩
  · rwa [hsame]
  · rw [hafter]
    intro entries' hentries e he
    obtain rfl := Option.some.inj hentries
    rcases List.mem_cons.mp he with rfl | he
    · exact ⟨h.name,h.short,h.held.imp id And.left⟩
    · exact hcache entries rfl e he

variable {t : Attempt} (hb : t.builder.Steady) (h : t.call.Archivable t.builder.options)
include hb h

theorem Attempt.intact_of_archivable : t.Intact := by
  have hgnu := hb.gnu
  refine ⟨fun header _ hboth => ?_,fun header hheader => ?_,h.size,fun header hheader records _ hreg => ?_⟩
  · rw [hboth.1] at hgnu
    cases hgnu
  · exact ⟨h.recordable hb.cache (memberHeader_of hheader),h.longlinkPath.2⟩
  · have hof := memberHeader_of hheader
    by_cases hzero : header.size = 0
    · exact Or.inl hzero
    have hifmt : t.call.st.ifmt = sIfreg := by
      by_contra hno
      exact hzero (by rw [hof.size,if_neg hno])
    obtain ⟨hlen,hfull,hfine⟩ := h.whole hifmt
    have hsize : header.size = t.call.st.size := by rw [hof.size,if_pos hifmt]
    refine Or.inr ⟨h.descriptor hifmt,?_,if_pos (Or.inl hb.plain)⟩
    rw [ComesWhole,if_pos (Or.inl hb.plain),reading]
    exact readAll_whole _ _ _ _ _ hfull hfine (by omega)

theorem Attempt.archivable_header : ∃ header records, t.header = some header ∧
    t.records header = some records := by
  have hsome : t.header.isSome = true := h.header hb.users
  obtain ⟨header,hheader⟩ := Option.isSome_iff_exists.mp hsome
  obtain ⟨records,hrec⟩ := Option.isSome_iff_exists.mp
    (h.records hb.cache hb.gnu (memberHeader_of hheader) t.builder.process)
  exact ⟨header,records,hheader,hrec⟩

theorem Attempt.steady_after : t.returned = true ∧ t.after.Steady ∧
    t.after.options = t.builder.options := by
  have hin := Attempt.intact_of_archivable hb h
  obtain ⟨header,records,hheader,hrec⟩ := Attempt.archivable_header hb h
  obtain ⟨hverdict,hleaves⟩ := hin.spec hb.ready
  have hframe := (Attempt.adds hb.ready hin.separate).2.2 hb.plain
  have hrest : t.after = _ := (bBuilderWriteFile_keeps t.builder t.call.path t.call.memberName
    t.call.st t.call.fd t.call.src).rest
  have hoptions : t.after.options = t.builder.options := by rw [hrest]; rfl
  have hverdict' : t.verdict = (true,.ok) := by
    simp only [verdict,hheader,hrec,Option.isSome_some,if_true]
  rw [hverdict'] at hverdict
  refine ⟨congrArg Prod.fst hverdict,⟨congrArg Prod.snd hverdict,hleaves.ready,
    hframe.canSplice.trans hb.plain,?_,?_,?_⟩,hoptions⟩
  · rw [hoptions]
    exact hb.gnu
  · have husers : t.after.userLookup = t.builder.userLookup := by rw [hrest]; rfl
    rw [husers]
    exact hb.users
  · rw [hoptions,t.after_cache]
    exact h.cacheAfter hb.cache

theorem Attempt.member_readsIn :
    ∃ m, t.member = some m ∧ ReadsIn t.builder.hardlinkCache t.call m := by
  obtain ⟨header,records,hheader,hrec⟩ := Attempt.archivable_header hb h
  have hin := Attempt.intact_of_archivable hb h
  have hof := memberHeader_of hheader
  obtain ⟨d,hd,-⟩ := hof.split
  refine ⟨_,Attempt.member_readBack hheader hrec hd (hin.recordable header hheader).1
    (hof.size_le.trans_lt hin.size),?_⟩
  cases hknown : knownAs t.builder.hardlinkCache t.call.st with
  | none =>
    have hplain := headerOf_unknown hof hknown
    have hreg := (h.type hplain).1
    rw [ReadsIn,hknown]
    refine h.readsAs hplain hd ?_ ?_
    · rw [Attempt.contents,hreg,hof.size]
      by_cases hr : t.call.st.ifmt = sIfreg <;> simp [hr]
    · rw [Attempt.contents,hreg,hof.size]
      by_cases hr : t.call.st.ifmt = sIfreg
      · simp [hr,(h.whole hr).1]
      · simp [hr]
  | some first =>
    obtain ⟨htype,hdest⟩ := memberHeader_known hheader hknown
    have hreg : header.isIfreg = false := hof.isIfreg_linkdest hdest
    rw [ReadsIn,hknown]
    refine ⟨htype,?_,?_,readBack_components h.name hd _⟩
    · simp [readBack,Attempt.contents,hreg]
    · simp [readBack,hdest]

end

end ArchiveTarBuilder
