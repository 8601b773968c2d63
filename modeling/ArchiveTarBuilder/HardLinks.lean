import ArchiveTarBuilder.EndMarker
import ArchiveTarBuilder.DecodedName
import ArchiveTarBuilder.Framing

/-! The targets of hard links. The cache remembers the name of the first call for a file, whether
or not the call goes through, under which name a reader finds it and in which archive it is. -/
namespace ArchiveTarBuilder
open Region CString Output

namespace Attempt

def Writes (t : Attempt) (m : TarMember) : Prop := ∃ bytes, t.Adds bytes ∧ Reads none none bytes [m]

theorem writes_readBack {t : Attempt} (h : t.builder.out.Ready) (hsep : t.Separate)
    {header : BHeader} (hheader : t.header = some header) {bytes : Bytes}
    (hrec : t.records header = some bytes)
    (hok : Recordable t.builder.options header (longlinkPath t.call.memberName t.call.st))
    (hsize : header.size < 2^64) {d : PathData} (hd : pathSplit t.call.memberName t.call.st = some d)
    (hwhole : header.isIfreg = true → header.size = 0 ∨ (0 < t.call.fd ∧ Delivers t.builder.out
      (bytes.length+512) (freeBehind t.builder.out (bytes.length+512)) t.call.src.file header.size)) :
    let data := if header.isIfreg then t.call.src.file.contents.take header.size else []
    t.Writes (readBack t.builder.options header (longlinkPath t.call.memberName t.call.st) d data) ∧
      data.length = if header.isIfreg then header.size else 0 := by
  rcases bBuilderWriteFile_ready h t.call.path t.call.memberName t.call.st t.call.fd t.call.src hsep
    with hrefused | ⟨header',records,b',hm⟩
  · have habsent : t.records header = none := hrefused.absent header hheader
    rw [habsent] at hrec
    cases hrec
  · obtain rfl : header = header' := Option.some.inj (hheader.symm.trans hm.found)
    obtain rfl : bytes = records := Option.some.inj (hrec.symm.trans hm.recorded)
    obtain ⟨-,hcontents,hlen⟩ := hm.delivers h hwhole
    obtain ⟨-,-,data,hdata,hstream⟩ := hm.stream
    obtain rfl := List.append_cancel_left (hdata.symm.trans hcontents)
    refine ⟨⟨_,hstream.trans (List.append_assoc _ _ _),?_⟩,hlen⟩
    have hreads := reads_member (p := t.builder.process) (memberHeader_of hheader) hd hok hrec
      (hsep header hheader) hsize hlen (reads_nil none none)
    simpa using hreads

structure First (t : Attempt) : Prop where
  hard : isHardlink t.call.st = true
  unknown : ∃ entries, t.builder.hardlinkCache = some entries ∧
    entries.lookup (t.call.st.dev,t.call.st.ino) = none

/-- A reader gets the name of the call: it is relative with single slashes between its components,
or so long that a record copies it. -/
structure Named (t : Attempt) : Prop where
  nul : 0 ∉ t.call.memberName
  short : t.call.memberName.length+21 < 2^31
  same : canonicalName t.call.memberName t.call.st = t.call.memberName ∨
    ∃ d, pathSplit t.call.memberName t.call.st = some d ∧ d.truncated = true

structure Whole (t : Attempt) : Prop where
  size : t.call.st.size < 2^64
  written : ∃ header bytes, t.header = some header ∧ t.records header = some bytes ∧
    (t.call.st.size = 0 ∨ (0 < t.call.fd ∧ Delivers t.builder.out
      (bytes.length+512) (freeBehind t.builder.out (bytes.length+512)) t.call.src.file
      t.call.st.size))

theorem isHardlink_ifmt {st : Stat} (h : isHardlink st = true) : st.ifmt = sIfreg := by
  simp only [isHardlink,Bool.and_eq_true,decide_eq_true_eq] at h
  exact h.1

theorem longlinkPath_hardlink {st : Stat} (h : isHardlink st = true) (name : Bytes) :
    longlinkPath name st = name := by
  refine if_neg ?_
  rw [isHardlink_ifmt h]
  decide

theorem recordable_hardlink {t : Attempt} (hhard : isHardlink t.call.st = true)
    (hnul : 0 ∉ t.call.memberName) (hshort : t.call.memberName.length < 2^32) {header : BHeader}
    (hdest : ∀ dest ∈ header.linkdest, 0 ∉ dest ∧ dest.length+21 < 2^31) :
    Recordable t.builder.options header (longlinkPath t.call.memberName t.call.st) := by
  rw [longlinkPath_hardlink hhard]
  exact ⟨hnul,hdest,fun _ _ => hshort⟩

theorem Named.readBack_name {t : Attempt} (h : t.Named) (hhard : isHardlink t.call.st = true)
    {header : BHeader} (hheader : t.header = some header) {d : PathData}
    (hd : pathSplit t.call.memberName t.call.st = some d) (data : Bytes) :
    (readBack t.builder.options header (longlinkPath t.call.memberName t.call.st) d data).name =
      t.call.memberName := by
  have hne : t.call.st.ifmt ≠ sIfdir := by rw [isHardlink_ifmt hhard]; decide
  have hpath := bPathNew_of_pathSplit hd
  obtain ⟨d',hd',-,-,htrunc⟩ := (memberHeader_of hheader).split
  obtain rfl : d' = d := Option.some.inj (hd'.symm.trans hd)
  simp only [readBack,recordedPath,longlinkPath_hardlink hhard]
  split
  · rfl
  · rename_i hno
    simp only [Bool.not_eq_true,Bool.or_eq_false_iff] at hno
    have hcanonical := h.same.resolve_right fun hlong => by
      obtain ⟨d',hd',ht⟩ := hlong
      obtain rfl := Option.some.inj (hd'.symm.trans hd)
      rw [← htrunc,hno.1] at ht
      cases ht
    have hcomponents : components t.call.memberName ≠ [] := by
      intro hnil
      rw [canonicalName,dirSlash,if_neg hne,hnil,List.append_nil] at hcanonical
      exact hpath (by rw [← hcanonical]; decide)
    obtain ⟨pre,suf,hsplit⟩ := pathSplit_split h.nul hd
    rw [Option.getD_none,(hsplit.name_canonical h.nul hpath).mpr ⟨hcomponents,fun hdir => hne hdir.1⟩]
    exact hcanonical

/-- The first member for a file is read back whole, under the name that the cache remembers. -/
theorem First.writes {t : Attempt} (hfirst : t.First) (hnamed : t.Named) (hwhole : t.Whole)
    (h : t.builder.out.Ready) (hsep : t.Separate) :
    ∃ m, t.Writes m ∧ m.type = 48 ∧ m.name = t.call.memberName ∧ m.size = t.call.st.size ∧
      m.contents.length = m.size ∧ m.contents = t.call.src.file.contents.take m.size := by
  obtain ⟨header,bytes,hheader,hrec,hdata⟩ := hwhole.written
  have hifmt := isHardlink_ifmt hfirst.hard
  have hof := memberHeader_of hheader
  obtain ⟨d,hd,-⟩ := hof.split
  obtain ⟨hdest,htype⟩ : header.linkdest = none ∧ header.linktype = 48 := by
    obtain ⟨entries,hcache,hunknown⟩ := hfirst.unknown
    cases hof.link with
    | symlink dest hst => exact absurd (hifmt.symm.trans hst) (by decide)
    | plain hst hdest htype => exact ⟨hdest,by rw [htype,inodeLinktype,if_pos hifmt]⟩
    | hardlink entries' dest hst hcache' hlookup =>
      obtain rfl : entries = entries' := Option.some.inj (hcache.symm.trans hcache')
      rw [hunknown] at hlookup
      cases hlookup
  have hreg : header.isIfreg = true := decide_eq_true htype
  have hsize : header.size = t.call.st.size := by rw [hof.size,if_pos hifmt]
  have hshort := hnamed.short
  have hok : Recordable t.builder.options header (longlinkPath t.call.memberName t.call.st) :=
    recordable_hardlink hfirst.hard hnamed.nul (by omega) (by simp [hdest])
  obtain ⟨hwrites,hlen⟩ := writes_readBack h hsep hheader hrec hok (hsize ▸ hwhole.size) hd
    fun _ => hsize ▸ hdata
  simp only [hreg,if_true] at hwrites hlen
  refine ⟨_,hwrites,htype,hnamed.readBack_name hfirst.hard hheader hd _,?_,?_,?_⟩
  · simp only [readBack,hreg,if_true,hsize]
  · simpa only [readBack,hreg,if_true] using hlen
  · simp only [readBack,hreg,if_true]

end Attempt

def Remembers (cache : Option HardlinkCache) (st : Stat) (name : Bytes) : Prop :=
  ∃ entries, cache = some entries ∧ entries.lookup (st.dev,st.ino) = some name

theorem Remembers.headerForFile {cache : Option HardlinkCache} {st : Stat} {name : Bytes}
    (h : Remembers cache st name) (src : Source) (memberName : Bytes) (st' : Stat) :
    Remembers (ArchiveTarBuilder.headerForFile cache src memberName st').2 st name := by
  obtain ⟨entries,rfl,hlookup⟩ := h
  have hsame : Remembers (some entries) st name := ⟨entries,rfl,hlookup⟩
  unfold ArchiveTarBuilder.headerForFile
  split
  · exact hsame
  · simp only
    split
    · split <;> exact hsame
    · split
      · unfold HardlinkCache.lookupPath
        cases hfound : List.lookup (st'.dev,st'.ino) entries with
        | some first => exact hsame
        | none =>
          refine ⟨_,rfl,?_⟩
          have hne : ((st.dev,st.ino) == (st'.dev,st'.ino)) = false := by
            rw [beq_eq_false_iff_ne]
            rintro heq
            rw [heq,hfound] at hlookup
            cases hlookup
          rw [List.lookup_cons,hne]
          exact hlookup
      · exact hsame

theorem Attempt.after_cache (t : Attempt) : t.after.hardlinkCache =
    (headerForFile t.builder.hardlinkCache t.call.src t.call.memberName t.call.st).2 := by
  have hkeeps := bBuilderWriteFile_keeps t.builder t.call.path t.call.memberName t.call.st t.call.fd
    t.call.src
  rw [Attempt.after,MemberCall.write,hkeeps.rest]
  rfl

theorem Attempt.First.remembered {t : Attempt} (h : t.First) (hheader : t.header.isSome = true) :
    Remembers t.after.hardlinkCache t.call.st t.call.memberName := by
  obtain ⟨entries,hcache,hunknown⟩ := h.unknown
  obtain ⟨header,hheader⟩ := Option.isSome_iff_exists.mp hheader
  obtain ⟨d,hd,-⟩ := (memberHeader_of hheader).split
  have hne : t.call.st.ifmt ≠ sIflnk := by rw [isHardlink_ifmt h.hard]; decide
  refine ⟨((t.call.st.dev,t.call.st.ino),t.call.memberName)::entries,?_,by simp⟩
  rw [after_cache,hcache,ArchiveTarBuilder.headerForFile]
  simp [hd,hne,h.hard,HardlinkCache.lookupPath,hunknown]

def Cached (cache : Option HardlinkCache) (ts : List Attempt) : Prop :=
  ∀ t ∈ ts, t.First → t.header.isSome = true → Remembers cache t.call.st t.call.memberName

/-- Every call of an archive found a clean buffer, and the cache that the calls before it left. -/
def InTurn (ts : List Attempt) : Prop :=
  ∀ before t after, ts = before ++ t::after →
    t.builder.out.Ready ∧ Cached t.builder.hardlinkCache before

theorem inTurn_nil : InTurn [] := fun before t after h => by
  have hlen := congrArg List.length h
  simp at hlen

theorem InTurn.snoc {ts : List Attempt} (h : InTurn ts) {t : Attempt} (hready : t.builder.out.Ready)
    (hcached : Cached t.builder.hardlinkCache ts) : InTurn (ts ++ [t]) := by
  intro before u after heq
  rcases List.eq_nil_or_concat after with rfl | ⟨after',last,rfl⟩
  · obtain ⟨rfl,hlast⟩ := List.append_inj' heq rfl
    obtain rfl : t = u := by simpa using hlast
    exact ⟨hready,hcached⟩
  · rw [List.concat_eq_append,← List.cons_append,← List.append_assoc] at heq
    obtain ⟨hts,-⟩ := List.append_inj' heq rfl
    exact h before u after' hts

theorem Cached.after {t : Attempt} {ts : List Attempt} (h : Cached t.builder.hardlinkCache ts) :
    Cached t.after.hardlinkCache (ts ++ [t]) := by
  intro u hu hfirst hheader
  rcases List.mem_append.mp hu with hu | hu
  · rw [t.after_cache]
    exact (h u hu hfirst hheader).headerForFile _ _ _
  · obtain rfl : u = t := by simpa using hu
    exact hfirst.remembered hheader

theorem Works.inTurn {b b' : BBuilder} {us : List Attempt} (h : Works b us b') (hb : b.out.Ready)
    (hsep : ∀ t ∈ us, t.Separate) {ts : List Attempt} (hts : InTurn ts)
    (hcached : Cached b.hardlinkCache ts) :
    b'.out.Ready ∧ InTurn (ts ++ us) ∧ Cached b'.hardlinkCache (ts ++ us) := by
  induction h with
  | idle => simpa using ⟨hb,hts,hcached⟩
  | report h e message path ih => exact ih hsep
  | fail h e ih =>
    obtain ⟨hready,hrest⟩ := ih hsep
    exact ⟨hready.setErrno e,hrest⟩
  | @write us b' h c ih =>
    obtain ⟨hready,hinTurn,hcached'⟩ := ih fun t ht => hsep t (by simp [ht])
    have hadds := Attempt.adds (t := ⟨b',c⟩) hready (hsep ⟨b',c⟩ (by simp))
    rw [← List.append_assoc]
    exact ⟨hadds.1,hinTurn.snoc hready hcached',Cached.after (t := ⟨b',c⟩) hcached'⟩

/-- What holds of the builder and of the archives between the methods of a run. -/
structure RunInv (b : BBuilder) (ts : List Attempt) (earlier : List (List Attempt)) : Prop where
  handed : ∀ fd ≠ 0, ∀ fifo release sys, sys.Reliable →
    Output.Ready ⟨bBufferSetFd b.out.buf fd fifo release,sys⟩
  ready : b.out.buf.fd ≠ 0 → b.out.Ready
  cached : Cached b.hardlinkCache ts
  inTurn : ∀ archive ∈ ts::earlier, InTurn archive

theorem Output.Ready.handed {o : Output} (h : o.Ready) {fd : ℤ} (hfd : fd ≠ 0) (fifo : Bool)
    (release : Option (ℕ × ℕ × ℕ)) {sys : Sys} (hsys : sys.Reliable) :
    Ready ⟨bBufferSetFd o.buf fd fifo release,sys⟩ :=
  ⟨⟨⟨hfd,h.pos,h.block,h.unusedBlock,h.unused_le,h.length⟩,h.blank⟩,hsys⟩

/-- The handles that a run is given can be written to. -/
def Method.Usable : Method → Prop
  | .setHandle fd _ _ sys => fd ≠ 0 ∧ sys.Reliable
  | _ => True

theorem RunInv.flushed {b : BBuilder} {ts : List Attempt} {earlier : List (List Attempt)}
    (h : RunInv b ts earlier) (hfd : b.out.buf.fd ≠ 0) (err : BError) :
    RunInv { b.flushed with err := err } ts earlier := by
  obtain ⟨ret,sys',hflush,-,-,hrel,-⟩ := (h.ready hfd).flush
  have hready : b.flushed.out.Ready := by
    rw [BBuilder.flushed,hflush]
    exact ⟨(h.ready hfd).emptied sys',hrel⟩
  exact ⟨fun fd hfd' fifo release sys hsys => hready.handed hfd' fifo release hsys,fun _ => hready,
    h.cached,h.inTurn⟩

theorem Performs.runInv {b b' : BBuilder} {m : Method} {us ts : List Attempt}
    {earlier : List (List Attempt)} (hperforms : Performs b m us b') (hm : m.Usable)
    (hsep : ∀ t ∈ us, t.Separate) (h : RunInv b ts earlier) : RunInv b' (ts ++ us) earlier := by
  cases hperforms with
  | archives harchives hfd hworks =>
    obtain ⟨hready,hinTurn,hcached⟩ :=
      hworks.inTurn (h.ready hfd) hsep (h.inTurn ts (by simp)) h.cached
    refine ⟨fun fd hfd' fifo release sys hsys => hready.handed hfd' fifo release hsys,fun _ => hready,
      hcached,fun archive harchive => ?_⟩
    rcases List.mem_cons.mp harchive with rfl | harchive
    · exact hinTurn
    · exact h.inTurn archive (by simp [harchive])
  | handle fd fifo release sys =>
    rw [List.append_nil]
    exact ⟨fun fd' hfd' fifo' release' sys' hsys' => h.handed fd' hfd' fifo' release' sys' hsys',
      fun _ => h.handed fd hm.1 fifo release sys hm.2,h.cached,h.inTurn⟩
  | unset hfd => rwa [List.append_nil]
  | flushed hor hfd =>
    rw [List.append_nil]
    exact h.flushed hfd b.err
  | finished hfd hret hwarn =>
    rw [List.append_nil]
    exact h.flushed hfd (bErrorReset b.err)

theorem RunInv.start {b : BBuilder} {ts : List Attempt} {earlier : List (List Attempt)}
    (h : RunInv b ts earlier) : RunInv b [] (ts::earlier) := by
  refine ⟨h.handed,h.ready,by simp [Cached],fun archive harchive => ?_⟩
  rcases List.mem_cons.mp harchive with rfl | harchive
  · exact inTurn_nil
  · exact h.inTurn archive harchive

section
variable {μ : Type*} (engine : MatchEngine μ)

/-- The invariant holds through every run that is given handles it can write to. -/
theorem runMethods_runInv (ms : List Method) (hms : ∀ m ∈ ms, m.Usable) (p : Process)
    {blockFactor : ℕ} (hf : 1 ≤ blockFactor) (hbig : 512*blockFactor < 2^63)
    (options : BBuilderOptions) (userLookup : Option BUserLookup) (matching : μ) {r : Run μ}
    (hr : r = runMethods engine ms (newArchiver p blockFactor options userLookup matching))
    (hsep : ∀ archive ∈ r.archives, ∀ t ∈ archive, t.Separate) :
    RunInv r.archiver.builder r.attempts r.earlier := by
  subst hr
  refine runMethods_invariant engine
    (P := fun b ts earlier => (∀ archive ∈ ts::earlier, ∀ t ∈ archive, t.Separate) →
      RunInv b ts earlier) ms (fun _ => ⟨?_,fun hfd => absurd rfl hfd,by simp [Cached],?_⟩) ?_ hsep
  · intro fd hfd fifo release sys hsys
    have hout := newArchiver_setHandle p hf options userLookup matching fd fifo release sys
    simp only [builderSetHandle,Archiver.setOut] at hout
    rw [hout]
    exact ready_opened hf hbig hfd fifo release hsys
  · intro archive harchive
    obtain rfl : archive = [] := by simpa using harchive
    exact inTurn_nil
  · intro m hm b ts earlier us b' hb hperforms hsep
    have hall : ∀ archive ∈ (ts ++ us)::earlier, ∀ t ∈ archive, t.Separate := by
      cases hstarts : m.starts with
      | true => exact fun archive ha => hsep archive (by simp only [hstarts,if_true]; simp [ha])
      | false => simpa only [hstarts,Bool.false_eq_true,if_false] using hsep
    have hold : RunInv b ts earlier := hb fun archive harchive t ht => by
      rcases List.mem_cons.mp harchive with rfl | harchive
      · exact hall (archive ++ us) (by simp) t (by simp [ht])
      · exact hall archive (by simp [harchive]) t ht
    have hnew := hperforms.runInv (hms m hm) 
      (fun t ht => hall (ts ++ us) (by simp) t (by simp [ht])) hold
    cases m.starts with
    | true => exact hnew.start
    | false => exact hnew

/-- The call writes a header of type `'1'`. -/
def Attempt.Links (t : Attempt) : Prop :=
  ∃ header ∈ t.header, header.linktype = 49 ∧ (t.records header).isSome = true

/-- The member of the call is a hard link to the one of an earlier call for its archive: a regular
file that was written whole, for the same inode, and of another name. -/
def Resolves (before : List Attempt) (t : Attempt) : Prop :=
  ∃ m, t.Writes m ∧ m.type = 49 ∧ ∃ t' ∈ before, ∃ m', t'.Writes m' ∧ m'.type = 48 ∧
    t'.call.st.dev = t.call.st.dev ∧ t'.call.st.ino = t.call.st.ino ∧
    m'.size = t'.call.st.size ∧ m'.contents.length = m'.size ∧
    m'.contents = t'.call.src.file.contents.take m'.size ∧ m.target = m'.name ∧ m.name ≠ m'.name

def Attempt.heldName (t : Attempt) (header : BHeader) : Option Bytes :=
  (pathSplit t.call.memberName t.call.st).map fun d =>
    (recordedPath t.builder.options header (longlinkPath t.call.memberName t.call.st)).getD d.name

/-- When it is: the first call for the file came earlier for the same archive, under a name that a
reader gets and that is not held by the link itself, and nothing kept it from being written whole.
-/
structure LinkMet (before : List Attempt) (t : Attempt) : Prop where
  nul : 0 ∉ t.call.memberName
  short : t.call.memberName.length < 2^32
  first : ∃ t' ∈ before, t'.call.st.dev = t.call.st.dev ∧ t'.call.st.ino = t.call.st.ino ∧
    t'.First ∧ t'.Named ∧ t'.Whole ∧ ∀ header ∈ t.header, t.heldName header ≠ some t'.call.memberName

theorem Attempt.Links.writes {t : Attempt} (hlinks : t.Links) (hname : 0 ∉ t.call.memberName)
    (hlen : t.call.memberName.length < 2^32) (h : t.builder.out.Ready) (hsep : t.Separate)
    {target : Bytes} (hcache : Remembers t.builder.hardlinkCache t.call.st target)
    (hnul : 0 ∉ target) (hshort : target.length+21 < 2^31) (hsize : t.call.st.size < 2^64) :
    ∃ m, t.Writes m ∧ m.type = 49 ∧ m.target = target ∧
      ∃ header ∈ t.header, t.heldName header = some m.name := by
  obtain ⟨header,hheader,htype,hrec⟩ := hlinks
  obtain ⟨bytes,hrec⟩ := Option.isSome_iff_exists.mp hrec
  have hof := memberHeader_of hheader
  obtain ⟨d,hd,-⟩ := hof.split
  obtain ⟨hhard,hdest⟩ : isHardlink t.call.st = true ∧ header.linkdest = some target := by
    obtain ⟨entries,hentries,hlookup⟩ := hcache
    cases hof.link with
    | symlink dest hst hread hdest htype' => exact absurd (htype.symm.trans htype') (by decide)
    | plain hst hdest htype' =>
      rw [htype] at htype'
      unfold inodeLinktype at htype'
      split_ifs at htype' <;> cases htype'
    | hardlink entries' dest hst hentries' hlookup' hdest =>
      obtain rfl : entries = entries' := Option.some.inj (hentries.symm.trans hentries')
      exact ⟨hst,hdest.trans (hlookup'.symm.trans hlookup)⟩
  have hreg : header.isIfreg = false := by rw [BHeader.isIfreg,htype]; decide
  have hbound : header.size < 2^64 := by
    rw [hof.size]
    split
    · exact hsize
    · decide
  have hok : Recordable t.builder.options header (longlinkPath t.call.memberName t.call.st) :=
    recordable_hardlink hhard hname hlen (by simpa [hdest] using ⟨hnul,hshort⟩)
  obtain ⟨hwrites,-⟩ := writes_readBack h hsep hheader hrec hok hbound hd
    fun hr => absurd hr (by simp [hreg])
  exact ⟨_,hwrites,htype,by simp [readBack,hdest],header,hheader,by simp [heldName,hd,readBack]⟩

/-- Every header of type `'1'` in every archive of every run, when its names and its first member
meet the condition. -/
theorem links_resolve (ms : List Method) (hms : ∀ m ∈ ms, m.Usable) (p : Process)
    {blockFactor : ℕ} (hf : 1 ≤ blockFactor) (hbig : 512*blockFactor < 2^63)
    (options : BBuilderOptions) (userLookup : Option BUserLookup) (matching : μ) {r : Run μ}
    (hr : r = runMethods engine ms (newArchiver p blockFactor options userLookup matching))
    (hsep : ∀ archive ∈ r.archives, ∀ t ∈ archive, t.Separate) {archive before after : List Attempt}
    {t : Attempt} (harchive : archive ∈ r.archives) (hsplit : archive = before ++ t::after)
    (hlinks : t.Links) (hsize : t.call.st.size < 2^64) (hmet : LinkMet before t) :
    Resolves before t := by
  have hinv := runMethods_runInv engine ms hms p hf hbig options userLookup matching hr hsep
  obtain ⟨hready,hcached⟩ := hinv.inTurn archive harchive before t after hsplit
  obtain ⟨t',ht',hdev,hino,hfirst,hnamed,hwhole,hne⟩ := hmet.first
  obtain ⟨left,right,rfl⟩ := List.append_of_mem ht'
  obtain ⟨hready',-⟩ := hinv.inTurn archive harchive left t' (right ++ t::after) (by simp [hsplit])
  have hsep' (u : Attempt) (hu : u ∈ archive) : u.Separate := hsep archive harchive u hu
  obtain ⟨m',hwrites',htype',hname',hm'⟩ :=
    hfirst.writes hnamed hwhole hready' (hsep' t' (by simp [hsplit]))
  have hheader : t'.header.isSome = true := by
    obtain ⟨header,-,hheader,-⟩ := hwhole.written
    rw [hheader]
    rfl
  have hremembers := hcached t' ht' hfirst hheader
  rw [Remembers,hdev,hino] at hremembers
  obtain ⟨m,hwrites,htype,htarget,header,hh,hheld⟩ := hlinks.writes hmet.nul hmet.short hready
    (hsep' t (by simp [hsplit])) hremembers hnamed.nul hnamed.short hsize
  refine ⟨m,hwrites,htype,t',ht',m',hwrites',htype',hdev,hino,hm'.1,hm'.2.1,hm'.2.2,
    htarget.trans hname'.symm,fun heq => hne header hh ?_⟩
  rw [hheld,heq,hname']

end

theorem Attempt.Writes.read {t : Attempt} {m : TarMember} (h : t.Writes m) :
    readArchive (t.after.out.stream.drop t.builder.out.stream.length) = some [m] := by
  obtain ⟨bytes,hadds,hreads⟩ := h
  rw [hadds,List.drop_left]
  exact hreads.archive

def linkedFile (name : Bytes) : Method :=
  .archive [(name,⟨.answering ⟨sIfreg+0o644,0,0,3,0,1,0,7,2⟩ 5 ⟨.ok [],[],⟨[1,2,3],[]⟩⟩,.eof⟩)]

def linkRun (ms : List Method) : Run Unit :=
  runMethods noPatterns (.setHandle 4 false none ⟨[],[],[],.ok⟩::ms)
    (newArchiver ⟨false,1⟩ 2 ⟨true,false,false,true,false,false,false⟩ none ())

theorem links_resolve_relative : ∃ before t after,
    (linkRun [linkedFile [100,47,102],linkedFile [100,47,103]]).attempts = before ++ t::after ∧
    t.Links ∧ Resolves before t := by
  generalize hr : linkRun [linkedFile [100,47,102],linkedFile [100,47,103]] = r
  have hlen : r.attempts.length = 2 := by rw [← hr]; decide +kernel
  have hfirst : ∀ t ∈ r.attempts.take 1, isHardlink t.call.st = true ∧
      t.call.memberName = [100,47,102] ∧ (t.call.st.dev,t.call.st.ino) = (1,7) ∧
      t.call.st.size = 3 ∧
      t.builder.hardlinkCache.map (List.lookup (t.call.st.dev,t.call.st.ino)) = some none ∧
      canonicalName t.call.memberName t.call.st = t.call.memberName ∧
      ∃ header ∈ t.header, ∃ bytes ∈ t.records header, 0 < t.call.fd ∧
        t.builder.out.buf.canSplice = false ∧ (reading t.builder.out.buf.size
          (freeBehind t.builder.out (bytes.length+512)) 3 t.call.src.file).toOption.isSome := by
    rw [← hr]
    decide +kernel
  have hsecond : ∀ t ∈ r.attempts.drop 1, (t.call.st.dev,t.call.st.ino) = (1,7) ∧
      t.call.st.size = 3 ∧ t.call.memberName = [100,47,103] ∧
      (∃ header ∈ t.header, header.linktype = 49 ∧ (t.records header).isSome = true) ∧
      ∀ header ∈ t.header, t.heldName header ≠ some [100,47,102] := by
    rw [← hr]
    decide +kernel
  have hsep : ∀ archive ∈ r.archives, ∀ t ∈ archive, t.Separate := by
    unfold Attempt.Separate
    rw [← hr]
    decide +kernel
  obtain ⟨t',t,hts⟩ := List.length_eq_two.mp hlen
  rw [hts] at hfirst hsecond
  obtain ⟨hhard,hname',hinode',hsize',hunknown,hcanonical,header,hheader,bytes,hbytes,hfd,hplain,hread⟩ :=
    hfirst t' (by simp)
  obtain ⟨hinode,hsize,hname,hlinks,hheld⟩ := hsecond t (by simp)
  obtain ⟨entries,hcache,hlookup⟩ := Option.map_eq_some_iff.mp hunknown
  obtain ⟨rest,hrest⟩ := Option.isSome_iff_exists.mp hread
  have hinodes := Prod.mk.inj (hinode'.trans hinode.symm)
  refine ⟨[t'],t,[],hts,hlinks,links_resolve noPatterns
    [.setHandle 4 false none ⟨[],[],[],.ok⟩,linkedFile [100,47,102],linkedFile [100,47,103]]
    ?_ ⟨false,1⟩ (by decide : 1 ≤ 2) (by decide) ⟨true,false,false,true,false,false,false⟩ none ()
    hr.symm hsep (List.mem_cons_self) hts hlinks (by rw [hsize]; decide) ⟨by rw [hname]; decide,
      by rw [hname]; decide,t',by simp,hinodes.1,hinodes.2,⟨hhard,entries,hcache,hlookup⟩,
      ⟨by rw [hname']; decide,by rw [hname']; decide,Or.inl hcanonical⟩,
      ⟨by rw [hsize']; decide,header,bytes,hheader,hbytes,Or.inr ⟨hfd,?_⟩⟩,
      fun header hheader => by rw [hname']; exact hheld header hheader⟩⟩
  · intro m hm
    simp only [List.mem_cons,List.not_mem_nil,or_false] at hm
    rcases hm with rfl | rfl | rfl
    · exact ⟨by decide,by decide⟩
    · trivial
    · trivial
  · rw [hsize']
    refine ⟨(if_pos (Or.inl hplain)).mpr ⟨rest,?_⟩,if_pos (Or.inl hplain)⟩
    revert hrest
    cases reading t'.builder.out.buf.size (freeBehind t'.builder.out (bytes.length+512)) 3
      t'.call.src.file with
    | error p => simp [Except.toOption]
    | ok file => simp [Except.toOption]

/-- Under absolute names the target keeps the slash that the first member's header has lost; and in
a second archive there is no first member. -/
theorem not_resolves_linkRun :
    (∃ before t after, (linkRun [linkedFile [47,100,47,102],linkedFile [47,100,47,103]]).attempts =
      before ++ t::after ∧ t.Links ∧ ¬Resolves before t) ∧
    ∃ t after, (linkRun [linkedFile [100,47,102],.finish,.setHandle 4 false none ⟨[],[],[],.ok⟩,
      linkedFile [100,47,103]]).attempts = t::after ∧ t.Links ∧ ¬Resolves [] t := by
  constructor
  · generalize hr : (linkRun [linkedFile [47,100,47,102],linkedFile [47,100,47,103]]).attempts = ts
    have hlen : ts.length = 2 := by rw [← hr]; decide +kernel
    have hfirst : ∀ t ∈ ts.take 1,
        (readArchive (t.after.out.stream.drop t.builder.out.stream.length)).map
          (·.map TarMember.name) = some [[100,47,102]] := by
      rw [← hr]
      decide +kernel
    have hsecond : ∀ t ∈ ts.drop 1, t.Links ∧
        (readArchive (t.after.out.stream.drop t.builder.out.stream.length)).map
          (·.map TarMember.target) = some [[47,100,47,102]] := by
      unfold Attempt.Links
      rw [← hr]
      decide +kernel
    obtain ⟨t',t,hts⟩ := List.length_eq_two.mp hlen
    rw [hts] at hfirst hsecond
    obtain ⟨hlinks,htarget⟩ := hsecond t (by simp)
    refine ⟨[t'],t,[],hts,hlinks,?_⟩
    rintro ⟨m,hm,-,u,hu,m',hm',-,-,-,-,-,-,heq,-⟩
    obtain rfl : u = t' := by simpa using hu
    have hname := hfirst u (by simp)
    rw [hm.read] at htarget
    rw [hm'.read] at hname
    simp only [Option.map_some,List.map_cons,List.map_nil,Option.some.injEq,List.cons.injEq,
      and_true] at htarget hname
    rw [htarget,hname] at heq
    exact absurd heq (by decide)
  · generalize hr : (linkRun [linkedFile [100,47,102],.finish,
      .setHandle 4 false none ⟨[],[],[],.ok⟩,linkedFile [100,47,103]]).attempts = ts
    have hlen : ts.length = 1 := by rw [← hr]; decide +kernel
    have hlinks : ∀ t ∈ ts, t.Links := by
      unfold Attempt.Links
      rw [← hr]
      decide +kernel
    obtain ⟨t,hts⟩ := List.length_eq_one_iff.mp hlen
    rw [hts] at hlinks
    refine ⟨t,[],hts,hlinks t (by simp),?_⟩
    rintro ⟨m,hm,-,u,hu,-⟩
    cases hu

end ArchiveTarBuilder
