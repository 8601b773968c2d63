import ArchiveTarBuilder.Archivable
import ArchiveTarBuilder.MatchLists
import ArchiveTarBuilder.Selection
import ArchiveTarBuilder.SilentFailures

/-! What `is_excluded` has to do with the entries that `archive_as` takes. The traversal tests the
paths of entries, each behind those of the directories above it, and never that of the root. -/
namespace ArchiveTarBuilder
open CString Output

theorem Output.Live.inBlocks {o : Output} (h : o.Live) : o.InBlocks o.buf.size :=
  ⟨rfl,h.block,h.unusedBlock,h.unused_le,h.length⟩

theorem Output.InBlocksFrom.live {o start : Output} (h : o.InBlocksFrom start.buf.size start)
    (hstart : start.Live) : o.Live :=
  ⟨h.aligned (h.fd ▸ hstart.handle) hstart.pos.ne',h.reliable hstart.reliable⟩

theorem flushLeft_reliable {ws : List WriteAnswer} (h : ∀ w ∈ ws, w.Progress) (n : ℕ) :
    ∃ rest, flushLeft n ws = some rest ∧ ∀ w ∈ rest, w.Progress := by
  induction ws generalizing n with
  | nil => exact ⟨[],by cases n <;> rfl,h⟩
  | cons w ws ih =>
    have hrest := fun w hw => h w (List.mem_cons_of_mem _ hw)
    by_cases hn : n = 0
    · exact ⟨w::ws,by simp [hn],h⟩
    · have hw := h w List.mem_cons_self
      cases w with
      | accept k => simpa [flushLeft,hn] using ih hrest (n-(k+1))
      | zero => exact ⟨ws,by simp [flushLeft,hn],hrest⟩
      | fail e =>
        obtain rfl : e = .eintr := hw
        simpa [flushLeft,hn] using ih hrest n

theorem flushTimes_reliable (size k : ℕ) {ws : List WriteAnswer} (h : ∀ w ∈ ws, w.Progress) :
    ∃ rest, flushTimes size k ws = some rest := by
  induction k generalizing ws with
  | zero => exact ⟨ws,rfl⟩
  | succ k ih =>
    obtain ⟨left,hleft,hprogress⟩ := flushLeft_reliable h size
    simpa [flushTimes,hleft] using ih hprogress

theorem Output.Live.not_stops {o : Output} (h : o.Live) (m : ℕ) : ¬o.level.Stops m := by
  obtain ⟨rest,hrest⟩ := flushTimes_reliable o.buf.size ((o.used+m)/o.buf.size) h.reliable
  intro hstops
  rw [Level.Stops] at hstops
  exact Option.some_ne_none _ (hrest.symm.trans hstops)

theorem Output.Live.not_refuses {o : Output} (h : o.Live) (m : ℕ) : ¬o.Refuses m :=
  not_or.mpr ⟨not_or.mpr ⟨h.handle,h.pos.ne'⟩,h.not_stops m⟩

/-- The length of the pax record of a name is found, if the name leaves room for the rest of it. -/
theorem computePaxLength_short {path : Bytes} (h : path.length+21 < 2^31) :
    bHeaderComputePaxLength path pathKey ≠ 2^64-1 := by
  have hround {x : ℕ} (hx : x < 2^31) :
      snprintfResult (paxRecord x pathKey path).length < 2^31 := by
    have hten := decimals_le_ten hx
    have hcstr : (cstr path).length ≤ path.length := (List.takeWhile_prefix _).length_le
    have hlen : (paxRecord x pathKey path).length = decimals x+7+(cstr path).length := by
      simp [paxRecord,formatD_of_lt hx,decimals,pathKey]
      omega
    rw [snprintfResult,hlen,if_pos (by omega)]
    omega
  have hlt : bHeaderComputePaxLength path pathKey < 2^31 := hround (hround (hround (by omega)))
  omega

theorem longlinkPath_short {memberName : Bytes} (h : memberName.length+22 < 2^31) (st : Stat) :
    bHeaderComputePaxLength (longlinkPath memberName st) pathKey ≠ 2^64-1 := by
  refine computePaxLength_short ?_
  unfold longlinkPath
  split
  · rw [List.length_append,List.length_singleton]
    omega
  · omega

/-- `b_builder_write_file` gets as far as the member's own header. -/
def writesHeader (b : BBuilder) (memberName : Bytes) (st : Stat) (src : Source) : Bool :=
  match memberHeader b.userLookup b.hardlinkCache src memberName st with
  | none => false
  | some header => (andWrite (writeLongRecords (memberStart b src memberName st) header memberName st)
      (writeHeader · header)).1

def FindCall.WritesHeader {μ : Type*} (c : FindCall (Archiver μ)) : Prop :=
  writesHeader c.world.builder c.memberName c.st c.source = true

def headerWritten (options : BBuilderOptions) (lookup : Option BUserLookup)
    (cache : Option HardlinkCache) (memberName : Bytes) (st : Stat) (src : Source) : Bool :=
  match memberHeader lookup cache src memberName st with
  | none => false
  | some header => !(header.truncated || header.truncatedLink) ||
      (options.gnuExtensions || options.paxExtensions)

def headerFails (memberName : Bytes) (st : Stat) (src : Source) : Bool :=
  match (headerForFile none src memberName st).1 with
  | .error _ => true
  | .ok _ => false

/-- On a handle that takes every byte, only a name that is too long keeps a header from being
written, and that is a warning. -/
theorem headed_live {b : BBuilder} (h : b.out.Live) {memberName : Bytes}
    (hshort : memberName.length+22 < 2^31) (st : Stat) (src : Source) (header : BHeader) :
    let r := andWrite (writeLongRecords (memberStart b src memberName st) header memberName st)
      (writeHeader · header)
    r.1 = (!(header.truncated || header.truncatedLink) ||
      (b.options.gnuExtensions || b.options.paxExtensions)) ∧
      (r.1 = false → r.2.err.type = .warn) := by
  have hown {b' : BBuilder} {m : ℕ} (hfed : Fed b.out b'.out m) : (writeHeader b' header).1 =
      true := by
    have hblock : ¬NoBlock b'.out := fun hno => h.not_refuses m (hfed.noBlock_iff.mp hno)
    obtain ⟨own,hhead,-⟩ := writeHeader_fed hfed header hblock
    rw [hhead]
  by_cases hlong : (header.truncated || header.truncatedLink) = true
  · by_cases hext : (b.options.gnuExtensions || b.options.paxExtensions) = true
    · have hfed := @writeLongRecords_fed (memberStart b src memberName st) h.toAligned header memberName
        st ⟨hlong,hext⟩ (h.not_stops 0)
      rcases hfed with ⟨hdone,m,-,-,hfed⟩ | ⟨-,-,hstops⟩
      · simp only [andWrite,hdone,if_true,hown hfed,hext,Bool.or_true,true_and]
        exact fun hno => absurd hno (by decide)
      · -- no records are refused on such a handle
        obtain ⟨m,hm⟩ : ∃ m, recordsSize b.options header (longlinkPath memberName st) = some m := by
          by_cases hgnu : b.options.gnuExtensions = true
          · exact ⟨_,by rw [recordsSize,if_pos hlong,if_pos hgnu]⟩
          · have hpax : b.options.paxExtensions = true := by simpa [hgnu] using hext
            exact ⟨_,by rw [recordsSize,if_pos hlong,if_neg hgnu,
              if_pos (by simpa [hpax] using longlinkPath_short hshort st)]⟩
        exact absurd (hstops m hm).2 (h.not_stops _)
    · have hwrite : writeLongRecords (memberStart b src memberName st) header memberName st =
          (false,((memberStart b src memberName st).setErrno .enametoolong).setError .warn
            "File name too long" memberName) := by
        have hext' : ((memberStart b src memberName st).options.gnuExtensions ||
          (memberStart b src memberName st).options.paxExtensions) = false :=
            (Bool.not_eq_true _).mp hext
        simp [writeLongRecords,hlong,hext']
      rw [hwrite]
      simp only [andWrite,Bool.false_eq_true,if_false,hlong,Bool.not_true,Bool.false_or]
      exact ⟨((Bool.not_eq_true _).mp hext).symm,fun _ => rfl⟩
  · have hwrite : writeLongRecords (memberStart b src memberName st) header memberName st =
        (true,memberStart b src memberName st) := by simp [writeLongRecords,hlong]
    have hdone := @hown (memberStart b src memberName st) 0 (.refl h.toAligned)
    simp only [andWrite,hwrite,if_true,hdone,(Bool.not_eq_true _).mp hlong,Bool.not_false,
      Bool.true_or,
      true_and]
    exact fun hno => absurd hno (by decide)

theorem writesHeader_eq {b : BBuilder} (h : b.out.Live) {memberName : Bytes}
    (hshort : memberName.length+22 < 2^31) (st : Stat) (src : Source) :
    writesHeader b memberName st src =
      headerWritten b.options b.userLookup b.hardlinkCache memberName st src := by
  unfold writesHeader headerWritten
  cases memberHeader b.userLookup b.hardlinkCache src memberName st with
  | none => rfl
  | some header => exact (headed_live h hshort st src header).1

theorem bBuilderWriteFile_header {b : BBuilder} (path : Bytes) {memberName : Bytes} {st : Stat}
    (fd : ℤ) {src : Source} (h : (bBuilderWriteFile b path memberName st fd src).1 = true) :
    writesHeader b memberName st src = true := by
  unfold writesHeader
  cases hheader : memberHeader b.userLookup b.hardlinkCache src memberName st with
  | none =>
    rw [(bBuilderWriteFile_none path fd hheader).failed] at h
    cases h
  | some header =>
    rw [bBuilderWriteFile_some path fd hheader,writeMember,andWrite] at h
    split at h
    · assumption
    · exact h

theorem bBuilderWriteFile_directory {b : BBuilder} {path memberName : Bytes} {st : Stat} {fd : ℤ}
    {src : Source} (hst : st.ifmt = sIfdir) (h : writesHeader b memberName st src = true) :
    (bBuilderWriteFile b path memberName st fd src).1 = true := by
  unfold writesHeader at h
  cases hheader : memberHeader b.userLookup b.hardlinkCache src memberName st with
  | none => simp [hheader] at h
  | some header =>
    simp only [hheader] at h
    have hreg : header.isIfreg = false := by
      cases (memberHeader_of hheader).link with
      | symlink dest hlnk hread hdest htype =>
        rw [hst] at hlnk
        exact absurd hlnk (by decide)
      | plain hlnk hdest htype =>
        rw [BHeader.isIfreg,htype,inodeLinktype,hst]
        decide
      | hardlink entries dest hhard hcache hlookup hdest htype =>
        rw [isHardlink,hst] at hhard
        simp [sIfdir,sIfreg] at hhard
    rw [bBuilderWriteFile_some path fd hheader,writeMember,andWrite,if_pos h,writeContents,hreg]
    rfl

/-- What the cache knows matters to a file with several names alone, and never for whether a header
can be made. -/
theorem headerForFile_cache (cache : Option HardlinkCache) (src : Source) (memberName : Bytes)
    (st : Stat) : (isHardlink st = false → (headerForFile cache src memberName st).1 =
        (headerForFile none src memberName st).1) ∧
      ((∃ e, (headerForFile cache src memberName st).1 = .error e) ↔
        headerFails memberName st src = true) := by
  unfold headerFails headerForFile
  cases pathSplit memberName st with
  | none => simp
  | some d =>
    simp only
    by_cases hlnk : st.ifmt = sIflnk
    · simp only [if_pos hlnk]
      cases bReadlink src st <;> simp
    · simp only [if_neg hlnk]
      by_cases hhard : isHardlink st = true
      · simp only [hhard,Bool.true_eq_false,false_implies,true_and]
        cases cache with
        | none => simp
        | some entries =>
          simp only
          obtain ⟨r,entries',hr⟩ : ∃ r entries', entries.lookupPath st.dev st.ino memberName =
            (r,entries') := ⟨_,_,rfl⟩
          rw [hr]
          cases r <;> simp
      · simp [hhard]

theorem headerWritten_cache (options : BBuilderOptions) (lookup : Option BUserLookup)
    (cache : Option HardlinkCache) (memberName : Bytes) {st : Stat} (src : Source)
    (h : isHardlink st = false) : headerWritten options lookup cache memberName st src =
      headerWritten options lookup none memberName st src := by
  simp only [headerWritten,memberHeader,(headerForFile_cache cache src memberName st).1 h]

theorem bBuilderWriteFile_fatal_iff {b : BBuilder} (h : b.out.Live) (path : Bytes) {memberName : Bytes}
    (hshort : memberName.length+22 < 2^31) (st : Stat) (fd : ℤ) (src : Source) :
    (bBuilderWriteFile b path memberName st fd src).1 = false ∧
        bErrorFatal (bBuilderWriteFile b path memberName st fd src).2.err = true ↔
      headerFails memberName st src = true := by
  rw [← (headerForFile_cache b.hardlinkCache src memberName st).2]
  cases hheader : memberHeader b.userLookup b.hardlinkCache src memberName st with
  | none =>
    have hnone := bBuilderWriteFile_none path fd hheader
    rw [hnone.failed,bErrorFatal,hnone.type]
    cases (headerForFile b.hardlinkCache src memberName st).1 <;> simp
  | some header =>
    have hmade : ¬∃ e, (headerForFile b.hardlinkCache src memberName st).1 = .error e := by
      rintro ⟨e,he⟩
      simp [memberHeader,he] at hheader
    refine iff_of_false ?_ hmade
    rintro ⟨hfailed,hfatal⟩
    have hwarn : (bBuilderWriteFile b path memberName st fd src).2.err.type = .warn := by
      rw [bBuilderWriteFile_some path fd hheader,writeMember] at hfailed ⊢
      obtain ⟨-,hwarn⟩ := headed_live h hshort st src header
      generalize andWrite (writeLongRecords (memberStart b src memberName st) header memberName st)
        (writeHeader · header) = r at hwarn hfailed ⊢
      unfold andWrite at hfailed ⊢
      by_cases hr : r.1 = true
      · rw [if_pos hr] at hfailed ⊢
        by_cases hasked : (header.isIfreg && decide (0 < fd)) = true
        · exact (writeContents_reports hasked).2.1 hfailed
        · simp [writeContents,hasked] at hfailed
      · rw [if_neg hr] at hfailed ⊢
        exact hwarn hfailed
    rw [bErrorFatal,hwarn] at hfatal
    cases hfatal

def KnownFrom (start cache : Option HardlinkCache) (ts : List Attempt) : Prop :=
  ∀ entries ∈ cache, ∀ key, ∀ first ∈ entries.lookup key,
    (∃ entries' ∈ start, entries'.lookup key = some first) ∨
      ∃ t ∈ ts, isHardlink t.call.st = true ∧ key = (t.call.st.dev,t.call.st.ino) ∧
        first = t.call.memberName

theorem KnownFrom.mono {start cache : Option HardlinkCache} {ts us : List Attempt}
    (h : KnownFrom start cache ts) (hsub : ts ⊆ us) : KnownFrom start cache us :=
  fun entries hentries key first hfirst => (h entries hentries key first hfirst).imp id
    fun ⟨t,ht,hknown⟩ => ⟨t,hsub ht,hknown⟩

theorem KnownFrom.after {start : Option HardlinkCache} {ts : List Attempt} {t : Attempt}
    (h : KnownFrom start t.builder.hardlinkCache ts) :
    KnownFrom start t.after.hardlinkCache (ts ++ [t]) := by
  have hmono := h.mono (List.subset_append_left ts [t])
  rw [Attempt.after_cache]
  rcases t.call.cacheAfter_cases t.builder.hardlinkCache with hsame | ⟨entries,hcache,hhard,-,hafter⟩
  · rw [MemberCall.cacheAfter] at hsame
    rwa [hsame]
  · rw [MemberCall.cacheAfter] at hafter
    rw [hafter]
    intro entries' hentries key first hfirst
    obtain rfl := Option.some.inj hentries
    rw [List.lookup_cons] at hfirst
    split at hfirst
    · rename_i hkey
      exact Or.inr ⟨t,by simp,hhard,by simpa using hkey,(Option.some.inj hfirst).symm⟩
    · exact hmono entries hcache key first hfirst

theorem Works.knownFrom {b b' : BBuilder} {ts : List Attempt} (h : Works b ts b') :
    KnownFrom b.hardlinkCache b'.hardlinkCache ts ∧
      ∀ t ∈ ts, KnownFrom b.hardlinkCache t.builder.hardlinkCache ts := by
  induction h with
  | idle => exact ⟨fun entries hentries key first hfirst => Or.inl ⟨entries,hentries,hfirst⟩,by simp⟩
  | report h e message path ih => exact ih
  | fail h e ih => exact ih
  | @write ts b' h c ih =>
    refine ⟨KnownFrom.after (t := ⟨b',c⟩) ih.1,fun t ht => ?_⟩
    rcases List.mem_append.mp ht with ht | ht
    · exact (ih.2 t ht).mono (List.subset_append_left _ _)
    · obtain rfl := List.mem_singleton.mp ht
      exact ih.1.mono (List.subset_append_left _ _)

theorem FindRuns.judged {σ : Type*} {w : FindWorld σ} {fixed : σ → Prop} {verdict : Bytes → Bool}
    (hw : w.Judges fixed verdict) {s s' : σ} {calls : List (FindCall σ)} (h : FindRuns w s calls s')
    (hs : fixed s) : fixed s' ∧ ∀ c ∈ calls, fixed c.world := by
  induction h with
  | idle => exact ⟨hs,by simp⟩
  | exclude h path ih => exact ⟨hw.excluded _ _ ih.1,ih.2⟩
  | report h e message path ih => exact ⟨hw.setError _ _ _ _ _ ih.1,ih.2⟩
  | fail h e ih => exact ⟨hw.setErrno _ _ ih.1,ih.2⟩
  | call h path memberName st fd src ih =>
    refine ⟨hw.callback _ _ _ _ _ _ ih.1,fun c hc => ?_⟩
    rcases List.mem_append.mp hc with hc | hc
    · exact ih.2 c hc
    · obtain rfl := List.mem_singleton.mp hc
      exact ih.1

section
variable (p : MatchPlatform)

def builderIsExcluded (a : Archiver (Option LafeMatching)) (path : Bytes) :
    Bool × Archiver (Option LafeMatching) :=
  let r := lafeExcluded p a.matching path
  (r.1,{ a with matching := r.2 })

variable (a : Archiver (Option LafeMatching)) (arg : ArchiveArg)

def argCourse : Course where
  flags := findFlags a.builder.options
  root := bPathClean arg.path
  rootMember := bPathClean arg.memberName
  excluded path := (builderIsExcluded p a path).1
  ends memberName st src := headerFails memberName st src = true
  enters memberName st src :=
    headerWritten a.builder.options a.builder.userLookup none memberName st src = true

structure SameCourse (a' : Archiver (Option LafeMatching)) : Prop where
  patterns : a'.matching.map LafeMatching.patterns = a.matching.map LafeMatching.patterns
  out : a'.builder.out.InBlocksFrom a.builder.out.buf.size a.builder.out
  options : a'.builder.options = a.builder.options
  userLookup : a'.builder.userLookup = a.builder.userLookup

theorem SameCourse.refl (h : a.builder.out.Live) : SameCourse a a := ⟨rfl,h.inBlocks.refl,rfl,rfl⟩

variable {a}

theorem SameCourse.callback {a' : Archiver (Option LafeMatching)} (h : SameCourse a a')
    (path memberName : Bytes) (st : Stat) (fd : ℤ) (src : Source) : SameCourse a
      ((builderWorld (lafeEngine p)).callback a' path memberName st fd src).2 := by
  have hkeeps := bBuilderWriteFile_keeps a'.builder path memberName st fd src
  refine ⟨h.patterns,memberWrite_inBlocks h.out ⟨path,memberName,st,fd,src⟩,?_,?_⟩
  · simp only [builderWorld]
    rw [hkeeps.rest]
    exact h.options
  · simp only [builderWorld]
    rw [hkeeps.rest]
    exact h.userLookup

/-- The tests of a traversal all answer what `is_excluded` does in front of it, and the names and
the inodes tell what becomes of the calls. -/
theorem builderWorld_settles (h : a.builder.out.Live) :
    (builderWorld (lafeEngine p)).Settles (argCourse p a arg) (SameCourse a)
      fun memberName => memberName.length+22 < 2^31 := by
  refine ⟨⟨?_,?_,?_,?_,?_⟩,?_,?_⟩
  · exact fun a' path hs => (lafeExcluded_eq p a'.matching path).1.trans
      ((congrArg (excludes p · path) hs.patterns).trans (lafeExcluded_eq p a.matching path).1.symm)
  · exact fun a' path hs => ⟨(lafeExcluded_eq p a'.matching path).2.trans hs.patterns,hs.out,hs.options,
      hs.userLookup⟩
  · exact fun a' path memberName st fd src hs => hs.callback p path memberName st fd src
  · exact fun a' type e message path hs => ⟨hs.patterns,hs.out.of_buf rfl (List.suffix_refl _),hs.options,
      hs.userLookup⟩
  · exact fun a' e hs => ⟨hs.patterns,hs.out.of_buf rfl (List.suffix_refl _),hs.options,hs.userLookup⟩
  · intro a' path memberName st fd src hs hshort
    refine Iff.trans (and_congr ?_ Iff.rfl)
      (bBuilderWriteFile_fatal_iff (hs.out.live h) path hshort st fd src)
    simp only [builderWorld]
    cases (bBuilderWriteFile a'.builder path memberName st fd src).1 <;> simp
  · intro a' path memberName st fd src hs hshort hdir
    have hplain : isHardlink st = false := by
      rw [isHardlink,hdir]
      simp [sIfdir,sIfreg]
    have hwrites := writesHeader_eq (hs.out.live h) hshort st src
    rw [headerWritten_cache _ _ _ _ _ hplain,hs.options,hs.userLookup] at hwrites
    have hreturned : (bBuilderWriteFile a'.builder path memberName st fd src).1 =
        writesHeader a'.builder memberName st src := by
      rw [Bool.eq_iff_iff]
      exact ⟨bBuilderWriteFile_header path fd,bBuilderWriteFile_directory hdir⟩
    simp only [argCourse,builderWorld,hreturned,hwrites]
    cases headerWritten a.builder.options a.builder.userLookup none memberName st src <;> simp

variable (a)

/-- The calls of `b_builder_write_file` in the traversal for one argument. -/
abbrev argCalls : List (FindCall (Archiver (Option LafeMatching))) :=
  (archiveFind (lafeEngine p) a arg).2.trace

def Archived (path : Bytes) : Prop := ∃ c ∈ argCalls p a arg, c.path = path ∧ c.WritesHeader

def argMemberName (path : Bytes) : Bytes :=
  (substMemberName (bPathClean arg.path) (bPathClean arg.memberName) path).getD path

/-- Names that are no longer than any file system has them. -/
structure ShortNames : Prop where
  root : (bPathClean arg.memberName).length+22 < 2^31
  entries : ∀ chain, arg.tree.listing.Chain chain →
    (argMemberName arg (entryPath (bPathClean arg.path) chain)).length+22 < 2^31

/-- A name that an inode with several names may be known under when the traversal comes to it. -/
inductive MayBeFirst (flags : FindFlags) (dev ino : ℕ) : Bytes → Prop
  | known {entries : HardlinkCache} {first : Bytes} (hcache : a.builder.hardlinkCache = some entries)
      (hlookup : entries.lookup (dev,ino) = some first) : MayBeFirst flags dev ino first
  | root {st : Stat} {fd : ℤ} (hopened : arg.tree.probe.rootOpened flags = some (st,fd))
      (hhard : isHardlink st = true) (hinode : (dev,ino) = (st.dev,st.ino)) :
      MayBeFirst flags dev ino (bPathClean arg.memberName)
  | entry {chain : List (Bytes × Probe)} {e : Bytes × Probe} {st : Stat} {fd : ℤ}
      (hchain : arg.tree.listing.Chain chain) (he : e ∈ chain.getLast?)
      (hopened : e.2.opened flags = some (st,fd)) (hhard : isHardlink st = true)
      (hinode : (dev,ino) = (st.dev,st.ino)) :
      MayBeFirst flags dev ino (argMemberName arg (entryPath (bPathClean arg.path) chain))

/-- A header can be written: the handle takes every byte, and whichever name is known for the inode,
a header can be made and holds its names or has records for them. -/
structure CanBeWritten (memberName : Bytes) (st : Stat) (src : Source) : Prop where
  live : a.builder.out.Live
  header : ∀ cache, (∀ entries ∈ cache, ∀ first ∈ entries.lookup (st.dev,st.ino),
      MayBeFirst a arg (findFlags a.builder.options) st.dev st.ino first) →
    headerWritten a.builder.options a.builder.userLookup cache memberName st src = true

/-- An entry strictly below the root that can be opened and stat'ed and whose header can be written.
-/
structure Entry (chain : List (Bytes × Probe)) : Prop where
  listed : arg.tree.listing.Chain chain
  names : ∀ e ∈ chain, e.1 ≠ dot ∧ e.1 ≠ dotDot
  opened : ∃ e ∈ chain.getLast?, ∃ st fd,
    e.2.opened (findFlags a.builder.options) = some (st,fd) ∧
      CanBeWritten a arg (argMemberName arg (entryPath (bPathClean arg.path) chain)) st e.2.source

/-- The same for the root. -/
def RootEntry : Prop := ∃ st fd, arg.tree.probe.rootOpened (findFlags a.builder.options) =
    some (st,fd) ∧
  CanBeWritten a arg (bPathClean arg.memberName) st arg.tree.probe.source

/-- The traversal gets into the root and comes to the entry. -/
def Taken (chain : List (Bytes × Probe)) : Prop :=
  (argCourse p a arg).RootEntered arg.tree ∧
    (argCourse p a arg).Takes arg.tree.listing (bPathClean arg.path) chain

variable {a arg}

theorem CanBeWritten.writes {c : FindCall (Archiver (Option LafeMatching))} (hc : c ∈ argCalls p a arg)
    (hshort : c.memberName.length+22 < 2^31) (h : CanBeWritten a arg c.memberName c.st c.source) :
    c.WritesHeader := by
  have hruns := bFind_runs (w := builderWorld (lafeEngine p)) (findFlags a.builder.options) arg.path
    arg.memberName arg.tree a
  have hsame := (hruns.judged (builderWorld_settles p arg h.live).toJudges (.refl a h.live)).2 c hc
  have hknown := hruns.works.knownFrom.2 c.attempt (List.mem_map_of_mem hc)
  rw [FindCall.WritesHeader,writesHeader_eq (hsame.out.live h.live) hshort,hsame.options,
    hsame.userLookup]
  refine h.header _ fun entries hentries first hfirst => ?_
  rcases hknown entries hentries _ first hfirst with ⟨entries',hstart,hlookup⟩ | ⟨t,ht,hhard,hkey,rfl⟩
  · exact .known hstart hlookup
  · obtain ⟨c',hc',rfl⟩ := List.mem_map.mp ht
    rcases bFind_opened hc' with ⟨-,hmember,hopened,-⟩ | ⟨chain,hchain,hpath,hmember,e,he,hopened,-⟩
    · rw [FindCall.attempt,hmember]
      exact .root hopened hhard hkey
    · rw [FindCall.attempt,hmember,hpath]
      exact .entry hchain he hopened hhard hkey

/-- An entry is archived if the traversal comes to it, whatever comes of anything behind it. -/
theorem archived_iff (hproper : arg.tree.listing.Proper) (hshort : ShortNames arg)
    {chain : List (Bytes × Probe)} (h : Entry a arg chain) :
    Archived p a arg (entryPath (bPathClean arg.path) chain) ↔ Taken p a arg chain := by
  obtain ⟨e,he,st,fd,hopened,hwritten⟩ := h.opened
  have htakes : (∃ c ∈ argCalls p a arg, c.path = entryPath (bPathClean arg.path) chain) ↔
      Taken p a arg chain := bFind_takes_iff (builderWorld_settles p arg hwritten.live) rfl rfl hproper
    (.refl a hwritten.live) hshort.root hshort.entries h.listed
  refine Iff.trans (exists_congr fun c => and_congr_right fun hc => and_iff_left_of_imp fun hpath => ?_) htakes
  rcases bFind_opened hc with ⟨hroot,-⟩ | ⟨chain',hchain,hpath',hmember,e',he',hopened',hsource⟩
  · have hnames : ∀ e ∈ chain, e.1 ≠ [] := fun e he => (h.listed.proper hproper e he).1
    exact absurd (hpath.symm.trans hroot) (entryPath_ne _ h.listed.ne_nil hnames)
  · obtain rfl := hchain.eq_of_path hproper h.listed (hpath'.symm.trans hpath)
    obtain rfl : e = e' := Option.some.inj (he.symm.trans he')
    obtain ⟨rfl,-⟩ := Prod.mk.inj (Option.some.inj (hopened.symm.trans hopened'))
    have hname : c.memberName = argMemberName arg (entryPath (bPathClean arg.path) chain') := by
      rw [hmember,hpath']
      rfl
    rw [← hname,← hsource] at hwritten
    exact hwritten.writes p hc (hname ▸ hshort.entries chain' hchain)

theorem archived_root (hshort : ShortNames arg) (h : RootEntry a arg) :
    Archived p a arg (bPathClean arg.path) := by
  obtain ⟨st,fd,hopened,hwritten⟩ := h
  have hc := bFind_rootCall (builderWorld (lafeEngine p)) hopened arg.path arg.memberName a
  exact ⟨_,hc,rfl,CanBeWritten.writes p hc hshort.root hwritten⟩

variable (a arg)

/-- In a call of `archive` for one path, the entries below it are archived that `is_excluded` does
not report. -/
def PathsDecide (path : Bytes) (tree : Tree) : Prop :=
  ∀ chain, Entry a ⟨path,path,tree⟩ chain →
    (Archived p a ⟨path,path,tree⟩ (entryPath (bPathClean path) chain) ↔
      (builderIsExcluded p a (entryPath (bPathClean path) chain)).1 = false)

/-- In a call of `archive_as` for one path, the root and the entries below it are archived whose
member names `is_excluded` does not report. -/
structure MembersDecide : Prop where
  root : RootEntry a arg → (Archived p a arg (bPathClean arg.path) ↔
    (builderIsExcluded p a (bPathClean arg.memberName)).1 = false)
  entries : ∀ chain, Entry a arg chain → (Archived p a arg (entryPath (bPathClean arg.path) chain) ↔
    (builderIsExcluded p a (argMemberName arg (entryPath (bPathClean arg.path) chain))).1 = false)

def ArchiveArg.at (path : Bytes) : ArchiveArg := ⟨path,arg.memberName,arg.tree⟩

/-- The same of what can be archived from either path is. -/
structure SelectsAlike (path : Bytes) : Prop where
  root : RootEntry a arg → RootEntry a (arg.at path) →
    (Archived p a arg (bPathClean arg.path) ↔ Archived p a (arg.at path) (bPathClean path))
  entries : ∀ chain, Entry a arg chain → Entry a (arg.at path) chain →
    (Archived p a arg (entryPath (bPathClean arg.path) chain) ↔
      Archived p a (arg.at path) (entryPath (bPathClean path) chain))

/-- An entry has the same member name from either path. -/
def SameNames (path : Bytes) : Prop :=
  ∀ chain, Entry a arg chain → Entry a (arg.at path) chain →
    argMemberName arg (entryPath (bPathClean arg.path) chain) =
      argMemberName (arg.at path) (entryPath (bPathClean path) chain)

variable {a arg}

theorem MembersDecide.selectsAlike {path : Bytes} (h : MembersDecide p a arg)
    (h' : MembersDecide p a (arg.at path)) (hnames : SameNames a arg path) :
    SelectsAlike p a arg path := by
  refine ⟨fun hroot hroot' => (h.root hroot).trans (h'.root hroot').symm,fun chain hentry hentry' => ?_⟩
  rw [h.entries chain hentry,hnames chain hentry hentry']
  exact (h'.entries chain hentry').symm

variable (a arg)

end

instance {μ : Type*} (c : FindCall (Archiver μ)) : Decidable c.WritesHeader := by
  unfold FindCall.WritesHeader; infer_instance

instance (p : MatchPlatform) (a : Archiver (Option LafeMatching)) (arg : ArchiveArg) (path : Bytes) :
    Decidable (Archived p a arg path) := by unfold Archived; infer_instance

def unsignedChars : MatchPlatform := ⟨fun b c => decide (b ≤ c),fun _ => []⟩

def patternArchiver (matching : Option LafeMatching) : Archiver (Option LafeMatching) :=
  builderSetHandle 4 false none ⟨[],[],[],.ok⟩ (newArchiver ⟨false,1⟩ 20
    ⟨true,false,false,false,false,false,false⟩ none matching)

theorem patternArchiver_live (matching : Option LafeMatching) :
    (patternArchiver matching).builder.out.Live := by
  have hlive : (patternArchiver none).builder.out.Live := ⟨⟨by decide,by decide,by decide +kernel,
    by decide +kernel,by decide,zeros_length _⟩,by decide⟩
  exact hlive

/-- A directory with a directory `s` in it that holds a file `f`. -/
def deepTree : Tree :=
  ⟨answers ⟨sIfdir+0o755,0,0,0,0,0,0,7,1⟩ (.ok ()),
    .entry [115] (answers ⟨sIfdir+0o755,0,0,0,0,0,0,8,1⟩ (.ok ()))
      (.entry [102] (answers ⟨sIfreg+0o644,0,0,0,0,0,0,9,1⟩ (.ok ())) .eof .eof) .eof⟩

theorem proper_deepTree : deepTree.listing.Proper := by
  simp [deepTree,Listing.Proper,Listing.names,slash]

theorem proper_oneFile : oneFile.listing.Proper := by
  simp [oneFile,Listing.Proper,Listing.names,slash]

theorem chain_deepTree {chain : List (Bytes × Probe)} (h : deepTree.listing.Chain chain) :
    chainNames chain = [[115]] ∨ chainNames chain = [[115],[102]] := by
  cases h with
  | here => exact Or.inl rfl
  | inside h =>
    cases h with
    | here => exact Or.inr rfl
    | inside h => cases h
    | next h => cases h
  | next h => cases h

theorem chain_oneFile {chain : List (Bytes × Probe)} (h : oneFile.listing.Chain chain) :
    chainNames chain = [[102]] := by
  cases h with
  | here => rfl
  | inside h => cases h
  | next h => cases h

theorem shortNames_deepTree : ShortNames ⟨[100],[100],deepTree⟩ := by
  refine ⟨by decide +kernel,fun chain hchain => ?_⟩
  rw [entryPath_names]
  rcases chain_deepTree hchain with hnames | hnames
  · rw [hnames]
    decide +kernel
  · rw [hnames]
    decide +kernel

theorem shortNames_oneFile {path : Bytes} (h : path ∈ [[100],[101]]) :
    ShortNames ⟨path,[109],oneFile⟩ := by
  have hroot : (bPathClean [109]).length+22 < 2^31 := by decide +kernel
  have hentry : ∀ path ∈ [[100],[101]], (argMemberName ⟨path,[109],oneFile⟩
      ([[102]].foldl bDirItemPath (bPathClean path))).length+22 < 2^31 := by decide +kernel
  refine ⟨hroot,fun chain hchain => ?_⟩
  rw [entryPath_names,chain_oneFile hchain]
  exact hentry path h

end ArchiveTarBuilder
