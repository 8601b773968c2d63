import ArchiveTarBuilder.MemberStream

/-! `path_split` against every way to cut a name: what its two fields hold, and that it finds a cut
that fits whenever there is one, with one exception. -/
namespace ArchiveTarBuilder
open CString

section
variable (path : Bytes) (st : Stat)

@[simp] theorem cstr_cstr : cstr (cstr path) = cstr path :=
  cstr_of_not_mem _ (zero_notMem_cstr path)

@[simp] theorem bPathNew_cstr : bPathNew (cstr path) = bPathNew path := by
  simp only [bPathNew,cstr_cstr,isAbsolute_cstr]

@[simp] theorem splitParts_cstr : splitParts (cstr path) = splitParts path := by
  simp only [splitParts,bPathNew_cstr]

/-- The components that the two fields share out; those of `/` are this one. -/
def headerItems : List Bytes :=
  if components (cstr path) = [] ∧ isAbsolute path = true then [[slash]] else components (cstr path)

theorem bPathNew_eq_nil : bPathNew path = [] ↔ headerItems path = [] := by
  have heq := bPathNew_eq (zero_notMem_cstr path)
  rw [bPathNew_cstr,isAbsolute_cstr] at heq
  rw [heq,headerItems]
  by_cases hc : components (cstr path) = []
  · by_cases ha : isAbsolute path = true <;> simp [hc,ha]
  · by_cases ha : isAbsolute path = true <;> simp [hc,ha]

theorem splitParts_eq_headerItems : splitParts path = headerItems path := by
  by_cases hn : bPathNew path = []
  · rw [splitParts,hn,(bPathNew_eq_nil path).mp hn]
  · have heq := splitParts_eq (zero_notMem_cstr path) (by rwa [bPathNew_cstr])
    rw [splitParts_cstr] at heq
    rw [heq]
    have hitems := (bPathNew_eq_nil path).not.mp hn
    unfold headerItems at hitems ⊢
    by_cases hc : components (cstr path) = []
    · by_cases ha : isAbsolute path = true
      · simp [hc,ha]
      · simp [hc,ha] at hitems
    · simp [hc]

theorem headerItems_of_components (h : components (cstr path) ≠ []) :
    headerItems path = components (cstr path) := by
  simp [headerItems,h]

theorem headerItems_ne_nil {x : Bytes} (hx : x ∈ headerItems path) : x ≠ [] := by
  unfold headerItems at hx
  split at hx
  · obtain rfl : x = [slash] := by simpa using hx
    decide
  · exact (tokenItems_components _ x hx).1

end

def splitState (name : Bytes) (st : Stat) : SplitState :=
  splitLoop (decide (st.ifmt = sIfdir)) (splitParts name)

theorem splitState_inv (name : Bytes) (st : Stat) :
    SplitInv (decide (st.ifmt = sIfdir)) (headerItems name) (splitState name st) := by
  rw [splitState,splitParts_eq_headerItems]
  exact splitLoop_inv _ fun x hx => headerItems_ne_nil name hx

/-- `suffix_size` as it stands behind the loop and the slash of a directory. -/
def finalSuffixSize (name : Bytes) (st : Stat) : ℕ :=
  if st.ifmt = sIfdir then (splitState name st).suffixSize+1 else (splitState name st).suffixSize

theorem pathSplit_counts {name : Bytes} (st : Stat) (h : headerItems name ≠ []) :
    ∃ d, pathSplit name st = some d ∧
      d.pathPrefix = joinPath (splitState name st).prefixItems.reverse ∧
      d.suffix = joinPath (splitState name st).suffixItems.reverse ++ dirSlash st ∧
      (splitState name st).prefixSize = d.pathPrefix.length ∧
      finalSuffixSize name st = d.suffix.length ∧
      (d.truncated = false ↔ d.suffix.length ≤ 100 ∧ d.pathPrefix.length ≤ 155) := by
  have hinv := splitState_inv name st
  have hsize : finalSuffixSize name st =
      (joinPath (splitState name st).suffixItems.reverse ++ dirSlash st).length := by
    unfold finalSuffixSize dirSlash
    rw [hinv.suffixSize]
    split <;> simp
  refine ⟨_,by rw [pathSplit,if_neg ((bPathNew_eq_nil name).not.mpr h)],rfl,?_,hinv.prefixSize,?_,?_⟩
  · unfold dirSlash splitState
    by_cases hd : st.ifmt = sIfdir <;> simp [hd]
  · rw [hsize]
    unfold dirSlash splitState
    by_cases hd : st.ifmt = sIfdir <;> simp [hd]
  · have hp := hinv.prefixSize
    have hs := hinv.suffixSize
    unfold splitState joinPath at hp hs
    by_cases hd : st.ifmt = sIfdir <;>
      simp [hd,bHeaderSuffixSize,bHeaderPrefixSize] at hp hs ⊢ <;> omega

/-- What `path_split` should make of a name that has components: counters that are the lengths of
the strings, a flag that says whether the strings fit, whole components in both fields, and a slash
behind a directory and nothing else. -/
structure SplitCorrect (name : Bytes) (st : Stat) (d : PathData) : Prop where
  prefixSize : (splitState name st).prefixSize = d.pathPrefix.length
  suffixSize : finalSuffixSize name st = d.suffix.length
  truncated : d.truncated = false ↔ d.suffix.length ≤ 100 ∧ d.pathPrefix.length ≤ 155
  nonempty : d.suffix ≠ []
  directory : d.suffix.getLast? = some slash ↔ st.ifmt = sIfdir
  whole : ∃ pre suf, pre ++ suf = components (cstr name) ∧ d.pathPrefix = joinPath pre ∧
    d.suffix = joinPath suf ++ dirSlash st ∧ (suf = [] → st.ifmt = sIfdir)
  components : strtok d.name = components (cstr name)

theorem joinPath_getLast {items : List Bytes} (h : TokenItems items) :
    (joinPath items).getLast? ≠ some slash := by
  induction items with
  | nil => simp [joinPath,bStringJoin]
  | cons x xs ih =>
    by_cases hxs : xs = []
    · subst hxs
      intro hl
      have hmem := List.mem_of_getLast? hl
      exact (h x (by simp)).2 (by simpa [joinPath,bStringJoin] using hmem)
    · have hnil : joinPath xs ≠ [] :=
        (joinPath_eq_nil fun y hy => (h y (by simp [hy])).1).not.mpr hxs
      rw [joinPath_cons hxs,List.getLast?_append,List.getLast?_cons_of_ne_nil hnil]
      have hrest := ih fun y hy => h y (by simp [hy])
      cases hg : (joinPath xs).getLast? with
      | none => exact absurd (List.getLast?_eq_none_iff.mp hg) hnil
      | some c => simpa [hg] using hrest

/-- The tokens of the two fields, joined with a slash, are those that they were made of. -/
theorem strtok_name {d : PathData} {pre suf : List Bytes} {st : Stat} (h : TokenItems (pre ++ suf))
    (hpre : d.pathPrefix = joinPath pre) (hsuf : d.suffix = joinPath suf ++ dirSlash st) :
    strtok d.name = pre ++ suf := by
  have hp : TokenItems pre := fun x hx => h x (by simp [hx])
  have hs : TokenItems suf := fun x hx => h x (by simp [hx])
  have hsuffix : strtok d.suffix = suf := by
    rw [hsuf]
    unfold dirSlash
    split
    · rw [strtok_append,strtok_nil,List.append_nil,strtok_joinPath hs]
    · rw [List.append_nil,strtok_joinPath hs]
  unfold PathData.name
  by_cases hn : pre = []
  · subst hn
    simp [hpre,joinPath,bStringJoin,hsuffix]
  · rw [if_neg (by rw [hpre]; exact (joinPath_eq_nil fun x hx => (hp x hx).1).not.mpr hn),hpre,
      List.append_assoc,List.singleton_append,strtok_append,strtok_joinPath hp,hsuffix]

/-- Names that have components are split correctly, whatever kind of file they name. -/
theorem pathSplit_correct (name : Bytes) (st : Stat) (h : components (cstr name) ≠ []) :
    ∃ d, pathSplit name st = some d ∧ SplitCorrect name st d := by
  have hitems := headerItems_of_components name h
  have htok := tokenItems_components (cstr name)
  have hinv := splitState_inv name st
  obtain ⟨d,hd,hpre,hsuf,hpsize,hssize,htrunc⟩ := pathSplit_counts st (by rwa [hitems])
  have hsplit := hinv.items
  rw [hitems] at hsplit
  have hstok : TokenItems (splitState name st).suffixItems.reverse :=
    fun x hx => htok x (hsplit ▸ by simp [hx])
  have hdir (hs : (splitState name st).suffixItems.reverse = []) : st.ifmt = sIfdir := by
    have hlast := hinv.last
    rw [hitems] at hlast
    obtain ⟨x,hx⟩ := Option.ne_none_iff_exists'.mp (List.getLast?_eq_none_iff.not.mpr h)
    exact of_decide_eq_true ((hlast x hx).mp (by simpa using hs)).1
  refine ⟨d,hd,hpsize,hssize,htrunc,?_,?_,⟨_,_,hsplit,hpre,hsuf,hdir⟩,?_⟩
  · intro hnil
    rw [hsuf,List.append_eq_nil_iff,joinPath_eq_nil fun x hx => (hstok x hx).1] at hnil
    simp [dirSlash,hdir hnil.1] at hnil
  · rw [hsuf]
    by_cases hfmt : st.ifmt = sIfdir
    · simp [dirSlash,hfmt]
    · simpa [dirSlash,hfmt] using joinPath_getLast hstok
  · rw [← hsplit]
    exact strtok_name (hsplit ▸ htok) hpre hsuf

/-- A directory `a/b`. -/
theorem pathSplit_correct_directory : ∃ d, pathSplit [97,47,98] ⟨sIfdir,0,0,0,0,0,0,0,1⟩ = some d ∧
    SplitCorrect [97,47,98] ⟨sIfdir,0,0,0,0,0,0,0,1⟩ d :=
  pathSplit_correct _ _ (by decide)

/-- Some cut leaves strings that fit the two fields. -/
def Fits (name : Bytes) (st : Stat) : Prop :=
  ∃ pre suf, pre ++ suf = headerItems name ∧ suf ≠ [] ∧
    (joinPath suf ++ dirSlash st).length ≤ 100 ∧ (joinPath pre).length ≤ 155

theorem joinPath_length_left (xs ys : List Bytes) :
    (joinPath xs).length ≤ (joinPath (xs ++ ys)).length := by
  by_cases hx : xs = []
  · simp [hx,joinPath,bStringJoin]
  · by_cases hy : ys = []
    · simp [hy]
    · simp [joinPath_append hx hy]

theorem joinPath_length_right (xs ys : List Bytes) :
    (joinPath ys).length ≤ (joinPath (xs ++ ys)).length := by
  by_cases hx : xs = []
  · simp [hx]
  · by_cases hy : ys = []
    · simp [hy,joinPath,bStringJoin]
    · rw [joinPath_append hx hy,List.length_append,List.length_cons]
      omega

def SuffixFits (directory : Bool) (items : List Bytes) : Prop :=
  (joinPath items).length+(if directory then 1 else 0) ≤ 100

structure Greedy (directory : Bool) (s : SplitState) : Prop where
  fits : SuffixFits directory s.suffixItems.reverse
  full : ∀ x ∈ s.prefixItems.head?, ¬SuffixFits directory (x::s.suffixItems.reverse)
  started : s.addToPrefix = true → s.prefixItems ≠ []

/-- The limit tests of one round are those of the field, except for a directory's last component of
99 bytes. -/
theorem splitStep_greedy {directory : Bool} {parts : List Bytes} {s : SplitState} {item : Bytes}
    (hinv : SplitInv directory parts s) (hne : ∀ x ∈ parts, x ≠ []) (h : Greedy directory s)
    (hitem : s.suffixItems = [] → s.addToPrefix = false →
      if directory then item.length ≠ 99 else item.length ≤ 100) :
    Greedy directory (splitStep directory s item) := by
  have hsuf : ∀ x ∈ s.suffixItems.reverse, x ≠ [] :=
    fun x hx => hne x (hinv.items ▸ by simp [hx])
  have hsize := hinv.suffixSize
  have hcons := @joinPath_cons_length item _ hsuf
  have hnil := joinPath_eq_nil hsuf
  rw [← hsize] at hcons
  by_cases hflag : s.addToPrefix = true
  · obtain ⟨x,xs,hx⟩ := List.exists_cons_of_ne_nil (h.started hflag)
    have hfull := h.full
    simp only [splitStep,hflag,Bool.true_or,if_true]
    exact ⟨h.fits,by simpa [hx] using hfull,by simp⟩
  · have hpre := hinv.prefixNil (by simpa using hflag)
    have hzero : s.suffixItems = [] ↔ s.suffixSize = 0 := by
      rw [hsize,List.length_eq_zero_iff,hnil,List.reverse_eq_nil_iff]
    have hkeep : (s.addToPrefix || (decide (s.suffixSize ≠ 0) &&
        decide (bHeaderSuffixSize ≤ s.suffixSize+item.length)) ||
        (directory && decide (bHeaderSuffixSize ≤ s.suffixSize+item.length+1))) = false ↔
        SuffixFits directory (item::s.suffixItems.reverse) := by
      have hone := fun hs => hitem (hzero.mpr hs) (by simpa using hflag)
      rw [SuffixFits,hcons]
      clear hcons hsize
      have hlimit : bHeaderSuffixSize = 100 := rfl
      by_cases hs : s.suffixSize = 0
      · have hlen := hone hs
        cases directory <;> simp [hflag,hs] at hlen ⊢ <;> omega
      · cases directory <;> simp [hflag,hs] <;> omega
    unfold splitStep
    simp only
    generalize (s.addToPrefix || (decide (s.suffixSize ≠ 0) &&
      decide (bHeaderSuffixSize ≤ s.suffixSize+item.length)) ||
      (directory && decide (bHeaderSuffixSize ≤ s.suffixSize+item.length+1))) = add at hkeep ⊢
    cases add with
    | true =>
      have hno : ¬SuffixFits directory (item::s.suffixItems.reverse) := by simpa using hkeep
      simp only [if_true]
      exact ⟨h.fits,by simpa [hpre] using hno,by simp⟩
    | false =>
      simp only [Bool.false_eq_true,if_false]
      exact ⟨by simpa using hkeep.mp rfl,by simp [hpre],fun hf => absurd hf hflag⟩

theorem splitLoop_greedy {directory : Bool} {parts : List Bytes} (hne : ∀ x ∈ parts, x ≠ [])
    (hlast : ∀ x ∈ parts.getLast?, if directory then x.length ≠ 99 else x.length ≤ 100) :
    Greedy directory (splitLoop directory parts) := by
  induction parts with
  | nil => cases directory <;> exact ⟨by simp [splitLoop,SuffixFits,joinPath,bStringJoin],
      by simp [splitLoop],by simp [splitLoop]⟩
  | cons item parts ih =>
    have hrest : ∀ x ∈ parts, x ≠ [] := fun x hx => hne x (by simp [hx])
    have hinv := splitLoop_inv directory hrest
    have hloop : splitLoop directory (item::parts) =
        splitStep directory (splitLoop directory parts) item := by
      simp [splitLoop,List.foldl_append]
    rw [hloop]
    refine splitStep_greedy hinv hrest (ih hrest fun x hx => hlast x ?_) fun hs hflag => ?_
    · rw [List.getLast?_cons,Option.mem_def.mp hx]
      rfl
    · -- only the last component meets an empty stack
      have hnil : parts = [] := by
        by_contra hp
        simpa [hflag] using hinv.suffixNil hp hs
      subst hnil
      exact hlast item (by simp)

theorem Greedy.prefix_le {directory : Bool} {parts pre suf : List Bytes} {s : SplitState}
    (h : Greedy directory s) (hinv : SplitInv directory parts s) (hcut : pre ++ suf = parts)
    (hfits : SuffixFits directory suf) :
    (joinPath s.prefixItems.reverse).length ≤ (joinPath pre).length := by
  have hitems := hinv.items
  rw [← hcut] at hitems
  rcases List.append_eq_append_iff.mp hitems with ⟨a,rfl,-⟩ | ⟨a,hpre,rfl⟩
  · exact joinPath_length_left _ a
  · rcases List.eq_nil_or_concat a with rfl | ⟨a,x,rfl⟩
    · rw [hpre,List.append_nil]
    · have hhead : s.prefixItems.head? = some x := by
        have hl := congrArg List.getLast? hpre
        simpa using hl
      have hle := joinPath_length_right a (x::s.suffixItems.reverse)
      have hno := h.full x hhead
      unfold SuffixFits at hno hfits
      rw [List.concat_eq_append,List.append_assoc,List.singleton_append] at hfits
      omega

/-- The path is accepted: it is not marked as truncated, and on a builder without extensions the
call goes on to the member's own header, unless it is the link target that does not fit. -/
def PathAccepted (name : Bytes) (st : Stat) : Prop :=
  (∃ d, pathSplit name st = some d ∧ d.truncated = false) ∧
    ∀ (b : BBuilder) (path : Bytes) (fd : ℤ) (src : Source),
      b.options.gnuExtensions = false → b.options.paxExtensions = false →
      ∀ header ∈ memberHeader b.userLookup b.hardlinkCache src name st, header.truncatedLink = false →
        bBuilderWriteFile b path name st fd src =
          andWrite (writeHeader (memberStart b src name st) header)
            (writeContents · header path fd src.file)

theorem pathAccepted_of {name : Bytes} {st : Stat} {d : PathData} (hd : pathSplit name st = some d)
    (ht : d.truncated = false) : PathAccepted name st := by
  refine ⟨⟨d,hd,ht⟩,fun b path fd src _ _ header hheader hlink => ?_⟩
  obtain ⟨d',hd',-,-,htrunc⟩ := (memberHeader_of hheader).split
  obtain rfl : d = d' := Option.some.inj (hd.symm.trans hd')
  rw [bBuilderWriteFile_some path fd hheader,writeMember,writeLongRecords]
  simp [htrunc,ht,hlink,andWrite]

/-- The names that the first limit test gets wrong: a directory whose last component takes all of
the second field with its slash, and whose other components only fit the first field alone. -/
def MisjudgedDirectory (name : Bytes) (st : Stat) : Prop :=
  st.ifmt = sIfdir ∧ (∃ x ∈ (headerItems name).getLast?, x.length = 99) ∧
    56 ≤ (joinPath (headerItems name).dropLast).length ∧
    (joinPath (headerItems name).dropLast).length ≤ 155

theorem suffixFits_iff (items : List Bytes) (st : Stat) :
    (joinPath items ++ dirSlash st).length ≤ 100 ↔ SuffixFits (decide (st.ifmt = sIfdir)) items := by
  unfold SuffixFits dirSlash
  by_cases hd : st.ifmt = sIfdir <;> simp [hd]

/-- Away from the one length that the first limit test gets wrong, a name that fits is split so that
it does. -/
theorem pathSplit_fits {name : Bytes} {st : Stat} (hfits : Fits name st)
    (hlast : ¬(st.ifmt = sIfdir ∧ ∃ x ∈ (headerItems name).getLast?, x.length = 99)) :
    PathAccepted name st := by
  obtain ⟨pre,suf,hcut,hne,hsuf,hpre⟩ := hfits
  rw [suffixFits_iff] at hsuf
  have hitems : headerItems name ≠ [] := by simp [← hcut,hne]
  have htest : ∀ x ∈ (headerItems name).getLast?,
      if decide (st.ifmt = sIfdir) then x.length ≠ 99 else x.length ≤ 100 := by
    intro x hx
    by_cases hd : st.ifmt = sIfdir
    · simpa [hd] using fun hl => hlast ⟨hd,x,hx,hl⟩
    · rw [← hcut,List.getLast?_append_of_ne_nil _ hne,Option.mem_def] at hx
      obtain ⟨front,rfl⟩ := List.getLast?_eq_some_iff.mp hx
      have hle := joinPath_length_right front [x]
      simp only [SuffixFits,hd,decide_false,Bool.false_eq_true,if_false,joinPath,bStringJoin,
        List.intercalate_singleton] at hsuf hle ⊢
      omega
  obtain ⟨d,hd,hfirst,hsuffix,-,-,htrunc⟩ := pathSplit_counts st hitems
  have hgreedy := splitLoop_greedy (fun x hx => headerItems_ne_nil name hx) htest
  have hinv := splitState_inv name st
  rw [← splitParts_eq_headerItems,← splitState] at hgreedy
  refine pathAccepted_of hd (htrunc.mpr ⟨?_,?_⟩)
  · rw [hsuffix,suffixFits_iff]
    exact hgreedy.fits
  · rw [hfirst]
    exact (hgreedy.prefix_le hinv hcut hsuf).trans hpre

/-- A directory whose last component has 99 bytes goes to the first field as a whole. -/
theorem pathSplit_ninetyNine {name x : Bytes} {init : List Bytes} {st : Stat}
    (hdir : st.ifmt = sIfdir) (hitems : headerItems name = init ++ [x]) (hx : x.length = 99) :
    ∃ d, pathSplit name st = some d ∧
      (d.truncated = false ↔ (joinPath (init ++ [x])).length ≤ 155) := by
  obtain ⟨d,hd,hfirst,hsuffix,-,-,htrunc⟩ := @pathSplit_counts name st (by simp [hitems])
  have hinv := splitState_inv name st
  have hnil := (hinv.last x (by simp [hitems])).mpr ⟨by simpa using hdir,by omega⟩
  have hall := hinv.items
  rw [hnil,hitems,List.reverse_nil,List.append_nil] at hall
  refine ⟨d,hd,?_⟩
  rw [htrunc,hfirst,hsuffix,hall,hnil]
  simp [dirSlash,hdir,joinPath,bStringJoin]

/-- A name that fits is accepted, exactly unless it is one of the misjudged directories. -/
theorem pathSplit_optimal (name : Bytes) (st : Stat) :
    (Fits name st → PathAccepted name st) ↔ ¬MisjudgedDirectory name st := by
  by_cases hlast : st.ifmt = sIfdir ∧ ∃ x ∈ (headerItems name).getLast?, x.length = 99
  · obtain ⟨hdir,x,hx,hlen⟩ := hlast
    obtain ⟨init,hitems⟩ := List.getLast?_eq_some_iff.mp hx
    obtain ⟨d,hd,htrunc⟩ := pathSplit_ninetyNine hdir hitems hlen
    have hone : (joinPath [x]).length = 99 := by simpa [joinPath,bStringJoin] using hlen
    have hjoin (hn : init ≠ []) : (joinPath (init ++ [x])).length = (joinPath init).length+100 := by
      rw [joinPath_append hn (by simp),List.length_append,List.length_cons,hone]
    simp only [MisjudgedDirectory,hdir,hitems,List.getLast?_concat,List.dropLast_concat,true_and]
    constructor
    · rintro haccept ⟨-,hlow,hhigh⟩
      have hn : init ≠ [] := by
        rintro rfl
        simp [joinPath,bStringJoin] at hlow
      obtain ⟨⟨d',hd',ht⟩,-⟩ := haccept ⟨init,[x],hitems.symm,by simp,
        by simpa [dirSlash,hdir,joinPath,bStringJoin] using hlen.le.trans_lt (by omega),hhigh⟩
      obtain rfl : d = d' := Option.some.inj (hd.symm.trans hd')
      have hle := htrunc.mp ht
      rw [hjoin hn] at hle
      omega
    · rintro hok ⟨pre,suf,hcut,hne,hsuf,hpre⟩
      have hinit : (joinPath init).length ≤ 155 := by
        obtain ⟨front,y,rfl⟩ := (List.eq_nil_or_concat suf).resolve_left hne
        rw [hitems,List.concat_eq_append,← List.append_assoc] at hcut
        obtain ⟨rfl,hy⟩ := List.append_inj' hcut rfl
        obtain rfl : y = x := by simpa using hy
        by_cases hf : front = []
        · simpa [hf] using hpre
        · rw [List.concat_eq_append,joinPath_append hf (by simp)] at hsuf
          simp only [dirSlash,hdir,if_true,List.length_append,List.length_cons,hone] at hsuf
          omega
      refine pathAccepted_of hd (htrunc.mpr ?_)
      by_cases hn : init = []
      · rw [hn,List.nil_append,hone]
        omega
      · have hlow : ¬56 ≤ (joinPath init).length := fun hl => hok ⟨⟨x,by simp,hlen⟩,hl,hinit⟩
        rw [hjoin hn]
        omega
  · exact iff_of_true (fun hfits => pathSplit_fits hfits hlast) fun hm => hlast ⟨hm.1,hm.2.1⟩

def misjudgedName : Bytes := List.replicate 100 97 ++ [slash] ++ List.replicate 99 98

def bareBuilder : BBuilder :=
  bBuilderNew ⟨false,1⟩ 2 ⟨[],[],[],.ok⟩ ⟨true,false,false,false,false,false,false⟩ none

/-- It fits, and the builder refuses it as too long. -/
theorem not_pathAccepted_sample : Fits misjudgedName ⟨sIfdir,0,0,0,0,0,0,0,1⟩ ∧
    ¬PathAccepted misjudgedName ⟨sIfdir,0,0,0,0,0,0,0,1⟩ ∧
    (bBuilderWriteFile bareBuilder misjudgedName misjudgedName ⟨sIfdir,0,0,0,0,0,0,0,1⟩ (-1)
      ⟨.error .einval,[],⟨[],[]⟩⟩).2.out.sys.errno = .enametoolong := by
  have hitems : headerItems misjudgedName = [List.replicate 100 97,List.replicate 99 98] := by
    decide +kernel
  refine ⟨⟨[List.replicate 100 97],[List.replicate 99 98],hitems.symm,by simp,by decide +kernel,
    by decide +kernel⟩,?_,by decide +kernel⟩
  rintro ⟨⟨d,hd,ht⟩,-⟩
  have hsplit : (pathSplit misjudgedName ⟨sIfdir,0,0,0,0,0,0,0,1⟩).map PathData.truncated =
      some true := by decide +kernel
  rw [hd] at hsplit
  simp [ht] at hsplit

end ArchiveTarBuilder
