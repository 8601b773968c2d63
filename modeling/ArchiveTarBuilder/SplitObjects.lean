import ArchiveTarBuilder.PathObjects
import ArchiveTarBuilder.PathSplit

/-! `path_split` on its objects: three stacks and the strings in them. Unless memory is refused it
stays in its objects and gives what the lists of the items give. -/
namespace ArchiveTarBuilder
namespace Objects
open CString Memory BStack

/-- `struct path_data`. -/
structure SplitData where
  pathPrefix : BString
  suffix : BString
  truncated : Bool

structure SplitLocals where
  prefixItems : Pointers
  suffixItems : Pointers
  prefixSize : ℕ
  suffixSize : ℕ
  addToPrefix : Bool

section
variable (fresh : ℕ → Option (Option BString))

def stackCall (stack : Pointers) (op : StackOp (Option BString)) :
    Program (Option BString × Pointers) := do
  let (item,stack) ← stackStep fresh stack op
  return (item.join,stack)

/-- `b_string_append_str(string, "/")`, whose result is not looked at. -/
def appendSlash (string : BString) : Program BString := do
  match ← bStringAppendStr string (literal [slash]) with
  | none => return string
  | some string => return string

def splitRounds (directory : Bool) : ℕ → Pointers → SplitLocals → Program (Option SplitLocals)
  | 0,_,_ => fault
  | left+1,parts,s => do
    match ← stackCall fresh parts .pop with
    | (none,_) => return some s
    | (some item,parts) =>
      let addToPrefix := s.addToPrefix ||
        (decide (s.suffixSize ≠ 0) && decide (bHeaderSuffixSize ≤ sizeT (s.suffixSize+item.len))) ||
        (directory && decide (bHeaderSuffixSize ≤ sizeT (s.suffixSize+item.len+1)))
      if addToPrefix then
        let prefixSize := sizeT ((if s.prefixSize ≠ 0 then s.prefixSize+1 else s.prefixSize)+item.len)
        match ← stackCall fresh s.prefixItems (.push (some item)) with
        | (none,_) => return none
        | (some _,prefixItems) =>
          let s := { s with prefixItems,prefixSize,addToPrefix }
          splitRounds directory left parts s
      else
        let suffixSize := sizeT ((if s.suffixSize ≠ 0 then s.suffixSize+1 else s.suffixSize)+item.len)
        match ← stackCall fresh s.suffixItems (.push (some item)) with
        | (none,_) => return none
        | (some _,suffixItems) =>
          let s := { s with suffixItems,suffixSize }
          splitRounds directory left parts s

def stripRoot (parts : Pointers) : Program Pointers := do
  match ← stackItemAt parts 0 with
  | none => fault
  | some first =>
    if first.len = 0 then
      let (_,parts) ← stackCall fresh parts .shift
      return parts
    else return parts

def assemble (directory : Bool) (s : SplitLocals) : Program (Option SplitData) := do
  let (_,prefixItems) ← stackCall fresh s.prefixItems .reverse
  match ← bStringJoin (literal [slash]) prefixItems with
  | none => return none
  | some pathPrefix =>
    let (_,suffixItems) ← stackCall fresh s.suffixItems .reverse
    match ← bStringJoin (literal [slash]) suffixItems with
    | none => return none
    | some suffix =>
      let suffix ← (if directory then appendSlash suffix else pure suffix)
      let suffixSize := if directory then sizeT (s.suffixSize+1) else s.suffixSize
      return some ⟨pathPrefix,suffix,decide (bHeaderSuffixSize < suffixSize) ||
        decide (bHeaderPrefixSize < s.prefixSize)⟩

def sizeofPathData : ℕ := 3*pointerSize

def pathSplit (path : BString) (st : Stat) : Program (Option SplitData) := do
  match ← malloc sizeofPathData with
  | none => return none
  | some _ =>
    match ← bPathNew fresh path with
    | none => return none
    | some parts =>
      match ← stackNew 0 with
      | none => return none
      | some prefixItems =>
        match ← stackNew 0 with
        | none => return none
        | some suffixItems =>
          if parts.count = 0 then return none
          else
            let parts ← stripRoot fresh parts
            let directory := decide (st.ifmt = sIfdir)
            let start := SplitLocals.mk prefixItems suffixItems 0 0 false
            match ← splitRounds fresh directory (parts.count+1) parts start with
            | none => return none
            | some s => assemble fresh directory s

end

section
variable (fresh : ℕ → Option (Option BString)) {stack : Pointers} {ptrs : List (Option BString)}
  {items : List Bytes}

theorem yields_stackCall (h : Stands stack ptrs) (op : StackOp (Option BString)) :
    Yields (stackCall fresh stack op) fun p =>
      p.1 = (listStep ptrs (op,true)).1.join ∧ Stands p.2 (listStep ptrs (op,true)).2 := by
  unfold stackCall
  refine Yields.bind (yields_stackStep fresh h op) fun p hp => ?_
  exact Yields.pure ⟨congrArg Option.join hp.1,hp.2⟩

theorem yields_push (h : Items stack items) {b : BString} {s : Bytes} (hb : b.Holds s) :
    Yields (stackCall fresh stack (.push (some b))) fun p =>
      p.1 = some b ∧ Items p.2 (items ++ [s]) := by
  obtain ⟨bs,hstands,hbs⟩ := h
  refine (yields_stackCall fresh hstands _).mono fun p hp => ⟨hp.1,bs ++ [b],?_,?_⟩
  · simpa [listStep] using hp.2
  · exact List.rel_append hbs (List.Forall₂.cons hb List.Forall₂.nil)

theorem yields_pop_nil (h : Items stack []) :
    Yields (stackCall fresh stack .pop) fun p => p.1 = none := by
  obtain ⟨bs,hstands,hbs⟩ := h
  obtain rfl := List.forall₂_nil_right_iff.mp hbs
  exact (yields_stackCall fresh hstands _).mono fun p hp => hp.1

theorem yields_pop {s : Bytes} (h : Items stack (items ++ [s])) :
    Yields (stackCall fresh stack .pop) fun p => ∃ b, p.1 = some b ∧ b.Holds s ∧ Items p.2 items := by
  obtain ⟨bs,hstands,hbs⟩ := h
  have hrev := List.rel_reverse hbs
  rw [List.reverse_append,List.reverse_singleton,List.singleton_append] at hrev
  obtain ⟨b,rest,hb,hrest,hbs'⟩ := List.forall₂_cons_right_iff.mp hrev
  obtain rfl : bs = rest.reverse ++ [b] := by
    rw [← List.reverse_reverse bs,hbs',List.reverse_cons]
  refine (yields_stackCall fresh hstands _).mono fun p hp => ⟨b,?_,hb,rest.reverse,?_,?_⟩
  · simpa [listStep] using hp.1
  · simpa [listStep] using hp.2
  · rw [← List.forall₂_reverse_iff,List.reverse_reverse]
    exact hrest

theorem yields_shift {s : Bytes} (h : Items stack (s::items)) :
    Yields (stackCall fresh stack .shift) fun p => Items p.2 items := by
  obtain ⟨bs,hstands,hbs⟩ := h
  obtain ⟨b,rest,hb,hrest,rfl⟩ := List.forall₂_cons_right_iff.mp hbs
  exact (yields_stackCall fresh hstands _).mono fun p hp => ⟨rest,by simpa [listStep] using hp.2,hrest⟩

theorem yields_reverse (h : Items stack items) :
    Yields (stackCall fresh stack .reverse) fun p => Items p.2 items.reverse := by
  obtain ⟨bs,hstands,hbs⟩ := h
  refine (yields_stackCall fresh hstands _).mono fun p hp => ⟨bs.reverse,?_,List.rel_reverse hbs⟩
  simpa [listStep,List.map_reverse] using hp.2

/-- The locals stand for those on lists. -/
structure SplitLocals.Holds (s : SplitLocals) (t : SplitState) : Prop where
  prefixItems : Items s.prefixItems t.prefixItems
  suffixItems : Items s.suffixItems t.suffixItems
  prefixSize : s.prefixSize = t.prefixSize
  suffixSize : s.suffixSize = t.suffixSize
  addToPrefix : s.addToPrefix = t.addToPrefix

def sizeBound (t : SplitState) (rest : List Bytes) : ℕ :=
  t.prefixSize+t.suffixSize+(rest.map fun x => x.length+1).sum

theorem sizeBound_splitStep (directory : Bool) (t : SplitState) (x : Bytes) (rest : List Bytes) :
    sizeBound (splitStep directory t x) rest ≤ sizeBound t (x::rest) := by
  simp only [sizeBound,splitStep,List.map_cons,List.sum_cons]
  split_ifs <;> simp only <;> omega

theorem sizeBound_foldl (directory : Bool) (t : SplitState) (todo : List Bytes) :
    sizeBound (todo.foldl (splitStep directory) t) [] ≤ sizeBound t todo := by
  induction todo generalizing t with
  | nil => exact le_rfl
  | cons x todo ih => exact (ih _).trans (sizeBound_splitStep directory t x todo)

theorem yields_splitRounds (directory : Bool) (todo : List Bytes) (left : ℕ) {parts : Pointers}
    {s : SplitLocals} {t : SplitState} (hparts : Items parts todo.reverse) (hs : s.Holds t)
    (hleft : todo.length < left) (hsize : sizeBound t todo < 2^64) :
    Yields (splitRounds fresh directory left parts s) fun r =>
      ∃ s',r = some s' ∧ s'.Holds (todo.foldl (splitStep directory) t) := by
  induction todo generalizing left parts s t with
  | nil =>
    obtain ⟨left,rfl⟩ := Nat.exists_eq_add_of_lt hleft
    rw [List.length_nil,Nat.zero_add,splitRounds]
    refine Yields.bind (yields_pop_nil fresh hparts) fun p hp => ?_
    obtain ⟨item,parts'⟩ := p
    simp only at hp
    subst hp
    exact Yields.pure ⟨s,rfl,hs⟩
  | cons x todo ih =>
    obtain ⟨left,rfl⟩ : ∃ n, left = n+1 := Nat.exists_eq_add_of_le' (by omega)
    rw [splitRounds]
    rw [List.reverse_cons] at hparts
    refine Yields.bind (yields_pop fresh hparts) fun p hp => ?_
    obtain ⟨item,parts'⟩ := p
    obtain ⟨b,rfl,hb,hparts'⟩ := hp
    have hstep := sizeBound_splitStep directory t x todo
    have hbound := hsize
    simp only [sizeBound,List.map_cons,List.sum_cons] at hbound
    have hpreSize : (if t.prefixSize ≠ 0 then t.prefixSize+1 else t.prefixSize)+x.length < 2^64 := by
      split_ifs <;> omega
    have hsufSize : (if t.suffixSize ≠ 0 then t.suffixSize+1 else t.suffixSize)+x.length < 2^64 := by
      split_ifs <;> omega
    simp only [hs.prefixSize,hs.suffixSize,hs.addToPrefix,hb.len,sizeT_of_lt hpreSize,
      sizeT_of_lt hsufSize,sizeT_of_lt (show t.suffixSize+x.length < 2^64 by omega),
      sizeT_of_lt (show t.suffixSize+x.length+1 < 2^64 by omega)]
    rw [List.foldl_cons]
    have hnext (s' : SplitLocals) (hs' : s'.Holds (splitStep directory t x)) :=
      ih left hparts' hs' (by rw [List.length_cons] at hleft; omega) (by omega)
    generalize hadd : (t.addToPrefix ||
      (decide (t.suffixSize ≠ 0) && decide (bHeaderSuffixSize ≤ t.suffixSize+x.length)) ||
      (directory && decide (bHeaderSuffixSize ≤ t.suffixSize+x.length+1))) = add
    cases add with
    | true =>
      have hsplit : splitStep directory t x = { t with
          prefixItems := t.prefixItems ++ [x]
          prefixSize := (if t.prefixSize ≠ 0 then t.prefixSize+1 else t.prefixSize)+x.length
          addToPrefix := true } := by rw [splitStep,hadd]; rfl
      simp only [if_true]
      refine Yields.bind (yields_push fresh hs.prefixItems hb) fun q hq => ?_
      obtain ⟨item,prefixItems⟩ := q
      obtain ⟨rfl,hprefixItems⟩ := hq
      exact hnext _ (hsplit ▸ ⟨hprefixItems,hs.suffixItems,rfl,rfl,rfl⟩)
    | false =>
      have hsplit : splitStep directory t x = { t with
          suffixItems := t.suffixItems ++ [x]
          suffixSize := (if t.suffixSize ≠ 0 then t.suffixSize+1 else t.suffixSize)+x.length } := by
        rw [splitStep,hadd]
        rfl
      simp only [Bool.false_eq_true,if_false]
      refine Yields.bind (yields_push fresh hs.suffixItems hb) fun q hq => ?_
      obtain ⟨item,suffixItems⟩ := q
      obtain ⟨rfl,hsuffixItems⟩ := hq
      exact hnext _ (hsplit ▸ ⟨hs.prefixItems,hsuffixItems,rfl,rfl,rfl⟩)

theorem yields_appendSlash {b : BString} {s : Bytes} (h : b.Holds s) :
    Yields (appendSlash b) (BString.Holds · (s ++ [slash])) := by
  unfold appendSlash
  have happend := ends_bStringAppendStr h (reads_literal (s := [slash]) (by decide)) (by decide)
  refine Yields.bind happend.gives fun string hstring => ?_
  obtain ⟨string,rfl,hholds⟩ := hstring
  exact Yields.pure hholds

theorem yields_stripRoot {parts : Pointers} {path : Bytes}
    (h : Items parts (ArchiveTarBuilder.bPathNew path)) (hne : ArchiveTarBuilder.bPathNew path ≠ []) :
    Yields (stripRoot fresh parts) (Items · (splitParts path)) := by
  obtain ⟨x,rest,hpath⟩ := List.exists_cons_of_ne_nil hne
  rw [splitParts]
  rw [hpath] at h ⊢
  obtain ⟨bs,hstands,hbs⟩ := id h
  obtain ⟨b,bs,hb,-,rfl⟩ := List.forall₂_cons_right_iff.mp hbs
  unfold stripRoot
  have hitem := @ends_itemIn parts _ hstands [] _ _ rfl
  refine Yields.bind hitem.yields fun first hfirst => ?_
  obtain ⟨-,rfl⟩ := hfirst
  simp only [hb.len]
  cases x with
  | nil =>
    rw [if_pos List.length_nil]
    exact Yields.bind (yields_shift fresh h) fun p hp => Yields.pure hp
  | cons c x =>
    rw [if_neg (by simp)]
    exact Yields.pure h

/-- The data that the strings stand for. -/
structure SplitData.Holds (d : SplitData) (data : PathData) : Prop where
  pathPrefix : d.pathPrefix.Holds data.pathPrefix
  suffix : d.suffix.Holds data.suffix
  truncated : d.truncated = data.truncated

theorem yields_assemble (directory : Bool) {s : SplitLocals} {t : SplitState} (hs : s.Holds t)
    (hpreSize : (joinPath t.prefixItems.reverse).length+1 < 2^64)
    (hsufSize : (joinPath t.suffixItems.reverse).length+1 < 2^64) (hsize : t.suffixSize+1 < 2^64) :
    Yields (assemble fresh directory s) fun d => ∃ d',d = some d' ∧ d'.Holds {
      pathPrefix := joinPath t.prefixItems.reverse
      suffix := if directory then joinPath t.suffixItems.reverse ++ [slash]
        else joinPath t.suffixItems.reverse
      truncated := decide (bHeaderSuffixSize < if directory then t.suffixSize+1 else t.suffixSize) ||
        decide (bHeaderPrefixSize < t.prefixSize) } := by
  have hslash : (0 : UInt8) ∉ [slash] := by decide
  unfold assemble
  refine Yields.bind (yields_reverse fresh hs.prefixItems) fun p hp => ?_
  refine Yields.bind (ends_bStringJoin hp hslash hpreSize).gives fun pre hpre => ?_
  obtain ⟨pre,rfl,hpre⟩ := hpre
  refine Yields.bind (yields_reverse fresh hs.suffixItems) fun q hq => ?_
  refine Yields.bind (ends_bStringJoin hq hslash hsufSize).gives fun suf hsuf => ?_
  obtain ⟨suf,rfl,hsuf⟩ := hsuf
  simp only [hs.suffixSize,hs.prefixSize,sizeT_of_lt hsize]
  cases directory with
  | true =>
    simp only [if_true]
    exact Yields.bind (yields_appendSlash hsuf) fun suf' hsuf' => Yields.pure ⟨_,rfl,hpre,hsuf',rfl⟩
  | false =>
    simp only [Bool.false_eq_true,if_false]
    refine Yields.bind (Yields.pure hsuf) fun suf' hsuf' => Yields.pure ⟨_,rfl,hpre,hsuf',rfl⟩

end

theorem length_splitParts_le (path : Bytes) :
    ((splitParts path).map fun x => x.length+1).sum ≤ path.length+1 := by
  rw [splitParts_eq_headerItems]
  have hsum (items : List Bytes) : (items.map fun x => x.length+1).sum ≤ (joinPath items).length+1 := by
    rw [joinPath,length_bStringJoin]
    have hadd : (items.map fun x => x.length+1).sum = (items.map List.length).sum+items.length := by
      induction items with
      | nil => rfl
      | cons x items ih =>
        simp only [List.map_cons,List.sum_cons,List.length_cons]
        omega
    rw [hadd,List.length_singleton]
    omega
  unfold headerItems
  split_ifs with h
  · have habs := h.2
    cases path with
    | nil => simp [isAbsolute] at habs
    | cons c path => simp
  · refine (hsum _).trans ?_
    have hcut : (cstr path).length ≤ path.length := (List.takeWhile_sublist _).length_le
    have hle := (joinPath_sublist (dropDots_sublist (strtok (cstr path)))).trans
      (length_joinPath_strtok (cstr path))
    rw [components]
    omega

/-- Unless memory is refused, `path_split` stays in its objects and gives what it does on lists. -/
theorem pathSplit_stored (fresh : ℕ → Option (Option BString)) {string : BString} {path : Bytes}
    (h : string.Holds path) (st : Stat) : Yields (pathSplit fresh string st) fun d =>
      Option.Rel SplitData.Holds d (ArchiveTarBuilder.pathSplit path st) := by
  have hlength := h.length_lt
  have hparts := length_splitParts_le path
  have hinv := splitState_inv path st
  unfold pathSplit
  refine Yields.bind (ends_malloc _).gives fun data hdata => ?_
  obtain ⟨data,rfl,-⟩ := hdata
  refine Yields.bind (ends_bPathNew fresh h).yields fun parts hpath => ?_
  cases parts with
  | none => exact absurd hpath Bool.false_ne_true
  | some parts =>
    have hitems := (hpath.resolve_right fun h => Bool.false_ne_true h.1).2
    refine Yields.bind ends_stackNew.gives fun prefixItems hprefixItems => ?_
    obtain ⟨prefixItems,rfl,hprefixItems⟩ := hprefixItems
    refine Yields.bind ends_stackNew.gives fun suffixItems hsuffixItems => ?_
    obtain ⟨suffixItems,rfl,hsuffixItems⟩ := hsuffixItems
    by_cases hnil : ArchiveTarBuilder.bPathNew path = []
    · simp only [hitems.count,hnil,List.length_nil,if_true]
      rw [ArchiveTarBuilder.pathSplit,if_pos hnil]
      exact Yields.pure Option.Rel.none
    · have hcount : ¬parts.count = 0 := by rwa [hitems.count,List.length_eq_zero_iff]
      simp only [if_neg hcount]
      refine Yields.bind (yields_stripRoot fresh hitems hnil) fun parts' hparts' => ?_
      have hstart : (SplitLocals.mk prefixItems suffixItems 0 0 false).Holds ⟨[],[],0,0,false⟩ :=
        ⟨⟨[],hprefixItems,List.Forall₂.nil⟩,⟨[],hsuffixItems,List.Forall₂.nil⟩,rfl,rfl,rfl⟩
      have hbound : sizeBound ⟨[],[],0,0,false⟩ (splitParts path).reverse ≤ path.length+1 := by
        simpa [sizeBound] using hparts
      have hrounds := yields_splitRounds fresh (decide (st.ifmt = sIfdir)) (splitParts path).reverse
        (parts'.count+1) (by rwa [List.reverse_reverse]) hstart
        (by rw [hparts'.count,List.length_reverse]; exact Nat.lt_succ_self _) (by omega)
      refine Yields.bind hrounds fun s hs => ?_
      obtain ⟨s,rfl,hs⟩ := hs
      have hstate : (splitParts path).reverse.foldl (splitStep (decide (st.ifmt = sIfdir)))
          ⟨[],[],0,0,false⟩ = splitState path st := rfl
      have hsizes := (sizeBound_foldl (decide (st.ifmt = sIfdir)) ⟨[],[],0,0,false⟩
        (splitParts path).reverse).trans hbound
      rw [hstate] at hsizes
      simp only [sizeBound,List.map_nil,List.sum_nil,Nat.add_zero] at hsizes
      rw [hstate] at hs
      have hpre := hinv.prefixSize
      have hsuf := hinv.suffixSize
      refine (yields_assemble fresh (decide (st.ifmt = sIfdir)) hs (by omega) (by omega)
        (by omega)).mono fun d hd => ?_
      obtain ⟨d,rfl,hd⟩ := hd
      rw [ArchiveTarBuilder.pathSplit,if_neg hnil]
      refine Option.Rel.some ?_
      by_cases hdir : st.ifmt = sIfdir <;> simpa [splitState,joinPath,hdir] using hd

/-- The directory `/a`. -/
theorem pathSplit_stored_directory :
    Yields (pathSplit (fun _ => none) ⟨[47,97,0],2⟩ ⟨sIfdir,0,0,0,0,0,0,0,1⟩) fun d =>
      Option.Rel SplitData.Holds d (some ⟨[],[97,47],false⟩) := by
  have hpath : BString.Holds ⟨[47,97,0],2⟩ [47,97] := ⟨rfl,⟨[],rfl⟩,by decide⟩
  have hsplit : ArchiveTarBuilder.pathSplit [47,97] ⟨sIfdir,0,0,0,0,0,0,0,1⟩ =
      some ⟨[],[97,47],false⟩ := by decide +kernel
  exact hsplit ▸ pathSplit_stored (fun _ => none) hpath _

end Objects
end ArchiveTarBuilder
