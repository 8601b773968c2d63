import ArchiveTarBuilder.HeaderReadBack

/-! Member names as sequences of components. What `path_split` puts into the two name fields is
joined back to the same components, unless it says that the name does not fit. -/
namespace ArchiveTarBuilder
open CString

abbrev joinPath (items : List Bytes) : Bytes := bStringJoin [slash] items

def dropDots : List Bytes → List Bytes
  | [] => []
  | first::rest => first::rest.filter (· ≠ dot)

def components (name : Bytes) : List Bytes := dropDots (strtok name)

def TokenItems (items : List Bytes) : Prop := ∀ x ∈ items, x ≠ [] ∧ slash ∉ x

theorem mem_of_mem_splitOn {s x : Bytes} (h : x ∈ s.splitOn slash) : ∀ c ∈ x, c ∈ s ∧ c ≠ slash := by
  induction s generalizing x with
  | nil =>
    obtain rfl : x = [] := by simpa [List.splitOn] using h
    simp
  | cons a s ih =>
    have hstep {y : Bytes} (hy : y ∈ s.splitOn slash) {c : UInt8} (hc : c ∈ y) :
        c ∈ a::s ∧ c ≠ slash := ⟨List.mem_cons_of_mem a (ih hy c hc).1,(ih hy c hc).2⟩
    rw [List.splitOn_cons_eq_if_modifyHead] at h
    split at h
    · rcases List.mem_cons.mp h with rfl | h
      · simp
      · exact fun c hc => hstep h hc
    · rename_i ha
      obtain ⟨y,ys,hsplit⟩ := List.exists_cons_of_ne_nil (List.splitOn_ne_nil slash s)
      rw [hsplit,List.modifyHead_cons,List.mem_cons] at h
      rcases h with rfl | h
      · intro c hc
        rcases List.mem_cons.mp hc with rfl | hc
        · exact ⟨List.mem_cons_self,by simpa using ha⟩
        · exact hstep (by simp [hsplit]) hc
      · exact fun c hc => hstep (by simp [hsplit,h]) hc

theorem tokenItems_strtok (s : Bytes) : TokenItems (strtok s) := by
  intro x hx
  obtain ⟨hmem,hne⟩ := List.mem_filter.mp hx
  exact ⟨by simpa using hne,fun hc => (mem_of_mem_splitOn hmem slash hc).2 rfl⟩

theorem zero_notMem_strtok {s x : Bytes} (hnul : 0 ∉ s) (hx : x ∈ strtok s) : 0 ∉ x :=
  fun hc => hnul (mem_of_mem_splitOn (List.mem_filter.mp hx).1 0 hc).1

theorem strtok_append (a b : Bytes) : strtok (a ++ slash::b) = strtok a ++ strtok b := by
  simp only [strtok,List.splitOn_append_cons_self,List.filter_append]

@[simp] theorem strtok_nil : strtok [] = [] := rfl

theorem strtok_joinPath {items : List Bytes} (h : TokenItems items) :
    strtok (joinPath items) = items := by
  by_cases hnil : items = []
  · subst hnil
    rfl
  · rw [strtok,joinPath,bStringJoin,List.splitOn_intercalate slash (fun x hx => (h x hx).2) hnil]
    rw [List.filter_eq_self]
    intro x hx
    simpa using (h x hx).1

theorem joinPath_cons {item : Bytes} {items : List Bytes} (h : items ≠ []) :
    joinPath (item::items) = item ++ slash::joinPath items := by
  simp [joinPath,bStringJoin,List.intercalate_cons_of_ne_nil h]

theorem joinPath_append {xs ys : List Bytes} (hxs : xs ≠ []) (hys : ys ≠ []) :
    joinPath (xs ++ ys) = joinPath xs ++ slash::joinPath ys := by
  induction xs with
  | nil => exact absurd rfl hxs
  | cons x xs ih =>
    by_cases hnil : xs = []
    · subst hnil
      rw [List.singleton_append,joinPath_cons hys]
      simp [joinPath,bStringJoin]
    · rw [List.cons_append,joinPath_cons (by simp [hnil]),ih hnil,joinPath_cons hnil]
      simp

theorem mem_joinPath {items : List Bytes} {c : UInt8} (h : c ∈ joinPath items) :
    c = slash ∨ ∃ x ∈ items, c ∈ x := by
  induction items with
  | nil => simp [joinPath,bStringJoin] at h
  | cons x xs ih =>
    by_cases hnil : xs = []
    · subst hnil
      exact Or.inr ⟨x,by simp,by simpa [joinPath,bStringJoin] using h⟩
    · rw [joinPath_cons hnil,List.mem_append,List.mem_cons] at h
      rcases h with h | rfl | h
      · exact Or.inr ⟨x,by simp,h⟩
      · exact Or.inl rfl
      · rcases ih h with rfl | ⟨y,hy,hc⟩
        · exact Or.inl rfl
        · exact Or.inr ⟨y,by simp [hy],hc⟩

theorem joinPath_eq_nil {items : List Bytes} (h : ∀ x ∈ items, x ≠ []) :
    joinPath items = [] ↔ items = [] := by
  constructor
  · intro hj
    cases items with
    | nil => rfl
    | cons x xs =>
      have hx := h x (by simp)
      by_cases hnil : xs = []
      · subst hnil
        exact absurd (by simpa [joinPath,bStringJoin] using hj) hx
      · rw [joinPath_cons hnil] at hj
        simp at hj
  · rintro rfl
    rfl

theorem mem_dropDots {items : List Bytes} {x : Bytes} (h : x ∈ dropDots items) : x ∈ items := by
  cases items with
  | nil => simp [dropDots] at h
  | cons first rest =>
    rcases List.mem_cons.mp h with rfl | h
    · simp
    · simp [(List.mem_filter.mp h).1]

@[simp] theorem dropDots_dropDots (items : List Bytes) : dropDots (dropDots items) =
    dropDots items := by
  cases items <;> simp [dropDots]

theorem tokenItems_components (name : Bytes) : TokenItems (components name) :=
  fun x hx => tokenItems_strtok name x (mem_dropDots hx)

theorem zero_notMem_components {name x : Bytes} (hnul : 0 ∉ name) (hx : x ∈ components name) :
    0 ∉ x := zero_notMem_strtok hnul (mem_dropDots hx)

/-- Only the tokens of a name matter, so slashes in front, behind or doubled do not. -/
theorem components_congr {a b : Bytes} (h : strtok a = strtok b) : components a = components b := by
  simp only [components,h]

theorem components_append_slash (name : Bytes) : components (name ++ [slash]) = components name :=
  components_congr (by rw [strtok_append,strtok_nil,List.append_nil])

theorem components_slash_append (name : Bytes) : components (slash::name) = components name :=
  components_congr (by simpa using strtok_append [] name)

theorem components_joinPath (name : Bytes) :
    components (joinPath (components name)) = components name := by
  rw [components,strtok_joinPath (tokenItems_components name),components,dropDots_dropDots]

theorem pathItems_append (absolute : Bool) (rest stack : List Bytes) (h : stack ≠ []) :
    pathItems absolute rest stack = stack ++ rest.filter (· ≠ dot) := by
  induction rest generalizing stack with
  | nil => simp [pathItems]
  | cons item rest ih =>
    by_cases hdot : item = dot
    · simp [pathItems,h,hdot,ih stack h]
    · simp [pathItems,h,hdot,ih (stack ++ [item]) (by simp)]

theorem bPathNew_eq {path : Bytes} (hnul : 0 ∉ path) : bPathNew path =
    if components path = [] then (if isAbsolute path then [[slash]] else [])
    else if isAbsolute path then []::components path else components path := by
  simp only [bPathNew,cstr_of_not_mem path hnul]
  cases hs : strtok path with
  | nil => simp [components,hs,dropDots,pathItems]
  | cons first rest =>
    cases ha : isAbsolute path <;> simp [components,hs,dropDots,pathItems,pathItems_append]

@[simp] theorem isAbsolute_cstr (path : Bytes) : isAbsolute (cstr path) = isAbsolute path := by
  cases path with
  | nil => rfl
  | cons c rest => by_cases hc : c = 0 <;> simp [isAbsolute,cstr,hc,slash]

theorem bPathClean_cstr (path : Bytes) : bPathClean (cstr path) = bPathClean path := by
  simp only [bPathClean,bPathNew,isAbsolute_cstr,cstr_of_not_mem _ (zero_notMem_cstr path)]

theorem bPathClean_eq {path : Bytes} (hnul : 0 ∉ path) : bPathClean path =
    (if isAbsolute path then [slash] else []) ++ joinPath (components path) := by
  rw [bPathClean,bPathNew_eq hnul]
  by_cases hc : components path = []
  · rw [if_pos hc,hc]
    split <;> simp [joinPath,bStringJoin]
  · rw [if_neg hc]
    split
    · exact joinPath_cons hc
    · rfl

theorem splitParts_eq {path : Bytes} (hnul : 0 ∉ path) (h : bPathNew path ≠ []) :
    splitParts path = if components path = [] then [[slash]] else components path := by
  have heq := bPathNew_eq hnul
  have htok := tokenItems_components path
  unfold splitParts
  rw [heq] at h ⊢
  by_cases hc : components path = []
  · by_cases ha : isAbsolute path = true
    · simp [hc,ha]
    · simp [hc,ha] at h
  · by_cases ha : isAbsolute path = true
    · simp [hc,ha]
    · obtain ⟨x,xs,hx⟩ := List.exists_cons_of_ne_nil hc
      have hne := (htok x (by simp [hx])).1
      simp only [hx,ha,if_false,Bool.false_eq_true,reduceCtorEq]
      split
      · rename_i rest heq'
        exact absurd (List.cons.inj heq').1 hne
      · rfl

theorem joinPath_cons_length {item : Bytes} {items : List Bytes} (h : ∀ x ∈ items, x ≠ []) :
    (joinPath (item::items)).length =
      (if (joinPath items).length ≠ 0 then (joinPath items).length+1 else (joinPath items).length)+
        item.length := by
  have hnil := joinPath_eq_nil h
  by_cases hi : items = []
  · subst hi
    simp [joinPath,bStringJoin]
  · have hlen : (joinPath items).length ≠ 0 := by
      rw [ne_eq,List.length_eq_zero_iff]
      exact fun hz => hi (hnil.mp hz)
    rw [joinPath_cons hi,if_pos hlen,List.length_append,List.length_cons]
    omega

/-- What the popping loop keeps for the items popped so far: the two stacks hold them in order, the
two counters are the lengths of the strings they make, and only the last item of a directory
can leave the second stack empty. -/
structure SplitInv (directory : Bool) (parts : List Bytes) (s : SplitState) : Prop where
  items : s.prefixItems.reverse ++ s.suffixItems.reverse = parts
  prefixSize : s.prefixSize = (joinPath s.prefixItems.reverse).length
  suffixSize : s.suffixSize = (joinPath s.suffixItems.reverse).length
  prefixNil : s.addToPrefix = false → s.prefixItems = []
  start : parts = [] → s.addToPrefix = false
  suffixNil : parts ≠ [] → s.suffixItems = [] → s.addToPrefix = true
  last : ∀ x ∈ parts.getLast?, (s.suffixItems = [] ↔ directory = true ∧ 99 ≤ x.length)

theorem splitStep_inv {directory : Bool} {parts : List Bytes} {s : SplitState} {item : Bytes}
    (h : SplitInv directory parts s) (hne : ∀ x ∈ parts, x ≠ []) :
    SplitInv directory (item::parts) (splitStep directory s item) := by
  have hitems := h.items
  have hpre : ∀ x ∈ s.prefixItems.reverse, x ≠ [] := fun x hx => hne x (hitems ▸ by simp [hx])
  have hsuf : ∀ x ∈ s.suffixItems.reverse, x ≠ [] := fun x hx => hne x (hitems ▸ by simp [hx])
  have hpsize := h.prefixSize
  have hssize := h.suffixSize
  have hlast (hp : parts ≠ []) : (item::parts).getLast? = parts.getLast? := by
    obtain ⟨y,ys,rfl⟩ := List.exists_cons_of_ne_nil hp
    simp [List.getLast?_cons_cons]
  have hfirst (hp : parts = []) : s.prefixItems = [] ∧ s.suffixItems = [] := by
    rw [hp] at hitems
    simpa using hitems
  unfold splitStep
  simp only
  generalize hadd : (s.addToPrefix || (decide (s.suffixSize ≠ 0) &&
    decide (bHeaderSuffixSize ≤ s.suffixSize+item.length)) ||
    (directory && decide (bHeaderSuffixSize ≤ s.suffixSize+item.length+1))) = add
  have hone (hp : parts = []) : add = true ↔ directory = true ∧ 99 ≤ item.length := by
    have hsize : s.suffixSize = 0 := by rw [hssize,(hfirst hp).2]; rfl
    rw [← hadd,h.start hp,hsize]
    simp [bHeaderSuffixSize]
  cases add with
  | true =>
    simp only [if_true]
    refine ⟨by simp [hitems],?_,hssize,by simp,by simp,by simp,?_⟩
    · rw [hpsize,List.reverse_append,List.reverse_singleton,List.singleton_append,
        joinPath_cons_length hpre]
    · intro x hx
      by_cases hp : parts = []
      · subst hp
        obtain rfl : item = x := by simpa using hx
        exact iff_of_true (hfirst rfl).2 ((hone rfl).mp rfl)
      · exact h.last x (by rwa [hlast hp] at hx)
  | false =>
    have hflag : s.addToPrefix = false := by
      simp only [Bool.or_eq_false_iff] at hadd
      exact hadd.1.1
    have hpnil := h.prefixNil hflag
    simp only [Bool.false_eq_true,if_false]
    refine ⟨?_,hpsize,?_,fun _ => hpnil,by simp,by simp,?_⟩
    · rw [hpnil] at hitems ⊢
      simpa using hitems
    · rw [hssize,List.reverse_append,List.reverse_singleton,List.singleton_append,
        joinPath_cons_length hsuf]
    · intro x hx
      refine iff_of_false (by simp) ?_
      by_cases hp : parts = []
      · subst hp
        obtain rfl : item = x := by simpa using hx
        exact fun hd => Bool.false_ne_true ((hone rfl).mpr hd)
      · rw [← h.last x (by rwa [hlast hp] at hx)]
        exact fun hs => by simpa [hflag] using h.suffixNil hp hs

theorem splitLoop_inv (directory : Bool) {parts : List Bytes} (hne : ∀ x ∈ parts, x ≠ []) :
    SplitInv directory parts (splitLoop directory parts) := by
  rw [splitLoop,List.foldl_reverse]
  induction parts with
  | nil => exact ⟨rfl,rfl,rfl,fun _ => rfl,fun _ => rfl,by simp,by simp⟩
  | cons item parts ih =>
    exact splitStep_inv (ih fun x hx => hne x (by simp [hx])) fun x hx => hne x (by simp [hx])

def dirSlash (st : Stat) : Bytes := if st.ifmt = sIfdir then [slash] else []

theorem longlinkPath_eq (name : Bytes) (st : Stat) : longlinkPath name st = name ++ dirSlash st := by
  unfold longlinkPath dirSlash
  split <;> simp

structure SplitOf (name : Bytes) (st : Stat) (d : PathData) (pre suf : List Bytes) : Prop where
  items : pre ++ suf = splitParts name
  pathPrefix : d.pathPrefix = joinPath pre
  suffix : d.suffix = joinPath suf ++ dirSlash st
  fits : d.truncated = false → d.pathPrefix.length ≤ 155 ∧ d.suffix.length ≤ 100
  suf_nil : ∀ x ∈ (splitParts name).getLast?, (suf = [] ↔ st.ifmt = sIfdir ∧ 99 ≤ x.length)

section
variable {name : Bytes} {st : Stat} {d : PathData} (hnul : 0 ∉ name)
include hnul

theorem splitParts_ne_nil (h : bPathNew name ≠ []) : splitParts name ≠ [] := by
  rw [splitParts_eq hnul h]
  split <;> simp_all

theorem mem_splitParts (h : bPathNew name ≠ []) {x : Bytes} (hx : x ∈ splitParts name) :
    x ≠ [] ∧ 0 ∉ x := by
  rw [splitParts_eq hnul h] at hx
  split at hx
  · obtain rfl : x = [slash] := by simpa using hx
    decide
  · exact ⟨(tokenItems_components name x hx).1,zero_notMem_components hnul hx⟩

omit hnul in
theorem bPathNew_of_pathSplit (h : pathSplit name st = some d) : bPathNew name ≠ [] := by
  intro hn
  simp [pathSplit,hn] at h

theorem pathSplit_split (h : pathSplit name st = some d) : ∃ pre suf, SplitOf name st d pre suf := by
  have hne := bPathNew_of_pathSplit h
  have hinv := splitLoop_inv (decide (st.ifmt = sIfdir))
    (fun x hx => (mem_splitParts hnul hne hx).1 : ∀ x ∈ splitParts name, x ≠ [])
  simp only [pathSplit,hne,if_false,Option.some.injEq] at h
  subst h
  generalize splitLoop (decide (st.ifmt = sIfdir)) (splitParts name) = s at hinv ⊢
  have hpsize := hinv.prefixSize
  have hssize := hinv.suffixSize
  refine ⟨_,_,hinv.items,rfl,?_,?_,?_⟩
  · unfold dirSlash
    by_cases hd : st.ifmt = sIfdir <;> simp [hd]
  · unfold bHeaderSuffixSize bHeaderPrefixSize
    unfold joinPath at hpsize hssize
    by_cases hd : st.ifmt = sIfdir
    · simp only [hd,decide_true,if_true,Bool.or_eq_false_iff,decide_eq_false_iff_not,not_lt,
        List.length_append,List.length_singleton]
      omega
    · simp only [hd,decide_false,Bool.false_eq_true,if_false,Bool.or_eq_false_iff,
        decide_eq_false_iff_not,not_lt]
      omega
  · simpa using hinv.last

theorem SplitOf.zero_notMem (hne : bPathNew name ≠ []) {pre suf : List Bytes}
    (h : SplitOf name st d pre suf) : 0 ∉ d.pathPrefix ∧ 0 ∉ d.suffix := by
  have hitems := h.items
  have hjoin {items : List Bytes} (hsub : ∀ x ∈ items, x ∈ splitParts name) : 0 ∉ joinPath items := by
    intro hz
    rcases mem_joinPath hz with hslash | ⟨x,hx,hc⟩
    · exact absurd hslash (by decide)
    · exact (mem_splitParts hnul hne (hsub x hx)).2 hc
  have hdir : 0 ∉ dirSlash st := by
    unfold dirSlash
    split <;> decide
  rw [h.pathPrefix,h.suffix,List.mem_append]
  exact ⟨hjoin fun x hx => hitems ▸ by simp [hx],
    not_or.mpr ⟨hjoin fun x hx => hitems ▸ by simp [hx],hdir⟩⟩

end

def PathData.name (d : PathData) : Bytes :=
  if d.pathPrefix = [] then d.suffix else d.pathPrefix ++ [slash] ++ d.suffix

/-- The name of a member as it should be read: relative, components separated by single slashes,
and one more slash behind those of a directory. -/
def canonicalName (name : Bytes) (st : Stat) : Bytes := joinPath (components name) ++ dirSlash st

section
variable {name : Bytes} {st : Stat} {d : PathData} {pre suf : List Bytes} (hnul : 0 ∉ name)
  (hne : bPathNew name ≠ []) (h : SplitOf name st d pre suf)
include hnul hne h

theorem SplitOf.name_eq : d.name =
    joinPath (splitParts name) ++ (if suf = [] then [slash] else []) ++ dirSlash st := by
  have hitems := h.items
  have hpre : joinPath pre = [] ↔ pre = [] := joinPath_eq_nil fun x hx =>
    (mem_splitParts hnul hne (hitems ▸ by simp [hx] : x ∈ splitParts name)).1
  unfold PathData.name
  rw [h.pathPrefix,h.suffix]
  by_cases hp : pre = []
  · have hs : suf ≠ [] := by
      rintro rfl
      exact splitParts_ne_nil hnul hne (by rw [← hitems,hp]; rfl)
    rw [if_pos (hpre.mpr hp),← hitems,hp,if_neg hs]
    simp
  · rw [if_neg (hpre.not.mpr hp)]
    by_cases hs : suf = []
    · rw [← hitems,hs]
      simp [joinPath,bStringJoin]
    · rw [← hitems,if_neg hs,joinPath_append hp hs]
      simp

theorem SplitOf.name_components : components d.name = components name := by
  have hdir (s : Bytes) : components (s ++ dirSlash st) = components s := by
    unfold dirSlash
    split
    · exact components_append_slash s
    · rw [List.append_nil]
  have hextra (s : Bytes) : components (s ++ if suf = [] then [slash] else []) = components s := by
    split
    · exact components_append_slash s
    · rw [List.append_nil]
  rw [h.name_eq hnul hne,hdir,hextra,splitParts_eq hnul hne]
  split
  · rename_i hc
    rw [hc]
    decide
  · exact components_joinPath name

theorem SplitOf.name_canonical : d.name = canonicalName name st ↔
    components name ≠ [] ∧ ¬(st.ifmt = sIfdir ∧ ∃ x ∈ (components name).getLast?, 99 ≤ x.length) := by
  rw [h.name_eq hnul hne,canonicalName,List.append_left_inj]
  have hsuf := h.suf_nil
  rw [splitParts_eq hnul hne] at hsuf ⊢
  by_cases hc : components name = []
  · simp only [hc,if_true,ne_eq,not_true_eq_false,false_and,iff_false]
    intro he
    have hl := congrArg List.length he
    simp [joinPath,bStringJoin] at hl
  · obtain ⟨x,hx⟩ := Option.ne_none_iff_exists'.mp (List.getLast?_eq_none_iff.not.mpr hc)
    simp only [hc,if_false] at hsuf ⊢
    have hlast := hsuf x hx
    by_cases hs : suf = []
    · have hcond := hlast.mp hs
      simp [hs,hx,hcond]
    · have hcond := hlast.not.mp hs
      simp only [hs,if_false,List.append_nil,hx,Option.mem_def,Option.some.injEq,exists_eq_left',
        ne_eq,true_iff]
      exact ⟨hc,hcond⟩

end

end ArchiveTarBuilder
