import ArchiveTarBuilder.StackList
import ArchiveTarBuilder.StringObjects

/-! What `b_string.c`, the stacks of strings and `b_string_join` leave in their objects: the strings
and the items that they stand for. -/
namespace ArchiveTarBuilder
namespace Objects
open CString Memory BStack

/-- A string, with the NUL behind it. -/
structure BString.Holds (b : BString) (s : Bytes) : Prop where
  len : b.len = s.length
  str : ∃ rest, b.str = s ++ 0::rest
  object : b.str.length ≤ maxObject

structure Reads (p s : Bytes) : Prop where
  ends : 0 ∈ p
  text : cstr p = s

section
variable {b : BString} {s t p : Bytes}

theorem BString.Holds.length_lt (h : b.Holds s) : s.length < 2^63-1 := by
  obtain ⟨rest,hstr⟩ := h.str
  have hobject := h.object
  simp only [hstr,List.length_append,List.length_cons,maxObject] at hobject
  omega

theorem BString.Holds.reads (h : b.Holds s) (hnul : 0 ∉ s) : Reads b.str s := by
  obtain ⟨rest,hstr⟩ := h.str
  refine ⟨by simp [hstr],?_⟩
  rw [hstr,cstr_append_zero s rest hnul]

theorem Reads.zero_notMem (h : Reads p s) : 0 ∉ s := h.text ▸ zero_notMem_cstr p

theorem Reads.split (h : Reads p s) : ∃ rest, p = s ++ 0::rest := by
  have hsplit := List.takeWhile_append_dropWhile (p := fun c : UInt8 => decide (c ≠ 0)) (l := p)
  cases hdrop : p.dropWhile (fun c : UInt8 => decide (c ≠ 0)) with
  | nil =>
    rw [hdrop,List.append_nil] at hsplit
    have hmem : 0 ∈ cstr p := by
      rw [show cstr p = p from hsplit]
      exact h.ends
    exact absurd hmem (zero_notMem_cstr p)
  | cons c rest =>
    have hc : c = 0 := by
      have hhead := List.head?_dropWhile_not (fun c : UInt8 => decide (c ≠ 0)) p
      rw [hdrop] at hhead
      simpa using hhead
    exact ⟨rest,by rw [← hsplit,hdrop,hc]; congr 1; exact h.text⟩

theorem reads_literal (hnul : 0 ∉ s) : Reads (literal s) s :=
  ⟨by simp [literal],cstr_append_zero s [] hnul⟩

theorem ends_malloc (n : ℕ) :
    Ends (malloc n) (OrNull fun obj => obj.length = n ∧ n ≤ maxObject) := ends_alloc maxObject n

theorem ends_strlen (h : Reads p s) : Ends (strlen p) fun n r => r = false ∧ n = s.length := by
  rw [strlen,if_pos h.ends]
  exact Ends.pure ⟨rfl,by rw [h.text]⟩

theorem ends_strEq (h : Reads p s) (q : Bytes) :
    Ends (strEq p q) fun same r => r = false ∧ same = decide (s = q) := by
  rw [strEq,if_pos h.ends,h.text]
  exact Ends.pure ⟨rfl,rfl⟩

theorem ends_strncpy {pre post rest : Bytes} (hnul : 0 ∉ s) (hroom : s.length ≤ post.length) :
    Ends (strncpy (pre ++ post) pre.length (s ++ rest) s.length) fun dst r =>
      r = false ∧ dst = pre ++ s ++ post.drop s.length := by
  have htext : cstr ((s ++ rest).take s.length) = s := by
    rw [List.take_left,cstr_of_not_mem s hnul]
  have hzeros : zeros (s.length-s.length) = [] := by simp [zeros]
  rw [strncpy,if_pos (Or.inr (by simp)),htext,hzeros,List.append_nil]
  refine (ends_store (by simp; omega)).mono fun dst r hr => ⟨hr.1,?_⟩
  rw [hr.2,Region.overwrite_append]

theorem ends_memcpy {pre post rest : Bytes} (hroom : s.length ≤ post.length) :
    Ends (memcpy (pre ++ post) pre.length (s ++ rest) s.length) fun dst r =>
      r = false ∧ dst = pre ++ s ++ post.drop s.length := by
  unfold memcpy
  refine Ends.bind (ends_load (by simp)) fun bytes r hr => ?_
  obtain ⟨rfl,rfl⟩ := hr
  have hslice : Region.slice (s ++ rest) 0 s.length = s := by simp [Region.slice]
  rw [hslice]
  refine (ends_store (by simp; omega)).mono fun dst r hr => ⟨by simp [hr.1],?_⟩
  rw [hr.2,Region.overwrite_append]

theorem ends_terminate {pre post : Bytes} (hroom : 0 < post.length) :
    Ends (store (pre ++ post) pre.length [0]) fun obj r =>
      r = false ∧ obj = pre ++ 0::post.drop 1 := by
  refine (ends_store (by simp; omega)).mono fun obj r hr => ⟨hr.1,?_⟩
  rw [hr.2,Region.overwrite_append]
  simp

theorem ends_bStringNewLen {rest : Bytes} (hnul : 0 ∉ s) (hsize : s.length+1 < 2^64) :
    Ends (bStringNewLen (s ++ rest) s.length) (OrNull (BString.Holds · s)) := by
  unfold bStringNewLen
  refine Ends.bind (ends_malloc _) fun head r hr => ?_
  cases head with
  | none => exact Ends.pure (by simpa [OrNull] using hr)
  | some head =>
    obtain ⟨rfl,-⟩ := hr
    rw [sizeT_of_lt hsize]
    refine Ends.bind (ends_malloc _) fun obj r hr => ?_
    cases obj with
    | none => exact Ends.pure (by simpa [OrNull] using hr)
    | some obj =>
      obtain ⟨rfl,hlen,hlimit⟩ := hr
      have hcopy := @ends_strncpy s [] obj rest hnul (by omega)
      rw [List.nil_append,List.length_nil] at hcopy
      refine Ends.bind hcopy fun obj' r hr => ?_
      obtain ⟨rfl,rfl⟩ := hr
      simp only [List.nil_append]
      refine Ends.bind (ends_terminate (by simp; omega)) fun obj' r hr => ?_
      obtain ⟨rfl,rfl⟩ := hr
      refine Ends.pure ⟨rfl,rfl,⟨_,rfl⟩,?_⟩
      simp only [List.length_append,List.length_cons,List.length_drop]
      omega

theorem ends_bStringNew (h : Reads p s) (hsize : s.length+1 < 2^64) :
    Ends (bStringNew p) (OrNull (BString.Holds · s)) := by
  obtain ⟨rest,rfl⟩ := h.split
  unfold bStringNew
  refine Ends.bind (ends_strlen h) fun len r hr => ?_
  obtain ⟨rfl,rfl⟩ := hr
  simpa using ends_bStringNewLen h.zero_notMem hsize

theorem ends_bStringDup (h : b.Holds s) (hnul : 0 ∉ s) :
    Ends (bStringDup b) (OrNull (BString.Holds · s)) := by
  obtain ⟨rest,hstr⟩ := h.str
  rw [bStringDup,hstr,h.len]
  exact ends_bStringNewLen hnul (by have := h.length_lt; omega)

theorem ends_appendLen {rest : Bytes} (h : b.Holds s) (hnul : 0 ∉ t) (hsize : t.length < 2^63) :
    Ends (appendLen b (t ++ rest) t.length) (OrNull (BString.Holds · (s ++ t))) := by
  have hs := h.length_lt
  obtain ⟨free,hstr⟩ := h.str
  rw [appendLen]
  split_ifs with hempty
  · obtain rfl : t = [] := List.eq_nil_of_length_eq_zero hempty
    exact Ends.pure ⟨rfl,by rwa [List.append_nil]⟩
  · simp only [h.len]
    rw [sizeT_of_lt (by omega : s.length+t.length < 2^64),
      sizeT_of_lt (by omega : s.length+t.length+1 < 2^64)]
    refine Ends.bind (ends_realloc _ _ _) fun tmp r hr => ?_
    cases tmp with
    | none => exact Ends.pure (by simpa [OrNull] using hr)
    | some tmp =>
      obtain ⟨rfl,hlen,hlimit,hkept⟩ := hr
      obtain ⟨post,rfl⟩ : ∃ post, tmp = s ++ post := by
        have htake : s <+: b.str.take (s.length+t.length+1) := by
          rw [hstr,List.prefix_take_iff]
          exact ⟨List.prefix_append s _,by omega⟩
        obtain ⟨post,hpost⟩ := htake.trans hkept
        exact ⟨post,hpost.symm⟩
      rw [List.length_append] at hlen
      refine Ends.bind (ends_strncpy hnul (by omega)) fun tmp r hr => ?_
      obtain ⟨rfl,rfl⟩ := hr
      have hterm := @ends_terminate (s ++ t) (post.drop t.length) (by simp; omega)
      rw [List.length_append] at hterm
      refine Ends.bind hterm fun tmp r hr => ?_
      obtain ⟨rfl,rfl⟩ := hr
      refine Ends.pure ⟨rfl,by simp,⟨_,rfl⟩,?_⟩
      simp only [List.length_append,List.length_cons,List.length_drop]
      omega

theorem ends_bStringAppendStr (h : b.Holds s) (hadd : Reads p t) (hsize : t.length < 2^63) :
    Ends (bStringAppendStr b p) (OrNull (BString.Holds · (s ++ t))) := by
  obtain ⟨rest,rfl⟩ := hadd.split
  unfold bStringAppendStr
  refine Ends.bind (ends_strlen hadd) fun len r hr => ?_
  obtain ⟨rfl,rfl⟩ := hr
  simpa using ends_appendLen h hadd.zero_notMem hsize

end

/-- A stack with its items, for which memory has not been refused. -/
structure Stands {α : Type} (stack : BStack α) (items : List α) : Prop where
  sound : stack.Sound bStackDefaultGrowthFactor
  holds : stack.Holds items
  granted : stack.refused = false

section
variable {α : Type*} {stack : BStack α} {granted : Bool} {item : α} {r : Option α × BStack α}

theorem resize_refused {fresh : ℕ → Option α} {newsize : ℕ}
    (h : (stack.resize fresh granted newsize).1 = true) :
    (stack.resize fresh granted newsize).2.refused = stack.refused := by
  by_cases hzero : newsize = 0
  · rw [resize,if_pos hzero]
  · rw [resize,if_neg hzero] at h ⊢
    by_cases hbytes : granted = true ∧ 0 < sizeT (newsize*pointerSize) ∧
        sizeT (newsize*pointerSize) ≤ maxObject
    · simp only [if_pos hbytes]
    · simp only [if_neg hbytes] at h
      exact absurd h (by decide)

theorem push_answer {fresh : ℕ → Option α} (h : stack.push fresh granted item = some r)
    (hgranted : stack.refused = false) :
    (stack.count = stack.size ∧ r.1 = none) ∨ (r.1 = some item ∧ r.2.refused = false) := by
  rw [push] at h
  have hgrowth : ∀ grown : Bool × BStack α,
      grown = (if stack.count = stack.size then
        stack.resize fresh granted (sizeT (stack.size+stack.growthFactor)) else (true,stack)) →
      (grown.1 = false → stack.count = stack.size) ∧ (grown.1 = true → grown.2.refused = false) := by
    rintro grown rfl
    split_ifs with hfull
    · exact ⟨fun _ => hfull,fun hok => (resize_refused hok).trans hgranted⟩
    · exact ⟨by simp,fun _ => hgranted⟩
  obtain ⟨hfull,hkept⟩ := hgrowth _ rfl
  generalize (if stack.count = stack.size then
    stack.resize fresh granted (sizeT (stack.size+stack.growthFactor)) else (true,stack)) = grown
    at h hfull hkept
  cases hok : grown.1 with
  | false =>
    rw [hok,if_neg (by decide)] at h
    obtain rfl := Option.some.inj h
    exact Or.inl ⟨hfull hok,rfl⟩
  | true =>
    rw [hok,if_pos rfl,writeItem] at h
    split_ifs at h with hroom
    · obtain rfl := Option.some.inj h
      exact Or.inr ⟨rfl,hkept hok⟩
    · cases h

end

section
variable (fresh : ℕ → Option (Option BString)) {stack : Pointers} {ptrs : List (Option BString)}

theorem ends_stackNew {α : Type} :
    Ends (stackNew 0 : Program (Option (BStack α))) (OrNull (Stands · [])) := by
  unfold stackNew
  refine Ends.bind (ends_malloc _) fun head r hr => ?_
  cases head with
  | none => exact Ends.pure (by simpa [OrNull] using hr)
  | some head =>
    obtain ⟨rfl,-⟩ := hr
    refine Ends.bind ends_ask fun granted r hr => ?_
    subst hr
    have hnew : (bStackNew 0 : Option (BStack α)) =
        some ⟨128,0,128,List.replicate 128 none,false⟩ := by
      simp [bStackNew,bStackDefaultGrowthFactor,pointerSize,maxObject]
    have hspec := @bStackNew_spec α 128 (by decide) _ hnew
    rw [hnew]
    cases granted with
    | false => exact Ends.bind ends_refuse fun _ r hr => by subst hr; exact Ends.pure rfl
    | true => exact Ends.pure ⟨rfl,hspec.1,hspec.2,rfl⟩

theorem yields_stackStep {α : Type} (fresh : ℕ → Option α) {stack : BStack α} {items : List α}
    (h : Stands stack items) (op : StackOp α) : Yields (stackStep fresh stack op) fun p =>
      p.1 = (listStep items (op,true)).1 ∧ Stands p.2 (listStep items (op,true)).2 := by
  unfold stackStep
  refine Yields.bind ends_ask.yields fun granted _ => ?_
  obtain ⟨⟨item,after⟩,hstep,hrefines⟩ := step_spec fresh h.sound (op,granted)
  rw [hstep]
  cases hrefused : after.refused with
  | true =>
    simp only [hrefused,if_true]
    exact Yields.bind ends_refuse.yields fun _ h => absurd h Bool.false_ne_true
  | false =>
    simp only [hrefused,Bool.false_eq_true,if_false]
    have hanswer := hrefines.answers (by simp [hrefused]) items h.holds
    have hlist : listStep items (op,granted) = listStep items (op,true) := by cases op <;> rfl
    rw [hlist] at hanswer
    exact Yields.pure ⟨hanswer.1,hrefines.keeps,hanswer.2,hrefused⟩

theorem ends_stackPush (h : Stands stack ptrs) (item : Option BString) :
    Ends (stackPush fresh stack item) fun p r =>
      (stack.count = stack.size ∧ r = true ∧ p.1 = none) ∨
        (r = false ∧ p.1 = item ∧ Stands p.2 (ptrs ++ [item])) := by
  have hask : Ends (if stack.count = stack.size then ask else pure true : Program Bool)
      fun _ r => r = false := by
    split_ifs
    · exact ends_ask
    · exact Ends.pure rfl
  unfold stackPush
  refine Ends.bind hask fun granted r hr => ?_
  subst hr
  obtain ⟨p,hp,hrefines⟩ := push_spec fresh h.sound granted item
  have hanswer := push_answer hp h.granted
  rw [hp]
  obtain ⟨pushed,after⟩ := p
  rcases hanswer with ⟨hfull,hnull⟩ | ⟨hpushed,hgranted⟩
  · simp only at hnull
    subst hnull
    refine Ends.bind ends_refuse fun _ r hr => ?_
    subst hr
    exact Ends.pure (Or.inl ⟨hfull,rfl,rfl⟩)
  · simp only at hpushed hgranted
    subst hpushed
    have hlist := (hrefines.answers (by simp [hgranted]) ptrs h.holds).2
    exact Ends.pure (Or.inr ⟨rfl,rfl,hrefines.keeps,hlist,hgranted⟩)

theorem ends_stackItemAt (h : Stands stack ptrs) {i : ℕ} (hi : i < ptrs.length) :
    Ends (stackItemAt stack i) fun item r => r = false ∧ item = ptrs[i] := by
  have hcount : i < stack.count := h.holds.count ▸ hi
  have hread := h.holds.readItem h.sound hcount
  rw [stackItemAt,itemAt,if_neg (by omega),hread,List.getElem?_eq_getElem hi]
  exact Ends.pure ⟨rfl,rfl⟩

end

def Items (stack : Pointers) (items : List Bytes) : Prop :=
  ∃ bs : List BString, Stands stack (bs.map some) ∧ List.Forall₂ BString.Holds bs items

def gluedFrom (sep : Bytes) : ℕ → List Bytes → Bytes
  | _,[] => []
  | i,x::xs => (if i = 0 then [] else sep) ++ (x ++ gluedFrom sep (i+1) xs)

theorem gluedFrom_pos (sep : Bytes) (items : List Bytes) (i : ℕ) :
    gluedFrom sep (i+1) items = items.flatMap (sep ++ ·) := by
  induction items generalizing i with
  | nil => rfl
  | cons x xs ih => rw [gluedFrom,if_neg (Nat.succ_ne_zero i),ih,List.flatMap_cons,
  List.append_assoc]

theorem gluedFrom_zero (sep : Bytes) (items : List Bytes) :
    gluedFrom sep 0 items = ArchiveTarBuilder.bStringJoin sep items := by
  cases items with
  | nil => rfl
  | cons x xs =>
    rw [gluedFrom,if_pos rfl,List.nil_append,gluedFrom_pos,ArchiveTarBuilder.bStringJoin]
    induction xs generalizing x with
    | nil => simp
    | cons y ys ih => rw [List.flatMap_cons,List.intercalate_cons_cons,← ih,List.append_assoc,
    List.append_assoc]

theorem length_bStringJoin (sep : Bytes) (items : List Bytes) :
    (ArchiveTarBuilder.bStringJoin sep items).length =
      sep.length*(items.length-1)+(items.map List.length).sum := by
  rw [← gluedFrom_zero]
  cases items with
  | nil => rfl
  | cons x xs =>
    rw [gluedFrom,if_pos rfl,List.nil_append,gluedFrom_pos]
    simp only [List.length_append,List.length_flatMap,List.length_cons,List.map_cons,List.sum_cons,
      Nat.add_sub_cancel,List.sum_map_add,List.map_const',List.sum_replicate,smul_eq_mul]
    ring

section
variable {stack : Pointers} {ptrs : List (Option BString)}

theorem ends_itemIn (h : Stands stack ptrs) {pre rest : List (Option BString)} {p : Option BString}
    (hptrs : ptrs = pre ++ p::rest) :
    Ends (stackItemAt stack pre.length) fun item r => r = false ∧ item = p := by
  subst hptrs
  simpa using ends_stackItemAt h (i := pre.length) (by simp)

theorem ends_joinLength (h : Stands stack ptrs) (bs : List BString) (pre : List (Option BString))
    (len : ℕ) (hptrs : ptrs = pre ++ bs.map some) (hsize : len+(bs.map BString.len).sum < 2^64) :
    Ends (joinLength stack bs.length pre.length len) fun n r =>
      r = false ∧ n = some (len+(bs.map BString.len).sum) := by
  induction bs generalizing pre len with
  | nil => exact Ends.pure ⟨rfl,by simp⟩
  | cons b bs ih =>
    rw [List.length_cons,joinLength]
    refine Ends.bind (ends_itemIn h hptrs) fun item r hr => ?_
    obtain ⟨rfl,rfl⟩ := hr
    rw [List.map_cons,List.sum_cons] at hsize ⊢
    simp only [sizeT_of_lt (by omega : len+b.len < 2^64)]
    have hrest := ih (pre ++ [some b]) (len+b.len) (by simp [hptrs]) (by omega)
    rw [List.length_append,List.length_singleton,Nat.add_assoc] at hrest
    simpa using hrest

theorem ends_joinLength_null (h : Stands stack ptrs) (left : ℕ) (pre rest : List (Option BString))
    (len : ℕ) (hptrs : ptrs = pre ++ rest) (hnull : none ∈ rest) (hleft : left = rest.length) :
    Ends (joinLength stack left pre.length len) fun n r => r = false ∧ n = none := by
  induction left generalizing pre rest len with
  | zero =>
    rw [List.eq_nil_of_length_eq_zero hleft.symm] at hnull
    simp at hnull
  | succ left ih =>
    cases rest with
    | nil => simp at hnull
    | cons p rest =>
      rw [joinLength]
      refine Ends.bind (ends_itemIn h hptrs) fun item r hr => ?_
      obtain ⟨rfl,rfl⟩ := hr
      cases item with
      | none => exact Ends.pure ⟨rfl,rfl⟩
      | some b =>
        have hrest := ih (pre ++ [some b]) rest (sizeT (len+b.len)) (by simp [hptrs])
          (by simpa using hnull) (by simpa using hleft)
        rw [List.length_append,List.length_singleton] at hrest
        simpa using hrest

theorem ends_copyBehind {s pre post rest : Bytes} (hroom : s.length ≤ post.length)
    (hsize : pre.length+s.length < 2^64) :
    Ends (copyBehind (pre ++ post) pre.length (s ++ rest) s.length) fun p r =>
      r = false ∧ p = ((pre ++ s).length,pre ++ s ++ post.drop s.length) := by
  unfold copyBehind
  refine Ends.bind (ends_memcpy hroom) fun str r hr => ?_
  obtain ⟨rfl,rfl⟩ := hr
  rw [sizeT_of_lt hsize,← List.length_append]
  exact Ends.pure ⟨rfl,rfl⟩

theorem ends_copySome {s t pre post rest : Bytes} (c : Prop) [Decidable c]
    (ht : t = if c then s else []) (hroom : t.length ≤ post.length)
    (hsize : (pre ++ post).length < 2^64) :
    Ends (if c then copyBehind (pre ++ post) pre.length (s ++ rest) s.length
      else pure (pre.length,pre ++ post)) fun p r =>
      r = false ∧ p = ((pre ++ t).length,pre ++ t ++ post.drop t.length) := by
  rw [List.length_append] at hsize
  split_ifs at ht ⊢ with h
  · subst ht
    exact ends_copyBehind hroom (by omega)
  · subst ht
    exact Ends.pure ⟨rfl,by simp⟩

theorem ends_joinCopy (h : Stands stack ptrs) (sep : Bytes) {bs : List BString} {items : List Bytes}
    (hbs : List.Forall₂ BString.Holds bs items) (pre : List (Option BString)) (front post : Bytes)
    (hptrs : ptrs = pre ++ bs.map some)
    (hroom : (gluedFrom sep pre.length items).length ≤ post.length)
    (hsize : (front ++ post).length < 2^64) :
    Ends (joinCopy (literal sep) sep.length stack bs.length pre.length front.length (front ++ post))
      fun str r => r = false ∧ str = some (front ++ gluedFrom sep pre.length items ++
        post.drop (gluedFrom sep pre.length items).length) := by
  induction hbs generalizing pre front post with
  | nil => exact Ends.pure ⟨rfl,by simp [gluedFrom]⟩
  | @cons b x bs items hb hbs ih =>
    obtain ⟨rest,hstr⟩ := hb.str
    rw [List.length_cons,joinCopy]
    refine Ends.bind (ends_itemIn h hptrs) fun item r hr => ?_
    obtain ⟨rfl,rfl⟩ := hr
    rw [gluedFrom] at hroom ⊢
    generalize hglue : (if pre.length = 0 then [] else sep : Bytes) = glue at hroom ⊢
    have hsep : glue = if 0 < sep.length ∧ pre.length ≠ 0 then sep else [] := by
      rw [← hglue]
      by_cases hpre : pre.length = 0
      · simp [hpre]
      · cases sep with
        | nil => simp
        | cons c sep => simp [hpre]
    have hitem : x = if 0 < b.len then x else [] := by
      rw [hb.len]
      cases x <;> simp
    simp only [List.length_append] at hroom hsize
    refine Ends.bind (ends_copySome _ hsep (by omega) (by simpa using hsize)) fun p r hr => ?_
    obtain ⟨rfl,rfl⟩ := hr
    simp only [hstr,hb.len]
    have hcopy := @ends_copySome x x (front ++ glue) (post.drop glue.length) (0::rest) (0 < x.length) _
      (by rwa [hb.len] at hitem) (by rw [List.length_drop]; omega)
      (by simp only [List.length_append,List.length_drop]; omega)
    refine Ends.bind hcopy fun p r hr => ?_
    obtain ⟨rfl,rfl⟩ := hr
    have hrest := ih (pre ++ [some b]) (front ++ glue ++ x) ((post.drop glue.length).drop x.length)
      (by simp [hptrs])
      (by simp only [List.length_append,List.length_singleton,List.length_drop]; omega)
      (by simp only [List.length_append,List.length_drop]; omega)
    rw [List.length_append,List.length_singleton] at hrest
    simpa [List.drop_drop,List.append_assoc,Nat.add_assoc] using hrest

theorem ends_bStringJoin {items : List Bytes} (h : Items stack items) {sep : Bytes} (hnul : 0 ∉ sep)
    (hsize : (ArchiveTarBuilder.bStringJoin sep items).length+1 < 2^64) :
    Ends (bStringJoin (literal sep) stack)
      (OrNull (BString.Holds · (ArchiveTarBuilder.bStringJoin sep items))) := by
  obtain ⟨bs,hstands,hbs⟩ := h
  have hcount : stack.count = bs.length := by rw [hstands.holds.count,List.length_map]
  have hlens : bs.map BString.len = items.map List.length := by
    clear hsize hstands hcount
    induction hbs with
    | nil => rfl
    | cons hb hbs ih => rw [List.map_cons,List.map_cons,hb.len,ih]
  have hjoin := length_bStringJoin sep items
  have hglued := gluedFrom_zero sep items
  rw [← hlens,← hbs.length_eq] at hjoin
  unfold bStringJoin
  refine Ends.bind (ends_malloc _) fun head r hr => ?_
  cases head with
  | none => exact Ends.pure (by simpa [OrNull] using hr)
  | some head =>
    obtain ⟨rfl,-⟩ := hr
    refine Ends.bind (ends_strlen (reads_literal hnul)) fun seplen r hr => ?_
    obtain ⟨rfl,rfl⟩ := hr
    have hstart : (if stack.count ≠ 0 then sizeT (sep.length*(stack.count-1)) else 0) =
        sep.length*(bs.length-1) := by
      rw [hcount,sizeT_of_lt (by omega)]
      split_ifs with hzero
      · rfl
      · simp [not_not.mp hzero]
    rw [hstart,hcount]
    have hlength := ends_joinLength hstands bs [] (sep.length*(bs.length-1)) rfl (by omega)
    refine Ends.bind hlength fun len r hr => ?_
    obtain ⟨rfl,rfl⟩ := hr
    simp only [← hjoin,sizeT_of_lt hsize]
    refine Ends.bind (ends_malloc _) fun str r hr => ?_
    cases str with
    | none => exact Ends.pure (by simpa [OrNull] using hr)
    | some str =>
      obtain ⟨rfl,hlen,hlimit⟩ := hr
      have hcopy := ends_joinCopy hstands sep hbs [] [] str rfl
        (by rw [List.length_nil,hglued]; omega) (by rw [List.nil_append]; omega)
      rw [List.length_nil,hglued,List.nil_append,List.nil_append,List.length_nil] at hcopy
      refine Ends.bind hcopy fun str' r hr => ?_
      obtain ⟨rfl,rfl⟩ := hr
      refine Ends.bind (ends_terminate (by rw [List.length_drop]; omega)) fun str' r hr => ?_
      obtain ⟨rfl,rfl⟩ := hr
      refine Ends.pure ⟨rfl,rfl,⟨_,rfl⟩,?_⟩
      simp only [List.length_append,List.length_cons,List.length_drop]
      omega

theorem ends_bStringJoin_null (h : Stands stack ptrs) (hnull : none ∈ ptrs) {sep : Bytes}
    (hnul : 0 ∉ sep) : Ends (bStringJoin (literal sep) stack) fun b _ => b = none := by
  unfold bStringJoin
  refine Ends.bind (ends_malloc _) fun head r hr => ?_
  cases head with
  | none => exact Ends.pure rfl
  | some head =>
    refine Ends.bind (ends_strlen (reads_literal hnul)) fun seplen r hr => ?_
    rw [h.holds.count]
    refine Ends.bind (ends_joinLength_null h _ [] ptrs _ rfl hnull rfl) fun len r hr => ?_
    obtain ⟨rfl,rfl⟩ := hr
    exact Ends.pure rfl

end

end Objects
end ArchiveTarBuilder
