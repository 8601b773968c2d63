import ArchiveTarBuilder.Stack

/-! A stack is a list: every run of the operations of `b_stack.c` stays inside of the array, and
answers as the list does for which no memory is needed. -/
namespace ArchiveTarBuilder
open Refinement

theorem sizeT_of_lt {n : ℕ} (h : n < 2^64) : sizeT n = n := Nat.mod_eq_of_lt h

theorem sizeSub_of_le {a b : ℕ} (ha : a < 2^64) (hb : b ≤ a) : sizeSub a b = a-b := by
  rw [sizeSub,sizeT_of_lt (hb.trans_lt ha),sizeT]
  omega

theorem sizeSub_of_lt {a b : ℕ} (ha : a < b) (hb : b < 2^64) : sizeSub a b = 2^64-(b-a) := by
  rw [sizeSub,sizeT_of_lt hb,sizeT]
  omega

namespace BStack

variable {α : Type*}

/-- The array of a stack that grows by `g`. -/
structure Sound (g : ℕ) (s : BStack α) : Prop where
  growthFactor : s.growthFactor = g
  positive : 0 < g
  multiple : ∃ k, 0 < k ∧ s.size = k*g
  count : s.count ≤ s.size
  length : s.items.length = s.size
  object : s.size*pointerSize ≤ maxObject

/-- The live items of a stack. -/
structure Holds (s : BStack α) (xs : List α) : Prop where
  items : ∃ rest, s.items = xs.map some ++ rest
  count : s.count = xs.length

section
variable {g : ℕ} {s : BStack α}

theorem Sound.le_size (h : s.Sound g) : g ≤ s.size := by
  obtain ⟨k,hk,hsize⟩ := h.multiple
  rw [hsize]
  exact Nat.le_mul_of_pos_left g hk

theorem Sound.size_lt (h : s.Sound g) : s.size < 2^60 := by
  have := h.object
  simp only [pointerSize,maxObject] at this
  omega

/-- The test for a shrink does not wrap: it compares with the size less two growth factors. -/
theorem Sound.shrinks_iff (h : s.Sound g) {index : ℕ} (hi : index < s.size) :
    index = sizeSub s.size (sizeT (s.growthFactor*2)) ↔ index+g*2 = s.size := by
  have hsize := h.size_lt
  have hg := h.le_size
  rw [h.growthFactor,sizeT_of_lt (by omega)]
  by_cases htwo : g*2 ≤ s.size
  · rw [sizeSub_of_le (by omega) htwo]
    omega
  · rw [sizeSub_of_lt (by omega) (by omega)]
    omega

theorem readItem_at (h : s.items.length = s.size) {pre post : List (Option α)} {x : Option α}
    (hitems : s.items = pre ++ x::post) {i : ℕ} (hi : i = pre.length) : s.readItem i = some x := by
  have hlen := congrArg List.length hitems
  simp only [List.length_append,List.length_cons] at hlen
  rw [readItem,if_pos (by omega),hitems,hi]
  simp

theorem writeItem_at (h : s.items.length = s.size) {pre post : List (Option α)} {x y : Option α}
    (hitems : s.items = pre ++ x::post) {i : ℕ} (hi : i = pre.length) :
    s.writeItem i y = some { s with items := pre ++ y::post } := by
  have hlen := congrArg List.length hitems
  simp only [List.length_append,List.length_cons] at hlen
  rw [writeItem,if_pos ⟨by omega,by omega⟩,hitems,hi]
  simp

end

variable (fresh : ℕ → Option α)

theorem realloc_append (pre rest : List (Option α)) {n : ℕ} (h : pre.length ≤ n) :
    ∃ rest', realloc fresh (pre ++ rest) (n*pointerSize) = pre ++ rest' := by
  have hlen : (realloc fresh (pre ++ rest) (n*pointerSize)).length = n := by
    simp [realloc,pointerSize]
  have htake : (realloc fresh (pre ++ rest) (n*pointerSize)).take pre.length = pre := by
    apply List.ext_getElem
    · simp [hlen,h]
    · intro i hi hi'
      simp [realloc,List.getElem?_append_left hi',List.getD_eq_getElem?_getD,
        List.getElem?_eq_getElem hi']
  refine ⟨(realloc fresh (pre ++ rest) (n*pointerSize)).drop pre.length,?_⟩
  conv_lhs => rw [← List.take_append_drop pre.length (realloc fresh (pre ++ rest) (n*pointerSize))]
  rw [htake]

/-- A new size that holds the items gives an array that does, or memory is refused. -/
theorem resize_spec {g : ℕ} {s : BStack α} (h : s.Sound g) (granted : Bool) {newsize : ℕ}
    (hmultiple : ∃ k, 0 < k ∧ newsize = k*g) (hcount : s.count ≤ newsize)
    (hsize : newsize ≤ s.size+g) :
    let r := s.resize fresh granted newsize
    r.2.Sound g ∧ r.2.count = s.count ∧ (s.refused = true → r.2.refused = true) ∧
      (r.1 = false → r.2.refused = true) ∧ (r.1 = true → r.2.size = newsize) ∧
      ∀ xs, s.Holds xs → r.2.Holds xs := by
  obtain ⟨k,hk,hnew⟩ := hmultiple
  have hpos : 0 < newsize := by
    rw [hnew]
    exact Nat.mul_pos hk h.positive
  have hbytes : sizeT (newsize*pointerSize) = newsize*pointerSize := by
    have := h.size_lt
    have := h.le_size
    exact sizeT_of_lt (by simp only [pointerSize]; omega)
  simp only [resize,if_neg hpos.ne',hbytes]
  split_ifs with hgranted
  · refine ⟨⟨h.growthFactor,h.positive,⟨k,hk,hnew⟩,hcount,?_,hgranted.2.2⟩,rfl,id,by simp,by simp,?_⟩
    · simp [realloc,pointerSize]
    · rintro xs ⟨⟨rest,hitems⟩,hlen⟩
      obtain ⟨rest',heq⟩ := realloc_append fresh (xs.map some) rest
        (show (xs.map some).length ≤ newsize by rw [List.length_map]; omega)
      exact ⟨⟨rest',by simp only [hitems,heq]⟩,hlen⟩
  · exact ⟨⟨h.growthFactor,h.positive,h.multiple,h.count,h.length,h.object⟩,rfl,fun _ => rfl,
      fun _ => rfl,by simp,fun xs hxs => ⟨hxs.items,hxs.count⟩⟩

abbrev Refines (g : ℕ) (s : BStack α) (r : Option α × BStack α)
    (spec : List α → Option α × List α) : Prop :=
  Step (Sound g) (fun s => s.refused = true) Holds s r spec

section
variable {g : ℕ} {s : BStack α}

theorem Sound.split (h : s.Sound g) {i : ℕ} (hi : i < s.size) :
    ∃ pre x post, s.items = pre ++ x::post ∧ pre.length = i := by
  have hlen : i < s.items.length := by rwa [h.length]
  refine ⟨s.items.take i,s.items[i],s.items.drop (i+1),?_,by simp [hlen.le]⟩
  rw [← List.drop_eq_getElem_cons hlen,List.take_append_drop]

theorem Holds.pre_eq {xs : List α} (h : s.Holds xs) {pre post : List (Option α)}
    (hitems : s.items = pre ++ post) (hlen : pre.length = s.count) : pre = xs.map some := by
  obtain ⟨rest,hrest⟩ := h.items
  exact (List.append_inj (hitems.symm.trans hrest) (by rw [hlen,h.count,List.length_map])).1

theorem Holds.eq_nil {xs : List α} (h : s.Holds xs) (hempty : s.count = 0) : xs = [] :=
  List.eq_nil_of_length_eq_zero (h.count ▸ hempty)

theorem Sound.split_first (h : s.Sound g) (hne : s.count ≠ 0) :
    ∃ x mid rest, s.items = x::mid ++ rest ∧ mid.length = s.count-1 := by
  have hcount := h.count
  have hlength := h.length
  cases hitems : s.items with
  | nil =>
    rw [hitems,List.length_nil] at hlength
    omega
  | cons x tail =>
    rw [hitems,List.length_cons] at hlength
    refine ⟨x,tail.take (s.count-1),tail.drop (s.count-1),?_,?_⟩
    · rw [List.cons_append,List.take_append_drop]
    · rw [List.length_take]
      omega

theorem growth_spec (h : s.Sound g) (granted : Bool) :
    let r := if s.count = s.size then
      s.resize fresh granted (sizeT (s.size+s.growthFactor)) else (true,s)
    r.2.Sound g ∧ (s.refused = true → r.2.refused = true) ∧ (r.1 = false → r.2.refused = true) ∧
      (r.1 = true → r.2.count < r.2.size) ∧ ∀ xs, s.Holds xs → r.2.Holds xs := by
  have hcount := h.count
  simp only
  split_ifs with hfull
  · obtain ⟨k,hk,hsize⟩ := h.multiple
    have hnew : sizeT (s.size+s.growthFactor) = s.size+g := by
      have := h.size_lt
      have := h.le_size
      rw [h.growthFactor,sizeT_of_lt (by omega)]
    rw [hnew]
    obtain ⟨hsound,hcount',hstays,hfail,hsize',hholds⟩ :=
      @resize_spec α fresh g s h granted (s.size+g)
      ⟨k+1,Nat.succ_pos k,by rw [hsize,Nat.add_mul,Nat.one_mul]⟩ (by omega) le_rfl
    refine ⟨hsound,hstays,hfail,fun hok => ?_,hholds⟩
    have := h.positive
    rw [hsize' hok,hcount']
    omega
  · exact ⟨h,id,by simp,fun _ => by simp only; omega,fun _ => id⟩

theorem push_spec (h : s.Sound g) (granted : Bool) (item : α) :
    ∃ r, s.push fresh granted item = some r ∧
      s.Refines g r fun xs => listStep xs (.push item,granted) := by
  have hgrowth := growth_spec fresh h granted
  rw [push]
  generalize (if s.count = s.size then
    s.resize fresh granted (sizeT (s.size+s.growthFactor)) else (true,s)) = r at hgrowth ⊢
  obtain ⟨hsound,hstays,hfail,hroom,hholds⟩ := hgrowth
  by_cases hok : r.1 = true
  · obtain ⟨pre,x,post,hitems,hlen⟩ := hsound.split (hroom hok)
    have hcount := hroom hok
    simp only [if_pos hok,writeItem_at hsound.length hitems hlen.symm,Option.map_some]
    refine ⟨_,rfl,⟨hsound.growthFactor,hsound.positive,hsound.multiple,hcount,?_,hsound.object⟩,
      hstays,fun _ xs hxs => ⟨rfl,⟨post,?_⟩,?_⟩⟩
    · rw [← hsound.length,hitems]
      simp
    · simp [(hholds xs hxs).pre_eq hitems hlen,listStep]
    · simp [(hholds xs hxs).count,listStep]
  · simp only [if_neg hok]
    exact ⟨_,rfl,hsound,hstays,fun hno => absurd (hfail (by simpa using hok)) hno⟩

/-- An item has been taken, and the array shrinks if two growth factors are free. No live item is
lost: one growth factor is left. -/
theorem shrink_spec (h : s.Sound g) (granted : Bool) (hroom : s.count < s.size) (item : Option α) :
    s.Refines g (shrink fresh granted s s.count item) fun xs => (item,xs) := by
  rw [shrink]
  by_cases hshrink : s.count = sizeSub s.size (sizeT (s.growthFactor*2))
  · rw [if_pos hshrink]
    have htwo := (h.shrinks_iff hroom).mp hshrink
    obtain ⟨k,hk,hsize⟩ := h.multiple
    have hpos := h.positive
    have hnew : sizeSub s.size s.growthFactor = s.size-g := by
      have := h.size_lt
      rw [h.growthFactor,sizeSub_of_le (by omega) h.le_size]
    have hkeep : ∃ k', 0 < k' ∧ s.size-g = k'*g := by
      refine ⟨k-1,?_,by rw [hsize,Nat.sub_mul,Nat.one_mul]⟩
      have hne : k ≠ 1 := by
        rintro rfl
        omega
      omega
    rw [hnew]
    obtain ⟨hsound,-,hstays,hfail,-,hholds⟩ := @resize_spec α fresh g s h granted (s.size-g) hkeep
      (by omega) (by omega)
    simp only
    split_ifs with hok
    · exact ⟨hsound,hstays,fun _ xs hxs => ⟨rfl,hholds xs hxs⟩⟩
    · exact ⟨hsound,hstays,fun hno => absurd (hfail (by simpa using hok)) hno⟩
  · rw [if_neg hshrink]
    exact ⟨h,id,fun _ xs hxs => ⟨rfl,hxs⟩⟩

theorem Sound.written (h : s.Sound g) {items : List (Option α)} {count : ℕ}
    (hlen : items.length = s.size) (hcount : count ≤ s.size) :
    Sound g { s with items := items,count := count } :=
  ⟨h.growthFactor,h.positive,h.multiple,hcount,hlen,h.object⟩

theorem pop_spec (h : s.Sound g) (granted : Bool) :
    ∃ r, s.pop fresh granted = some r ∧ s.Refines g r fun xs => listStep xs (.pop,granted) := by
  rw [pop]
  by_cases hempty : s.count = 0
  · rw [if_pos hempty]
    refine ⟨_,rfl,h,id,fun _ xs hxs => ?_⟩
    obtain rfl := hxs.eq_nil hempty
    exact ⟨rfl,hxs⟩
  · rw [if_neg hempty]
    have hcount := h.count
    have hlt : s.count-1 < s.size := by omega
    obtain ⟨pre,x,post,hitems,hlen⟩ := h.split hlt
    have hsize : (pre ++ none::post).length = s.size := by
      rw [← h.length,hitems]
      simp
    have htaken := h.written hsize hlt.le
    have hshrink := shrink_spec fresh htaken granted hlt x
    simp only [readItem_at h.length hitems hlen.symm,writeItem_at h.length hitems hlen.symm,
      Option.bind_some,Option.map_some]
    refine ⟨_,rfl,hshrink.keeps,hshrink.stays,fun hok xs hxs => ?_⟩
    -- the last item is in the slot that is read
    have hpre : pre ++ [x] = xs.map some := hxs.pre_eq (show s.items = (pre ++ [x]) ++ post by
      rw [hitems]; simp) (by simp; omega)
    obtain ⟨init,last,rfl⟩ := (List.eq_nil_or_concat xs).resolve_left (by
      rintro rfl
      simp at hpre)
    rw [List.concat_eq_append,List.map_append,List.map_singleton] at hpre
    obtain ⟨hinit,hx⟩ := List.append_inj' hpre rfl
    obtain rfl : x = some last := by simpa using hx
    obtain ⟨hanswer,hholds⟩ := hshrink.answers hok init
      ⟨⟨none::post,by simp only [hinit]⟩,by simp [← hlen,hinit]⟩
    simpa [listStep] using And.intro hanswer hholds

theorem shiftLoop_spec (left : ℕ) {s : BStack α} (h : s.items.length = s.size)
    {pre mid rest : List (Option α)} {x : Option α} (hitems : s.items = pre ++ x::mid ++ rest)
    (hleft : left = mid.length) :
    ∃ y, shiftLoop left (pre.length+1) s = some { s with items := pre ++ mid ++ y::rest } := by
  induction left generalizing s pre mid x with
  | zero =>
    obtain rfl : mid = [] := List.eq_nil_of_length_eq_zero hleft.symm
    refine ⟨x,?_⟩
    rw [shiftLoop,← show s.items = pre ++ [] ++ x::rest by simpa using hitems]
  | succ left ih =>
    cases mid with
    | nil => simp at hleft
    | cons z mid =>
      have hread := @readItem_at α s h (pre ++ [x]) (mid ++ rest) z (by rw [hitems]; simp)
        (pre.length+1) (by simp)
      have hwrite := @writeItem_at α s h pre (z::mid ++ rest) x z (by rw [hitems]; simp)
        (pre.length+1-1) (by simp)
      have hlen : (pre ++ z::(z::mid ++ rest)).length = s.size := by
        rw [← h,hitems]
        simp
      obtain ⟨y,hy⟩ := @ih { s with items := pre ++ z::(z::mid ++ rest) } hlen (pre ++ [z]) mid z
        (by simp) (by simpa using hleft)
      refine ⟨y,?_⟩
      rw [shiftLoop,hread,Option.bind_some,hwrite,Option.bind_some]
      simpa using hy

theorem shift_spec (h : s.Sound g) (granted : Bool) :
    ∃ r, s.shift fresh granted = some r ∧ s.Refines g r fun xs => listStep xs (.shift,granted) := by
  rw [shift]
  by_cases hempty : s.count = 0
  · rw [if_pos hempty]
    refine ⟨_,rfl,h,id,fun _ xs hxs => ?_⟩
    obtain rfl := hxs.eq_nil hempty
    exact ⟨rfl,hxs⟩
  · rw [if_neg hempty]
    have hcount := h.count
    have hlt : s.count-1 < s.size := by omega
    obtain ⟨x,mid,rest,hx,hlen⟩ := h.split_first hempty
    obtain ⟨y,hloop⟩ := @shiftLoop_spec α (s.count-1) s h.length [] mid rest x (by simpa using hx)
      hlen.symm
    have hslots (z : Option α) : (mid ++ z::rest).length = s.size := by
      rw [← h.length,hx]
      simp [Nat.add_assoc]
    have hwrite := @writeItem_at α { s with items := mid ++ y::rest } (hslots y) mid rest y none rfl
      (s.count-1) hlen.symm
    have hshrink := shrink_spec fresh (h.written (hslots none) hlt.le) granted hlt x
    have hread := @readItem_at α s h.length [] (mid ++ rest) x (by simpa using hx) 0 rfl
    have hloop' : shiftLoop (s.count-1) 1 s = some { s with items := mid ++ y::rest } := hloop
    simp only [hread,hloop',hwrite,Option.bind_some,Option.map_some]
    refine ⟨_,rfl,hshrink.keeps,hshrink.stays,fun hok xs hxs => ?_⟩
    -- the first item is in the slot that is read
    have hpre : x::mid = xs.map some := hxs.pre_eq hx (by simp; omega)
    obtain ⟨first,tail,rfl⟩ := List.exists_cons_of_ne_nil (show xs ≠ [] by
      rintro rfl
      simp at hpre)
    obtain ⟨hfirst,htail⟩ := List.cons.inj hpre
    obtain ⟨hanswer,hholds⟩ := hshrink.answers hok tail
      ⟨⟨none::rest,by simp only [htail]⟩,by simp [← hlen,htail]⟩
    exact ⟨hanswer.trans hfirst,hholds⟩

theorem reverseLoop_spec (left : ℕ) {s : BStack α} (h : s.items.length = s.size)
    {pre mid post rest : List (Option α)} (hitems : s.items = pre ++ mid ++ post ++ rest)
    (hends : pre.length = post.length) (hcount : s.count = pre.length+mid.length+post.length)
    (hleft : left = mid.length/2) : reverseLoop left pre.length s =
      some { s with items := pre ++ mid.reverse ++ post ++ rest } := by
  induction left generalizing s pre mid post with
  | zero =>
    have hmid : mid.reverse = mid := by
      rcases mid with - | ⟨x,- | ⟨y,mid⟩⟩
      · rfl
      · rfl
      · simp only [List.length_cons] at hleft
        omega
    rw [reverseLoop,hmid,← hitems]
  | succ left ih =>
    obtain ⟨x,mid,y,rfl⟩ : ∃ x mid' y, mid = x::(mid' ++ [y]) := by
      rcases mid with - | ⟨x,tail⟩
      · simp at hleft
      · obtain ⟨mid,y,rfl⟩ := (List.eq_nil_or_concat tail).resolve_left (by
          rintro rfl
          simp at hleft)
        exact ⟨x,mid,y,by simp⟩
    simp only [List.length_cons,List.length_append,List.length_nil] at hcount hleft
    have hopposite : s.count-1-pre.length = (pre ++ x::mid).length := by
      simp only [List.length_append,List.length_cons]
      omega
    have hopposite' : s.count-1-pre.length = (pre ++ y::mid).length := by
      rw [hopposite]
      simp
    have hfirst := @readItem_at α s h pre (mid ++ [y] ++ post ++ rest) x (by rw [hitems]; simp) _ rfl
    have hlast := @readItem_at α s h (pre ++ x::mid) (post ++ rest) y (by rw [hitems]; simp) _
      hopposite
    have hwrite := @writeItem_at α s h pre (mid ++ [y] ++ post ++ rest) x y (by rw [hitems]; simp) _
      rfl
    have hslots (z : Option α) : (pre ++ y::(mid ++ [z] ++ post ++ rest)).length = s.size := by
      rw [← h,hitems]
      simp [Nat.add_assoc]
    have hwrite' := @writeItem_at α { s with items := pre ++ y::(mid ++ [y] ++ post ++ rest) }
      (hslots y) (pre ++ y::mid) (post ++ rest) y x (by simp) _ hopposite'
    have hrest := @ih { s with items := pre ++ y::mid ++ x::(post ++ rest) }
      (by simpa using hslots x) (pre ++ [y]) mid (x::post) (by simp) (by simp [hends])
      (by simp only [List.length_append,List.length_cons,List.length_nil]; omega) (by omega)
    simp only [reverseLoop,hfirst,hlast,hwrite,hwrite',Option.bind_some]
    simpa using hrest

theorem reverse_spec (h : s.Sound g) (granted : Bool) :
    ∃ r, s.reverse.map (fun s => ((none : Option α),s)) = some r ∧
      s.Refines g r fun xs => listStep xs (.reverse,granted) := by
  have hcount : s.count ≤ s.items.length := by
    rw [h.length]
    exact h.count
  have hloop := @reverseLoop_spec α (s.count/2) s h.length [] (s.items.take s.count) []
    (s.items.drop s.count) (by simp) rfl (by simp [hcount]) (by simp [hcount])
  have hreverse : s.reverse = some { s with
      items := (s.items.take s.count).reverse ++ s.items.drop s.count } := by
    simpa [reverse] using hloop
  rw [hreverse]
  refine ⟨_,rfl,h.written ?_ h.count,id,fun _ xs hxs => ⟨rfl,⟨s.items.drop s.count,?_⟩,?_⟩⟩
  · rw [List.length_append,List.length_reverse,← List.length_append,List.take_append_drop,h.length]
  · have hpre := hxs.pre_eq (List.take_append_drop s.count s.items).symm (by simp [hcount])
    simp [listStep,hpre]
  · simp [listStep,hxs.count]

theorem Holds.readItem {xs : List α} (hxs : s.Holds xs) (h : s.Sound g) {i : ℕ} (hi : i < s.count) :
    s.readItem i = some xs[i]? := by
  have hlt : i < xs.length := hxs.count ▸ hi
  have hcount := h.count
  obtain ⟨rest,hitems⟩ := hxs.items
  have hsome : i < (xs.map some).length := by rwa [List.length_map]
  rw [BStack.readItem,if_pos (by omega),hitems,List.getElem?_append_left hsome]
  simp [hlt]

theorem readItem_isSome (h : s.Sound g) {i : ℕ} (hi : i < s.count) : ∃ x, s.readItem i = some x := by
  have hcount := h.count
  obtain ⟨pre,x,post,hitems,hlen⟩ := h.split (show i < s.size by omega)
  exact ⟨x,readItem_at h.length hitems hlen.symm⟩

theorem itemAt_spec (h : s.Sound g) (granted : Bool) (index : ℕ) :
    ∃ r, (s.itemAt index).map (fun item => (item,s)) = some r ∧
      s.Refines g r fun xs => listStep xs (.itemAt index,granted) := by
  rw [itemAt]
  by_cases hout : s.count ≤ index
  · rw [if_pos hout]
    refine ⟨_,rfl,h,id,fun _ xs hxs => ⟨?_,hxs⟩⟩
    exact (List.getElem?_eq_none (hxs.count ▸ hout)).symm
  · rw [if_neg hout]
    have hin : index < s.count := by omega
    obtain ⟨x,hx⟩ := readItem_isSome h hin
    refine ⟨(x,s),by rw [hx,Option.map_some],h,id,fun _ xs hxs => ⟨?_,hxs⟩⟩
    exact Option.some.inj (hx.symm.trans (hxs.readItem h hin))

theorem top_spec (h : s.Sound g) (granted : Bool) :
    ∃ r, s.top.map (fun item => (item,s)) = some r ∧
      s.Refines g r fun xs => listStep xs (.top,granted) := by
  rw [top]
  by_cases hempty : s.count = 0
  · rw [if_pos hempty]
    refine ⟨_,rfl,h,id,fun _ xs hxs => ⟨?_,hxs⟩⟩
    obtain rfl := hxs.eq_nil hempty
    rfl
  · rw [if_neg hempty]
    have hin : s.count-1 < s.count := by omega
    obtain ⟨x,hx⟩ := readItem_isSome h hin
    refine ⟨(x,s),by rw [hx,Option.map_some],h,id,fun _ xs hxs => ⟨?_,hxs⟩⟩
    have hlast := Option.some.inj (hx.symm.trans (hxs.readItem h hin))
    rw [hlast,hxs.count]
    exact List.getLast?_eq_getElem?.symm

/-- Every operation stays inside of the array and does what it does on the list. -/
theorem step_spec (h : s.Sound g) (op : StackOp α × Bool) :
    ∃ r, s.step fresh op = some r ∧ s.Refines g r (listStep · op) := by
  obtain ⟨op,granted⟩ := op
  cases op with
  | push item => exact push_spec fresh h granted item
  | pop => exact pop_spec fresh h granted
  | shift => exact shift_spec fresh h granted
  | reverse => exact reverse_spec h granted
  | top => exact top_spec h granted
  | itemAt index => exact itemAt_spec h granted index

end

theorem bStackNew_spec {g : ℕ} (hg : 1 ≤ g) {s : BStack α} (h : bStackNew g = some s) :
    s.Sound g ∧ s.Holds [] := by
  simp only [bStackNew,if_pos (show 0 < g from hg)] at h
  split_ifs at h with hobject
  obtain rfl := Option.some.inj h
  exact ⟨⟨rfl,hg,⟨1,Nat.one_pos,(Nat.one_mul g).symm⟩,Nat.zero_le g,by simp,hobject⟩,⟨_,rfl⟩,rfl⟩

structure SameShape (s t : BStack α) : Prop where
  size : t.size = s.size
  count : t.count = s.count
  growthFactor : t.growthFactor = s.growthFactor
  refused : t.refused = s.refused

theorem SameShape.trans {s t u : BStack α} (h : SameShape s t) (h' : SameShape t u) : SameShape s u :=
  ⟨h'.size.trans h.size,h'.count.trans h.count,h'.growthFactor.trans h.growthFactor,
    h'.refused.trans h.refused⟩

theorem writeItem_shape {s t : BStack α} {i : ℕ} {item : Option α} (h : s.writeItem i item = some t) :
    SameShape s t := by
  unfold writeItem at h
  split_ifs at h
  obtain rfl := Option.some.inj h
  exact ⟨rfl,rfl,rfl,rfl⟩

theorem shiftLoop_shape (left : ℕ) {i : ℕ} {s t : BStack α} (h : shiftLoop left i s = some t) :
    SameShape s t := by
  induction left generalizing i s with
  | zero =>
    obtain rfl := Option.some.inj h
    exact ⟨rfl,rfl,rfl,rfl⟩
  | succ left ih =>
    obtain ⟨item,-,h⟩ := Option.bind_eq_some_iff.mp h
    obtain ⟨u,hu,h⟩ := Option.bind_eq_some_iff.mp h
    exact (writeItem_shape hu).trans (ih h)

theorem reverseLoop_shape (left : ℕ) {i : ℕ} {s t : BStack α} (h : reverseLoop left i s = some t) :
    SameShape s t := by
  induction left generalizing i s with
  | zero =>
    obtain rfl := Option.some.inj h
    exact ⟨rfl,rfl,rfl,rfl⟩
  | succ left ih =>
    obtain ⟨tmp,-,h⟩ := Option.bind_eq_some_iff.mp h
    obtain ⟨item,-,h⟩ := Option.bind_eq_some_iff.mp h
    obtain ⟨u,hu,h⟩ := Option.bind_eq_some_iff.mp h
    obtain ⟨v,hv,h⟩ := Option.bind_eq_some_iff.mp h
    exact ((writeItem_shape hu).trans (writeItem_shape hv)).trans (ih h)

theorem resize_granted (s : BStack α) {newsize : ℕ} (hpos : 0 < newsize)
    (hobject : newsize*pointerSize ≤ maxObject) : (s.resize fresh true newsize).1 = true ∧
      (s.resize fresh true newsize).2.count = s.count ∧
      (s.resize fresh true newsize).2.refused = s.refused := by
  have hbytes : sizeT (newsize*pointerSize) = newsize*pointerSize :=
    sizeT_of_lt (by simp only [maxObject] at hobject; omega)
  rw [resize,if_neg hpos.ne',hbytes,if_pos ⟨rfl,by simp only [pointerSize]; omega,hobject⟩]
  exact ⟨rfl,rfl,rfl⟩

section
variable {g : ℕ} {s : BStack α}

theorem shrink_granted (h : s.Sound g) (hne : s.count ≠ 0) {t : BStack α} (hshape : SameShape s t)
    (item : Option α) :
    (shrink fresh true { t with count := t.count-1 } (s.count-1) item).2.count ≤ s.count+1 ∧
      (shrink fresh true { t with count := t.count-1 } (s.count-1) item).2.refused = s.refused := by
  have hcount := h.count
  rw [shrink]
  simp only [hshape.size,hshape.growthFactor,hshape.count]
  by_cases hshrink : s.count-1 = sizeSub s.size (sizeT (s.growthFactor*2))
  · have htwo := (h.shrinks_iff (by omega)).mp hshrink
    have hpos := h.positive
    have hnew : sizeSub s.size s.growthFactor = s.size-g := by
      have := h.size_lt
      rw [h.growthFactor,sizeSub_of_le (by omega) h.le_size]
    have hobject : (s.size-g)*pointerSize ≤ maxObject :=
      (Nat.mul_le_mul_right _ (Nat.sub_le _ _)).trans h.object
    obtain ⟨hok,hcount',hrefused⟩ := resize_granted fresh { t with count := s.count-1 }
      (by omega : 0 < s.size-g) hobject
    rw [hshape.size,hshape.growthFactor] at hok hcount' hrefused
    rw [if_pos hshrink,hnew,if_pos hok]
    exact ⟨by rw [hcount']; simp only; omega,hrefused.trans hshape.refused⟩
  · rw [if_neg hshrink]
    exact ⟨by simp only; omega,hshape.refused⟩

/-- A call to which memory is granted, in a stack that can grow by one growth factor. -/
theorem step_granted (h : s.Sound g) (hroom : (s.count+g)*pointerSize ≤ maxObject) (op : StackOp α)
    {r : Option α × BStack α} (hr : s.step fresh (op,true) = some r) :
    r.2.count ≤ s.count+1 ∧ r.2.refused = s.refused := by
  have hcount := h.count
  cases op with
  | push item =>
    simp only [step,push] at hr
    obtain ⟨hok,hcount',hrefused⟩ : (if s.count = s.size then
        s.resize fresh true (sizeT (s.size+s.growthFactor)) else (true,s)).1 = true ∧
        (if s.count = s.size then
          s.resize fresh true (sizeT (s.size+s.growthFactor)) else (true,s)).2.count = s.count ∧
        (if s.count = s.size then
          s.resize fresh true (sizeT (s.size+s.growthFactor)) else (true,s)).2.refused =
          s.refused := by
      split_ifs with hfull
      · have hpos := h.positive
        have hlt := h.size_lt
        have hle := h.le_size
        rw [h.growthFactor,sizeT_of_lt (by omega)]
        exact resize_granted fresh s (by omega) (by rwa [← hfull])
      · exact ⟨rfl,rfl,rfl⟩
    rw [if_pos hok] at hr
    obtain ⟨t,ht,rfl⟩ := Option.map_eq_some_iff.mp hr
    have hshape := writeItem_shape ht
    exact ⟨by simp only [hshape.count,hcount']; exact le_rfl,hshape.refused.trans hrefused⟩
  | pop =>
    simp only [step,pop] at hr
    split_ifs at hr with hempty
    · obtain rfl := Option.some.inj hr
      exact ⟨Nat.le_succ _,rfl⟩
    · obtain ⟨item,-,hr⟩ := Option.bind_eq_some_iff.mp hr
      obtain ⟨t,ht,rfl⟩ := Option.map_eq_some_iff.mp hr
      exact shrink_granted fresh h hempty (writeItem_shape ht) item
  | shift =>
    simp only [step,shift] at hr
    split_ifs at hr with hempty
    · obtain rfl := Option.some.inj hr
      exact ⟨Nat.le_succ _,rfl⟩
    · obtain ⟨item,-,hr⟩ := Option.bind_eq_some_iff.mp hr
      obtain ⟨u,hu,hr⟩ := Option.bind_eq_some_iff.mp hr
      obtain ⟨t,ht,rfl⟩ := Option.map_eq_some_iff.mp hr
      exact shrink_granted fresh h hempty ((shiftLoop_shape _ hu).trans (writeItem_shape ht)) item
  | reverse =>
    simp only [step,reverse] at hr
    obtain ⟨t,ht,rfl⟩ := Option.map_eq_some_iff.mp hr
    have hshape := reverseLoop_shape _ ht
    exact ⟨by rw [hshape.count]; exact Nat.le_succ _,hshape.refused⟩
  | top =>
    obtain ⟨item,-,rfl⟩ := Option.map_eq_some_iff.mp hr
    exact ⟨Nat.le_succ _,rfl⟩
  | itemAt index =>
    obtain ⟨item,-,rfl⟩ := Option.map_eq_some_iff.mp hr
    exact ⟨Nat.le_succ _,rfl⟩

/-- A run to which all memory is granted, of no more calls than there is room for. -/
theorem run_granted (calls : List (StackOp α × Bool)) {s : BStack α} (h : s.Sound g)
    (hgranted : ∀ call ∈ calls, call.2 = true)
    (hroom : (s.count+calls.length+g)*pointerSize ≤ maxObject) {r : List (Option α) × BStack α}
    (hr : run (BStack.step fresh) s calls = some r) : r.2.refused = s.refused := by
  induction calls generalizing s r with
  | nil =>
    obtain rfl := Option.some.inj hr
    rfl
  | cons call calls ih =>
    obtain ⟨op,granted⟩ := call
    obtain rfl : granted = true := hgranted _ List.mem_cons_self
    obtain ⟨r',hr',hr⟩ := Option.bind_eq_some_iff.mp hr
    obtain ⟨rs,hrs,rfl⟩ := Option.map_eq_some_iff.mp hr
    rw [List.length_cons] at hroom
    simp only [pointerSize,maxObject] at hroom
    obtain ⟨hcount,hrefused⟩ := step_granted fresh h (by simp only [pointerSize,maxObject]; omega) op hr'
    obtain ⟨r'',hr'',hstep⟩ := step_spec fresh h (op,true)
    obtain rfl := Option.some.inj (hr'.symm.trans hr'')
    exact (ih hstep.keeps (fun call hcall => hgranted call (List.mem_cons_of_mem _ hcall))
      (by simp only [pointerSize,maxObject]; omega) hrs).trans hrefused

end

/-- Every run of the operations has a result, so that it uses no index outside of the array, and
ends in a sound stack, in which the difference that wraps is no index of an item. Unless memory has
been refused the answers are those of the list, the stack holds the list, and only an empty one
answers `NULL` when an item is taken. It is not refused when every call is granted what it asks for
and there are no more calls than an array can have slots. -/
theorem run_is_list_run (g : ℕ) (hg : 1 ≤ g) (s₀ : BStack α) (hnew : bStackNew g = some s₀)
    (calls : List (StackOp α × Bool)) :
    ∃ answers s, run (BStack.step fresh) s₀ calls = some (answers,s) ∧ s.Sound g ∧
      (∀ index < s.count, index = sizeSub s.size (sizeT (s.growthFactor*2)) → g*2 ≤ s.size) ∧
      ((∀ call ∈ calls, call.2 = true) → (calls.length+g)*pointerSize ≤ maxObject →
        s.refused = false) ∧
      (s.refused = false →
        answers = (specRun listStep [] calls).1 ∧ s.Holds (specRun listStep [] calls).2 ∧
        ∀ op ∈ [StackOp.pop,StackOp.shift], ∀ granted, ∃ r, s.step fresh (op,granted) = some r ∧
          (r.2.refused = false → (r.1 = none ↔ s.count = 0))) := by
  obtain ⟨hsound,hholds⟩ := bStackNew_spec hg hnew
  obtain ⟨⟨answers,s⟩,hrun,hstep⟩ := run_refines
    (fun _ op hc => step_spec fresh hc op) s₀ calls hsound
  have hs : s.Sound g := hstep.keeps
  have hcount := hs.count
  have hstart : s₀.count = 0 ∧ s₀.refused = false := by
    simp only [bStackNew,if_pos (show 0 < g from hg)] at hnew
    split_ifs at hnew
    obtain rfl := Option.some.inj hnew
    exact ⟨rfl,rfl⟩
  refine ⟨answers,s,hrun,hs,fun index hi hshrink => ?_,fun hgranted hroom => ?_,fun hok => ?_⟩
  · have := (hs.shrinks_iff (by omega : index < s.size)).mp hshrink
    omega
  · have hroom' : (s₀.count+calls.length+g)*pointerSize ≤ maxObject := by
      rwa [hstart.1,Nat.zero_add]
    exact (run_granted fresh calls hsound hgranted hroom' hrun).trans hstart.2
  · obtain ⟨hanswers,hlist⟩ := hstep.answers (by simpa using hok) [] hholds
    refine ⟨hanswers,hlist,fun op hop granted => ?_⟩
    obtain ⟨r,hr,hlast⟩ := step_spec fresh hs (op,granted)
    refine ⟨r,hr,fun hgranted => ?_⟩
    have hanswer := (hlast.answers (by simpa using hgranted) _ hlist).1
    have hempty : s.count = 0 ↔ (specRun listStep [] calls).2 = [] := by
      rw [hlist.count,List.length_eq_zero_iff]
    rw [hanswer,hempty]
    rcases List.mem_pair.mp hop with rfl | rfl
    · exact List.getLast?_eq_none_iff
    · exact List.head?_eq_none_iff

/-- Three items through a stack that grows by one. -/
theorem run_is_list_run_of_three : ∃ answers s,
    run (BStack.step fun _ => none) ⟨1,0,1,[none],false⟩
      [(.push 1,true),(.push 2,true),(.push 3,true),(.shift,true),(.reverse,true),(.pop,true),
        (.top,true)] = some (answers,s) ∧ s.Sound 1 ∧
      answers = [some 1,some 2,some 3,some 1,none,some 2,some 3] ∧ s.Holds [3] := by
  obtain ⟨answers,s,hrun,hsound,-,hgranted,hlist⟩ := run_is_list_run (fun _ => (none : Option ℕ)) 1
    le_rfl ⟨1,0,1,[none],false⟩ rfl [(.push 1,true),(.push 2,true),(.push 3,true),(.shift,true),
      (.reverse,true),(.pop,true),(.top,true)]
  have hok := hgranted (by decide) (by decide)
  exact ⟨answers,s,hrun,hsound,(hlist hok).1,(hlist hok).2.1⟩

end BStack
end ArchiveTarBuilder
