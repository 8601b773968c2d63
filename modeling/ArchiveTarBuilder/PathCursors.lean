import ArchiveTarBuilder.PathMatch

/-! `match_path.c` with its pointers. A pointer that has gone past the NUL of its string can be kept
but not read: a match that reads it has no result. -/
namespace ArchiveTarBuilder

/-- A pointer into a string: what is left of it in front of the NUL; `none` behind the NUL. -/
abbrev Cursor := Option Bytes

namespace Cursor

def read (p : Cursor) : Option UInt8 := p.map (·.headD 0)

def next : Cursor → Cursor
  | some (_::p) => some p
  | _ => none

def left (p : Cursor) : ℕ := (p.getD []).length

def scan (more : Cursor → Option Bool) : ℕ → Cursor → Option Cursor
  | 0,p => some p
  | rounds+1,p => (more p).bind fun on => if on then scan more rounds (next p) else some p

def scanWhile (more : Cursor → Option Bool) (p : Cursor) : Option Cursor := scan more (left p+1) p

def skip (c : UInt8) (p : Cursor) : Option Cursor :=
  scanWhile (fun p => (read p).map fun b => decide (b = c)) p

def pmSlashskip (s : Cursor) : Option Cursor :=
  scanWhile (fun s => (read s).bind fun c =>
    if c = slash then some true
    else if c = 46 then (read (next s)).map fun d => decide (d = slash ∨ d = 0)
    else some false) s

def strchr (s : Cursor) : Option (Option Cursor) :=
  (scanWhile (fun s => (read s).map fun c => decide (c ≠ slash ∧ c ≠ 0)) s).bind fun s =>
    (read s).map fun c => if c = slash then some s else none

section
variable (charLe : UInt8 → UInt8 → Bool)

/-- The rounds of the loop of `pm_list` with the class ending `left` bytes behind `p`: is `c` found?
-/
def pmListLoop (c : UInt8) : ℕ → ℕ → UInt8 → Cursor → Option Bool
  | 0,_,_,_ => some false
  | rounds+1,left,rangeStart,p =>
    if left = 0 then some false
    else
      (read p).bind fun b =>
        if b = 45 then
          if rangeStart = 0 ∨ left = 1 then
            if b = c then some true else pmListLoop c rounds (left-1) 0 (next p)
          else
            (read (next p)).bind fun rangeEnd =>
              if rangeEnd = 92 then
                (read (next (next p))).bind fun rangeEnd =>
                  if charLe rangeStart c && charLe c rangeEnd then some true
                  else pmListLoop c rounds (left-3) 0 (next (next (next p)))
              else if charLe rangeStart c && charLe c rangeEnd then some true
              else pmListLoop c rounds (left-2) 0 (next (next p))
        else if b = 92 then
          (read (next p)).bind fun b =>
            if b = c then some true else pmListLoop c rounds (left-2) b (next (next p))
        else if b = c then some true
        else pmListLoop c rounds (left-1) b (next p)

def pmList (start : Cursor) (left : ℕ) (c : UInt8) : Option Bool :=
  (read start).bind fun b =>
    if (b = 33 ∨ b = 94) ∧ 0 < left then (pmListLoop charLe c left (left-1) 0 (next start)).map (!·)
    else pmListLoop charLe c left left 0 start

/-- The rounds of the loop of `pm` that looks for the end of a class. -/
def classEnd : ℕ → Cursor → Option Cursor
  | 0,e => some e
  | rounds+1,e =>
    (read e).bind fun b =>
      if b = 0 ∨ b = 93 then some e
      else
        (if b = 92 then (read (next e)).map fun d => decide (d ≠ 0) else some false).bind fun escaped =>
          classEnd rounds (if escaped then next (next e) else next e)

abbrev Loop := Cursor → Cursor → PathmatchFlags → Option Bool

def pmDotskip (s : Cursor) : Option Cursor :=
  (read s).bind fun c =>
    if c = 46 then
      (read (next s)).bind fun d => if d = slash then pmSlashskip (next s) else some s
    else some s

def pmBy (loop : Loop) (p s : Cursor) (flags : PathmatchFlags) : Option Bool :=
  (pmDotskip s).bind fun s => (pmDotskip p).bind fun p => loop p s flags

def tryElements (pm : Cursor → Option Bool) : ℕ → Cursor → Option Bool
  | 0,_ => some false
  | rounds+1,s =>
    (read s).bind fun c =>
      let s := if c = slash then next s else s
      (pm s).bind fun found =>
        if found then some true
        else
          (strchr s).bind fun r =>
            match r with
            | none => some false
            | some s => tryElements pm rounds s

def pathmatchFrom (loop : Loop) (p s : Cursor) (flags : PathmatchFlags) : Option Bool :=
  (read p).bind fun b =>
    (if b = slash then (read s).map fun c => decide (c ≠ slash) else some false).bind fun fails =>
      if fails then some false
      else if b = 42 ∨ b = slash then
        (skip slash p).bind fun p => (skip slash s).bind fun s => pmBy loop p s flags
      else if flags.noAnchorStart then tryElements (fun s => pmBy loop p s flags) (left s+1) s
      else pmBy loop p s flags

def pathmatchBy (loop : Loop) (p s : Cursor) (flags : PathmatchFlags) : Option Bool :=
  (read p).bind fun b =>
    if b = 0 then (read s).map fun c => decide (c = 0)
    else if b = 94 then pathmatchFrom loop (next p) s { flags with noAnchorStart := false }
    else pathmatchFrom loop p s flags

def tryPlaces (pathmatch : Cursor → Option Bool) : ℕ → Cursor → Option Bool
  | 0,_ => some false
  | rounds+1,s =>
    (read s).bind fun c =>
      if c = 0 then some false
      else
        (pathmatch s).bind fun found =>
          if found then some true else tryPlaces pathmatch rounds (next s)

def pmRound (loop : Loop) (p s : Cursor) (flags : PathmatchFlags) : Option Bool :=
  (read p).bind fun b =>
    if b = 0 then
      (read s).bind fun c =>
        if c = slash then
          if flags.noAnchorEnd then some true
          else (pmSlashskip s).bind fun s => (read s).map fun c => decide (c = 0)
        else some (decide (c = 0))
    else if b = 63 then
      (read s).bind fun c => if c = 0 then some false else loop (next p) (next s) flags
    else if b = 42 then
      (skip 42 p).bind fun p => (read p).bind fun b =>
        if b = 0 then some true
        else tryPlaces (fun s => pathmatchBy loop p s flags) (left s+1) s
    else if b = 91 then
      (classEnd (left p+1) (next p)).bind fun e => (read e).bind fun d =>
        if d = 93 then
          (read s).bind fun c => (pmList charLe (next p) (left (next p)-left e) c).bind fun found =>
            if found then loop (next e) (next s) flags else some false
        else (read s).bind fun c => if b ≠ c then some false else loop (next p) (next s) flags
    else if b = 92 then
      (read (next p)).bind fun d =>
        if d = 0 then
          (read s).bind fun c => if c ≠ 92 then some false else loop (next p) (next s) flags
        else
          (read s).bind fun c => if d ≠ c then some false else loop (next (next p)) (next s) flags
    else if b = slash then
      (read s).bind fun c =>
        if c ≠ slash ∧ c ≠ 0 then some false
        else
          (pmSlashskip p).bind fun p => (pmSlashskip s).bind fun s => (read p).bind fun b =>
            if b = 0 ∧ flags.noAnchorEnd then some true else loop p s flags
    else
      (if b = 36 then (read (next p)).map fun d => decide (d = 0 ∧ flags.noAnchorEnd = true)
        else some false).bind fun atEnd =>
          if atEnd then (pmSlashskip s).bind fun s => (read s).map fun c => decide (c = 0)
          else (read s).bind fun c => if b ≠ c then some false else loop (next p) (next s) flags

/-- The loop of `pm`, whose fuel never ends it when it exceeds the length of the pattern. -/
def pmLoop : ℕ → Loop
  | 0,_,_,_ => some false
  | fuel+1,p,s,flags => pmRound charLe (pmLoop fuel) p s flags

def lafePathmatch (p s : Cursor) (flags : PathmatchFlags) : Option Bool :=
  pathmatchBy (pmLoop charLe (left p+1)) p s flags

end

@[simp] theorem read_some (p : Bytes) : read (some p) = some (p.headD 0) := rfl

@[simp] theorem read_none : read none = none := rfl

@[simp] theorem next_cons (c : UInt8) (p : Bytes) : next (some (c::p)) = some p := rfl

@[simp] theorem left_some (p : Bytes) : left (some p) = p.length := rfl

/-- A scan of the string that `skipped` describes reads no further than the NUL. -/
theorem scan_some {more : Cursor → Option Bool} {skipped : Bytes → Bytes}
    (hnil : more (some []) = some false ∧ skipped [] = [])
    (hcons : ∀ c p, more (some (c::p)) = some true ∧ skipped (c::p) = skipped p ∨
      more (some (c::p)) = some false ∧ skipped (c::p) = c::p)
    (p : Bytes) (rounds : ℕ) (h : p.length < rounds) : scan more rounds (some p) =
    some (some (skipped p)) := by
  induction p generalizing rounds with
  | nil =>
    obtain ⟨rounds,rfl⟩ := Nat.exists_eq_succ_of_ne_zero (by omega : rounds ≠ 0)
    simp [scan,hnil]
  | cons c p ih =>
    obtain ⟨rounds,rfl⟩ := Nat.exists_eq_succ_of_ne_zero (by omega : rounds ≠ 0)
    rw [List.length_cons] at h
    rcases hcons c p with ⟨hmore,hskip⟩ | ⟨hmore,hskip⟩
    · simp [scan,hmore,hskip,ih rounds (by omega)]
    · simp [scan,hmore,hskip]

theorem skip_some {c : UInt8} (hc : c ≠ 0) (p : Bytes) :
    skip c (some p) = some (some (p.dropWhile (· = c))) := by
  refine scan_some ⟨by simp [hc.symm],rfl⟩ (fun b p => ?_) p _ (Nat.lt_succ_self _)
  by_cases hb : b = c
  · exact .inl (by simp [hb])
  · exact .inr (by simp [hb])

theorem pmSlashskip_some (s : Bytes) :
    pmSlashskip (some s) = some (some (ArchiveTarBuilder.pmSlashskip s)) := by
  refine scan_some ⟨by decide,rfl⟩ (fun c s => ?_) s _ (Nat.lt_succ_self _)
  simp only [read_some,List.headD_cons,Option.bind_some,next_cons,Option.map_some,
    ArchiveTarBuilder.pmSlashskip]
  by_cases hslash : c = slash
  · exact .inl (by simp [hslash])
  · by_cases hdot : c = 46
    · by_cases hd : s.headD 0 = slash ∨ s.headD 0 = 0
      · rw [if_neg hslash,if_pos hdot,if_pos (.inr ⟨hdot,hd⟩),decide_eq_true hd]
        exact .inl ⟨rfl,rfl⟩
      · rw [if_neg hslash,if_pos hdot,if_neg (not_or.mpr ⟨hslash,fun h => hd h.2⟩),
          decide_eq_false hd]
        exact .inr ⟨rfl,rfl⟩
    · exact .inr (by simp [hslash,hdot])

theorem pmDotskip_some (s : Bytes) :
    pmDotskip (some s) = some (some (ArchiveTarBuilder.pmDotskip s)) := by
  rw [pmDotskip,ArchiveTarBuilder.pmDotskip]
  by_cases hdot : s.headD 0 = 46
  · cases s with
    | nil => cases hdot
    | cons c s =>
      by_cases hd : s.headD 0 = slash
      · simp only [read_some,Option.bind_some,hdot,if_true,next_cons,hd,List.tail_cons,and_self,
          pmSlashskip_some]
      · simp only [read_some,Option.bind_some,hdot,if_true,next_cons,hd,List.tail_cons,and_false,
          if_false]
  · simp only [read_some,Option.bind_some,hdot,if_false,false_and]

theorem pmBy_some (loop : Loop) (p s : Bytes) (flags : PathmatchFlags) : pmBy loop (some p) (some s) flags =
    loop (some (ArchiveTarBuilder.pmDotskip p)) (some (ArchiveTarBuilder.pmDotskip s)) flags := by
  simp only [pmBy,pmDotskip_some,Option.bind_some]

def Whole : Bytes → Prop
  | [] => True
  | b::p =>
    if b = 92 then
      match p with
      | [] => False
      | _::p => Whole p
    else Whole p

theorem whole_cons {b : UInt8} (hb : b ≠ 92) (p : Bytes) : Whole (b::p) ↔ Whole p := by
  conv_lhs => unfold Whole
  rw [if_neg hb]

theorem whole_escape (e : UInt8) (p : Bytes) : Whole (92::e::p) ↔ Whole p := by
  conv_lhs => unfold Whole
  rw [if_pos rfl]

theorem not_whole_escape : ¬Whole [92] := by
  simp [Whole]

theorem pmClass_eq {p list q : Bytes} (h : pmClass p = some (list,q)) :
    p = list ++ 93::q ∧ Whole list := by
  fun_induction pmClass p generalizing list with
  | case1 => cases h
  | case2 p =>
    obtain ⟨rfl,rfl⟩ := Prod.mk.inj (Option.some.inj h)
    exact ⟨rfl,trivial⟩
  | case3 => cases h
  | case4 e p _ ih =>
    obtain ⟨⟨list',q'⟩,hclass,heq⟩ := Option.map_eq_some_iff.mp h
    obtain ⟨rfl,rfl⟩ := Prod.mk.inj heq
    obtain ⟨rfl,hwhole⟩ := ih hclass
    exact ⟨rfl,(whole_escape e list').mpr hwhole⟩
  | case5 b p _ hb ih =>
    obtain ⟨⟨list',q'⟩,hclass,heq⟩ := Option.map_eq_some_iff.mp h
    obtain ⟨rfl,rfl⟩ := Prod.mk.inj heq
    obtain ⟨rfl,hwhole⟩ := ih hclass
    refine ⟨rfl,?_⟩
    exact (whole_cons hb list').mpr hwhole

theorem classEnd_some {p : Bytes} (hnul : 0 ∉ p) (rounds : ℕ) (h : p.length < rounds) :
    classEnd rounds (some p) = some (some ((pmClass p).elim [] fun r => 93::r.2)) := by
  fun_induction pmClass p generalizing rounds with
  | case1 =>
    obtain ⟨rounds,rfl⟩ := Nat.exists_eq_succ_of_ne_zero (by omega : rounds ≠ 0)
    rfl
  | case2 p =>
    obtain ⟨rounds,rfl⟩ := Nat.exists_eq_succ_of_ne_zero (by omega : rounds ≠ 0)
    rfl
  | case3 =>
    obtain ⟨rounds,rfl⟩ := Nat.exists_eq_succ_of_ne_zero (by omega : rounds ≠ 0)
    obtain ⟨rounds,rfl⟩ := Nat.exists_eq_succ_of_ne_zero (by simp at h; omega : rounds ≠ 0)
    rfl
  | case4 e p _ ih =>
    obtain ⟨rounds,rfl⟩ := Nat.exists_eq_succ_of_ne_zero (by omega : rounds ≠ 0)
    simp only [List.mem_cons,not_or,List.length_cons] at hnul h
    have he : decide (e ≠ 0) = true := decide_eq_true fun h => hnul.2.1 h.symm
    have hrest := ih hnul.2.2 rounds (by omega)
    simp only [classEnd,read_some,List.headD_cons,Option.bind_some,next_cons,Option.map_some,if_true,
      he,hrest]
    cases pmClass p <;> rfl
  | case5 b p hend hb ih =>
    obtain ⟨rounds,rfl⟩ := Nat.exists_eq_succ_of_ne_zero (by omega : rounds ≠ 0)
    simp only [List.mem_cons,not_or,List.length_cons] at hnul h
    have hrest := ih hnul.2 rounds (by omega)
    have hstop : ¬(b = 0 ∨ b = 93) := not_or.mpr ⟨fun h => hnul.1 h.symm,hend⟩
    simp only [classEnd,read_some,List.headD_cons,Option.bind_some,next_cons,hstop,hb,if_false,
      Bool.false_eq_true,hrest]
    cases pmClass p <;> rfl

section
variable {charLe : UInt8 → UInt8 → Bool} {c : UInt8}

theorem pmListLoop_some {rangeStart : UInt8} {list : Bytes} (hwhole : Whole list) (rest : Bytes)
    (rounds : ℕ) (h : list.length ≤ rounds) :
    pmListLoop charLe c rounds list.length rangeStart (some (list ++ rest)) =
      some (ArchiveTarBuilder.pmListLoop charLe c rangeStart list) := by
  have hround {n : ℕ} (hn : n+1 ≤ rounds) : ∃ r, rounds = r+1 := Nat.exists_eq_add_of_le' (by omega)
  fun_induction ArchiveTarBuilder.pmListLoop charLe c rangeStart list generalizing rounds with
  | case1 => cases rounds <;> simp [pmListLoop]
  | case2 rangeStart p hplain hc =>
    obtain ⟨rounds,rfl⟩ := hround h
    simp [pmListLoop,hplain,hc]
  | case3 rangeStart p hplain hc ih =>
    obtain ⟨rounds,rfl⟩ := hround h
    have hrest := ih ((whole_cons (by decide) p).mp hwhole) rounds (by simpa using h)
      (fun hn => Nat.exists_eq_add_of_le' (by omega))
    simp [pmListLoop,hplain,hc,hrest]
  | case4 rangeStart hrange => exact absurd (.inr rfl) hrange
  | case5 rangeStart hrange => exact absurd ((whole_cons (by decide) [92]).mp hwhole) not_whole_escape
  | case6 rangeStart e p hin hrange =>
    obtain ⟨rounds,rfl⟩ := hround h
    have hstart : rangeStart ≠ 0 := fun h0 => hrange (.inl h0)
    rw [Bool.and_eq_true] at hin
    simp [pmListLoop,hstart,hin]
  | case7 rangeStart e p hout hrange ih =>
    obtain ⟨rounds,rfl⟩ := hround h
    have hstart : rangeStart ≠ 0 := fun h0 => hrange (.inl h0)
    have hrest := ih ((whole_escape e p).mp ((whole_cons (by decide) _).mp hwhole)) rounds
      (by simp at h; omega) (fun hn => Nat.exists_eq_add_of_le' (by omega))
    rw [Bool.and_eq_true] at hout
    simp [pmListLoop,hstart,hout,hrest]
  | case8 rangeStart e p he hin hrange =>
    obtain ⟨rounds,rfl⟩ := hround h
    have hstart : rangeStart ≠ 0 := fun h0 => hrange (.inl h0)
    rw [Bool.and_eq_true] at hin
    simp [pmListLoop,hstart,he,hin]
  | case9 rangeStart e p he hout hrange ih =>
    obtain ⟨rounds,rfl⟩ := hround h
    have hstart : rangeStart ≠ 0 := fun h0 => hrange (.inl h0)
    have hrest := ih ((whole_cons he p).mp ((whole_cons (by decide) _).mp hwhole)) rounds
      (by simp at h; omega) (fun hn => Nat.exists_eq_add_of_le' (by omega))
    rw [Bool.and_eq_true] at hout
    simp [pmListLoop,hstart,he,hout,hrest]
  | case10 => exact absurd hwhole not_whole_escape
  | case11 rangeStart p =>
    obtain ⟨rounds,rfl⟩ := hround h
    simp [pmListLoop]
  | case12 rangeStart e p hc _ ih =>
    obtain ⟨rounds,rfl⟩ := hround h
    have hrest := ih ((whole_escape e p).mp hwhole) rounds (by simp at h; omega)
      (fun hn => Nat.exists_eq_add_of_le' (by omega))
    simp [pmListLoop,hc,hrest]
  | case13 rangeStart p hdash hesc =>
    obtain ⟨rounds,rfl⟩ := hround h
    simp [pmListLoop,hdash,hesc]
  | case14 rangeStart b p hdash hesc hc ih =>
    obtain ⟨rounds,rfl⟩ := hround h
    have hrest := ih ((whole_cons hesc p).mp hwhole) rounds (by simpa using h)
      (fun hn => Nat.exists_eq_add_of_le' (by omega))
    simp [pmListLoop,hdash,hesc,hc,hrest]

theorem pmList_some {list : Bytes} (hwhole : Whole list) (rest : Bytes) :
    pmList charLe (some (list ++ rest)) list.length c = some (ArchiveTarBuilder.pmList charLe list c) := by
  cases list with
  | nil => simp [pmList,pmListLoop,ArchiveTarBuilder.pmList]
  | cons b list =>
    rw [pmList,ArchiveTarBuilder.pmList]
    by_cases hnegated : b = 33 ∨ b = 94
    · have hne : b ≠ 92 := by rcases hnegated with rfl | rfl <;> decide
      have hrest : pmListLoop charLe c (list.length+1) list.length 0 (some (list ++ rest)) =
          some (ArchiveTarBuilder.pmListLoop charLe c 0 list) :=
        pmListLoop_some ((whole_cons hne list).mp hwhole) rest _ (Nat.le_succ _)
      simp [hnegated,hrest]
    · have hrest : pmListLoop charLe c (list.length+1) (list.length+1) 0 (some (b::(list ++ rest))) =
          some (ArchiveTarBuilder.pmListLoop charLe c 0 (b::list)) :=
        pmListLoop_some hwhole rest _ le_rfl
      simp [hnegated,hrest]

end

end Cursor
end ArchiveTarBuilder
