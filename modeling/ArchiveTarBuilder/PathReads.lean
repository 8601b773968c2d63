import ArchiveTarBuilder.Backtracking
import ArchiveTarBuilder.PathCursors

/-! The reads of `match_path.c`. A match is a search over calls of `pm`; all its reads lie within
the two strings, but for those behind a class that accepts the NUL of the path. -/
namespace ArchiveTarBuilder
open Backtracking CString

/-- A state of the loop of `pm` while it has not gone past the NUL of the path. -/
structure PmAttempt where
  pattern : Bytes
  path : Bytes
  flags : PathmatchFlags
  deriving DecidableEq, Repr

def pmCall (p s : Bytes) (flags : PathmatchFlags) : PmAttempt := ⟨pmDotskip p,pmDotskip s,flags⟩

def pmCallsFrom (p s : Bytes) (flags : PathmatchFlags) : List PmAttempt :=
  if p.headD 0 = slash ∧ s.headD 0 ≠ slash then []
  else if p.headD 0 = 42 ∨ p.headD 0 = slash then
    [pmCall (p.dropWhile (· = slash)) (s.dropWhile (· = slash)) flags]
  else if flags.noAnchorStart then (elementStarts s).map fun t => pmCall p t flags
  else [pmCall p s flags]

/-- The calls of `pm` that `lafe_pathmatch` makes; an empty pattern takes none. -/
def pmCalls (p s : Bytes) (flags : PathmatchFlags) : List PmAttempt :=
  match p with
  | [] => []
  | b::p =>
    if b = 94 then pmCallsFrom p s { flags with noAnchorStart := false }
    else pmCallsFrom (b::p) s flags

def onlyStars (p : Bytes) : Bool := !p.isEmpty && p.all fun b => decide (b = 42)

section
variable (charLe : UInt8 → UInt8 → Bool)

/-- At the end of the path stands a class that accepts the NUL, with more than `*`s behind it. -/
def classAtEnd (a : PmAttempt) : Bool :=
  a.path.isEmpty && decide (a.pattern.headD 0 = 91) &&
    (pmClass a.pattern.tail).any fun r => pmList charLe r.1 0 && !onlyStars r.2

def pmStep (a : PmAttempt) : Outcome PmAttempt :=
  let c := a.path.headD 0
  let on := fun q => Outcome.goesOn [⟨q,a.path.tail,a.flags⟩]
  match a.pattern with
  | [] =>
    .ends (if c = slash then a.flags.noAnchorEnd || decide ((pmSlashskip a.path).headD 0 = 0)
      else decide (c = 0))
  | b::q =>
    if b = 63 then if c = 0 then .ends false else on q
    else if b = 42 then
      let q := q.dropWhile (· = 42)
      if q = [] then .ends true else .goesOn ((places a.path).flatMap fun t => pmCalls q t a.flags)
    else if b = 91 then
      match pmClass q with
      | some (list,q) => if pmList charLe list c then on q else .ends false
      | none => if b ≠ c then .ends false else on q
    else if b = 92 then
      match q with
      | [] => if c ≠ 92 then .ends false else on []
      | b::q => if b ≠ c then .ends false else on q
    else if b = slash then
      if c ≠ slash ∧ c ≠ 0 then .ends false
      else
        let q := pmSlashskip q
        if q = [] ∧ a.flags.noAnchorEnd then .ends true
        else .goesOn [⟨q,pmSlashskip a.path,a.flags⟩]
    else if b = 36 ∧ q = [] ∧ a.flags.noAnchorEnd then
      .ends (decide ((pmSlashskip a.path).headD 0 = 0))
    else if b ≠ c then .ends false else on q

def pmNext (a : PmAttempt) : Outcome PmAttempt := if classAtEnd charLe a then .breaks else pmStep charLe a

end

namespace Cursor

theorem strchr_some {s : Bytes} (hnul : 0 ∉ s) :
    strchr (some s) = some none ∧ behindSlashes s = [] ∨
      ∃ t, strchr (some s) = some (some (some (slash::t))) ∧ 0 ∉ t ∧
        behindSlashes s = t::behindSlashes t := by
  have hscan := @scan_some (fun s => (read s).map fun c => decide (c ≠ slash ∧ c ≠ 0))
    (fun s => s.dropWhile fun c => decide (c ≠ slash ∧ c ≠ 0)) ⟨rfl,rfl⟩
    (fun c p => by
      by_cases hc : c ≠ slash ∧ c ≠ 0
      · exact .inl (by simp [hc])
      · exact .inr (by rw [List.dropWhile_cons_of_neg (by simpa using hc)]; simpa using hc)) s (s.length+1) (Nat.lt_succ_self _)
  rw [strchr,scanWhile,left_some,hscan]
  simp only [Option.bind_some,read_some,Option.map_some]
  clear hscan
  induction s with
  | nil => exact .inl ⟨rfl,rfl⟩
  | cons c s ih =>
    obtain ⟨hc,hs⟩ := not_or.mp (List.mem_cons.not.mp hnul)
    by_cases hslash : c = slash
    · subst hslash
      exact .inr ⟨s,rfl,hs,rfl⟩
    · have hbehind : behindSlashes (c::s) = behindSlashes s := by
        simp [behindSlashes,hslash,Ne.symm hc]
      have hdrop : (c::s).dropWhile (fun c => decide (c ≠ slash ∧ c ≠ 0)) =
          s.dropWhile fun c => decide (c ≠ slash ∧ c ≠ 0) := by
        rw [List.dropWhile_cons_of_pos]
        exact decide_eq_true ⟨hslash,Ne.symm hc⟩
      rw [hbehind,hdrop]
      exact ih hs

theorem length_elementStarts_le (s : Bytes) : (elementStarts s).length ≤ s.length+1 := by
  have hbehind (s : Bytes) : (behindSlashes s).length ≤ s.length := by
    induction s with
    | nil => exact le_rfl
    | cons c s ih =>
      rw [behindSlashes]
      split_ifs
      · exact Nat.zero_le _
      · exact Nat.succ_le_succ ih
      · exact ih.trans (Nat.le_succ _)
  rw [elementStarts,List.length_cons]
  split_ifs
  · exact Nat.succ_le_succ ((hbehind s.tail).trans (by simp))
  · exact Nat.succ_le_succ (hbehind s)

theorem tryElements_some (pm : Cursor → Option Bool) {s : Bytes} (hnul : 0 ∉ s) (rounds : ℕ)
    (h : (elementStarts s).length ≤ rounds) :
    tryElements pm rounds (some s) = tryAll (fun t => pm (some t)) (elementStarts s) := by
  induction rounds generalizing s with
  | zero => simp [elementStarts] at h
  | succ rounds ih =>
    -- a leading slash is skipped
    obtain ⟨t,ht,hstarts,hnul'⟩ : ∃ t, (if s.headD 0 = slash then next (some s) else some s) = some t ∧
        elementStarts s = t::behindSlashes t ∧ 0 ∉ t := by
      by_cases hslash : s.headD 0 = slash
      · cases s with
        | nil => cases hslash
        | cons c s =>
          exact ⟨s,by rw [if_pos hslash]; rfl,by simp only [elementStarts,if_pos hslash,List.tail_cons],
            fun hmem => hnul (List.mem_cons_of_mem c hmem)⟩
      · exact ⟨s,if_neg hslash,by simp only [elementStarts,if_neg hslash],hnul⟩
    rw [hstarts,List.length_cons] at h
    simp only [tryElements,read_some,Option.bind_some,ht,hstarts,tryAll]
    congr 1
    funext found
    cases found with
    | true => rfl
    | false =>
      simp only [Bool.false_eq_true,if_false]
      rcases strchr_some hnul' with ⟨hnone,hbehind⟩ | ⟨u,hfound,hnul'',hbehind⟩
      · simp [hnone,hbehind,tryAll]
      · have hstarts' : elementStarts (slash::u) = u::behindSlashes u := rfl
        rw [hfound,Option.bind_some,hbehind,← hstarts']
        rw [hbehind] at h
        exact ih (by simpa [slash] using hnul'') (Nat.le_of_succ_le_succ h)

theorem tryPlaces_some (pathmatch : Cursor → Option Bool) {s : Bytes} (hnul : 0 ∉ s) (rounds : ℕ)
    (h : s.length < rounds) :
    tryPlaces pathmatch rounds (some s) = tryAll (fun t => pathmatch (some t)) (places s) := by
  induction s generalizing rounds with
  | nil =>
    obtain ⟨rounds,rfl⟩ := Nat.exists_eq_succ_of_ne_zero (by omega : rounds ≠ 0)
    rfl
  | cons c s ih =>
    obtain ⟨rounds,rfl⟩ := Nat.exists_eq_succ_of_ne_zero (by omega : rounds ≠ 0)
    obtain ⟨hc,hs⟩ := not_or.mp (List.mem_cons.not.mp hnul)
    rw [List.length_cons] at h
    simp only [tryPlaces,read_some,List.headD_cons,Option.bind_some,if_neg (Ne.symm hc),next_cons,places,
      tryAll,ih hs rounds (by omega)]

def runAt (loop : Loop) (a : PmAttempt) : Option Bool := loop (some a.pattern) (some a.path) a.flags

theorem pathmatchFrom_some (loop : Loop) (p : Bytes) {s : Bytes} (hs : 0 ∉ s) (flags : PathmatchFlags) :
    pathmatchFrom loop (some p) (some s) flags = tryAll (runAt loop) (pmCallsFrom p s flags) := by
  have hfails : (if p.headD 0 = slash then (some (s.headD 0)).map fun c => decide (c ≠ slash)
      else some false) = some (decide (p.headD 0 = slash ∧ s.headD 0 ≠ slash)) := by
    by_cases hp : p.headD 0 = slash
    · rw [if_pos hp]
      simp only [Option.map_some,hp,true_and]
    · rw [if_neg hp]
      simp only [hp,false_and,decide_false]
  simp only [pathmatchFrom,pmCallsFrom,read_some,Option.bind_some,hfails]
  by_cases hfail : p.headD 0 = slash ∧ s.headD 0 ≠ slash
  · rw [if_pos (decide_eq_true hfail),if_pos hfail]
    rfl
  · rw [if_neg (by simpa using hfail),if_neg hfail]
    split_ifs
    · simp only [skip_some (show slash ≠ 0 by decide),Option.bind_some,pmBy_some,tryAll_singleton]
      rfl
    · rw [left_some,tryElements_some _ hs _ (length_elementStarts_le s),tryAll_map]
      simp only [pmBy_some]
      rfl
    · rw [pmBy_some,tryAll_singleton]
      rfl

theorem pathmatchBy_some (loop : Loop) {p s : Bytes} (hp : 0 ∉ p) (hs : 0 ∉ s) (flags : PathmatchFlags) :
    pathmatchBy loop (some p) (some s) flags =
      if p = [] then some (decide (s = [])) else tryAll (runAt loop) (pmCalls p s flags) := by
  cases p with
  | nil =>
    cases s with
    | nil => rfl
    | cons c s =>
      have hc : c ≠ 0 := fun hc => hs (by simp [hc])
      simp [pathmatchBy,hc]
  | cons b p =>
    have hb : b ≠ 0 := fun hb => hp (by simp [hb])
    simp only [pathmatchBy,pmCalls,read_some,List.headD_cons,Option.bind_some,if_neg hb,next_cons,
      pathmatchFrom_some loop _ hs,reduceCtorEq,if_false]
    split_ifs <;> rfl

theorem next_of_ne {s : Bytes} (h : s.headD 0 ≠ 0) : next (some s) = some s.tail := by
  cases s with
  | nil => exact absurd rfl h
  | cons c s => rfl

theorem headD_eq_zero {s : Bytes} (hnul : 0 ∉ s) : s.headD 0 = 0 ↔ s = [] := by
  cases s with
  | nil => simp
  | cons c s => simpa using fun hc => hnul (by simp [hc])

end Cursor

theorem pmSlashskip_suffix (s : Bytes) : pmSlashskip s <:+ s := by
  induction s with
  | nil => exact List.suffix_rfl
  | cons c s ih =>
    rw [pmSlashskip]
    split_ifs
    · exact ih.trans (List.suffix_cons c s)
    · exact List.suffix_rfl

theorem mem_places {s t : Bytes} (h : t ∈ places s) : t <:+ s ∧ t ≠ [] := by
  induction s with
  | nil => simp [places] at h
  | cons c s ih =>
    rw [places] at h
    split_ifs at h
    · simp at h
    · rcases List.mem_cons.mp h with rfl | h
      · exact ⟨List.suffix_rfl,List.cons_ne_nil c s⟩
      · exact ⟨(ih h).1.trans (List.suffix_cons c s),(ih h).2⟩

theorem pmNext_of_ne (charLe : UInt8 → UInt8 → Bool) {a : PmAttempt} (h : a.pattern.headD 0 ≠ 91) :
    pmNext charLe a = pmStep charLe a := by
  rw [pmNext,if_neg]
  rw [classAtEnd,decide_eq_false h]
  simp

namespace Cursor

section
variable (charLe : UInt8 → UInt8 → Bool) (loop : Loop)

theorem literal_some {b : UInt8} (hb : b ≠ 0) (q s : Bytes) (flags : PathmatchFlags) :
    (if b ≠ s.headD 0 then some false else loop (some q) (next (some s)) flags) =
      (if b ≠ s.headD 0 then .ends false else Outcome.goesOn [⟨q,s.tail,flags⟩]).run (runAt loop) := by
  split_ifs with hne
  · rfl
  · rw [next_of_ne (by rwa [← not_not.mp hne]),Outcome.run,tryAll_singleton]
    rfl

variable {p s : Bytes} (hp : 0 ∉ p) (flags : PathmatchFlags)
  (hpast : ∀ q, q.length < p.length → 0 ∉ q →
    loop (some q) none flags = if onlyStars q then some true else none)
  (hstars : ∀ q, q.length < p.length → onlyStars q = true → loop (some q) (some []) flags = some true)
include hp hpast hstars

/-- A round with a class. Only at the end of the path can it go on behind the NUL. -/
theorem pmRound_class {q : Bytes} (hpq : p = 91::q) :
    pmRound charLe loop (some p) (some s) flags = (pmNext charLe ⟨p,s,flags⟩).run (runAt loop) := by
  subst hpq
  have hq : 0 ∉ q := fun hmem => hp (List.mem_cons_of_mem 91 hmem)
  have hend := classEnd_some hq ((91::q).length+1) (by simp only [List.length_cons]; omega)
  simp only [pmRound,read_some,List.headD_cons,Option.bind_some,next_cons,
    if_neg (show ¬(91 : UInt8) = 0 by decide),if_neg (show ¬(91 : UInt8) = 63 by decide),
    if_neg (show ¬(91 : UInt8) = 42 by decide),if_true,left_some,hend]
  cases hfound : pmClass q with
  | none =>
    have hnext : pmNext charLe ⟨91::q,s,flags⟩ = pmStep charLe ⟨91::q,s,flags⟩ := by
      simp [pmNext,classAtEnd,hfound]
    simpa [hnext,pmStep,hfound] using literal_some loop (show (91 : UInt8) ≠ 0 by decide) q s flags
  | some r =>
    obtain ⟨list,q'⟩ := r
    obtain ⟨rfl,hwhole⟩ := pmClass_eq hfound
    have hlist : (list ++ 93::q').length-(93::q').length = list.length := by simp
    simp only [Option.elim,List.headD_cons,if_true,next_cons,hlist,pmList_some hwhole (93::q')]
    have hstep : pmStep charLe ⟨91::(list ++ 93::q'),s,flags⟩ =
        if ArchiveTarBuilder.pmList charLe list (s.headD 0) then .goesOn [⟨q',s.tail,flags⟩]
        else .ends false := by
      simp [pmStep,hfound]
    cases s with
    | cons c s =>
      have hnext : pmNext charLe ⟨91::(list ++ 93::q'),c::s,flags⟩ =
          pmStep charLe ⟨91::(list ++ 93::q'),c::s,flags⟩ := by
        simp [pmNext,classAtEnd]
      rw [hnext,hstep]
      simp only [Option.bind_some,next_cons,List.tail_cons]
      split_ifs
      · rw [Outcome.run,tryAll_singleton]
        rfl
      · rfl
    | nil =>
      have hbreaks : classAtEnd charLe ⟨91::(list ++ 93::q'),[],flags⟩ =
          (ArchiveTarBuilder.pmList charLe list 0 && !onlyStars q') := by
        simp [classAtEnd,hfound]
      have hlen : q'.length < (91::(list ++ 93::q')).length := by simp; omega
      have hq' : 0 ∉ q' := fun hmem => hq (by simp [hmem])
      rw [pmNext,hbreaks,hstep]
      simp only [List.headD_nil,List.tail_nil,Option.bind_some]
      by_cases haccepts : ArchiveTarBuilder.pmList charLe list 0 = true
      · by_cases honly : onlyStars q' = true
        · simp [haccepts,honly,Outcome.run,runAt,next,hpast q' hlen hq',hstars q' hlen honly]
        · simp [haccepts,honly,Outcome.run,next,hpast q' hlen hq']
      · simp [haccepts,Outcome.run]

/-- A round of the loop, when what it goes on with is as it should be behind the NUL of the path. -/
theorem pmRound_some (hs : 0 ∉ s) :
    pmRound charLe loop (some p) (some s) flags = (pmNext charLe ⟨p,s,flags⟩).run (runAt loop) := by
  cases p with
  | nil =>
    rw [pmNext_of_ne charLe (by simp)]
    simp only [pmRound,pmStep,read_some,List.headD_nil,Option.bind_some,if_true,pmSlashskip_some,
      Option.map_some,Outcome.run]
    split_ifs with hc hend
    · simp [hend]
    · simp [hend]
    · rfl
  | cons b q =>
    have hb : b ≠ 0 := fun hb => hp (by simp [hb])
    have hq : 0 ∉ q := fun hmem => hp (List.mem_cons_of_mem b hmem)
    by_cases hclass : b = 91
    · subst hclass
      exact pmRound_class charLe loop hp flags hpast hstars rfl
    simp only [pmRound,read_some,List.headD_cons,Option.bind_some,if_neg hb,next_cons]
    rw [pmNext_of_ne charLe (by simpa using hclass)]
    simp only [pmStep,if_neg hclass]
    by_cases hone : b = 63
    · simp only [if_pos hone]
      split_ifs with hc
      · rfl
      · rw [next_of_ne hc,Outcome.run,tryAll_singleton]
        rfl
    simp only [if_neg hone]
    by_cases hstar : b = 42
    · subst hstar
      have hskip := skip_some (show (42 : UInt8) ≠ 0 by decide) (42::q)
      rw [List.dropWhile_cons_of_pos (by simp)] at hskip
      have hrest : 0 ∉ q.dropWhile (· = 42) := fun h => hq ((List.dropWhile_sublist _).subset h)
      simp only [if_true,hskip,Option.bind_some,read_some,headD_eq_zero hrest]
      split_ifs with hend
      · rfl
      · rw [left_some,tryPlaces_some _ hs _ (Nat.lt_succ_self _),Outcome.run,tryAll_flatMap]
        refine tryAll_congr fun t ht => ?_
        have hsuffix := (mem_places ht).1
        rw [pathmatchBy_some loop hrest (fun h => hs (hsuffix.subset h)),if_neg hend]
    simp only [if_neg hstar]
    by_cases hescape : b = 92
    · subst hescape
      cases q with
      | nil => simpa [eq_comm] using literal_some loop (show (92 : UInt8) ≠ 0 by decide) [] s flags
      | cons d q =>
        have hd : d ≠ 0 := fun hd => hq (by simp [hd])
        simpa [hd] using literal_some loop hd q s flags
    simp only [if_neg hescape]
    by_cases hslash : b = slash
    · subst hslash
      have hrest : 0 ∉ ArchiveTarBuilder.pmSlashskip q := fun h => hq ((pmSlashskip_suffix q).subset h)
      have hskip : ArchiveTarBuilder.pmSlashskip (slash::q) = ArchiveTarBuilder.pmSlashskip q := by
        simp [ArchiveTarBuilder.pmSlashskip]
      simp only [if_true,pmSlashskip_some,hskip,Option.bind_some,read_some,headD_eq_zero hrest]
      split_ifs
      · rfl
      · rfl
      · rw [Outcome.run,tryAll_singleton]
        rfl
    simp only [if_neg hslash]
    by_cases hend : b = 36 ∧ q = [] ∧ flags.noAnchorEnd = true
    · obtain ⟨rfl,rfl,hflag⟩ := hend
      simp [hflag,pmSlashskip_some,Outcome.run]
    · rw [if_neg hend]
      have hdollar : (if b = 36 then (some (q.headD 0)).map fun d =>
          decide (d = 0 ∧ flags.noAnchorEnd = true) else some false) = some false := by
        split_ifs with hb'
        · rw [Option.map_some,decide_eq_false fun h => hend ⟨hb',(headD_eq_zero hq).mp h.1,h.2⟩]
        · rfl
      rw [hdollar]
      exact literal_some loop hb q s flags

end

theorem onlyStars_cons_of_ne {b : UInt8} (hb : b ≠ 42) (q : Bytes) : onlyStars (b::q) = false := by
  simp [onlyStars,hb]

theorem onlyStars_iff (q : Bytes) : onlyStars (42::q) = true ↔ q.dropWhile (· = 42) = [] := by
  simp [onlyStars,List.dropWhile_eq_nil_iff]

section
variable (charLe : UInt8 → UInt8 → Bool) (loop : Loop) (flags : PathmatchFlags)

theorem pmRound_past {p : Bytes} (hp : 0 ∉ p) :
    pmRound charLe loop (some p) none flags = if onlyStars p then some true else none := by
  have hskip : pmSlashskip none = none := rfl
  cases p with
  | nil => rfl
  | cons b q =>
    have hb : b ≠ 0 := fun hb => hp (by simp [hb])
    have hq : 0 ∉ q := fun hmem => hp (List.mem_cons_of_mem b hmem)
    simp only [pmRound,read_some,List.headD_cons,Option.bind_some,if_neg hb,next_cons,read_none,
      Option.bind_none,hskip]
    by_cases hstar : b = 42
    · subst hstar
      have hskip' := skip_some (show (42 : UInt8) ≠ 0 by decide) (42::q)
      rw [List.dropWhile_cons_of_pos (by simp)] at hskip'
      have hrest : 0 ∉ q.dropWhile (· = 42) := fun h => hq ((List.dropWhile_sublist _).subset h)
      simp only [if_neg (show ¬(42 : UInt8) = 63 by decide),if_true,hskip',Option.bind_some,
        read_some,
        headD_eq_zero hrest,onlyStars_iff]
      rfl
    · rw [onlyStars_cons_of_ne hstar]
      have hend := classEnd_some hq ((b::q).length+1) (by simp only [List.length_cons]; omega)
      simp only [if_neg hstar,left_some,hend,Option.bind_some,read_some,Bool.false_eq_true,if_false]
      split_ifs <;> first | rfl | simp

theorem pmRound_stars {p : Bytes} (h : onlyStars p = true) (s : Cursor) :
    pmRound charLe loop (some p) s flags = some true := by
  cases p with
  | nil => cases h
  | cons b q =>
    obtain rfl : b = 42 := by
      by_contra hb
      rw [onlyStars_cons_of_ne hb] at h
      cases h
    have hskip := skip_some (show (42 : UInt8) ≠ 0 by decide) (42::q)
    rw [List.dropWhile_cons_of_pos (by simp),(onlyStars_iff q).mp h] at hskip
    simp [pmRound,hskip]

end

end Cursor

theorem pmDotskip_suffix (s : Bytes) : pmDotskip s <:+ s := by
  rw [pmDotskip]
  split_ifs
  · exact (pmSlashskip_suffix s.tail).trans (List.tail_suffix s)
  · exact List.suffix_rfl

theorem mem_elementStarts {s t : Bytes} (h : t ∈ elementStarts s) : t <:+ s := by
  have hbehind {s t : Bytes} (h : t ∈ behindSlashes s) : t <:+ s := by
    induction s with
    | nil => simp [behindSlashes] at h
    | cons c s ih =>
      rw [behindSlashes] at h
      split_ifs at h
      · simp at h
      · rcases List.mem_cons.mp h with rfl | h
        · exact List.suffix_cons c t
        · exact (ih h).trans (List.suffix_cons c s)
      · exact (ih h).trans (List.suffix_cons c s)
  have hstart : (if s.headD 0 = slash then s.tail else s) <:+ s := by
    split_ifs
    · exact List.tail_suffix s
    · exact List.suffix_rfl
  rcases List.mem_cons.mp h with rfl | h
  · exact hstart
  · exact (hbehind h).trans hstart

theorem mem_pmCallsFrom {p s : Bytes} {flags : PathmatchFlags} {a : PmAttempt}
    (h : a ∈ pmCallsFrom p s flags) : a.pattern <:+ p ∧ a.path <:+ s := by
  rw [pmCallsFrom] at h
  split_ifs at h
  · simp at h
  · obtain rfl := List.mem_singleton.mp h
    exact ⟨(pmDotskip_suffix _).trans (List.dropWhile_suffix _),
      (pmDotskip_suffix _).trans (List.dropWhile_suffix _)⟩
  · obtain ⟨t,ht,rfl⟩ := List.mem_map.mp h
    exact ⟨pmDotskip_suffix p,(pmDotskip_suffix t).trans (mem_elementStarts ht)⟩
  · obtain rfl := List.mem_singleton.mp h
    exact ⟨pmDotskip_suffix p,pmDotskip_suffix s⟩

theorem mem_pmCalls {p s : Bytes} {flags : PathmatchFlags} {a : PmAttempt}
    (h : a ∈ pmCalls p s flags) : a.pattern <:+ p ∧ a.path <:+ s := by
  cases p with
  | nil => simp [pmCalls] at h
  | cons b p =>
    rw [pmCalls] at h
    split_ifs at h
    · obtain ⟨hpattern,hpath⟩ := mem_pmCallsFrom h
      exact ⟨hpattern.trans (List.suffix_cons b p),hpath⟩
    · exact mem_pmCallsFrom h

theorem mem_pmStep (charLe : UInt8 → UInt8 → Bool) {a : PmAttempt} {states : List PmAttempt}
    (h : pmStep charLe a = .goesOn states) {b : PmAttempt} (hb : b ∈ states) :
    (∃ c q, a.pattern = c::q ∧ b.pattern <:+ q) ∧ b.path <:+ a.path := by
  obtain ⟨p,s,flags⟩ := a
  cases p with
  | nil => simp [pmStep] at h
  | cons c q =>
    suffices hkey : b.pattern <:+ q ∧ b.path <:+ s from ⟨⟨c,q,rfl,hkey.1⟩,hkey.2⟩
    have hon {q' : Bytes} (hq' : q' <:+ q) (hstates : Outcome.goesOn [⟨q',s.tail,flags⟩] = .goesOn states) :
        b.pattern <:+ q ∧ b.path <:+ s := by
      obtain rfl := Outcome.goesOn.inj hstates
      obtain rfl := List.mem_singleton.mp hb
      exact ⟨hq',List.tail_suffix s⟩
    simp only [pmStep] at h
    by_cases hone : c = 63
    · rw [if_pos hone] at h
      split_ifs at h
      exact hon List.suffix_rfl h
    rw [if_neg hone] at h
    by_cases hstar : c = 42
    · rw [if_pos hstar] at h
      split_ifs at h
      obtain rfl := Outcome.goesOn.inj h
      obtain ⟨t,ht,hcall⟩ := List.mem_flatMap.mp hb
      obtain ⟨hpattern,hpath⟩ := mem_pmCalls hcall
      exact ⟨hpattern.trans (List.dropWhile_suffix _),hpath.trans (mem_places ht).1⟩
    rw [if_neg hstar] at h
    by_cases hclass : c = 91
    · rw [if_pos hclass] at h
      cases hfound : pmClass q with
      | none =>
        simp only [hfound] at h
        split_ifs at h
        exact hon List.suffix_rfl h
      | some r =>
        simp only [hfound] at h
        split_ifs at h
        exact hon ⟨r.1 ++ [93],by rw [(Cursor.pmClass_eq hfound).1]; simp⟩ h
    rw [if_neg hclass] at h
    by_cases hescape : c = 92
    · rw [if_pos hescape] at h
      cases q with
      | nil =>
        simp only at h
        split_ifs at h
        exact hon List.suffix_rfl h
      | cons d q =>
        simp only at h
        split_ifs at h
        exact hon (List.suffix_cons d q) h
    rw [if_neg hescape] at h
    by_cases hslash : c = slash
    · rw [if_pos hslash] at h
      split_ifs at h
      obtain rfl := Outcome.goesOn.inj h
      obtain rfl := List.mem_singleton.mp hb
      exact ⟨pmSlashskip_suffix q,pmSlashskip_suffix s⟩
    · rw [if_neg hslash] at h
      split_ifs at h
      exact hon List.suffix_rfl h

section
variable {charLe : UInt8 → UInt8 → Bool}

theorem mem_pmNext {a : PmAttempt} {states : List PmAttempt} (h : pmNext charLe a = .goesOn states)
    {b : PmAttempt} (hb : b ∈ states) :
    (∃ c q, a.pattern = c::q ∧ b.pattern <:+ q) ∧ b.path <:+ a.path := by
  rw [pmNext] at h
  split_ifs at h
  exact mem_pmStep charLe h hb

theorem pmNext_breaks {a : PmAttempt} : pmNext charLe a = .breaks ↔ classAtEnd charLe a = true := by
  rw [pmNext]
  split_ifs with hend
  · exact iff_of_true rfl hend
  · refine iff_of_false (fun h => ?_) hend
    obtain ⟨p,s,flags⟩ := a
    cases p with
    | nil => simp [pmStep] at h
    | cons b q =>
      cases hfound : pmClass q with
      | none =>
        simp only [pmStep,hfound] at h
        cases q <;> simp only at h <;> split_ifs at h
      | some r =>
        simp only [pmStep,hfound] at h
        cases q <;> simp only at h <;> split_ifs at h

theorem pmNext_shrinks : Shrinks (·.pattern.length) (pmNext charLe) := by
  intro a states h b hb
  obtain ⟨⟨c,q,hpattern,hsuffix⟩,-⟩ := mem_pmNext h hb
  show b.pattern.length < a.pattern.length
  rw [hpattern]
  exact Nat.lt_succ_of_le hsuffix.length_le

end

namespace Cursor

theorem pmLoop_some (charLe : UInt8 → UInt8 → Bool) (fuel : ℕ) {p s : Bytes} (hp : 0 ∉ p) (hs : 0 ∉ s)
    (flags : PathmatchFlags) (h : p.length < fuel) :
    pmLoop charLe fuel (some p) (some s) flags = search (pmNext charLe) fuel ⟨p,s,flags⟩ := by
  induction fuel generalizing p s flags with
  | zero => omega
  | succ fuel ih =>
    have hfuel {q : Bytes} (hq : q.length < p.length) : ∃ n, fuel = n+1 :=
      Nat.exists_eq_add_of_le' (by omega)
    have hpast (q : Bytes) (hq : q.length < p.length) (hnul : 0 ∉ q) :
        pmLoop charLe fuel (some q) none flags = if onlyStars q then some true else none := by
      obtain ⟨n,rfl⟩ := hfuel hq
      exact pmRound_past charLe _ flags hnul
    have hstars (q : Bytes) (hq : q.length < p.length) (honly : onlyStars q = true) :
        pmLoop charLe fuel (some q) (some []) flags = some true := by
      obtain ⟨n,rfl⟩ := hfuel hq
      exact pmRound_stars charLe _ flags honly _
    rw [pmLoop,pmRound_some charLe (pmLoop charLe fuel) hp flags hpast hstars hs,search]
    cases hround : pmNext charLe ⟨p,s,flags⟩ with
    | breaks => rfl
    | ends found => rfl
    | goesOn states =>
      refine tryAll_congr fun b hb => ?_
      obtain ⟨⟨c,q,hpattern,hsuffix⟩,hpath⟩ := mem_pmNext hround hb
      obtain rfl : p = c::q := hpattern
      have hlen := hsuffix.length_le
      rw [List.length_cons] at h
      exact ih (fun hz => hp (List.mem_cons_of_mem c (hsuffix.subset hz)))
        (fun hz => hs (hpath.subset hz)) b.flags (by omega)

theorem lafePathmatch_some (charLe : UInt8 → UInt8 → Bool) {p s : Bytes} (hp : 0 ∉ p) (hs : 0 ∉ s)
    (flags : PathmatchFlags) : lafePathmatch charLe (some p) (some s) flags =
      if p = [] then some (decide (s = []))
      else tryAll (search (pmNext charLe) (p.length+1)) (pmCalls p s flags) := by
  rw [lafePathmatch,pathmatchBy_some _ hp hs]
  split_ifs
  · rfl
  · refine tryAll_congr fun a ha => ?_
    obtain ⟨hpattern,hpath⟩ := mem_pmCalls ha
    exact pmLoop_some charLe _ (fun hz => hp (hpattern.subset hz)) (fun hz => hs (hpath.subset hz)) _
      (Nat.lt_succ_of_le hpattern.length_le)

end Cursor

/-- A match reads nothing behind the NULs of its strings, unless it comes to a class at the end of
the path that accepts the NUL, with anything but `*`s behind it; what the match tries before that
fails. -/
theorem lafePathmatch_reads_iff (charLe : UInt8 → UInt8 → Bool) (pattern path : Bytes)
    (flags : PathmatchFlags) :
    Cursor.lafePathmatch charLe (some (cstr pattern)) (some (cstr path)) flags ≠ none ↔
      ∀ a, ComesFrom (·.pattern.length) (pmNext charLe) (pmCalls (cstr pattern) (cstr path) flags) a →
        classAtEnd charLe a = false := by
  have hp := zero_notMem_cstr pattern
  rw [Cursor.lafePathmatch_some charLe hp (zero_notMem_cstr path)]
  generalize cstr pattern = p at hp ⊢
  split_ifs with hnil
  · subst hnil
    refine iff_of_true (by simp) fun a ha => ?_
    obtain ⟨before,b,after,heq,-⟩ := ha
    simp [pmCalls] at heq
  · rw [ne_eq,tryAll_search_eq_none pmNext_shrinks _ _ fun a ha =>
      Nat.lt_succ_of_le (mem_pmCalls ha).1.length_le]
    simp only [pmNext_breaks,not_exists,not_and,Bool.not_eq_true]

/-- `a[!b]` against `a`, as an exclusion and as an inclusion: the class accepts the NUL, and the end
of the pattern is compared with what lies behind it. -/
theorem lafePathmatch_overruns :
    Cursor.lafePathmatch (fun a b => decide (a ≤ b)) (some (cstr [97,91,33,98,93])) (some (cstr [97]))
      ⟨true,true⟩ = none ∧
    Cursor.lafePathmatch (fun a b => decide (a ≤ b)) (some (cstr [97,91,33,98,93])) (some (cstr [97]))
      ⟨false,true⟩ = none := by
  decide +kernel

end ArchiveTarBuilder
