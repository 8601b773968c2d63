import ArchiveTarBuilder.PathMatch
import ArchiveTarBuilder.Archiver

/-! `match_engine.c`: lists of inclusion and exclusion patterns. The counts that a test updates do
not bear on any verdict, so a set of patterns has one for every path. -/
namespace ArchiveTarBuilder
open CString

/-- What C leaves open: how two `char`s compare, and what lies in memory behind a path. -/
structure MatchPlatform where
  charLe : UInt8 → UInt8 → Bool
  behind : Bytes → Bytes

structure Match where
  pattern : Bytes
  timesMatched : ℕ
  deriving DecidableEq, Repr

structure LafeMatching where
  exclusions : List Match
  exclusionsCount : ℕ
  inclusions : List Match
  inclusionsCount : ℕ
  inclusionsUnmatchedCount : ℤ
  deriving DecidableEq, Repr

def initializeMatching : LafeMatching := ⟨[],0,[],0,0⟩

def addPattern (list : List Match) (pattern : Bytes) : List Match :=
  let pattern := cstr pattern
  ⟨if pattern.getLast? = some slash then pattern.dropLast else pattern,0⟩::list

def lafeExclude (matching : Option LafeMatching) (pattern : Bytes) : Option LafeMatching :=
  let m := matching.getD initializeMatching
  some { m with
    exclusions := addPattern m.exclusions pattern
    exclusionsCount := m.exclusionsCount+1 }

def lafeInclude (matching : Option LafeMatching) (pattern : Bytes) : Option LafeMatching :=
  let m := matching.getD initializeMatching
  some { m with
    inclusions := addPattern m.inclusions pattern
    inclusionsCount := m.inclusionsCount+1
    inclusionsUnmatchedCount := m.inclusionsUnmatchedCount+1 }

section
variable (p : MatchPlatform)

def MatchPlatform.subject (path : Bytes) : Bytes := path ++ 0::p.behind path

def matchExclusion (pattern path : Bytes) : Bool :=
  lafePathmatch p.charLe pattern (p.subject path) { noAnchorStart := true, noAnchorEnd := true }

def matchInclusion (pattern path : Bytes) : Bool :=
  lafePathmatch p.charLe pattern (p.subject path) { noAnchorStart := false, noAnchorEnd := true }

def markInclusions (path : Bytes) : List Match → List Match × ℕ
  | [] => ([],0)
  | m::rest =>
    let r := markInclusions path rest
    if m.timesMatched = 0 ∧ matchInclusion p m.pattern path then
      ({ m with timesMatched := m.timesMatched+1 }::r.1,r.2+1)
    else (m::r.1,r.2)

/-- Count the first of the inclusions matched before that matches. -/
def countInclusion (path : Bytes) : List Match → Option (List Match)
  | [] => none
  | m::rest =>
    if 0 < m.timesMatched ∧ matchInclusion p m.pattern path then
      some ({ m with timesMatched := m.timesMatched+1 }::rest)
    else (countInclusion path rest).map (m::·)

def lafeExcluded (matching : Option LafeMatching) (path : Bytes) : Bool × Option LafeMatching :=
  match matching with
  | none => (false,none)
  | some m =>
    let marked := markInclusions p path m.inclusions
    let m := { m with
      inclusions := marked.1
      inclusionsUnmatchedCount := m.inclusionsUnmatchedCount-marked.2 }
    -- exclusions take priority
    if m.exclusions.any fun e => matchExclusion p e.pattern path then (true,some m)
    else if marked.2 ≠ 0 then (false,some m)
    else
      match countInclusion p path m.inclusions with
      | some inclusions => (false,some { m with inclusions := inclusions })
      | none => (!m.inclusions.isEmpty,some m)

def lafeEngine : MatchEngine (Option LafeMatching) := ⟨lafeExcluded p⟩

end

def lafeUnmatchedInclusions (matching : Option LafeMatching) : ℤ :=
  match matching with
  | none => 0
  | some m => m.inclusionsUnmatchedCount

def LafeMatching.patterns (m : LafeMatching) : List Bytes × List Bytes :=
  (m.exclusions.map Match.pattern,m.inclusions.map Match.pattern)

section
variable (p : MatchPlatform)

/-- The verdict on a path: an exclusion matches it, or there are inclusions and none does. -/
def excludes (patterns : Option (List Bytes × List Bytes)) (path : Bytes) : Bool :=
  match patterns with
  | none => false
  | some patterns =>
    patterns.1.any (matchExclusion p · path) ||
      (!patterns.2.isEmpty && !patterns.2.any (matchInclusion p · path))

theorem markInclusions_patterns (path : Bytes) (list : List Match) :
    (markInclusions p path list).1.map Match.pattern = list.map Match.pattern := by
  induction list with
  | nil => rfl
  | cons m rest ih =>
    simp only [markInclusions]
    split <;> simp [ih]

theorem countInclusion_patterns (path : Bytes) (list : List Match) :
    ∀ counted ∈ countInclusion p path list,
      counted.map Match.pattern = list.map Match.pattern := by
  induction list with
  | nil => simp [countInclusion]
  | cons m rest ih =>
    intro counted h
    simp only [countInclusion] at h
    split at h
    · obtain rfl := Option.some.inj h
      rfl
    · obtain ⟨counted,hrest,rfl⟩ := Option.map_eq_some_iff.mp h
      simp [ih counted hrest]

theorem markInclusions_none (path : Bytes) (list : List Match)
    (h : (markInclusions p path list).2 = 0) : (markInclusions p path list).1 = list := by
  induction list with
  | nil => rfl
  | cons m rest ih =>
    simp only [markInclusions] at h ⊢
    split at h
    · cases h
    · rename_i hm
      rw [if_neg hm,ih h]

theorem inclusions_any (path : Bytes) (list : List Match) :
    (list.map Match.pattern).any (matchInclusion p · path) =
      (decide ((markInclusions p path list).2 ≠ 0) || (countInclusion p path list).isSome) := by
  induction list with
  | nil => rfl
  | cons m rest ih =>
    rw [List.map_cons,List.any_cons,ih]
    by_cases hmatch : matchInclusion p m.pattern path = true
    · by_cases hzero : m.timesMatched = 0
      · simp [markInclusions,hmatch,hzero]
      · have hpos : 0 < m.timesMatched := Nat.pos_of_ne_zero hzero
        simp [countInclusion,hmatch,hpos]
    · simp [markInclusions,countInclusion,hmatch]

theorem lafeExcluded_eq (matching : Option LafeMatching) (path : Bytes) :
    (lafeExcluded p matching path).1 = excludes p (matching.map LafeMatching.patterns) path ∧
      (lafeExcluded p matching path).2.map LafeMatching.patterns =
        matching.map LafeMatching.patterns := by
  cases matching with
  | none => exact ⟨rfl,rfl⟩
  | some m =>
    have hmark := markInclusions_patterns p path m.inclusions
    have hnone := markInclusions_none p path m.inclusions
    have hany := inclusions_any p path m.inclusions
    have hempty : (m.inclusions.map Match.pattern).isEmpty = m.inclusions.isEmpty := by simp
    simp only [lafeExcluded,Option.map_some,excludes,LafeMatching.patterns,hempty,hany,List.any_map]
    by_cases hexclusion : (m.exclusions.any fun e => matchExclusion p e.pattern path) = true
    · rw [if_pos hexclusion]
      exact ⟨by simp [Function.comp_def,hexclusion],by simp [LafeMatching.patterns,hmark]⟩
    · rw [if_neg hexclusion]
      rw [Bool.not_eq_true] at hexclusion
      by_cases hzero : (markInclusions p path m.inclusions).2 = 0
      · have hcount := countInclusion_patterns p path m.inclusions
        rw [hnone hzero]
        cases hfound : countInclusion p path m.inclusions with
        | some counted =>
          simp [Function.comp_def,hexclusion,hzero,LafeMatching.patterns,hcount counted hfound]
        | none => simp [Function.comp_def,hexclusion,hzero,LafeMatching.patterns]
      · simp [Function.comp_def,hexclusion,hzero,LafeMatching.patterns,hmark]

end

end ArchiveTarBuilder
