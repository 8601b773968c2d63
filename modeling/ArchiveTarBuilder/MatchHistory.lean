import ArchiveTarBuilder.MatchLists

/-! Histories of a set of patterns: additions and tests in any order. Which inclusions have been
matched so far is kept apart from the counts that the source keeps of it. -/
namespace ArchiveTarBuilder
open CString

/-- One call. A test comes with the memory behind its path, which may be different every time. -/
inductive MatchCall
  | exclude (pattern : Bytes) | includes (pattern : Bytes) | test (path behind : Bytes)
  deriving DecidableEq, Repr

def storedPattern (pattern : Bytes) : Bytes :=
  if (cstr pattern).getLast? = some slash then (cstr pattern).dropLast else cstr pattern

theorem addPattern_eq (list : List Match) (pattern : Bytes) :
    addPattern list pattern = ⟨storedPattern pattern,0⟩::list := rfl

section
variable (charLe : UInt8 → UInt8 → Bool)

abbrev withMemory (behind : Bytes) : MatchPlatform := ⟨charLe,fun _ => behind⟩

def MatchCall.run (matching : Option LafeMatching) : MatchCall → Option LafeMatching
  | .exclude pattern => lafeExclude matching pattern
  | .includes pattern => lafeInclude matching pattern
  | .test path behind => (lafeExcluded (withMemory charLe behind) matching path).2

def MatchCall.matchedBy (stored : Bytes) : MatchCall → Bool
  | .test path behind => matchInclusion (withMemory charLe behind) stored path
  | _ => false

def runCalls (calls : List MatchCall) : Option LafeMatching :=
  calls.foldl (MatchCall.run charLe) none

def unmatchedInclusions : List MatchCall → ℕ
  | [] => 0
  | .includes pattern::calls =>
    unmatchedInclusions calls+
      if calls.any (MatchCall.matchedBy charLe (storedPattern pattern)) then 0 else 1
  | _::calls => unmatchedInclusions calls

structure Inclusion where
  pattern : Bytes
  matched : Bool
  deriving DecidableEq, Repr

def Inclusion.test (path behind : Bytes) (t : Inclusion) : Inclusion :=
  ⟨t.pattern,t.matched || matchInclusion (withMemory charLe behind) t.pattern path⟩

def MatchCall.track (tracked : List Inclusion) : MatchCall → List Inclusion
  | .exclude _ => tracked
  | .includes pattern => ⟨storedPattern pattern,false⟩::tracked
  | .test path behind => tracked.map (Inclusion.test charLe path behind)

def Match.tracked (m : Match) : Inclusion := ⟨m.pattern,decide (0 < m.timesMatched)⟩

def unmatched (tracked : List Inclusion) : ℕ := tracked.countP fun t => !t.matched

section
variable (path behind : Bytes)

theorem markInclusions_track (list : List Match) :
    (markInclusions (withMemory charLe behind) path list).1.map Match.tracked =
      (list.map Match.tracked).map (Inclusion.test charLe path behind) := by
  induction list with
  | nil => rfl
  | cons m rest ih =>
    by_cases hmark : m.timesMatched = 0 ∧ matchInclusion (withMemory charLe behind) m.pattern path = true
    · have hm : Match.tracked { m with timesMatched := m.timesMatched+1 } =
          Inclusion.test charLe path behind m.tracked := by
        simp [Match.tracked,Inclusion.test,hmark.2]
      simp only [markInclusions,if_pos hmark,List.map_cons,ih,hm]
    · have hm : m.tracked = Inclusion.test charLe path behind m.tracked := by
        rcases not_and_or.mp hmark with hseen | hno
        · simp [Match.tracked,Inclusion.test,Nat.pos_of_ne_zero hseen]
        · simp [Match.tracked,Inclusion.test,hno]
      simp only [markInclusions,if_neg hmark,List.map_cons,ih]
      rw [← hm]

theorem markInclusions_count (list : List Match) :
    unmatched ((markInclusions (withMemory charLe behind) path list).1.map Match.tracked)+
      (markInclusions (withMemory charLe behind) path list).2 =
      unmatched (list.map Match.tracked) := by
  induction list with
  | nil => rfl
  | cons m rest ih =>
    by_cases hmark : m.timesMatched = 0 ∧ matchInclusion (withMemory charLe behind) m.pattern path = true
    · have hnow : (Match.tracked { m with timesMatched := m.timesMatched+1 }).matched = true := by
        simp [Match.tracked]
      have hbefore : m.tracked.matched = false := by simp [Match.tracked,hmark.1]
      simp only [markInclusions,if_pos hmark,List.map_cons,unmatched,List.countP_cons,hnow,hbefore]
        at ih ⊢
      simp only [Bool.not_true,Bool.false_eq_true,if_false,Bool.not_false,if_true]
      omega
    · simp only [markInclusions,if_neg hmark,List.map_cons,unmatched,List.countP_cons] at ih ⊢
      omega

theorem countInclusion_track (list : List Match) :
    ∀ counted ∈ countInclusion (withMemory charLe behind) path list,
      counted.map Match.tracked = list.map Match.tracked := by
  induction list with
  | nil => simp [countInclusion]
  | cons m rest ih =>
    intro counted h
    simp only [countInclusion] at h
    split at h
    · rename_i hm
      obtain rfl := Option.some.inj h
      simp [Match.tracked,hm.1]
    · obtain ⟨counted,hrest,rfl⟩ := Option.map_eq_some_iff.mp h
      simp [ih counted hrest]

end

end

def exclusionsOf (matching : Option LafeMatching) : List Bytes :=
  (matching.map fun m => m.exclusions.map Match.pattern).getD []

def trackedOf (matching : Option LafeMatching) : List Inclusion :=
  (matching.map fun m => m.inclusions.map Match.tracked).getD []

def Counted (matching : Option LafeMatching) : Prop :=
  lafeUnmatchedInclusions matching = unmatched (trackedOf matching)

section
variable (charLe : UInt8 → UInt8 → Bool)

theorem lafeExcluded_track (matching : Option LafeMatching) (path behind : Bytes) :
    let matching' := (lafeExcluded (withMemory charLe behind) matching path).2
    exclusionsOf matching' = exclusionsOf matching ∧
      trackedOf matching' = (MatchCall.test path behind).track charLe (trackedOf matching) ∧
      (Counted matching → Counted matching') := by
  cases matching with
  | none => exact ⟨rfl,rfl,id⟩
  | some m =>
    have htrack := markInclusions_track charLe path behind m.inclusions
    have hcount := markInclusions_count charLe path behind m.inclusions
    -- every way out leaves this state, up to how often an inclusion was matched
    have hstate (list : List Match) (hlist : list.map Match.tracked =
        (markInclusions (withMemory charLe behind) path m.inclusions).1.map Match.tracked) :
        let matching' := some { m with
          inclusions := list
          inclusionsUnmatchedCount := m.inclusionsUnmatchedCount-
            (markInclusions (withMemory charLe behind) path m.inclusions).2 }
        exclusionsOf matching' = exclusionsOf (some m) ∧
          trackedOf matching' = (MatchCall.test path behind).track charLe (trackedOf (some m)) ∧
          (Counted (some m) → Counted matching') := by
      refine ⟨rfl,hlist.trans htrack,fun h => ?_⟩
      simp only [Counted,lafeUnmatchedInclusions,trackedOf,Option.map_some,Option.getD_some] at h ⊢
      rw [hlist,h]
      omega
    simp only [lafeExcluded]
    split
    · exact hstate _ rfl
    · split
      · exact hstate _ rfl
      · split
        · rename_i counted hcounted
          exact hstate counted (countInclusion_track charLe path behind _ counted hcounted)
        · exact hstate _ rfl

/-- What one call does to the stored exclusions, to the tracked inclusions and to the count. -/
theorem MatchCall.run_spec (matching : Option LafeMatching) (call : MatchCall) :
    (∀ stored, stored ∈ exclusionsOf (call.run charLe matching) ↔
      (∃ pattern, call = .exclude pattern ∧ stored = storedPattern pattern) ∨
        stored ∈ exclusionsOf matching) ∧
      trackedOf (call.run charLe matching) = call.track charLe (trackedOf matching) ∧
      (Counted matching → Counted (call.run charLe matching)) := by
  cases call with
  | exclude pattern => cases matching <;>
      simp [MatchCall.run,lafeExclude,exclusionsOf,trackedOf,addPattern_eq,initializeMatching,
        MatchCall.track,Counted,lafeUnmatchedInclusions]
  | includes pattern =>
    have hone (list : List Inclusion) : unmatched (⟨storedPattern pattern,false⟩::list) =
        unmatched list+1 := by simp [unmatched]
    have htracked : (Match.mk (storedPattern pattern) 0).tracked = ⟨storedPattern pattern,false⟩ := rfl
    cases matching with
    | none => simp [MatchCall.run,lafeInclude,exclusionsOf,trackedOf,addPattern_eq,
    initializeMatching,
        MatchCall.track,Counted,lafeUnmatchedInclusions,htracked,unmatched]
    | some m =>
      refine ⟨by simp [MatchCall.run,lafeInclude,exclusionsOf],rfl,fun h => ?_⟩
      simp only [MatchCall.run,lafeInclude,Counted,lafeUnmatchedInclusions,trackedOf,
        Option.getD_some,
        Option.map_some,addPattern_eq,List.map_cons,htracked,hone] at h ⊢
      omega
  | test path behind =>
    obtain ⟨hexclusions,htrack,hcount⟩ := lafeExcluded_track charLe matching path behind
    exact ⟨by simp [MatchCall.run,hexclusions],htrack,hcount⟩

end

def inclusionsOf (matching : Option LafeMatching) : List Match :=
  (matching.map LafeMatching.inclusions).getD []

theorem excludes_iff (p : MatchPlatform) (matching : Option LafeMatching) (path : Bytes) :
    excludes p (matching.map LafeMatching.patterns) path = true ↔
      (∃ stored ∈ exclusionsOf matching, matchExclusion p stored path = true) ∨
      ((∃ stored, stored ∈ (inclusionsOf matching).map Match.pattern) ∧
        ∀ stored ∈ (inclusionsOf matching).map Match.pattern, matchInclusion p stored path =
        false) := by
  cases matching with
  | none => simp [excludes,exclusionsOf,inclusionsOf]
  | some m =>
    cases hm : m.inclusions <;>
      simp [excludes,LafeMatching.patterns,exclusionsOf,inclusionsOf,hm]

section
variable (charLe : UInt8 → UInt8 → Bool)

/-- What a whole history leaves: every exclusion stored, every inclusion tracked, the count right.
-/
theorem run_history (calls : List MatchCall) (matching : Option LafeMatching) :
    let after := calls.foldl (MatchCall.run charLe) matching
    (∀ stored, stored ∈ exclusionsOf after ↔
      (∃ pattern, .exclude pattern ∈ calls ∧ stored = storedPattern pattern) ∨
        stored ∈ exclusionsOf matching) ∧
      trackedOf after = calls.foldl (MatchCall.track charLe) (trackedOf matching) ∧
      (Counted matching → Counted after) := by
  induction calls generalizing matching with
  | nil => simp
  | cons call calls ih =>
    obtain ⟨hexclusions,htrack,hcount⟩ := MatchCall.run_spec charLe matching call
    obtain ⟨hexclusions',htrack',hcount'⟩ := ih (call.run charLe matching)
    refine ⟨fun stored => ?_,by simpa [htrack] using htrack',fun h => hcount' (hcount h)⟩
    rw [List.foldl_cons,hexclusions' stored,hexclusions stored]
    constructor
    · rintro (⟨pattern,hmem,rfl⟩ | ⟨pattern,rfl,rfl⟩ | hbefore)
      · exact Or.inl ⟨pattern,by simp [hmem],rfl⟩
      · exact Or.inl ⟨pattern,by simp,rfl⟩
      · exact Or.inr hbefore
    · rintro (⟨pattern,hmem,rfl⟩ | hbefore)
      · rcases List.mem_cons.mp hmem with rfl | hmem
        · exact Or.inr (Or.inl ⟨pattern,rfl,rfl⟩)
        · exact Or.inl ⟨pattern,hmem,rfl⟩
      · exact Or.inr (Or.inr hbefore)

/-- The patterns that are tracked are those that were there and those that are added. -/
theorem mem_track (calls : List MatchCall) (tracked : List Inclusion) (stored : Bytes) :
    stored ∈ (calls.foldl (MatchCall.track charLe) tracked).map Inclusion.pattern ↔
      (∃ pattern, .includes pattern ∈ calls ∧ stored = storedPattern pattern) ∨
        stored ∈ tracked.map Inclusion.pattern := by
  induction calls generalizing tracked with
  | nil => simp
  | cons call calls ih =>
    rw [List.foldl_cons,ih]
    cases call with
    | exclude pattern => simp [MatchCall.track]
    | includes pattern =>
      simp only [MatchCall.track,List.map_cons,List.mem_cons,MatchCall.includes.injEq]
      constructor
      · rintro (⟨p,hmem,rfl⟩ | rfl | hbefore)
        · exact Or.inl ⟨p,Or.inr hmem,rfl⟩
        · exact Or.inl ⟨pattern,Or.inl rfl,rfl⟩
        · exact Or.inr hbefore
      · rintro (⟨p,rfl | hmem,rfl⟩ | hbefore)
        · exact Or.inr (Or.inl rfl)
        · exact Or.inl ⟨p,hmem,rfl⟩
        · exact Or.inr (Or.inr hbefore)
    | test path behind =>
      have hkeep : (tracked.map (Inclusion.test charLe path behind)).map Inclusion.pattern =
          tracked.map Inclusion.pattern := by simp [Inclusion.test,Function.comp_def]
      simp [MatchCall.track,hkeep]

/-- The inclusions left unmatched: those that were tracked so and that no test takes, and those that
are added and that no test behind takes. -/
theorem unmatched_track (calls : List MatchCall) (tracked : List Inclusion) :
    unmatched (calls.foldl (MatchCall.track charLe) tracked) = unmatchedInclusions charLe calls+
      tracked.countP fun t => !t.matched && !calls.any (MatchCall.matchedBy charLe t.pattern) := by
  induction calls generalizing tracked with
  | nil => simp [unmatched,unmatchedInclusions]
  | cons call calls ih =>
    rw [List.foldl_cons,ih]
    cases call with
    | exclude pattern => simp [MatchCall.track,unmatchedInclusions,MatchCall.matchedBy]
    | includes pattern =>
      simp only [MatchCall.track,unmatchedInclusions,MatchCall.matchedBy,List.countP_cons,
        List.any_cons,Bool.false_or,Bool.not_false,Bool.true_and]
      cases calls.any (MatchCall.matchedBy charLe (storedPattern pattern)) with
      | false =>
        simp only [Bool.false_eq_true,if_false,Bool.not_false,if_true]
        omega
      | true => simp
    | test path behind =>
      simp only [MatchCall.track,unmatchedInclusions,List.countP_map,List.any_cons]
      congr 2
      funext t
      simp [Inclusion.test,MatchCall.matchedBy,Bool.and_assoc]

/-- No inclusion has been counted more than `n` times. -/
def TimesAtMost (n : ℕ) (list : List Match) : Prop := ∀ m ∈ list, m.timesMatched ≤ n

theorem TimesAtMost.mono {n k : ℕ} {list : List Match} (h : TimesAtMost n list) (hle : n ≤ k) :
    TimesAtMost k list := fun m hm => (h m hm).trans hle

theorem markInclusions_times {n : ℕ} (path behind : Bytes) {list : List Match}
    (h : TimesAtMost n list) :
    TimesAtMost (n+1) (markInclusions (withMemory charLe behind) path list).1 := by
  induction list with
  | nil => simp [TimesAtMost,markInclusions]
  | cons m rest ih =>
    have hrest := ih fun x hx => h x (by simp [hx])
    have hm := h m (by simp)
    intro x hx
    simp only [markInclusions] at hx
    split at hx
    · rcases List.mem_cons.mp hx with rfl | hx
      · exact Nat.succ_le_succ hm
      · exact hrest x hx
    · rcases List.mem_cons.mp hx with rfl | hx
      · exact hm.trans (Nat.le_succ n)
      · exact hrest x hx

theorem countInclusion_times {n : ℕ} (path behind : Bytes) {list counted : List Match}
    (h : TimesAtMost n list) (hc : countInclusion (withMemory charLe behind) path list = some counted) :
    TimesAtMost (n+1) counted := by
  induction list generalizing counted with
  | nil => simp [countInclusion] at hc
  | cons m rest ih =>
    have hrest : TimesAtMost n rest := fun x hx => h x (by simp [hx])
    have hm := h m (by simp)
    intro x hx
    simp only [countInclusion] at hc
    split at hc
    · obtain rfl := Option.some.inj hc
      rcases List.mem_cons.mp hx with rfl | hx
      · exact Nat.succ_le_succ hm
      · exact (hrest x hx).trans (Nat.le_succ n)
    · obtain ⟨counted,hcounted,rfl⟩ := Option.map_eq_some_iff.mp hc
      rcases List.mem_cons.mp hx with rfl | hx
      · exact hm.trans (Nat.le_succ n)
      · exact ih hrest hcounted x hx

theorem lafeExcluded_times {n : ℕ} {matching : Option LafeMatching} (path behind : Bytes)
    (h : TimesAtMost n (inclusionsOf matching)) :
    TimesAtMost (n+1) (inclusionsOf (lafeExcluded (withMemory charLe behind) matching path).2) := by
  cases matching with
  | none => exact h.mono (Nat.le_succ n)
  | some m =>
    change TimesAtMost n m.inclusions at h
    have hmark := markInclusions_times charLe path behind h
    simp only [lafeExcluded]
    split
    · exact hmark
    · split
      · exact hmark
      · rename_i hnone
        rw [markInclusions_none _ path _ (by simpa using hnone)] at hmark ⊢
        split
        · rename_i counted hcounted
          exact countInclusion_times charLe path behind h hcounted
        · exact hmark

def tests (calls : List MatchCall) : ℕ :=
  calls.countP fun call => match call with | .test _ _ => true | _ => false

theorem run_times (calls : List MatchCall) {n : ℕ} {matching : Option LafeMatching}
    (h : TimesAtMost n (inclusionsOf matching)) :
    TimesAtMost (n+tests calls) (inclusionsOf (calls.foldl (MatchCall.run charLe) matching)) := by
  induction calls generalizing n matching with
  | nil => exact h
  | cons call calls ih =>
    rw [List.foldl_cons,tests,List.countP_cons,← tests]
    cases call with
    | exclude pattern =>
      refine ih (n := n) ?_
      cases matching <;> exact h
    | includes pattern =>
      refine ih (n := n) fun m hm => ?_
      cases matching with
      | none =>
        obtain rfl : m = ⟨storedPattern pattern,0⟩ := by
          simpa [inclusionsOf,MatchCall.run,lafeInclude,initializeMatching,addPattern_eq] using hm
        exact Nat.zero_le n
      | some s =>
        rcases List.mem_cons.mp hm with rfl | hm
        · exact Nat.zero_le n
        · exact h m hm
    | test path behind =>
      have htest := ih (lafeExcluded_times charLe path behind h)
      rw [Nat.add_assoc,Nat.add_comm 1] at htest
      exact htest

theorem mem_exclusions_run (calls : List MatchCall) (stored : Bytes) :
    stored ∈ exclusionsOf (runCalls charLe calls) ↔
      ∃ pattern, .exclude pattern ∈ calls ∧ stored = storedPattern pattern := by
  obtain ⟨hexclusions,-,-⟩ := run_history charLe calls none
  rw [runCalls,hexclusions stored]
  simp [exclusionsOf]

theorem mem_inclusions_run (calls : List MatchCall) (stored : Bytes) :
    stored ∈ (inclusionsOf (runCalls charLe calls)).map Match.pattern ↔
      ∃ pattern, .includes pattern ∈ calls ∧ stored = storedPattern pattern := by
  obtain ⟨-,htrack,-⟩ := run_history charLe calls none
  have hmem := mem_track charLe calls [] stored
  rw [← show trackedOf (runCalls charLe calls) = calls.foldl (MatchCall.track charLe) [] from htrack]
    at hmem
  have heq : (trackedOf (runCalls charLe calls)).map Inclusion.pattern =
      (inclusionsOf (runCalls charLe calls)).map Match.pattern := by
    cases runCalls charLe calls <;> simp [trackedOf,inclusionsOf,Match.tracked,Function.comp_def]
  rw [heq] at hmem
  simpa using hmem

/-- At every point of every history: the verdict depends on which patterns have been added, not on
their order and not on the tests before; the number of unmatched inclusions is that of the
inclusions that no test since has matched; and no counter exceeds the number of tests. -/
theorem matching_history (calls : List MatchCall) :
    (∀ path behind, (lafeExcluded (withMemory charLe behind) (runCalls charLe calls) path).1 = true ↔
      (∃ pattern, .exclude pattern ∈ calls ∧
        matchExclusion (withMemory charLe behind) (storedPattern pattern) path = true) ∨
      ((∃ pattern, .includes pattern ∈ calls) ∧ ∀ pattern, .includes pattern ∈ calls →
        matchInclusion (withMemory charLe behind) (storedPattern pattern) path = false)) ∧
    lafeUnmatchedInclusions (runCalls charLe calls) = unmatchedInclusions charLe calls ∧
    TimesAtMost (tests calls) (inclusionsOf (runCalls charLe calls)) := by
  refine ⟨fun path behind => ?_,?_,?_⟩
  · rw [(lafeExcluded_eq (withMemory charLe behind) (runCalls charLe calls) path).1,
      excludes_iff _ _ path]
    apply or_congr
    · constructor
      · rintro ⟨stored,hmem,hmatch⟩
        obtain ⟨pattern,hadded,rfl⟩ := (mem_exclusions_run charLe calls stored).mp hmem
        exact ⟨pattern,hadded,hmatch⟩
      · rintro ⟨pattern,hadded,hmatch⟩
        exact ⟨_,(mem_exclusions_run charLe calls _).mpr ⟨pattern,hadded,rfl⟩,hmatch⟩
    · apply and_congr
      · constructor
        · rintro ⟨stored,hmem⟩
          obtain ⟨pattern,hadded,-⟩ := (mem_inclusions_run charLe calls stored).mp hmem
          exact ⟨pattern,hadded⟩
        · rintro ⟨pattern,hadded⟩
          exact ⟨_,(mem_inclusions_run charLe calls _).mpr ⟨pattern,hadded,rfl⟩⟩
      · constructor
        · exact fun h pattern hadded =>
            h _ ((mem_inclusions_run charLe calls _).mpr ⟨pattern,hadded,rfl⟩)
        · intro h stored hmem
          obtain ⟨pattern,hadded,rfl⟩ := (mem_inclusions_run charLe calls stored).mp hmem
          exact h pattern hadded
  · obtain ⟨-,htrack,hcount⟩ := run_history charLe calls none
    rw [runCalls,hcount rfl,htrack,unmatched_track]
    simp [trackedOf]
  · have htimes := @run_times charLe calls 0 none (by simp [TimesAtMost,inclusionsOf])
    rwa [Nat.zero_add] at htimes

end

end ArchiveTarBuilder
