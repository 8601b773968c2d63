import ArchiveTarBuilder.LineSequence
import ArchiveTarBuilder.MatchLists

/-! Pattern files: the loops of `lafe_exclude_from_file` and `lafe_include_from_file`, in which a
file may not open, a read may fail and memory may be refused. -/
namespace ArchiveTarBuilder
open CString

/-- A set of patterns, and which of the allocations to come for it succeed: all when the list
ends. -/
structure PatternMemory where
  matching : Option LafeMatching
  grants : List Bool
  deriving DecidableEq, Repr

inductive FromFile
  | crashed | returned (ret : ℤ) (m : PatternMemory)
  deriving DecidableEq, Repr

section
-- `lafeExclude` or `lafeInclude`
variable (store : Option LafeMatching → Bytes → Option LafeMatching)

/-- `lafe_exclude` or `lafe_include`: whether it returns 0. When there is memory for the pattern and
was none for the set, `add_pattern` dereferences `NULL`. -/
def addTo (m : PatternMemory) (pattern : Bytes) : Option (Bool × PatternMemory) :=
  let m := if m.matching = none then
      ⟨if m.grants.headD true then some initializeMatching else none,m.grants.tail⟩
    else m
  if m.grants.headD true then
    if m.matching = none then none else some (true,⟨store m.matching pattern,m.grants.tail⟩)
  else some (false,⟨m.matching,m.grants.tail⟩)

/-- The loop over the lines, with bounds on the rounds of the reader and on its own. Both the `NULL`
behind the last line and an error of the reader end it. -/
def addLines (rounds : ℕ) : ℕ → LineReader → ℤ → PatternMemory → Option FromFile
  | 0,_,_,_ => none
  | calls+1,lr,ret,m =>
    match lafeLineReaderNext rounds lr with
    | none => none
    | some (.line p,lr) =>
      match addTo store m p with
      | none => some .crashed
      | some (ok,m) => addLines rounds calls lr (if ok then ret else -1) m
    | some _ => some (.returned ret m)

def fromFile (rounds calls : ℕ) (opened : Option Stream) (nullSeparator : Bool)
    (reallocs : List Bool) (m : PatternMemory) : Option FromFile :=
  match opened with
  | none => some (.returned (-1) m)
  | some f => addLines store rounds calls (lafeLineReader f nullSeparator reallocs) 0 m

end

def lafeExcludeFromFile (rounds calls : ℕ) (opened : Option Stream) (reallocs : List Bool)
    (m : PatternMemory) : Option FromFile :=
  fromFile lafeExclude rounds calls opened false reallocs m

def lafeIncludeFromFile (rounds calls : ℕ) (opened : Option Stream) (nullSeparator : Bool)
    (reallocs : List Bool) (m : PatternMemory) : Option FromFile :=
  fromFile lafeInclude rounds calls opened nullSeparator reallocs m

def StopsAfter (rounds calls : ℕ) (f : Stream) (reallocs : List Bool) (lines : List Bytes) : Prop :=
  ∃ lr, readLines rounds calls (lafeLineReader f false reallocs) = some (lines,.failed,lr)

def PatternMemory.needed (m : PatternMemory) (lines : List Bytes) : ℕ :=
  if m.matching = none ∧ lines ≠ [] then lines.length+1 else lines.length

def PatternMemory.Suffices (m : PatternMemory) (lines : List Bytes) : Prop :=
  ∀ granted ∈ m.grants.take (m.needed lines), granted = true

/-- What 0 has to mean: the reader came to the end of the file, and every line of it was added. -/
def ReportsFailure (store : Option LafeMatching → Bytes → Option LafeMatching) (rounds calls : ℕ)
    (opened : Option Stream) (reallocs : List Bool) (m : PatternMemory) (result : FromFile) : Prop :=
  ∀ m', result = .returned 0 m' → ∃ f ∈ opened, (∀ lines, ¬StopsAfter rounds calls f reallocs lines) ∧
    m'.matching = (lineRuns f.contents).foldl store m.matching

section
variable (store : Option LafeMatching → Bytes → Option LafeMatching)

def addAll : ℤ → PatternMemory → List Bytes → FromFile
  | ret,m,[] => .returned ret m
  | ret,m,p::lines =>
    match addTo store m p with
    | none => .crashed
    | some (ok,m) => addAll (if ok then ret else -1) m lines

theorem addLines_eq {rounds calls : ℕ} {lr lr' : LineReader} {lines : List Bytes} {last : NextLine}
    (h : readLines rounds calls lr = some (lines,last,lr')) (ret : ℤ) (m : PatternMemory) :
    addLines store rounds calls lr ret m = some (addAll store ret m lines) := by
  induction calls generalizing lr lines ret m with
  | zero => simp [readLines] at h
  | succ calls ih =>
    rw [readLines] at h
    rw [addLines]
    cases hnext : lafeLineReaderNext rounds lr with
    | none => simp [hnext] at h
    | some r =>
      obtain ⟨next,lr₁⟩ := r
      rw [hnext] at h
      cases next with
      | line p =>
        obtain ⟨⟨lines',last',lr₂⟩,hrest,heq⟩ := Option.map_eq_some_iff.mp h
        obtain ⟨rfl,rest⟩ := Prod.mk.inj heq
        obtain ⟨rfl,rfl⟩ := Prod.mk.inj rest
        simp only [addAll]
        rcases addTo store m p with - | ⟨ok,m'⟩
        · rfl
        · exact ih hrest _ m'
      | done =>
        obtain ⟨rfl,-⟩ := Prod.mk.inj (Option.some.inj h)
        rfl
      | failed =>
        obtain ⟨rfl,-⟩ := Prod.mk.inj (Option.some.inj h)
        rfl

theorem addAll_failed (m m' : PatternMemory) (lines : List Bytes) :
    addAll store (-1) m lines ≠ .returned 0 m' := by
  induction lines generalizing m with
  | nil => simp [addAll]
  | cons p lines ih =>
    rw [addAll]
    rcases addTo store m p with - | ⟨ok,m₁⟩
    · simp
    · simpa using ih m₁

theorem forall_take_succ (grants : List Bool) (n : ℕ) :
    (∀ granted ∈ grants.take (n+1), granted = true) ↔
      grants.headD true = true ∧ ∀ granted ∈ grants.tail.take n, granted = true := by
  cases grants <;> simp

theorem addTo_some (set : LafeMatching) (grants : List Bool) (p : Bytes) :
    addTo store ⟨some set,grants⟩ p =
      if grants.headD true then some (true,⟨store (some set) p,grants.tail⟩)
      else some (false,⟨some set,grants.tail⟩) := rfl

theorem addTo_none (grants : List Bool) (p : Bytes) :
    addTo store ⟨none,grants⟩ p =
      if grants.headD true then addTo store ⟨some initializeMatching,grants.tail⟩ p
      else if grants.tail.headD true then none else some (false,⟨none,grants.tail.tail⟩) := by
  by_cases hset : grants.headD true = true
  · rw [if_pos hset,addTo]
    simp only [if_true,if_pos hset]
    rfl
  · rw [if_neg hset,addTo]
    simp only [if_true,if_neg hset]

variable (hsome : ∀ matching pattern, ∃ set, store matching pattern = some set)
include hsome

theorem addAll_zero_some (set : LafeMatching) (grants : List Bool) (lines : List Bytes)
    (m' : PatternMemory) :
    addAll store 0 ⟨some set,grants⟩ lines = .returned 0 m' ↔
      (∀ granted ∈ grants.take lines.length, granted = true) ∧
        m' = ⟨lines.foldl store (some set),grants.drop lines.length⟩ := by
  induction lines generalizing grants set with
  | nil => simp [addAll,eq_comm]
  | cons p lines ih =>
    rw [List.length_cons,forall_take_succ,addAll,addTo_some]
    by_cases hgranted : grants.headD true = true
    · obtain ⟨set',hset⟩ := hsome (some set) p
      rw [if_pos hgranted,List.foldl_cons,hset,← List.drop_tail]
      simpa only [if_true,hgranted,true_and] using ih set' grants.tail
    · rw [if_neg hgranted]
      exact iff_of_false (addAll_failed store _ m' lines) fun h => hgranted h.1.1

/-- 0 is returned exactly when there was memory for all of the lines, and then they have been
added. -/
theorem addAll_zero (hinit : ∀ pattern, store (some initializeMatching) pattern = store none pattern)
    (m m' : PatternMemory) (lines : List Bytes) :
    addAll store 0 m lines = .returned 0 m' ↔
      m.Suffices lines ∧ m' = ⟨lines.foldl store m.matching,m.grants.drop (m.needed lines)⟩ := by
  obtain ⟨matching,grants⟩ := m
  cases matching with
  | some set =>
    rw [PatternMemory.Suffices,PatternMemory.needed,if_neg (by simp)]
    exact addAll_zero_some store hsome set grants lines m'
  | none =>
    cases lines with
    | nil => simp [addAll,PatternMemory.Suffices,PatternMemory.needed,eq_comm]
    | cons p lines =>
      have hneeded : PatternMemory.needed ⟨none,grants⟩ (p::lines) = lines.length+1+1 := by
        simp [PatternMemory.needed]
      rw [PatternMemory.Suffices,hneeded,forall_take_succ,addAll,addTo_none]
      by_cases hgranted : grants.headD true = true
      · -- with a set of its own the rest is as above
        have hrest := addAll_zero_some store hsome initializeMatching grants.tail (p::lines) m'
        rw [addAll,List.foldl_cons,hinit,List.length_cons,List.drop_tail] at hrest
        rw [if_pos hgranted,List.foldl_cons]
        simpa only [hgranted,true_and] using hrest
      · rw [if_neg hgranted]
        refine iff_of_false ?_ fun h => hgranted h.1.1
        split_ifs with hnext
        · simp
        · exact addAll_failed store _ m' lines

end

/-- The lines of a file in front of what is left of it, which begins with a line. -/
def linesBefore (contents rest : Bytes) : List Bytes :=
  (lineRuns contents).take ((lineRuns contents).length-(lineRuns rest).length)

theorem linesBefore_eq {contents rest : Bytes} {lines : List Bytes}
    (h : lines ++ lineRuns rest = lineRuns contents) : linesBefore contents rest = lines := by
  rw [linesBefore,← h]
  simp

/-- What keeps a failed read or a refused `realloc` from being taken for the end of the file: that
it does not happen, or that there was no memory for a line in front of it. -/
def Noticed (f : Stream) (reallocs : List Bool) (m : PatternMemory) : Prop :=
  ∀ rest ∈ f.stops reallocs, ¬m.Suffices (linesBefore f.contents rest)

section
variable {store : Option LafeMatching → Bytes → Option LafeMatching}
  (hsome : ∀ matching pattern, ∃ set, store matching pattern = some set)
  (hinit : ∀ pattern, store (some initializeMatching) pattern = store none pattern)
include hsome hinit

theorem fromFile_reports {rounds calls : ℕ} {opened : Option Stream}
    (hopen : ∀ f ∈ opened, f.eof = false ∧ f.error = false)
    (hrounds : ∀ f ∈ opened, f.contents.length+2 ≤ rounds)
    (hcalls : ∀ f ∈ opened, (lineRuns f.contents).length < calls) (reallocs : List Bool)
    (m : PatternMemory) :
    ∃ result, fromFile store rounds calls opened false reallocs m = some result ∧
      (ReportsFailure store rounds calls opened reallocs m result ↔
        ∀ f ∈ opened, Noticed f reallocs m) := by
  cases opened with
  | none => exact ⟨_,rfl,by simp [ReportsFailure]⟩
  | some f =>
    obtain ⟨contents,answers,eof,error⟩ := f
    obtain ⟨rfl,rfl⟩ : eof = false ∧ error = false := hopen _ rfl
    obtain ⟨lines,last,lr,hlines,hends,-⟩ := readLines_ends contents answers reallocs rounds calls
      (hrounds _ rfl) (hcalls _ rfl)
    refine ⟨_,addLines_eq store hlines 0 m,?_⟩
    simp only [ReportsFailure,Noticed,addAll_zero store hsome hinit,Option.mem_some_iff,
      exists_eq_left',forall_eq']
    rcases hends with ⟨rfl,rfl,hnone⟩ | ⟨rfl,-,rest,hrest,hsplit⟩
    · -- the reader comes to the end of the file
      refine iff_of_true ?_ (by simp [hnone])
      rintro m' ⟨-,rfl⟩
      refine ⟨fun lines' hstops => ?_,rfl⟩
      obtain ⟨lr',hfailed⟩ := hstops
      simp [hlines] at hfailed
    · rw [hrest]
      simp only [Option.mem_some_iff,forall_eq',linesBefore_eq hsplit]
      refine ⟨fun hreports hmemory => (hreports _ ⟨hmemory,rfl⟩).1 lines ⟨lr,hlines⟩,?_⟩
      exact fun hrefused m' h => absurd h.1 hrefused

end

/-- Both functions report every failure exactly when no error ends the reading, or an allocation for
a line in front of it is refused. -/
theorem from_file_reports_iff {rounds calls : ℕ} {opened : Option Stream}
    (hopen : ∀ f ∈ opened, f.eof = false ∧ f.error = false)
    (hrounds : ∀ f ∈ opened, f.contents.length+2 ≤ rounds)
    (hcalls : ∀ f ∈ opened, (lineRuns f.contents).length < calls) (reallocs : List Bool)
    (m : PatternMemory) :
    (∃ result, lafeExcludeFromFile rounds calls opened reallocs m = some result ∧
      (ReportsFailure lafeExclude rounds calls opened reallocs m result ↔
        ∀ f ∈ opened, Noticed f reallocs m)) ∧
    ∃ result, lafeIncludeFromFile rounds calls opened false reallocs m = some result ∧
      (ReportsFailure lafeInclude rounds calls opened reallocs m result ↔
        ∀ f ∈ opened, Noticed f reallocs m) :=
  ⟨@fromFile_reports lafeExclude (fun _ _ => ⟨_,rfl⟩) (fun _ => rfl) _ _ _ hopen hrounds hcalls
      reallocs m,
    @fromFile_reports lafeInclude (fun _ _ => ⟨_,rfl⟩) (fun _ => rfl) _ _ _ hopen hrounds hcalls
      reallocs m⟩

/-- A file of two lines that is read without an error. -/
theorem from_file_reports_iff_of_two : ∃ result,
    lafeExcludeFromFile 6 3 (some ⟨[97,10,98,10],[],false,false⟩) [] ⟨none,[]⟩ = some result ∧
      ReportsFailure lafeExclude 6 3 (some ⟨[97,10,98,10],[],false,false⟩) [] ⟨none,[]⟩ result := by
  obtain ⟨result,hresult,hreports⟩ := (@from_file_reports_iff 6 3
    (some ⟨[97,10,98,10],[],false,false⟩) (by simp) (by simp) (by decide +kernel) [] ⟨none,[]⟩).1
  have hread : Stream.stops ⟨[97,10,98,10],[],false,false⟩ [] = none := by decide +kernel
  refine ⟨result,hresult,hreports.mpr fun f hf rest hrest => ?_⟩
  obtain rfl := Option.some.inj hf
  simp [hread] at hrest

/-- A file whose only line cannot be read, for which both functions return 0 with nothing added. -/
theorem from_file_unreadable :
    lafeExcludeFromFile 4 2 (some ⟨[97,10],[.fail 0],false,false⟩) [] ⟨none,[]⟩ =
      some (.returned 0 ⟨none,[]⟩) ∧
    lafeIncludeFromFile 4 2 (some ⟨[97,10],[.fail 0],false,false⟩) false [] ⟨none,[]⟩ =
      some (.returned 0 ⟨none,[]⟩) ∧
    ¬ReportsFailure lafeExclude 4 2 (some ⟨[97,10],[.fail 0],false,false⟩) [] ⟨none,[]⟩
      (.returned 0 ⟨none,[]⟩) ∧
    ¬ReportsFailure lafeInclude 4 2 (some ⟨[97,10],[.fail 0],false,false⟩) [] ⟨none,[]⟩
      (.returned 0 ⟨none,[]⟩) := by
  refine ⟨by decide +kernel,by decide +kernel,fun h => ?_,fun h => ?_⟩
  · obtain ⟨f,hf,-,hall⟩ := h _ rfl
    obtain rfl := Option.some.inj hf
    exact absurd hall (by decide +kernel)
  · obtain ⟨f,hf,-,hall⟩ := h _ rfl
    obtain rfl := Option.some.inj hf
    exact absurd hall (by decide +kernel)

end ArchiveTarBuilder
