import ArchiveTarBuilder.MatchHistory
import ArchiveTarBuilder.Pool

/-! `match_engine.c` on its nodes: chains of patterns that are allocated one by one, whose counts
are written in place, and that are freed at the end. -/
namespace ArchiveTarBuilder
namespace Chained
open Pool

structure Head where
  exclusions : Option ℕ
  exclusionsCount : ℕ
  inclusions : Option ℕ
  inclusionsCount : ℕ
  inclusionsUnmatchedCount : ℤ

/-- What the engine allocates: `struct match`, with its link, and `struct lafe_matching`. -/
inductive EngineObject
  | node (m : Match) (next : Option ℕ)
  | head (h : Head)

abbrev Engine := Prog EngineObject

def loadNode (a : ℕ) : Engine (Match × Option ℕ) := do
  match ← load a with
  | .node m next => return (m,next)
  | .head _ => fault

def loadHead (a : ℕ) : Engine Head := do
  match ← load a with
  | .node _ _ => fault
  | .head h => return h

def nextNode : EngineObject → Engine (Option ℕ)
  | .node _ next => pure next
  | .head _ => fault

def initializeMatching : Engine (Option ℕ) := malloc (.head ⟨none,0,none,0,0⟩)

inductive ListField
  | exclusions | inclusions

def ListField.read (h : Head) : ListField → Option ℕ
  | .exclusions => h.exclusions
  | .inclusions => h.inclusions

def ListField.write (h : Head) (list : Option ℕ) : ListField → Head
  | .exclusions => { h with exclusions := list }
  | .inclusions => { h with inclusions := list }

def ListField.count (h : Head) : ListField → Head
  | .exclusions => { h with exclusionsCount := h.exclusionsCount+1 }
  | .inclusions => { h with
      inclusionsCount := h.inclusionsCount+1
      inclusionsUnmatchedCount := h.inclusionsUnmatchedCount+1 }

/-- `true` for 0, `false` for -1. Without an engine `list` points to a field behind `NULL`. -/
def addPattern (matching : Option ℕ) (list : ListField) (pattern : Bytes) : Engine Bool := do
  match ← malloc (.node ⟨storedPattern pattern,0⟩ none) with
  | none => return false
  | some a =>
    match matching with
    | none => fault
    | some o =>
      let h ← loadHead o
      store a (.node ⟨storedPattern pattern,0⟩ (list.read h))
      store o (.head (list.write h (some a)))
      return true

/-- `lafe_exclude` and `lafe_include` behind their call of `initialize_matching`. -/
def addBehind (list : ListField) (matching : Option ℕ) (pattern : Bytes) : Engine (Bool × Option ℕ) := do
  match ← addPattern matching list pattern with
  | false => return (false,matching)
  | true =>
    match matching with
    | none => fault
    | some o =>
      let h ← loadHead o
      store o (.head (list.count h))
      return (true,matching)

/-- What `lafe_exclude` and `lafe_include` share; the pointer to the engine comes back. -/
def addTo (list : ListField) (matching : Option ℕ) (pattern : Bytes) : Engine (Bool × Option ℕ) := do
  let matching ← (if matching.isNone then initializeMatching else pure matching)
  addBehind list matching pattern

def lafeExclude (matching : Option ℕ) (pattern : Bytes) : Engine (Bool × Option ℕ) :=
  addTo .exclusions matching pattern

def lafeInclude (matching : Option ℕ) (pattern : Bytes) : Engine (Bool × Option ℕ) :=
  addTo .inclusions matching pattern

section
variable (p : MatchPlatform) (path : Bytes)

def markNode (o a : ℕ) (matched : Option ℕ) : Engine (Except Bool (Option ℕ)) := do
  let m ← loadNode a
  if m.1.timesMatched = 0 ∧ matchInclusion p m.1.pattern path then
    let h ← loadHead o
    store o (.head { h with inclusionsUnmatchedCount := h.inclusionsUnmatchedCount-1 })
    store a (.node { m.1 with timesMatched := m.1.timesMatched+1 } m.2)
    return .ok (some a)
  else return .ok matched

def excludeNode (a : ℕ) (_ : Unit) : Engine (Except Bool Unit) := do
  let m ← loadNode a
  if matchExclusion p m.1.pattern path then return .error true else return .ok ()

def countNode (a : ℕ) (_ : Unit) : Engine (Except Bool Unit) := do
  let m ← loadNode a
  if 0 < m.1.timesMatched ∧ matchInclusion p m.1.pattern path then
    store a (.node { m.1 with timesMatched := m.1.timesMatched+1 } m.2)
    return .error false
  else return .ok ()

def verdict (o fuel : ℕ) (matched : Option ℕ) : Engine Bool := do
  let h ← loadHead o
  match ← forNodes nextNode (excludeNode p path) fuel h.exclusions () with
  | .error verdict => return verdict
  | .ok () =>
    if matched.isSome then return false
    else
      match ← forNodes nextNode (countNode p path) fuel h.inclusions () with
      | .error verdict => return verdict
      | .ok () => return h.inclusions.isSome

def lafeExcluded (matching : Option ℕ) : Engine Bool := do
  match matching with
  | none => return false
  | some o =>
    let fuel ← rounds
    let h ← loadHead o
    match ← forNodes nextNode (markNode p path o) fuel h.inclusions none with
    | .error verdict => return verdict
    | .ok matched => verdict p path o fuel matched

end

def lafeCleanupExclusions (matching : Option ℕ) : Engine (Option ℕ) := do
  match matching with
  | none => return none
  | some o =>
    let fuel ← rounds
    let h ← loadHead o
    freeNodes nextNode fuel h.inclusions
    let h ← loadHead o
    freeNodes nextNode fuel h.exclusions
    free o
    return none

def lafeUnmatchedInclusions (matching : Option ℕ) : Engine ℤ := do
  match matching with
  | none => return 0
  | some o =>
    let h ← loadHead o
    return h.inclusionsUnmatchedCount

/-- A call on an engine. A test comes with the memory behind its path. -/
inductive EngineCall
  | exclude (pattern : Bytes) | includes (pattern : Bytes) | test (path behind : Bytes)
  | unmatched | cleanup

def EngineCall.adds : EngineCall → Bool
  | .exclude _ => true
  | .includes _ => true
  | _ => false

section
variable (charLe : UInt8 → UInt8 → Bool)

def EngineCall.perform (matching : Option ℕ) : EngineCall → Engine (ℤ × Option ℕ)
  | .exclude pattern => do
    let r ← lafeExclude matching pattern
    return (if r.1 then 0 else -1,r.2)
  | .includes pattern => do
    let r ← lafeInclude matching pattern
    return (if r.1 then 0 else -1,r.2)
  | .test path behind => do
    let r ← lafeExcluded (withMemory charLe behind) path matching
    return (if r then 1 else 0,matching)
  | .unmatched => do
    let n ← lafeUnmatchedInclusions matching
    return (n,matching)
  | .cleanup => do
    let r ← lafeCleanupExclusions matching
    return (0,r)

def runEngine : List EngineCall → Option ℕ → Engine (List ℤ × Option ℕ)
  | [],matching => pure ([],matching)
  | c::cs,matching => do
    let r ← c.perform charLe matching
    let rs ← runEngine cs r.2
    return (r.1::rs.1,rs.2)

def EngineCall.answer (matching : Option LafeMatching) : EngineCall → ℤ × Option LafeMatching
  | .exclude pattern => (0,ArchiveTarBuilder.lafeExclude matching pattern)
  | .includes pattern => (0,ArchiveTarBuilder.lafeInclude matching pattern)
  | .test path behind =>
    let r := ArchiveTarBuilder.lafeExcluded (withMemory charLe behind) matching path
    (if r.1 then 1 else 0,r.2)
  | .unmatched => (ArchiveTarBuilder.lafeUnmatchedInclusions matching,matching)
  | .cleanup => (0,none)

/-- What some calls answer when those that add a pattern may be `refused` and then add nothing. -/
inductive Answers (refused : Prop) : Option LafeMatching → List EngineCall → List ℤ → Prop
  | done (matching : Option LafeMatching) : Answers refused matching [] []
  | call {matching : Option LafeMatching} (c : EngineCall) {cs : List EngineCall} {rs : List ℤ}
      (h : Answers refused (c.answer charLe matching).2 cs rs) :
      Answers refused matching (c::cs) ((c.answer charLe matching).1::rs)
  | refuse {matching : Option LafeMatching} {c : EngineCall} (hc : c.adds = true) (hr : refused)
      {cs : List EngineCall} {rs : List ℤ} (h : Answers refused matching cs rs) :
      Answers refused matching (c::cs) (-1::rs)

end

section
variable {base : Objects EngineObject} {s : State EngineObject} {own : List (ℕ × EngineObject)}

theorem loadNode_returns {a : ℕ} {m : Match} {next : Option ℕ}
    (h : Owns base s.objects ((a,.node m next)::own)) : Returns (loadNode a) s (m,next) s :=
  h.loads.bind Returns.pure

theorem loadHead_returns {o : ℕ} {head : Head} (h : Owns base s.objects ((o,.head head)::own)) :
    Returns (loadHead o) s head s := h.loads.bind Returns.pure

/-- The engine behind a pointer is this set of patterns; a set without patterns may be there already
when there is none on the lists. -/
inductive Held (base p : Objects EngineObject) : Option ℕ → Option LafeMatching → Prop
  | unset (h : p = base) : Held base p none none
  | set {o : ℕ} {es is : List (ℕ × Match)} {c₁ c₂ : ℕ} {c₃ : ℤ} {x : Option LafeMatching}
      (hx : x.getD ArchiveTarBuilder.initializeMatching = ⟨es.map Prod.snd,c₁,is.map Prod.snd,c₂,c₃⟩)
      (hown : Owns base p ((o,.head ⟨start es,c₁,start is,c₂,c₃⟩)::(chain .node es ++ chain .node is))) :
      Held base p (some o) x

def ListField.push (c : ℕ × Match) (es is : List (ℕ × Match)) :
    ListField → List (ℕ × Match) × List (ℕ × Match)
  | .exclusions => (c::es,is)
  | .inclusions => (es,c::is)

theorem addPattern_refused (h : s.proposals s.requests = none) (list : ListField)
    (pattern : Bytes) (matching : Option ℕ) :
    Returns (addPattern matching list pattern) s false { s with requests := s.requests+1 } :=
  (malloc_refused h).bind Returns.pure

theorem addPattern_granted {o : ℕ} {es is : List (ℕ × Match)} {c₁ c₂ : ℕ} {c₃ : ℤ}
    (hown : Owns base s.objects ((o,.head ⟨start es,c₁,start is,c₂,c₃⟩)::(chain .node es ++ chain .node is)))
    {proposal : ℕ} (h : s.proposals s.requests = some proposal) (list : ListField) (pattern : Bytes) :
    ∃ a s', Returns (addPattern (some o) list pattern) s true s' ∧ s'.proposals = s.proposals ∧
      let lists := list.push (a,⟨storedPattern pattern,0⟩) es is
      Owns base s'.objects ((o,.head ⟨start lists.1,c₁,start lists.2,c₂,c₃⟩)::
        (chain .node lists.1 ++ chain .node lists.2)) := by
  obtain ⟨a,s₁,hmalloc,hprop₁,hnew⟩ := hown.mallocs (b := .node ⟨storedPattern pattern,0⟩ none) h
  obtain ⟨s₂,hfill,hkeeps₂,hfilled⟩ := hnew.stores (c := .node ⟨storedPattern pattern,0⟩
    (list.read ⟨start es,c₁,start is,c₂,c₃⟩))
  obtain ⟨s₃,hlink,hkeeps₃,hlinked⟩ := (hfilled.perm (List.Perm.swap _ _ _)).stores
    (c := .head (list.write ⟨start es,c₁,start is,c₂,c₃⟩ (some a)))
  have hhead := loadHead_returns (hnew.perm (List.Perm.swap _ _ _))
  refine ⟨a,s₃,hmalloc.bind (hhead.bind (hfill.bind (hlink.bind Returns.pure))),
    hkeeps₃.1.trans (hkeeps₂.1.trans hprop₁),?_⟩
  cases list with
  | exclusions => exact hlinked
  | inclusions => exact hlinked.perm (List.Perm.cons _ List.perm_middle.symm)

def ListField.added (x : Option LafeMatching) (pattern : Bytes) : ListField → Option LafeMatching
  | .exclusions => ArchiveTarBuilder.lafeExclude x pattern
  | .inclusions => ArchiveTarBuilder.lafeInclude x pattern

theorem addBehind_held {o : ℕ} {x : Option LafeMatching} (h : Held base s.objects (some o) x)
    (list : ListField) (pattern : Bytes) :
    (∃ n, s.proposals n = none) ∧ (∃ s', Returns (addBehind list (some o) pattern) s (false,some o) s' ∧
      s'.proposals = s.proposals ∧ Held base s'.objects (some o) x) ∨
    ∃ s', Returns (addBehind list (some o) pattern) s (true,some o) s' ∧
      s'.proposals = s.proposals ∧ Held base s'.objects (some o) (list.added x pattern) := by
  cases h with
  | @set o es is c₁ c₂ c₃ x hx hown =>
    cases hanswer : s.proposals s.requests with
    | none =>
      exact Or.inl ⟨⟨_,hanswer⟩,_,(addPattern_refused hanswer list pattern (some o)).bind Returns.pure,
        rfl,.set hx hown⟩
    | some proposal =>
      obtain ⟨a,s₁,hadd,hprop₁,hadded⟩ := addPattern_granted hown hanswer list pattern
      have hhead := loadHead_returns hadded
      obtain ⟨s₂,hcount,hkeeps₂,hcounted⟩ := hadded.stores (c := .head (list.count
        ⟨start (list.push (a,⟨storedPattern pattern,0⟩) es is).1,c₁,
          start (list.push (a,⟨storedPattern pattern,0⟩) es is).2,c₂,c₃⟩))
      refine Or.inr ⟨s₂,hadd.bind (hhead.bind (hcount.bind Returns.pure)),hkeeps₂.1.trans hprop₁,?_⟩
      cases list with
      | exclusions =>
        refine @Held.set _ _ o ((a,⟨storedPattern pattern,0⟩)::es) is (c₁+1) c₂ c₃ _ ?_ hcounted
        simp [ListField.added,ArchiveTarBuilder.lafeExclude,hx,addPattern_eq]
      | inclusions =>
        refine @Held.set _ _ o es ((a,⟨storedPattern pattern,0⟩)::is) c₁ (c₂+1) (c₃+1) _ ?_ hcounted
        simp [ListField.added,ArchiveTarBuilder.lafeInclude,hx,addPattern_eq]

/-- An addition goes through, or is refused and adds nothing; without an engine it stops when only
the first of its two requests is refused. -/
theorem addTo_held {matching : Option ℕ} {x : Option LafeMatching} (h : Held base s.objects matching x)
    (list : ListField) (pattern : Bytes) :
    (∃ n, s.proposals n = none ∧ s.proposals (n+1) ≠ none) ∧ Stops (addTo list matching pattern) s ∨
    (∃ n, s.proposals n = none) ∧ (∃ matching' s',
      Returns (addTo list matching pattern) s (false,matching') s' ∧ s'.proposals = s.proposals ∧
        Held base s'.objects matching' x) ∨
    ∃ matching' s', Returns (addTo list matching pattern) s (true,matching') s' ∧
      s'.proposals = s.proposals ∧ Held base s'.objects matching' (list.added x pattern) := by
  cases h with
  | unset hbase =>
    cases hcalloc : s.proposals s.requests with
    | none =>
      have hinit : Returns initializeMatching s none { s with requests := s.requests+1 } :=
        malloc_refused hcalloc
      cases hanswer : s.proposals (s.requests+1) with
      | none =>
        refine Or.inr (Or.inl ⟨⟨_,hcalloc⟩,none,_,hinit.bind ((addPattern_refused hanswer list pattern
          none).bind Returns.pure),rfl,.unset hbase⟩)
      | some proposal =>
        refine Or.inl ⟨⟨_,hcalloc,by simp [hanswer]⟩,hinit.stops (Stops.bind ?_)⟩
        obtain ⟨a,s',hmalloc,-,-⟩ := (Owns.nil s.objects).mallocs
          (s := { s with requests := s.requests+1 }) (b := .node ⟨storedPattern pattern,0⟩ none) hanswer
        exact hmalloc.stops rfl
    | some proposal =>
      obtain ⟨o,s₁,hinit,hprop₁,hown⟩ := (hbase ▸ Owns.nil s.objects : Owns base s.objects []).mallocs
        (b := .head ⟨none,0,none,0,0⟩) hcalloc
      have hheld : Held base s₁.objects (some o) none :=
        @Held.set _ _ o [] [] 0 0 0 _ rfl hown
      rcases addBehind_held hheld list pattern with ⟨⟨n,hn⟩,s',hrun,hprop,hafter⟩ | ⟨s',hrun,hprop,hafter⟩
      · exact Or.inr (Or.inl ⟨⟨n,hprop₁ ▸ hn⟩,some o,s',Returns.bind hinit hrun,hprop.trans hprop₁,hafter⟩)
      · exact Or.inr (Or.inr ⟨some o,s',Returns.bind hinit hrun,hprop.trans hprop₁,hafter⟩)
  | @set o es is c₁ c₂ c₃ x hx hown =>
    rcases addBehind_held (.set hx hown) list pattern with ⟨hn,s',hrun,hprop,hafter⟩ | ⟨s',hrun,hprop,hafter⟩
    · exact Or.inr (Or.inl ⟨hn,some o,s',Returns.bind Returns.pure hrun,hprop,hafter⟩)
    · exact Or.inr (Or.inr ⟨some o,s',Returns.bind Returns.pure hrun,hprop,hafter⟩)

variable (p : MatchPlatform) (path : Bytes)

/-- What the loops of `lafe_excluded` make of a node. The first one keeps the last node that it
marked, and how many there were. -/
def marked (a : ℕ) (m : Match) (t : Option ℕ × ℕ) : Except (Option ℕ × ℕ) (Option ℕ × ℕ) × Match :=
  if m.timesMatched = 0 ∧ matchInclusion p m.pattern path then
    (.ok (some a,t.2+1),{ m with timesMatched := m.timesMatched+1 })
  else (.ok t,m)

def excluded (_ : ℕ) (m : Match) (_ : Unit) : Except Unit Unit × Match :=
  (if matchExclusion p m.pattern path then .error () else .ok (),m)

def counted (_ : ℕ) (m : Match) (_ : Unit) : Except Unit Unit × Match :=
  if 0 < m.timesMatched ∧ matchInclusion p m.pattern path then
    (.error (),{ m with timesMatched := m.timesMatched+1 })
  else (.ok (),m)

theorem foldNodes_marked (l : List (ℕ × Match)) (t : Option ℕ × ℕ) :
    (foldNodes (marked p path) l t).2.map Prod.snd = (markInclusions p path (l.map Prod.snd)).1 ∧
      ∃ last, (foldNodes (marked p path) l t).1 =
          .ok (last,t.2+(markInclusions p path (l.map Prod.snd)).2) ∧
        (last.isSome = true ↔ t.1.isSome = true ∨ (markInclusions p path (l.map Prod.snd)).2 ≠ 0) := by
  induction l generalizing t with
  | nil => exact ⟨rfl,t.1,rfl,by simp [markInclusions]⟩
  | cons c l ih =>
    by_cases hmark : c.2.timesMatched = 0 ∧ matchInclusion p c.2.pattern path = true
    · obtain ⟨hmap,last,hlast,hsome⟩ := ih (some c.1,t.2+1)
      simp only [foldNodes,marked,List.map_cons,markInclusions,if_pos hmark]
      refine ⟨by rw [← hmap],last,?_,?_⟩
      · rw [hlast]
        simp only [Except.ok.injEq,Prod.mk.injEq,true_and]
        omega
      · simp [hsome]
    · obtain ⟨hmap,last,hlast,hsome⟩ := ih t
      simp only [foldNodes,marked,List.map_cons,markInclusions,if_neg hmark]
      exact ⟨by rw [← hmap],last,hlast,hsome⟩

theorem foldNodes_excluded (l : List (ℕ × Match)) : foldNodes (excluded p path) l () =
    (if (l.map Prod.snd).any fun e => matchExclusion p e.pattern path then .error () else .ok (),l) := by
  induction l with
  | nil => rfl
  | cons c l ih =>
    simp only [foldNodes,excluded,List.map_cons,List.any_cons]
    by_cases hmatch : matchExclusion p c.2.pattern path = true
    · simp [hmatch]
    · rw [Bool.not_eq_true] at hmatch
      simp only [hmatch,Bool.false_or,Bool.false_eq_true,if_false,ih]

theorem foldNodes_counted (l : List (ℕ × Match)) :
    match countInclusion p path (l.map Prod.snd) with
    | none => foldNodes (counted p path) l () = (.ok (),l)
    | some l' => (foldNodes (counted p path) l ()).1 = .error () ∧
        (foldNodes (counted p path) l ()).2.map Prod.snd = l' := by
  induction l with
  | nil => rfl
  | cons c l ih =>
    simp only [List.map_cons,countInclusion]
    by_cases hmatch : 0 < c.2.timesMatched ∧ matchInclusion p c.2.pattern path = true
    · simp [foldNodes,counted,hmatch]
    · simp only [if_neg hmatch,foldNodes,counted]
      cases hcount : countInclusion p path (l.map Prod.snd) with
      | none =>
        rw [hcount] at ih
        simp [ih]
      | some l' =>
        rw [hcount] at ih
        simp [ih]

theorem next_node (m : Match) (next : Option ℕ) :
    nextNode (.node m next) = (pure next : Engine (Option ℕ)) := rfl

theorem markLoop_returns {o : ℕ} {head : Head} {is : List (ℕ × Match)} {fuel : ℕ}
    (hfuel : is.length < fuel)
    (hown : Owns base s.objects ((o,.head head)::(chain .node is ++ own))) :
    ∃ last s', Returns (forNodes nextNode (markNode p path o) fuel (start is) none) s (.ok last) s' ∧
      Unasked s s' ∧ (last.isSome = true ↔ (markInclusions p path (is.map Prod.snd)).2 ≠ 0) ∧
      ∃ is', is'.map Prod.snd = (markInclusions p path (is.map Prod.snd)).1 ∧ start is' = start is ∧
        is'.length = is.length ∧
        Owns base s'.objects ((o,.head { head with inclusionsUnmatchedCount :=
          head.inclusionsUnmatchedCount-(markInclusions p path (is.map Prod.snd)).2 })::
            (chain .node is' ++ own)) := by
  let ctx (t : Option ℕ × ℕ) : List (ℕ × EngineObject) := [(o,.head { head with
    inclusionsUnmatchedCount := head.inclusionsUnmatchedCount-t.2 })]
  have hbody (a : ℕ) (m : Match) (next : Option ℕ) (t : Option ℕ × ℕ) (rest : List (ℕ × EngineObject))
      (s : State EngineObject) (h : Owns base s.objects ((a,.node m next)::(ctx t ++ rest))) :
      ∃ s', Returns (markNode p path o a t.1) s
          (shown (fun _ => false) Prod.fst (marked p path a m t).1) s' ∧ Unasked s s' ∧
        Owns base s'.objects ((a,.node (marked p path a m t).2 next)::
          (ctx (ended (marked p path a m t).1) ++ rest)) := by
    have hnode := loadNode_returns h
    by_cases hmark : m.timesMatched = 0 ∧ matchInclusion p m.pattern path = true
    · have hswap := h.perm (List.Perm.swap _ _ _)
      obtain ⟨s₁,hcount,hkeeps₁,hown₁⟩ := hswap.stores (c := .head { head with
        inclusionsUnmatchedCount := head.inclusionsUnmatchedCount-(t.2+1 : ℕ) })
      obtain ⟨s₂,hmarked,hkeeps₂,hown₂⟩ := (hown₁.perm (List.Perm.swap _ _ _)).stores
        (c := .node { m with timesMatched := m.timesMatched+1 } next)
      simp only [marked,if_pos hmark,shown,ended]
      refine ⟨s₂,hnode.bind ?_,hkeeps₁.trans hkeeps₂,hown₂⟩
      simp only [if_pos hmark]
      refine (loadHead_returns hswap).bind ?_
      have hless : head.inclusionsUnmatchedCount-t.2-1 =
          head.inclusionsUnmatchedCount-((t.2+1 : ℕ) : ℤ) := by push_cast; ring
      simp only [hless]
      exact hcount.bind (hmarked.bind Returns.pure)
    · simp only [marked,if_neg hmark,shown,ended]
      refine ⟨s,hnode.bind ?_,⟨rfl,rfl⟩,h⟩
      simp only [if_neg hmark]
      exact Returns.pure
  have hctx : ctx (none,0) = [(o,.head head)] := by simp [ctx]
  obtain ⟨hmap,last,hlast,hsome⟩ := foldNodes_marked p path is (none,0)
  obtain ⟨s',hrun,hkeeps,hown'⟩ := forNodes_runs .node next_node hbody is hfuel
    (t := (none,0)) (s := s) (by rw [hctx]; exact hown)
  rw [hlast] at hrun hown'
  rw [Nat.zero_add] at hown'
  exact ⟨last,s',hrun,hkeeps,by simpa using hsome,_,hmap,start_foldNodes _ is _,
    length_foldNodes _ is _,hown'⟩

theorem excludeLoop_returns {es : List (ℕ × Match)} {fuel : ℕ} (hfuel : es.length < fuel)
    (hown : Owns base s.objects (chain .node es ++ own)) :
    ∃ s', Returns (forNodes nextNode (excludeNode p path) fuel (start es) ()) s
        (if (es.map Prod.snd).any fun e => matchExclusion p e.pattern path then .error true else .ok ())
        s' ∧ Unasked s s' ∧ Owns base s'.objects (chain .node es ++ own) := by
  have hbody (a : ℕ) (m : Match) (next : Option ℕ) (t : Unit) (rest : List (ℕ × EngineObject))
      (s : State EngineObject) (h : Owns base s.objects ((a,.node m next)::([] ++ rest))) :
      ∃ s', Returns (excludeNode p path a t) s
          (shown (fun _ => true) id (excluded p path a m t).1) s' ∧ Unasked s s' ∧
        Owns base s'.objects ((a,.node (excluded p path a m t).2 next)::([] ++ rest)) := by
    refine ⟨s,(loadNode_returns h).bind ?_,⟨rfl,rfl⟩,h⟩
    simp only [excluded]
    split <;> exact Returns.pure
  obtain ⟨s',hrun,hkeeps,hown'⟩ := forNodes_runs .node next_node
    hbody es hfuel (t := ()) (s := s) hown
  rw [foldNodes_excluded] at hrun hown'
  refine ⟨s',?_,hkeeps,hown'⟩
  by_cases hany : ((es.map Prod.snd).any fun e => matchExclusion p e.pattern path) = true
  · rw [if_pos hany] at hrun ⊢
    exact hrun
  · rw [if_neg hany] at hrun ⊢
    exact hrun

theorem countLoop_returns {is : List (ℕ × Match)} {fuel : ℕ} (hfuel : is.length < fuel)
    (hown : Owns base s.objects (chain .node is ++ own)) :
    ∃ s', Returns (forNodes nextNode (countNode p path) fuel (start is) ()) s
        (if (countInclusion p path (is.map Prod.snd)).isSome then .error false else .ok ()) s' ∧
      Unasked s s' ∧ ∃ is', start is' = start is ∧
        is'.map Prod.snd = (countInclusion p path (is.map Prod.snd)).getD (is.map Prod.snd) ∧
        Owns base s'.objects (chain .node is' ++ own) := by
  have hbody (a : ℕ) (m : Match) (next : Option ℕ) (t : Unit) (rest : List (ℕ × EngineObject))
      (s : State EngineObject) (h : Owns base s.objects ((a,.node m next)::([] ++ rest))) :
      ∃ s', Returns (countNode p path a t) s
          (shown (fun _ => false) id (counted p path a m t).1) s' ∧ Unasked s s' ∧
        Owns base s'.objects ((a,.node (counted p path a m t).2 next)::([] ++ rest)) := by
    have hnode := loadNode_returns h
    by_cases hmatch : 0 < m.timesMatched ∧ matchInclusion p m.pattern path = true
    · obtain ⟨s₁,hcount,hkeeps₁,hown₁⟩ := h.stores
        (c := .node { m with timesMatched := m.timesMatched+1 } next)
      simp only [counted,if_pos hmatch]
      refine ⟨s₁,hnode.bind ?_,hkeeps₁,hown₁⟩
      simp only [if_pos hmatch]
      exact hcount.bind Returns.pure
    · simp only [counted,if_neg hmatch]
      refine ⟨s,hnode.bind ?_,⟨rfl,rfl⟩,h⟩
      simp only [if_neg hmatch]
      exact Returns.pure
  obtain ⟨s',hrun,hkeeps,hown'⟩ := forNodes_runs .node next_node
    hbody is hfuel (t := ()) (s := s) hown
  have hfold := foldNodes_counted p path is
  refine ⟨s',?_,hkeeps,_,start_foldNodes _ is _,?_,hown'⟩
  · cases hcount : countInclusion p path (is.map Prod.snd) with
    | none =>
      rw [hcount] at hfold
      rw [hfold] at hrun
      exact hrun
    | some l' =>
      rw [hcount] at hfold
      rw [hfold.1] at hrun
      exact hrun
  · cases hcount : countInclusion p path (is.map Prod.snd) with
    | none =>
      rw [hcount] at hfold
      rw [hfold]
      rfl
    | some l' =>
      rw [hcount] at hfold
      exact hfold.2

theorem start_isSome (l : List (ℕ × Match)) : (start l).isSome = !(l.map Prod.snd).isEmpty := by
  cases l <;> rfl

/-- A test before there is an engine and one on an engine without patterns come to the same. -/
theorem lafeExcluded_getD (x : Option LafeMatching) :
    (ArchiveTarBuilder.lafeExcluded p x path).1 = (ArchiveTarBuilder.lafeExcluded p
        (some (x.getD ArchiveTarBuilder.initializeMatching)) path).1 ∧
      (ArchiveTarBuilder.lafeExcluded p x path).2.getD ArchiveTarBuilder.initializeMatching =
        (ArchiveTarBuilder.lafeExcluded p
          (some (x.getD ArchiveTarBuilder.initializeMatching)) path).2.getD
            ArchiveTarBuilder.initializeMatching := by
  cases x with
  | none => exact ⟨rfl,rfl⟩
  | some m => exact ⟨rfl,rfl⟩

theorem verdict_returns {o fuel : ℕ} {es is : List (ℕ × Match)} {c₁ c₂ : ℕ} {c₃ : ℤ}
    (hes : es.length < fuel) (his : is.length < fuel)
    (hown : Owns base s.objects ((o,.head ⟨start es,c₁,start is,c₂,c₃⟩)::(chain .node es ++ chain .node is)))
    (matched : Option ℕ) :
    ∃ s' is', Unasked s s' ∧ start is' = start is ∧
      Owns base s'.objects ((o,.head ⟨start es,c₁,start is,c₂,c₃⟩)::(chain .node es ++ chain .node is')) ∧
      if (es.map Prod.snd).any fun e => matchExclusion p e.pattern path then
        Returns (verdict p path o fuel matched) s true s' ∧ is' = is
      else if matched.isSome then Returns (verdict p path o fuel matched) s false s' ∧ is' = is
      else
        match countInclusion p path (is.map Prod.snd) with
        | some l => Returns (verdict p path o fuel matched) s false s' ∧ is'.map Prod.snd = l
        | none => Returns (verdict p path o fuel matched) s (!(is.map Prod.snd).isEmpty) s' ∧
            is'.map Prod.snd = is.map Prod.snd := by
  obtain ⟨s₁,hexclude,hkeeps₁,hown₁⟩ := excludeLoop_returns p path hes
    (hown.perm List.perm_middle.symm)
  have hback := hown₁.perm List.perm_middle
  have hhead := loadHead_returns hown
  by_cases hany : ((es.map Prod.snd).any fun e => matchExclusion p e.pattern path) = true
  · simp only [if_pos hany] at hexclude ⊢
    exact ⟨s₁,is,hkeeps₁,rfl,hback,hhead.bind (hexclude.bind Returns.pure),rfl⟩
  · simp only [if_neg hany] at hexclude ⊢
    by_cases hmatched : matched.isSome = true
    · simp only [if_pos hmatched]
      refine ⟨s₁,is,hkeeps₁,rfl,hback,hhead.bind (hexclude.bind ?_),rfl⟩
      simp only [if_pos hmatched]
      exact Returns.pure
    · simp only [if_neg hmatched]
      obtain ⟨s₂,hcount,hkeeps₂,is',hstart,hmap,hown₂⟩ := countLoop_returns p path his
        (hback.perm ((List.Perm.cons _ List.perm_append_comm).trans List.perm_middle.symm))
      have hback₂ := hown₂.perm (List.perm_middle.trans (List.Perm.cons _ List.perm_append_comm))
      refine ⟨s₂,is',hkeeps₁.trans hkeeps₂,hstart,hback₂,?_⟩
      cases hfound : countInclusion p path (is.map Prod.snd) with
      | some l =>
        simp only [hfound,Option.isSome_some,if_true,Option.getD_some] at hcount hmap ⊢
        refine ⟨hhead.bind (hexclude.bind ?_),hmap⟩
        simp only [if_neg hmatched]
        exact hcount.bind Returns.pure
      | none =>
        simp only [hfound,Option.isSome_none,Bool.false_eq_true,if_false,
          Option.getD_none] at hcount hmap ⊢
        refine ⟨hhead.bind (hexclude.bind ?_),hmap⟩
        simp only [if_neg hmatched]
        rw [← start_isSome]
        exact hcount.bind Returns.pure

theorem lafeExcluded_held {matching : Option ℕ} {x : Option LafeMatching}
    (h : Held base s.objects matching x) :
    ∃ s', Returns (lafeExcluded p path matching) s (ArchiveTarBuilder.lafeExcluded p x path).1 s' ∧
      s'.proposals = s.proposals ∧
      Held base s'.objects matching (ArchiveTarBuilder.lafeExcluded p x path).2 := by
  cases h with
  | unset hbase => exact ⟨s,Returns.pure,rfl,.unset hbase⟩
  | @set o es is c₁ c₂ c₃ x hx hown =>
    obtain ⟨hverdict,hafter⟩ := lafeExcluded_getD p path x
    rw [hx] at hverdict hafter
    rw [hverdict]
    have hcard := hown.length_le
    simp only [List.length_cons,List.length_append,chain_length] at hcard
    obtain ⟨last,s₁,hmark,hkeeps₁,hlast,is₁,hmap₁,hstart₁,hlen₁,hown₁⟩ := markLoop_returns p path
      (by omega : is.length < s.objects.keys.card+1)
      (hown.perm (List.Perm.cons _ List.perm_append_comm))
    rw [← hstart₁] at hown₁
    obtain ⟨s₂,is₂,hkeeps₂,hstart₂,hown₂,hrest⟩ := verdict_returns p path
      (by omega : es.length < s.objects.keys.card+1) (by omega : is₁.length < s.objects.keys.card+1)
      (hown₁.perm (List.Perm.cons _ List.perm_append_comm)) last
    rw [← hstart₂] at hown₂
    have hrun {b : Bool} (hb : Returns (verdict p path o (s.objects.keys.card+1) last) s₁ b s₂) :
        Returns (lafeExcluded p path (some o)) s b s₂ :=
      Returns.bind (a := s.objects.keys.card+1) rfl ((loadHead_returns hown).bind (hmark.bind hb))
    rw [hmap₁] at hrest
    have hgoal : Returns (lafeExcluded p path (some o)) s (ArchiveTarBuilder.lafeExcluded p
          (some ⟨es.map Prod.snd,c₁,is.map Prod.snd,c₂,c₃⟩) path).1 s₂ ∧
        (ArchiveTarBuilder.lafeExcluded p (some ⟨es.map Prod.snd,c₁,is.map Prod.snd,c₂,c₃⟩) path).2 =
          some ⟨es.map Prod.snd,c₁,is₂.map Prod.snd,c₂,
            c₃-(markInclusions p path (is.map Prod.snd)).2⟩ := by
      simp only [ArchiveTarBuilder.lafeExcluded,← hlast]
      by_cases hany : ((es.map Prod.snd).any fun e => matchExclusion p e.pattern path) = true
      · simp only [if_pos hany] at hrest ⊢
        obtain ⟨hb,rfl⟩ := hrest
        exact ⟨hrun hb,by rw [hmap₁]⟩
      · simp only [if_neg hany] at hrest ⊢
        by_cases hsome : last.isSome = true
        · simp only [if_pos hsome] at hrest ⊢
          obtain ⟨hb,rfl⟩ := hrest
          exact ⟨hrun hb,by rw [hmap₁]⟩
        · simp only [if_neg hsome] at hrest ⊢
          cases hfound : countInclusion p path (markInclusions p path (is.map Prod.snd)).1 with
          | some l =>
            simp only [hfound] at hrest ⊢
            exact ⟨hrun hrest.1,by rw [hrest.2]⟩
          | none =>
            simp only [hfound] at hrest ⊢
            exact ⟨hrun hrest.1,by rw [hrest.2]⟩
    refine ⟨s₂,hgoal.1,hkeeps₂.1.trans hkeeps₁.1,.set (hafter.trans ?_) hown₂⟩
    rw [hgoal.2]
    rfl

theorem lafeCleanupExclusions_held {matching : Option ℕ} {x : Option LafeMatching}
    (h : Held base s.objects matching x) :
    ∃ s', Returns (lafeCleanupExclusions matching) s none s' ∧ s'.proposals = s.proposals ∧
      s'.objects = base := by
  cases h with
  | unset hbase => exact ⟨s,Returns.pure,rfl,hbase⟩
  | @set o es is c₁ c₂ c₃ x hx hown =>
    have hcard := hown.length_le
    simp only [List.length_cons,List.length_append,chain_length] at hcard
    obtain ⟨s₁,hfree₁,hkeeps₁,hown₁⟩ := freeNodes_runs .node next_node is
      (by omega : is.length < s.objects.keys.card+1)
      (hown.perm ((List.Perm.cons _ List.perm_append_comm).trans List.perm_middle.symm))
    obtain ⟨s₂,hfree₂,hkeeps₂,hown₂⟩ := freeNodes_runs .node next_node es
      (by omega : es.length < s.objects.keys.card+1)
      (hown₁.perm (List.perm_append_singleton _ _).symm)
    obtain ⟨s₃,hfree₃,hkeeps₃,hown₃⟩ := hown₂.frees
    refine ⟨s₃,?_,(hkeeps₁.trans (hkeeps₂.trans hkeeps₃)).1,hown₃.eq_base⟩
    exact Returns.bind (a := s.objects.keys.card+1) rfl ((loadHead_returns hown).bind
      (hfree₁.bind ((loadHead_returns hown₁).bind (hfree₂.bind (hfree₃.bind Returns.pure)))))

theorem lafeUnmatchedInclusions_held {matching : Option ℕ} {x : Option LafeMatching}
    (h : Held base s.objects matching x) :
    Returns (lafeUnmatchedInclusions matching) s (ArchiveTarBuilder.lafeUnmatchedInclusions x) s := by
  cases h with
  | unset hbase => exact Returns.pure
  | @set o es is c₁ c₂ c₃ x hx hown =>
    have hcount : ArchiveTarBuilder.lafeUnmatchedInclusions x = c₃ := by
      cases x with
      | none => exact congrArg LafeMatching.inclusionsUnmatchedCount hx
      | some m => exact congrArg LafeMatching.inclusionsUnmatchedCount hx
    rw [hcount]
    exact (loadHead_returns hown).bind Returns.pure

end

section
variable (charLe : UInt8 → UInt8 → Bool) {base : Objects EngineObject}

/-- How a call ends on an engine that is the set of patterns `x`: it stops, it adds a pattern and is
refused, or it answers as the lists do. -/
inductive CallEnds (base : Objects EngineObject) (s : State EngineObject) (x : Option LafeMatching)
    (c : EngineCall) (run : Engine (ℤ × Option ℕ)) : Prop
  | stops (hn : ∃ n, s.proposals n = none ∧ s.proposals (n+1) ≠ none) (hstops : Stops run s)
  | refused (hadds : c.adds = true) (hn : ∃ n, s.proposals n = none) {matching : Option ℕ}
      {t : State EngineObject} (hrun : Returns run s (-1,matching) t) (hprop : t.proposals = s.proposals)
      (hafter : Held base t.objects matching x)
  | answers {matching : Option ℕ} {t : State EngineObject}
      (hrun : Returns run s ((c.answer charLe x).1,matching) t) (hprop : t.proposals = s.proposals)
      (hafter : Held base t.objects matching (c.answer charLe x).2)

theorem perform_held {s : State EngineObject} {matching : Option ℕ} {x : Option LafeMatching}
    (h : Held base s.objects matching x) (c : EngineCall) :
    CallEnds charLe base s x c (c.perform charLe matching) := by
  -- both additions return what `addTo` came to
  have hadd {list : ListField} {pattern : Bytes} (hadds : c.adds = true)
      (hperform : c.perform charLe matching =
        addTo list matching pattern >>= fun r => pure (if r.1 then 0 else -1,r.2))
      (hanswer : c.answer charLe x = (0,list.added x pattern)) :
      CallEnds charLe base s x c (c.perform charLe matching) := by
    rw [hperform]
    rcases addTo_held h list pattern with ⟨hn,hstops⟩ | ⟨hn,matching',s',hrun,hprop,hafter⟩ |
      ⟨matching',s',hrun,hprop,hafter⟩
    · exact .stops hn (Stops.bind hstops)
    · exact .refused hadds hn (hrun.bind Returns.pure) hprop hafter
    · refine .answers (?_ : Returns _ s ((c.answer charLe x).1,matching') s') hprop ?_
      · rw [hanswer]
        exact hrun.bind Returns.pure
      · rw [hanswer]
        exact hafter
  cases c with
  | exclude pattern => exact hadd rfl rfl rfl
  | includes pattern => exact hadd rfl rfl rfl
  | test path behind =>
    obtain ⟨s',hrun,hprop,hafter⟩ := lafeExcluded_held (withMemory charLe behind) path h
    exact .answers (Returns.bind hrun Returns.pure) hprop hafter
  | unmatched => exact .answers (Returns.bind (lafeUnmatchedInclusions_held h) Returns.pure) rfl h
  | cleanup =>
    obtain ⟨s',hrun,hprop,hbase⟩ := lafeCleanupExclusions_held h
    exact .answers (Returns.bind hrun Returns.pure) hprop (.unset hbase)

/-- What a history that ends with `lafe_cleanup_exclusions` comes to: the answers of the lists, the
additions that were refused left out, and nothing left behind. -/
structure Freed (base : Objects EngineObject) (refused : Prop) (x : Option LafeMatching)
    (calls : List EngineCall) (r : List ℤ × Option ℕ) (s : State EngineObject) : Prop where
  answers : Answers charLe refused x calls r.1
  unset : r.2 = none
  objects : s.objects = base

theorem runEngine_held (calls : List EngineCall) {s : State EngineObject} {matching : Option ℕ}
    {x : Option LafeMatching} (h : Held base s.objects matching x) :
    (∃ n, s.proposals n = none ∧ s.proposals (n+1) ≠ none) ∧
        Stops (runEngine charLe (calls ++ [.cleanup]) matching) s ∨
      ∃ r s', Returns (runEngine charLe (calls ++ [.cleanup]) matching) s r s' ∧
        Freed charLe base (∃ n, s.proposals n = none) x (calls ++ [.cleanup]) r s' := by
  induction calls generalizing s matching x with
  | nil =>
    obtain ⟨s',hrun,hprop,hbase⟩ := lafeCleanupExclusions_held h
    have hlast : Returns (EngineCall.cleanup.perform charLe matching) s (0,none) s' :=
      Returns.bind hrun Returns.pure
    exact Or.inr ⟨([0],none),s',hlast.bind (Returns.bind Returns.pure Returns.pure),
      .call .cleanup (.done none),rfl,hbase⟩
  | cons c calls ih =>
    cases perform_held charLe h c with
    | stops hn hstops => exact Or.inl ⟨hn,Stops.bind hstops⟩
    | refused hadds hn hrun hprop hafter =>
      have hrest := ih hafter
      rw [hprop] at hrest
      rcases hrest with ⟨hn',hstops⟩ | ⟨r,s'',hrest,hends⟩
      · exact Or.inl ⟨hn',hrun.stops (Stops.bind hstops)⟩
      · exact Or.inr ⟨_,s'',hrun.bind (hrest.bind Returns.pure),.refuse hadds hn hends.answers,hends.unset,
          hends.objects⟩
    | answers hrun hprop hafter =>
      have hrest := ih hafter
      rw [hprop] at hrest
      rcases hrest with ⟨hn',hstops⟩ | ⟨r,s'',hrest,hends⟩
      · exact Or.inl ⟨hn',hrun.stops (Stops.bind hstops)⟩
      · exact Or.inr ⟨_,s'',hrun.bind (hrest.bind Returns.pure),.call c hends.answers,hends.unset,
          hends.objects⟩

/-- Whatever addresses the nodes get and whichever of them are refused, the engine on its nodes
answers as the lists do without the additions that failed, and gives all its memory back. It stops
only where the engine itself is refused and the pattern behind it is not. -/
theorem runEngine_answers (base : Objects EngineObject) (proposals : ℕ → Option ℕ)
    (calls : List EngineCall) :
    let r := runEngine charLe (calls ++ [.cleanup]) none ⟨base,proposals,0⟩
    match r.1 with
    | .error _ => ∃ n, proposals n = none ∧ proposals (n+1) ≠ none
    | .ok (answers,matching) => matching = none ∧ r.2.objects = base ∧
        Answers charLe (∃ n, proposals n = none) none (calls ++ [.cleanup]) answers := by
  rcases runEngine_held charLe calls (s := ⟨base,proposals,0⟩) (x := none) (.unset rfl) with ⟨hn,hstops⟩ | ⟨r,s',hrun,hends⟩
  · simp only
    unfold Stops at hstops
    rw [hstops]
    exact hn
  · simp only
    unfold Returns at hrun
    rw [hrun]
    exact ⟨hends.unset,hends.objects,hends.answers⟩

end

end Chained
end ArchiveTarBuilder
