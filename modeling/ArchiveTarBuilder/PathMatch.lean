import ArchiveTarBuilder.Path

/-! `match_path.c`: patterns against path names. A pattern is a C string without its NUL. A subject
is the memory from a byte of the path on: a negated class matches the NUL too, and then goes on
with what lies behind it. -/
namespace ArchiveTarBuilder

structure PathmatchFlags where
  noAnchorStart : Bool
  noAnchorEnd : Bool
  deriving DecidableEq, Repr

def pmSlashskip : Bytes → Bytes
  | [] => []
  | c::s =>
    if c = slash ∨ (c = 46 ∧ (s.headD 0 = slash ∨ s.headD 0 = 0)) then pmSlashskip s else c::s

section
-- how `<=` compares two values of type `char`, which may be signed or not
variable (charLe : UInt8 → UInt8 → Bool)

/-- The loop of `pm_list` on what is left of the class: does it hold `c`? No `\` comes last. -/
def pmListLoop (c : UInt8) : UInt8 → Bytes → Bool
  | _, [] => false
  | rangeStart, b::p =>
    if b = 45 then
      if rangeStart = 0 ∨ p = [] then if b = c then true else pmListLoop c 0 p
      else
        match p with
        | [] => false
        | e::p =>
          if e = 92 then
            match p with
            | [] => false
            | e::p => if charLe rangeStart c && charLe c e then true else pmListLoop c 0 p
          else if charLe rangeStart c && charLe c e then true else pmListLoop c 0 p
    else if b = 92 then
      match p with
      | [] => false
      | b::p => if b = c then true else pmListLoop c b p
    else if b = c then true else pmListLoop c b p

def pmList (list : Bytes) (c : UInt8) : Bool :=
  match list with
  | [] => false
  | b::rest => if b = 33 ∨ b = 94 then !pmListLoop charLe c 0 rest else pmListLoop charLe c 0 list

def pmClass : Bytes → Option (Bytes × Bytes)
  | [] => none
  | b::p =>
    if b = 93 then some ([],p)
    else if b = 92 then
      match p with
      | [] => none
      | e::p => (pmClass p).map fun r => (b::e::r.1,r.2)
    else (pmClass p).map fun r => (b::r.1,r.2)

def places : Bytes → List Bytes
  | [] => []
  | c::s => if c = 0 then [] else (c::s)::places s

/-- What `strchr(s, '/')` finds, one `/` after the other, each skipped. -/
def behindSlashes : Bytes → List Bytes
  | [] => []
  | c::s => if c = 0 then [] else if c = slash then s::behindSlashes s else behindSlashes s

def elementStarts (s : Bytes) : List Bytes :=
  let s := if s.headD 0 = slash then s.tail else s
  s::behindSlashes s

def pmDotskip (s : Bytes) : Bytes :=
  if s.headD 0 = 46 ∧ s.tail.headD 0 = slash then pmSlashskip s.tail else s

def pmBy (loop : Bytes → Bytes → PathmatchFlags → Bool) (p s : Bytes) (flags : PathmatchFlags) : Bool :=
  loop (pmDotskip p) (pmDotskip s) flags

def pathmatchBy (loop : Bytes → Bytes → PathmatchFlags → Bool) (p s : Bytes)
    (flags : PathmatchFlags) : Bool :=
  if p = [] then decide (s.headD 0 = 0)
  else
    let anchored := p.headD 0 = 94
    let p := if anchored then p.tail else p
    let flags := if anchored then { flags with noAnchorStart := false } else flags
    if p.headD 0 = slash ∧ s.headD 0 ≠ slash then false
    else if p.headD 0 = 42 ∨ p.headD 0 = slash then
      pmBy loop (p.dropWhile (· = slash)) (s.dropWhile (· = slash)) flags
    else if flags.noAnchorStart then (elementStarts s).any fun t => pmBy loop p t flags
    else pmBy loop p s flags

def pmRound (loop : Bytes → Bytes → PathmatchFlags → Bool) (p s : Bytes) (flags : PathmatchFlags) :
    Bool :=
  let c := s.headD 0
  match p with
  | [] =>
    if c = slash then flags.noAnchorEnd || decide ((pmSlashskip s).headD 0 = 0) else decide (c = 0)
  | b::q =>
    if b = 63 then if c = 0 then false else loop q s.tail flags
    else if b = 42 then
      let q := q.dropWhile (· = 42)
      if q = [] then true else (places s).any fun t => pathmatchBy loop q t flags
    else if b = 91 then
      match pmClass q with
      | some (list,q) => if pmList charLe list c then loop q s.tail flags else false
      | none => if b ≠ c then false else loop q s.tail flags
    else if b = 92 then
      match q with
      | [] => if c ≠ 92 then false else loop [] s.tail flags
      | b::q => if b ≠ c then false else loop q s.tail flags
    else if b = slash then
      if c ≠ slash ∧ c ≠ 0 then false
      else
        let q := pmSlashskip q
        if q = [] ∧ flags.noAnchorEnd then true else loop q (pmSlashskip s) flags
    else if b = 36 ∧ q = [] ∧ flags.noAnchorEnd then decide ((pmSlashskip s).headD 0 = 0)
    else if b ≠ c then false else loop q s.tail flags

/-- The loop of `pm`. Every round takes at least one byte of the pattern, so the fuel never ends
it when it exceeds the length of the pattern. -/
def pmLoop : ℕ → Bytes → Bytes → PathmatchFlags → Bool
  | 0, _, _, _ => false
  | fuel+1, p, s, flags => pmRound charLe (pmLoop fuel) p s flags

def lafePathmatch (p s : Bytes) (flags : PathmatchFlags) : Bool :=
  pathmatchBy (pmLoop charLe (p.length+1)) p s flags

theorem length_pmSlashskip_le (s : Bytes) : (pmSlashskip s).length ≤ s.length := by
  induction s with
  | nil => exact le_rfl
  | cons c s ih =>
    unfold pmSlashskip
    split
    · exact ih.trans (Nat.le_succ _)
    · exact le_rfl

theorem length_pmDotskip_le (s : Bytes) : (pmDotskip s).length ≤ s.length := by
  unfold pmDotskip
  split
  · exact (length_pmSlashskip_le _).trans (by simp)
  · exact le_rfl

theorem pmClass_length (p : Bytes) : ∀ r ∈ pmClass p, r.2.length < p.length := by
  fun_induction pmClass p with
  | case1 => simp
  | case2 p =>
    intro r hr
    rw [← Option.some.inj hr]
    exact Nat.lt_succ_self _
  | case3 => simp
  | case4 e p _ ih =>
    intro r hr
    obtain ⟨r',hr',rfl⟩ := Option.map_eq_some_iff.mp hr
    have hlt := ih r' hr'
    simp only [List.length_cons]
    omega
  | case5 b p _ _ ih =>
    intro r hr
    obtain ⟨r',hr',rfl⟩ := Option.map_eq_some_iff.mp hr
    exact (ih r' hr').trans (Nat.lt_succ_self _)

def SameUpTo (n : ℕ) (loop loop' : Bytes → Bytes → PathmatchFlags → Bool) : Prop :=
  ∀ p s flags, p.length ≤ n → loop p s flags = loop' p s flags

theorem pathmatchBy_congr {n : ℕ} {loop loop' : Bytes → Bytes → PathmatchFlags → Bool}
    (h : SameUpTo n loop loop') : SameUpTo n (pathmatchBy loop) (pathmatchBy loop') := by
  have hpm : SameUpTo n (pmBy loop) (pmBy loop') :=
    fun p s flags hp => h _ _ _ ((length_pmDotskip_le p).trans hp)
  intro p s flags hp
  have hlen : (if p.headD 0 = 94 then p.tail else p).length ≤ n := by
    split
    · exact le_trans (by simp) hp
    · exact hp
  unfold pathmatchBy
  simp only
  generalize (if p.headD 0 = 94 then p.tail else p) = q at hlen ⊢
  generalize (if p.headD 0 = 94 then { flags with noAnchorStart := false } else flags) = flags
  have hdrop : (q.dropWhile (· = slash)).length ≤ n :=
    (List.dropWhile_suffix _).length_le.trans hlen
  have hany : ((elementStarts s).any fun t => pmBy loop q t flags) =
      (elementStarts s).any fun t => pmBy loop' q t flags := by
    congr 1
    funext t
    exact hpm _ _ _ hlen
  rw [hpm _ _ _ hdrop,hpm _ _ _ hlen,hany]

theorem pmRound_congr {n : ℕ} {loop loop' : Bytes → Bytes → PathmatchFlags → Bool}
    (h : SameUpTo n loop loop') : SameUpTo (n+1) (pmRound charLe loop) (pmRound charLe loop') := by
  intro p s flags hp
  cases p with
  | nil => rfl
  | cons b q =>
    have hq : q.length ≤ n := Nat.le_of_succ_le_succ hp
    have hstars : (q.dropWhile (· = 42)).length ≤ n := (List.dropWhile_suffix _).length_le.trans hq
    have hany : ((places s).any fun t => pathmatchBy loop (q.dropWhile (· = 42)) t flags) =
        (places s).any fun t => pathmatchBy loop' (q.dropWhile (· = 42)) t flags := by
      congr 1
      funext t
      exact pathmatchBy_congr h _ _ _ hstars
    have hslash := h (pmSlashskip q) (pmSlashskip s) flags ((length_pmSlashskip_le q).trans hq)
    have hclass : ∀ r ∈ pmClass q, loop r.2 s.tail flags = loop' r.2 s.tail flags :=
      fun r hr => h _ _ _ ((pmClass_length q r hr).le.trans hq)
    simp only [pmRound,hany,hslash,h _ _ _ hq]
    cases hr : pmClass q with
    | none =>
      cases q with
      | nil => simp only [h [] s.tail flags (Nat.zero_le n)]
      | cons e q => simp only [h q s.tail flags (Nat.le_of_succ_le hq)]
    | some r =>
      cases q with
      | nil => cases hr
      | cons e q => simp only [hclass r hr,h q s.tail flags (Nat.le_of_succ_le hq)]

theorem pmLoop_fuel (n fuel fuel' : ℕ) (hf : n < fuel) (hf' : n < fuel') :
    SameUpTo n (pmLoop charLe fuel) (pmLoop charLe fuel') := by
  induction n generalizing fuel fuel' with
  | zero =>
    obtain ⟨f,rfl⟩ := Nat.exists_eq_succ_of_ne_zero hf.ne'
    obtain ⟨f',rfl⟩ := Nat.exists_eq_succ_of_ne_zero hf'.ne'
    intro p s flags hp
    rw [List.length_eq_zero_iff.mp (Nat.le_zero.mp hp)]
    rfl
  | succ n ih =>
    obtain ⟨f,rfl⟩ := Nat.exists_eq_succ_of_ne_zero (by omega : fuel ≠ 0)
    obtain ⟨f',rfl⟩ := Nat.exists_eq_succ_of_ne_zero (by omega : fuel' ≠ 0)
    exact pmRound_congr charLe (ih f f' (by omega) (by omega))

/-- `lafe_pathmatch` is what it is over a loop that never ends for want of fuel. -/
theorem lafePathmatch_fuel (p s : Bytes) (flags : PathmatchFlags) (fuel : ℕ) (h : p.length < fuel) :
    lafePathmatch charLe p s flags = pathmatchBy (pmLoop charLe fuel) p s flags :=
  pathmatchBy_congr (pmLoop_fuel charLe p.length _ _ (Nat.lt_succ_self _) h) _ _ _ le_rfl

end

end ArchiveTarBuilder
