import Mathlib.Computability.Language
import ArchiveTarBuilder.ExcludedTrees

/-! What the path patterns mean: a pattern is read once, as an expression that names a language, and
`lafe_pathmatch` finds out whether a path is in it. A path here has no empty components and no `.`
but, maybe, in front. -/
namespace ArchiveTarBuilder
open CString

/-- Where a match starts: at the slash of an absolute path, behind it, at any element, or where the
path does. -/
inductive GlobStart
  | root | first | element | whole
  deriving DecidableEq, Repr

inductive Glob
  | done
  | one (holds : UInt8 → Bool) (rest : Glob)
  | slash (rest : Glob)
  | finish
  | everything
  | star (start : GlobStart) (rest : Glob)

def oneByte (holds : UInt8 → Bool) : Language UInt8 := {w | ∃ b, holds b = true ∧ w = [b]}

/-- What may follow a `*`. Nothing is looked for at the end of a path or at a `./`; and at a slash
only where elements do not start matches. -/
def GlobStart.behindStar (l : Language UInt8) : GlobStart → Language UInt8
  | .root => {[ArchiveTarBuilder.slash]} * l
  | .whole => {t | t ∈ l ∧ t ≠ [] ∧ ¬[46,ArchiveTarBuilder.slash] <+: t}
  | .first | .element => {t | t ∈ l ∧ t ≠ [] ∧ ¬[46,ArchiveTarBuilder.slash] <+: t ∧
      t.headD 0 ≠ ArchiveTarBuilder.slash}

/-- What is left of a path where the rest of a pattern matches. A pattern that ends inside a path
ends with a component of it; a `/` does not insist on a slash at the end of the path; and `$` takes
the end for reached in front of a last `.`. -/
def Glob.language : Glob → Language UInt8
  | .done => 1 + {[ArchiveTarBuilder.slash]} * ⊤
  | .one holds rest => oneByte holds * rest.language
  | .slash rest => {[ArchiveTarBuilder.slash]} * rest.language + rest.language ⊓ 1
  | .finish => 1 + {dot}
  | .everything => ⊤
  | .star start rest => ⊤ * start.behindStar rest.language

def Glob.takesNul : Glob → Bool
  | .done | .finish | .everything => false
  | .one holds rest => holds 0 || rest.takesNul
  | .slash rest | .star _ rest => rest.takesNul

/-- How a pattern starts: `^` takes back that elements start matches, `/` and `*` do it too. -/
def globEntry (items : Bool → Bytes → Glob) (free : Bool) (p : Bytes) : GlobStart × Glob :=
  let anchored := p.headD 0 = 94
  let free := if anchored then false else free
  let p := if anchored then p.tail else p
  if p.headD 0 = slash then (.root,items free (pmDotskip (p.dropWhile (· = slash))))
  else if p.headD 0 = 42 then (.first,items free p)
  else (if free then .element else .whole,items free (pmDotskip p))

section
variable (charLe : UInt8 → UInt8 → Bool)

def globRound (items : Bool → Bytes → Glob) (free : Bool) : Bytes → Glob
  | [] => .done
  | b::q =>
    if b = 63 then .one (fun c => decide (c ≠ 0)) (items free q)
    else if b = 42 then
      let q := q.dropWhile (· = 42)
      if q = [] then .everything
      else
        let entry := globEntry items free q
        .star entry.1 entry.2
    else if b = 91 then
      match pmClass q with
      | some (list,q) => .one (pmList charLe list) (items free q)
      | none => .one (fun c => decide (b = c)) (items free q)
    else if b = 92 then
      match q with
      | [] => .one (fun c => decide (c = 92)) (items free [])
      | b::q => .one (fun c => decide (b = c)) (items free q)
    else if b = slash then
      let q := pmSlashskip q
      if q = [] then .done else .slash (items free q)
    else if b = 36 ∧ q = [] then .finish
    else .one (fun c => decide (b = c)) (items free q)

def globItems : ℕ → Bool → Bytes → Glob
  | 0 => fun _ _ => .done
  | fuel+1 => globRound charLe (globItems fuel)

def globOf (free : Bool) (p : Bytes) : GlobStart × Glob :=
  globEntry (globItems charLe (p.length+1)) free p

end

/-! The path from some point on. -/

structure CleanRest (u : Bytes) : Prop where
  slashes : ∀ w, slash::w <:+ u → w ≠ [] ∧ w.headD 0 ≠ slash ∧
    (w.headD 0 = 46 → w.tail.headD 0 ≠ slash ∧ w.tail.headD 0 ≠ 0)
  nul : 0 ∉ u

theorem CleanRest.suffix {u v : Bytes} (h : CleanRest u) (hv : v <:+ u) : CleanRest v where
  slashes := fun w hw => h.slashes w (hw.trans hv)
  nul := fun hmem => h.nul (hv.subset hmem)

theorem CleanRest.tail {c : UInt8} {u : Bytes} (h : CleanRest (c::u)) : CleanRest u :=
  h.suffix (List.suffix_cons c u)

theorem CleanRest.head_ne {c : UInt8} {u : Bytes} (h : CleanRest (c::u)) : c ≠ 0 :=
  fun hc => h.nul (by simp [hc])

theorem dotSlash_start (u : Bytes) : [46,slash] <+: u ↔ u.headD 0 = 46 ∧ u.tail.headD 0 = slash := by
  match u with
  | [] => simp
  | [c] => simp [List.cons_prefix_cons,slash]
  | c::d::u => simp [List.cons_prefix_cons,eq_comm]

section
variable {u z : Bytes} (hz : z.headD 0 = 0)
include hz

theorem headD_memory (u : Bytes) : (u ++ z).headD 0 = u.headD 0 := by
  cases u with
  | nil => exact hz
  | cons c u => rfl

theorem pmSlashskip_memory : pmSlashskip z = z :=
  pmSlashskip_start (by rw [hz]; decide) fun hdot => absurd (hz.symm.trans hdot) (by decide)

variable (h : CleanRest u)
include h

theorem CleanRest.slashskip {w : Bytes} (hw : u = slash::w) : pmSlashskip (u ++ z) = w ++ z := by
  obtain ⟨hne,hslash,hdot⟩ := h.slashes w (by rw [hw])
  rw [hw,List.cons_append,pmSlashskip,if_pos (.inl rfl)]
  refine pmSlashskip_start (by rwa [headD_memory hz]) fun hhead => ?_
  have htail : (w ++ z).tail.headD 0 = w.tail.headD 0 := by
    obtain ⟨c,w,rfl⟩ := List.exists_cons_of_ne_nil hne
    exact headD_memory hz w
  rw [htail]
  exact hdot (by rwa [headD_memory hz] at hhead)

theorem CleanRest.finish : (pmSlashskip (u ++ z)).headD 0 = 0 ↔ u = [] ∨ u = dot := by
  have hmore {w : Bytes} (hw : slash::w <:+ u) : (w ++ z).headD 0 ≠ 0 := by
    obtain ⟨hne,-⟩ := h.slashes w hw
    have hclean := h.suffix ((List.suffix_cons slash w).trans hw)
    obtain ⟨c,w,rfl⟩ := List.exists_cons_of_ne_nil hne
    exact hclean.head_ne
  cases u with
  | nil =>
    rw [List.nil_append,pmSlashskip_memory hz]
    exact iff_of_true hz (Or.inl rfl)
  | cons c w =>
    by_cases hslash : c = slash
    · subst hslash
      rw [h.slashskip hz rfl]
      exact iff_of_false (hmore List.suffix_rfl) (by simp [dot,slash])
    by_cases hdot : c = 46
    · subst hdot
      cases w with
      | nil =>
        rw [List.cons_append,List.nil_append,pmSlashskip,if_pos (Or.inr ⟨rfl,Or.inr hz⟩),
          pmSlashskip_memory hz]
        exact iff_of_true hz (Or.inr rfl)
      | cons d w =>
        have hne : ¬(46::d::w = [] ∨ 46::d::w = dot) := by simp [dot]
        by_cases hd : d = slash
        · subst hd
          have htail : CleanRest (slash::w) := h.tail
          rw [List.cons_append,pmSlashskip,if_pos (Or.inr ⟨rfl,Or.inl rfl⟩),htail.slashskip hz rfl]
          exact iff_of_false (hmore (List.suffix_cons 46 (slash::w))) hne
        · have hd' : d ≠ 0 := h.tail.head_ne
          rw [List.cons_append,List.cons_append,pmSlashskip,if_neg]
          · exact iff_of_false (by simp) hne
          · rintro (hno | ⟨-,hno | hno⟩)
            · exact absurd hno (by decide)
            · exact hd hno
            · exact hd' hno
    · rw [List.cons_append,pmSlashskip,if_neg (not_or.mpr ⟨hslash,fun hno => hdot hno.1⟩)]
      exact iff_of_false h.head_ne (by simp [dot,hdot])

omit hz in
theorem CleanRest.notMem_dotSlash {w : Bytes} (hw : slash::w <:+ u) : ¬[46,slash] <+: w := by
  rw [dotSlash_start]
  exact fun hdot => ((h.slashes w hw).2.2 hdot.1).1 hdot.2

theorem CleanRest.dotskip : pmDotskip (u ++ z) = pmDotskip u ++ z ∧ pmDotskip u <:+ u ∧
    ¬[46,slash] <+: pmDotskip u ∧ (pmDotskip u = [] → u = []) ∧
    (¬[46,slash] <+: u → pmDotskip u = u) := by
  by_cases hdot : [46,slash] <+: u
  · obtain ⟨w,hu⟩ := hdot
    obtain rfl : u = 46::slash::w := hu.symm
    have hw : CleanRest (slash::w) := h.tail
    have hnil : ([] : Bytes).headD 0 = 0 := rfl
    have hskip := hw.slashskip hz rfl
    have hskip' := hw.slashskip hnil rfl
    rw [List.append_nil,List.append_nil] at hskip'
    have hself : pmDotskip (46::slash::w) = w := by
      rw [pmDotskip,if_pos ⟨rfl,rfl⟩]
      exact hskip'
    have hmemory : pmDotskip (46::slash::w ++ z) = w ++ z := by
      rw [List.cons_append,pmDotskip,if_pos ⟨rfl,rfl⟩]
      exact hskip
    have hsuffix : slash::w <:+ 46::slash::w := List.suffix_cons 46 (slash::w)
    rw [hmemory,hself]
    refine ⟨rfl,(List.suffix_cons slash w).trans hsuffix,h.notMem_dotSlash hsuffix,
      fun hnil => absurd hnil (h.slashes w hsuffix).1,
      fun hno => absurd (List.prefix_append [46,slash] w) hno⟩
  · have hself : pmDotskip u = u := pmDotskip_start fun hhead htail =>
      hdot ((dotSlash_start u).mpr ⟨hhead,htail⟩)
    rw [hself]
    refine ⟨?_,List.suffix_rfl,hdot,id,fun _ => rfl⟩
    refine pmDotskip_start fun hhead htail => hdot ((dotSlash_start u).mpr ?_)
    rw [headD_memory hz] at hhead
    obtain ⟨c,u,rfl⟩ := List.exists_cons_of_ne_nil (show u ≠ [] by rintro rfl; cases hhead)
    exact ⟨hhead,(headD_memory hz u).symm.trans htail⟩

theorem CleanRest.dropSlash : (u ++ z).dropWhile (· = slash) = u.dropWhile (· = slash) ++ z ∧
    u.dropWhile (· = slash) <:+ u ∧ (u.dropWhile (· = slash)).headD 0 ≠ slash ∧
    (u.dropWhile (· = slash) = [] → u = []) ∧ (u.headD 0 ≠ slash → u.dropWhile (· = slash) = u) ∧
    ∀ w, u = slash::w → u.dropWhile (· = slash) = w := by
  have hstart {s : Bytes} (hs : s.headD 0 ≠ slash) : s.dropWhile (· = slash) = s := by
    cases s with
    | nil => rfl
    | cons c s => exact List.dropWhile_cons_of_neg (by simpa using hs)
  by_cases hslash : u.headD 0 = slash
  · obtain ⟨c,w,rfl⟩ := List.exists_cons_of_ne_nil (show u ≠ [] by rintro rfl; cases hslash)
    obtain rfl : c = slash := hslash
    obtain ⟨hne,hhead,-⟩ := h.slashes w List.suffix_rfl
    have hself : (slash::w).dropWhile (· = slash) = w := by
      rw [List.dropWhile_cons_of_pos (by simp),hstart hhead]
    have hmemory : (slash::w ++ z).dropWhile (· = slash) = w ++ z := by
      rw [List.cons_append,List.dropWhile_cons_of_pos (by simp),hstart (by rwa [headD_memory hz])]
    rw [hself]
    refine ⟨hmemory,List.suffix_cons slash w,hhead,fun hnil => absurd hnil hne,
      fun hno => absurd rfl hno,fun w' hw' => (List.cons.inj hw').2⟩
  · rw [hstart hslash]
    refine ⟨hstart (by rwa [headD_memory hz]),List.suffix_rfl,hslash,id,fun _ => rfl,fun w hw => ?_⟩
    rw [hw] at hslash
    exact absurd rfl hslash

theorem mem_places_memory (t : Bytes) :
    t ∈ places (u ++ z) ↔ ∃ v, v ≠ [] ∧ v <:+ u ∧ t = v ++ z := by
  induction u with
  | nil =>
    have hnone : places z = [] := by
      cases z with
      | nil => rfl
      | cons c z =>
        obtain rfl : c = 0 := hz
        rfl
    rw [List.nil_append,hnone]
    simp
  | cons c u ih =>
    rw [List.cons_append,places,if_neg h.head_ne,List.mem_cons,ih h.tail]
    constructor
    · rintro (rfl | ⟨v,hne,hv,rfl⟩)
      · exact ⟨c::u,List.cons_ne_nil c u,List.suffix_rfl,rfl⟩
      · exact ⟨v,hne,hv.trans (List.suffix_cons c u),rfl⟩
    · rintro ⟨v,hne,hv,rfl⟩
      rcases List.suffix_cons_iff.mp hv with rfl | hv
      · exact Or.inl rfl
      · exact Or.inr ⟨v,hne,hv,rfl⟩

theorem mem_behindSlashes_memory (t : Bytes) :
    t ∈ behindSlashes (u ++ z) ↔ ∃ v, slash::v <:+ u ∧ t = v ++ z := by
  induction u with
  | nil =>
    have hnone : behindSlashes z = [] := by
      cases z with
      | nil => rfl
      | cons c z =>
        obtain rfl : c = 0 := hz
        rfl
    rw [List.nil_append,hnone]
    simp
  | cons c u ih =>
    rw [List.cons_append,behindSlashes,if_neg h.head_ne]
    by_cases hc : c = slash
    · rw [if_pos hc,List.mem_cons,ih h.tail]
      constructor
      · rintro (rfl | ⟨v,hv,rfl⟩)
        · exact ⟨u,hc ▸ List.suffix_rfl,rfl⟩
        · exact ⟨v,hv.trans (List.suffix_cons c u),rfl⟩
      · rintro ⟨v,hv,rfl⟩
        rcases List.suffix_cons_iff.mp hv with heq | hv
        · exact Or.inl (by rw [(List.cons.inj heq).2])
        · exact Or.inr ⟨v,hv,rfl⟩
    · rw [if_neg hc,ih h.tail]
      constructor
      · rintro ⟨v,hv,rfl⟩
        exact ⟨v,hv.trans (List.suffix_cons c u),rfl⟩
      · rintro ⟨v,hv,rfl⟩
        rcases List.suffix_cons_iff.mp hv with heq | hv
        · exact absurd (List.cons.inj heq).1.symm hc
        · exact ⟨v,hv,rfl⟩

theorem mem_elementStarts_memory (t : Bytes) :
    t ∈ elementStarts (u ++ z) ↔ ∃ v ∈ elementStarts u, t = v ++ z := by
  have hbehind {v : Bytes} (hv : CleanRest v) (t : Bytes) :
      t ∈ behindSlashes (v ++ z) ↔ ∃ w ∈ behindSlashes v, t = w ++ z := by
    rw [mem_behindSlashes_memory hz hv]
    have hself (w : Bytes) : w ∈ behindSlashes v ↔ slash::w <:+ v := by
      have hmem := mem_behindSlashes_memory (show ([] : Bytes).headD 0 = 0 from rfl) hv w
      simpa using hmem
    simp only [hself]
  have hcons {v : Bytes} (hv : CleanRest v) : t ∈ (v ++ z)::behindSlashes (v ++ z) ↔
      ∃ w ∈ v::behindSlashes v, t = w ++ z := by
    rw [List.mem_cons,hbehind hv t]
    simp
  rw [elementStarts,elementStarts,headD_memory hz]
  by_cases hslash : u.headD 0 = slash
  · obtain ⟨c,w,rfl⟩ := List.exists_cons_of_ne_nil (show u ≠ [] by rintro rfl; cases hslash)
    rw [if_pos hslash,if_pos hslash,List.cons_append,List.tail_cons,List.tail_cons]
    exact hcons h.tail
  · rw [if_neg hslash,if_neg hslash]
    exact hcons h

omit hz h in
theorem suffix_of_elementStarts {v : Bytes} (hv : v ∈ elementStarts u) : v <:+ u := by
  have hbehind {w : Bytes} (hw : w <:+ u) (hv : v ∈ w::behindSlashes w) : v <:+ u := by
    rcases List.mem_cons.mp hv with rfl | hv
    · exact hw
    · exact (List.suffix_cons slash v).trans ((mem_behindSlashes hv).trans hw)
  rw [elementStarts] at hv
  split at hv
  · exact hbehind (List.tail_suffix u) hv
  · exact hbehind List.suffix_rfl hv

omit hz in
/-- An element starts at no slash, and every other place is found to be a start. -/
theorem CleanRest.elementStarts (hne : u ≠ []) :
    (∀ v ∈ elementStarts u, v ≠ [] ∧ v.headD 0 ≠ slash) ∧
      (u.headD 0 ≠ slash → u ∈ ArchiveTarBuilder.elementStarts u) := by
  have hbehind {v w : Bytes} (hv : v <:+ u) (hw : w ∈ behindSlashes v) : w ≠ [] ∧
      w.headD 0 ≠ slash := by
    obtain ⟨hw',hhead,-⟩ := h.slashes w ((mem_behindSlashes hw).trans hv)
    exact ⟨hw',hhead⟩
  rw [ArchiveTarBuilder.elementStarts]
  by_cases hslash : u.headD 0 = slash
  · refine ⟨fun v hv => ?_,fun hno => absurd hslash hno⟩
    obtain ⟨c,w,rfl⟩ := List.exists_cons_of_ne_nil hne
    obtain rfl : c = slash := hslash
    obtain ⟨hw,hhead,-⟩ := h.slashes w List.suffix_rfl
    rw [if_pos (show (slash::w).headD 0 = slash from rfl),List.tail_cons] at hv
    rcases List.mem_cons.mp hv with rfl | hv
    · exact ⟨hw,hhead⟩
    · exact hbehind (List.suffix_cons slash w) hv
  · rw [if_neg hslash]
    refine ⟨fun v hv => ?_,fun _ => List.mem_cons_self⟩
    rcases List.mem_cons.mp hv with rfl | hv
    · exact ⟨hne,hslash⟩
    · exact hbehind List.suffix_rfl hv

end

/-! Words of the languages, from the front. -/

theorem mem_oneByte_mul (holds : UInt8 → Bool) (l : Language UInt8) (u : Bytes) :
    u ∈ oneByte holds * l ↔ ∃ b w, u = b::w ∧ holds b = true ∧ w ∈ l := by
  rw [Language.mem_mul]
  constructor
  · rintro ⟨_,⟨b,hb,rfl⟩,w,hw,rfl⟩
    exact ⟨b,w,rfl,hb,hw⟩
  · rintro ⟨b,w,rfl,hb,hw⟩
    exact ⟨[b],⟨b,hb,rfl⟩,w,hw,rfl⟩

theorem mem_byte_mul (b : UInt8) (l : Language UInt8) (u : Bytes) :
    u ∈ ({[b]} : Language UInt8) * l ↔ ∃ w ∈ l, u = b::w := by
  rw [Language.mem_mul]
  constructor
  · rintro ⟨a,ha,w,hw,rfl⟩
    obtain rfl : a = [b] := ha
    exact ⟨w,hw,rfl⟩
  · rintro ⟨w,hw,rfl⟩
    exact ⟨[b],rfl,w,hw,rfl⟩

theorem mem_top_mul (l : Language UInt8) (u : Bytes) : u ∈ ⊤ * l ↔ ∃ t, t <:+ u ∧ t ∈ l := by
  rw [Language.mem_mul]
  constructor
  · rintro ⟨a,-,t,ht,rfl⟩
    exact ⟨t,List.suffix_append a t,ht⟩
  · rintro ⟨t,⟨a,rfl⟩,ht⟩
    exact ⟨a,trivial,t,ht,rfl⟩

theorem mem_done (u : Bytes) : u ∈ Glob.done.language ↔ u = [] ∨ u.headD 0 = slash := by
  rw [Glob.language,Language.mem_add,Language.mem_one,mem_byte_mul]
  refine or_congr_right ⟨?_,fun hu => ?_⟩
  · rintro ⟨w,-,rfl⟩
    rfl
  · obtain ⟨c,w,rfl⟩ := List.exists_cons_of_ne_nil (show u ≠ [] by rintro rfl; cases hu)
    obtain rfl : c = slash := hu
    exact ⟨w,trivial,rfl⟩

theorem mem_slash (rest : Glob) (u : Bytes) : u ∈ rest.slash.language ↔
    (∃ w ∈ rest.language, u = slash::w) ∨ u = [] ∧ [] ∈ rest.language := by
  rw [Glob.language,Language.mem_add,mem_byte_mul]
  refine or_congr_right ?_
  rw [Language.mem_inf,Language.mem_one]
  constructor
  · rintro ⟨hmem,rfl⟩
    exact ⟨rfl,hmem⟩
  · rintro ⟨rfl,hmem⟩
    exact ⟨hmem,rfl⟩

theorem mem_finish (u : Bytes) : u ∈ Glob.finish.language ↔ u = [] ∨ u = dot := by
  rw [Glob.language,Language.mem_add,Language.mem_one]
  rfl

def GlobStart.Takes (l : Language UInt8) (u : Bytes) : GlobStart → Prop
  | .root => ∃ w ∈ l, u = slash::w
  | .first => pmDotskip (u.dropWhile (· = slash)) ∈ l
  | .element => ∃ v ∈ elementStarts u, pmDotskip v ∈ l
  | .whole => pmDotskip u ∈ l

section
variable {items : Bool → Bytes → Glob} {loop : Bytes → Bytes → PathmatchFlags → Bool} {z : Bytes}

/-- A loop finds out, for patterns below this length, what is in their languages. -/
def Recognizes (items : Bool → Bytes → Glob) (loop : Bytes → Bytes → PathmatchFlags → Bool) (z : Bytes)
    (n : ℕ) : Prop :=
  ∀ p u flags, p.length < n → flags.noAnchorEnd = true → (items flags.noAnchorStart p).takesNul = false →
    CleanRest u → (loop p (u ++ z) flags = true ↔ u ∈ (items flags.noAnchorStart p).language)

variable (hz : z.headD 0 = 0) {n : ℕ} (hloop : Recognizes items loop z n)
include hz hloop

theorem Recognizes.pmBy {p u : Bytes} {flags : PathmatchFlags} (hp : p.length < n)
    (hend : flags.noAnchorEnd = true) (hnul : (items flags.noAnchorStart (pmDotskip p)).takesNul = false)
    (h : CleanRest u) : pmBy loop p (u ++ z) flags = true ↔
      pmDotskip u ∈ (items flags.noAnchorStart (pmDotskip p)).language := by
  obtain ⟨hmemory,hsuffix,-⟩ := h.dotskip hz
  rw [ArchiveTarBuilder.pmBy,hmemory]
  exact hloop _ _ flags ((length_pmDotskip_le p).trans_lt hp) hend hnul (h.suffix hsuffix)

theorem Recognizes.pathmatchBy {p u : Bytes} {flags : PathmatchFlags} (hp : p.length < n) (hne : p ≠ [])
    (hend : flags.noAnchorEnd = true) (hnul : (globEntry items flags.noAnchorStart p).2.takesNul = false)
    (h : CleanRest u) : pathmatchBy loop p (u ++ z) flags = true ↔
      (globEntry items flags.noAnchorStart p).1.Takes (globEntry items flags.noAnchorStart p).2.language u := by
  have hlen : (if p.headD 0 = 94 then p.tail else p).length < n := by
    split
    · exact lt_of_le_of_lt (by simp) hp
    · exact hp
  have hfree : (if p.headD 0 = 94 then false else flags.noAnchorStart) =
      (if p.headD 0 = 94 then { flags with noAnchorStart := false } else flags).noAnchorStart := by
    split <;> rfl
  have hend' : (if p.headD 0 = 94 then { flags with noAnchorStart := false } else flags).noAnchorEnd = true := by
    split <;> exact hend
  rw [ArchiveTarBuilder.pathmatchBy,if_neg hne]
  simp only [globEntry,hfree] at hnul ⊢
  generalize (if p.headD 0 = 94 then p.tail else p) = q at hlen hnul ⊢
  generalize (if p.headD 0 = 94 then { flags with noAnchorStart := false } else flags) =
  flags at hend' hnul ⊢
  obtain ⟨hmemory,hsuffix,hhead,-,-,hcons⟩ := h.dropSlash hz
  have hdrop : (q.dropWhile (· = slash)).length < n :=
    (List.dropWhile_suffix _).length_le.trans_lt hlen
  by_cases hslash : q.headD 0 = slash
  · simp only [hslash,if_true,true_and,or_true,headD_memory hz,ne_eq,GlobStart.Takes] at hnul ⊢
    by_cases hu : u.headD 0 = slash
    · obtain ⟨c,w,rfl⟩ := List.exists_cons_of_ne_nil (show u ≠ [] by rintro rfl; cases hu)
      obtain rfl : c = slash := hu
      rw [if_neg (not_not.mpr (show (slash::w).headD 0 = slash from rfl)),hmemory,
        hloop.pmBy hz hdrop hend' hnul (h.suffix hsuffix),hcons w rfl]
      obtain ⟨-,-,-,-,hself⟩ := h.tail.dotskip hz
      rw [hself (h.notMem_dotSlash List.suffix_rfl)]
      simp
    · rw [if_pos hu]
      refine ⟨fun hno => absurd hno Bool.false_ne_true,?_⟩
      rintro ⟨w,-,rfl⟩
      exact absurd rfl hu
  · have hq : q.dropWhile (· = slash) = q := dropWhile_start hslash
    rw [if_neg fun hno => hslash hno.1]
    simp only [if_neg hslash] at hnul ⊢
    by_cases hstar : q.headD 0 = 42
    · rw [if_pos (Or.inl hstar)]
      have hskip : pmDotskip q = q := pmDotskip_start fun hdot => absurd (hstar.symm.trans hdot) (by decide)
      simp only [if_pos hstar,GlobStart.Takes] at hnul ⊢
      rw [← hskip] at hnul
      rw [hq,hmemory,hloop.pmBy hz hlen hend' hnul (h.suffix hsuffix),hskip]
    · rw [if_neg (not_or.mpr ⟨hstar,hslash⟩)]
      simp only [if_neg hstar] at hnul ⊢
      by_cases hany : flags.noAnchorStart = true
      · simp only [if_pos hany,GlobStart.Takes,List.any_eq_true]
        constructor
        · rintro ⟨t,ht,hmatch⟩
          obtain ⟨v,hv,rfl⟩ := (mem_elementStarts_memory hz h t).mp ht
          have hclean : CleanRest v := h.suffix (suffix_of_elementStarts hv)
          exact ⟨v,hv,(hloop.pmBy hz hlen hend' hnul hclean).mp hmatch⟩
        · rintro ⟨v,hv,hmem⟩
          have hclean : CleanRest v := h.suffix (suffix_of_elementStarts hv)
          exact ⟨v ++ z,(mem_elementStarts_memory hz h _).mpr ⟨v,hv,rfl⟩,
            (hloop.pmBy hz hlen hend' hnul hclean).mpr hmem⟩
      · simp only [if_neg hany,GlobStart.Takes]
        exact hloop.pmBy hz hlen hend' hnul h

omit hloop in
theorem GlobStart.takes_behindStar (start : GlobStart) (l : Language UInt8) {u : Bytes}
    (h : CleanRest u) : (∃ t, t ≠ [] ∧ t <:+ u ∧ start.Takes l t) ↔ u ∈ ⊤ * start.behindStar l := by
  rw [mem_top_mul]
  -- what `pm` goes on with is itself a place to start from
  have hskip {t : Bytes} (ht : t <:+ u) (hne : t ≠ []) : pmDotskip t <:+ u ∧ pmDotskip t ≠ [] ∧
      ¬[46,slash] <+: pmDotskip t := by
    obtain ⟨-,hsuffix,hno,hnil,-⟩ := (h.suffix ht).dotskip hz
    exact ⟨hsuffix.trans ht,fun h' => hne (hnil h'),hno⟩
  have hself {t : Bytes} (ht : t <:+ u) (hno : ¬[46,slash] <+: t) : pmDotskip t = t :=
    ((h.suffix ht).dotskip hz).2.2.2.2 hno
  have hhead {t : Bytes} (ht : t <:+ u) (hslash : t.headD 0 ≠ slash) : (pmDotskip t).headD 0 ≠ slash := by
    by_cases hdot : [46,slash] <+: t
    · obtain ⟨w,rfl⟩ := hdot
      have hw := h.slashes w ((List.suffix_cons 46 (slash::w)).trans ht)
      have hnil : ([] : Bytes).headD 0 = 0 := rfl
      have hmore := ((h.suffix ht).suffix (List.suffix_cons 46 (slash::w))).slashskip hnil rfl
      rw [List.append_nil,List.append_nil] at hmore
      have hrest : pmDotskip ([46,slash] ++ w) = w := by
        rw [List.cons_append,List.cons_append,List.nil_append,pmDotskip,if_pos ⟨rfl,rfl⟩]
        exact hmore
      rw [hrest]
      exact hw.2.1
    · rwa [hself ht hdot]
  cases start with
  | root =>
    constructor
    · rintro ⟨t,-,ht,w,hw,rfl⟩
      exact ⟨slash::w,ht,(mem_byte_mul slash l _).mpr ⟨w,hw,rfl⟩⟩
    · rintro ⟨t,ht,hmem⟩
      obtain ⟨w,hw,rfl⟩ := (mem_byte_mul slash l _).mp hmem
      exact ⟨slash::w,List.cons_ne_nil slash w,ht,w,hw,rfl⟩
  | first =>
    constructor
    · rintro ⟨t,hne,ht,hmem⟩
      obtain ⟨-,hsuffix,hno,hnil,-,-⟩ := (h.suffix ht).dropSlash hz
      have ht' := hsuffix.trans ht
      obtain ⟨hs,hne',hdot⟩ := hskip ht' fun h' => hne (hnil h')
      exact ⟨_,hs,hmem,hne',hdot,hhead ht' hno⟩
    · rintro ⟨t,ht,hmem,hne,hdot,hslash⟩
      refine ⟨t,hne,ht,?_⟩
      rw [GlobStart.Takes,dropWhile_start hslash,hself ht hdot]
      exact hmem
  | element =>
    constructor
    · rintro ⟨t,hne,ht,v,hv,hmem⟩
      obtain ⟨hne',hno⟩ := ((h.suffix ht).elementStarts hne).1 v hv
      have hv' := (suffix_of_elementStarts hv).trans ht
      obtain ⟨hs,hne'',hdot⟩ := hskip hv' hne'
      exact ⟨_,hs,hmem,hne'',hdot,hhead hv' hno⟩
    · rintro ⟨t,ht,hmem,hne,hdot,hslash⟩
      refine ⟨t,hne,ht,t,((h.suffix ht).elementStarts hne).2 hslash,?_⟩
      rw [hself ht hdot]
      exact hmem
  | whole =>
    constructor
    · rintro ⟨t,hne,ht,hmem⟩
      obtain ⟨hs,hne',hdot⟩ := hskip ht hne
      exact ⟨_,hs,hmem,hne',hdot⟩
    · rintro ⟨t,ht,hmem,hne,hdot⟩
      refine ⟨t,hne,ht,?_⟩
      rw [GlobStart.Takes,hself ht hdot]
      exact hmem

omit hz in
theorem Recognizes.one {q u : Bytes} {flags : PathmatchFlags} (hq : q.length < n)
    (hend : flags.noAnchorEnd = true) {holds : UInt8 → Bool}
    (hnul : (Glob.one holds (items flags.noAnchorStart q)).takesNul = false) (h : CleanRest u) :
    (holds (u.headD 0) && loop q (u ++ z).tail flags) = true ↔
      u ∈ (Glob.one holds (items flags.noAnchorStart q)).language := by
  rw [Glob.takesNul,Bool.or_eq_false_iff] at hnul
  rw [Glob.language,mem_oneByte_mul,Bool.and_eq_true]
  cases u with
  | nil =>
    rw [show ([] : Bytes).headD 0 = 0 from rfl,hnul.1]
    simp
  | cons c u =>
    rw [List.cons_append,List.headD_cons,List.tail_cons,hloop q u flags hq hend hnul.2 h.tail]
    simp

theorem Recognizes.round (charLe : UInt8 → UInt8 → Bool) :
    Recognizes (globRound charLe items) (pmRound charLe loop) z (n+1) := by
  intro p u flags hp hend hnul h
  have hzero : u.headD 0 = 0 ↔ u = [] := by
    refine ⟨fun hu => ?_,fun hu => by rw [hu]; rfl⟩
    by_contra hne
    obtain ⟨c,w,rfl⟩ := List.exists_cons_of_ne_nil hne
    exact h.head_ne hu
  have hbyte (b c : UInt8) (x : Bool) : (if b ≠ c then false else x) = (decide (b = c) && x) := by
    by_cases hc : b = c <;> simp [hc]
  cases p with
  | nil =>
    rw [globRound,mem_done,pmRound,headD_memory hz]
    by_cases hslash : u.headD 0 = slash
    · rw [if_pos hslash,hend,Bool.true_or]
      exact ⟨fun _ => Or.inr hslash,fun _ => rfl⟩
    · rw [if_neg hslash,decide_eq_true_eq,hzero]
      exact (or_iff_left hslash).symm
  | cons b q =>
    have hq : q.length < n := Nat.lt_of_succ_lt_succ hp
    simp only [globRound,pmRound,headD_memory hz,hbyte] at hnul ⊢
    by_cases hone : b = 63
    · simp only [if_pos hone] at hnul ⊢
      have hany (x : Bool) : (if u.headD 0 = 0 then false else x) =
          (decide (u.headD 0 ≠ 0) && x) := by
        by_cases hu : u.headD 0 = 0
        · rw [if_pos hu,decide_eq_false (not_not.mpr hu),Bool.false_and]
        · rw [if_neg hu,decide_eq_true hu,Bool.true_and]
      rw [hany]
      exact hloop.one hq hend hnul h
    simp only [if_neg hone] at hnul ⊢
    by_cases hstar : b = 42
    · simp only [if_pos hstar] at hnul ⊢
      by_cases hnil : q.dropWhile (· = 42) = []
      · simp only [if_pos hnil]
        exact ⟨fun _ => trivial,fun _ => trivial⟩
      · simp only [if_neg hnil] at hnul ⊢
        have hstars : (q.dropWhile (· = 42)).length < n :=
          (List.dropWhile_suffix _).length_le.trans_lt hq
        rw [Glob.language,← GlobStart.takes_behindStar hz _ _ h,List.any_eq_true]
        constructor
        · rintro ⟨_,ht,hmatch⟩
          obtain ⟨t,hne,hsuffix,rfl⟩ := (mem_places_memory hz h _).mp ht
          exact ⟨t,hne,hsuffix,(hloop.pathmatchBy hz hstars hnil hend hnul (h.suffix hsuffix)).mp hmatch⟩
        · rintro ⟨t,hne,ht,htakes⟩
          exact ⟨t ++ z,(mem_places_memory hz h _).mpr ⟨t,hne,ht,rfl⟩,
            (hloop.pathmatchBy hz hstars hnil hend hnul (h.suffix ht)).mpr htakes⟩
    simp only [if_neg hstar] at hnul ⊢
    by_cases hclass : b = 91
    · simp only [if_pos hclass] at hnul ⊢
      cases hr : pmClass q with
      | none =>
        simp only [hr] at hnul ⊢
        exact hloop.one hq hend hnul h
      | some r =>
        have hbehind : r.2.length < n := (pmClass_length q r hr).trans hq
        simp only [hr] at hnul ⊢
        have hholds (x : Bool) : (if pmList charLe r.1 (u.headD 0) = true then x else false) =
            (pmList charLe r.1 (u.headD 0) && x) := by
          cases pmList charLe r.1 (u.headD 0) <;> rfl
        rw [hholds]
        exact hloop.one hbehind hend hnul h
    simp only [if_neg hclass] at hnul ⊢
    by_cases hescape : b = 92
    · simp only [if_pos hescape] at hnul ⊢
      cases q with
      | nil =>
        simp only at hnul ⊢
        have hlast := hloop.one hq hend hnul h
        simpa only [eq_comm] using hlast
      | cons e q => exact hloop.one (Nat.lt_of_succ_lt hq) hend hnul h
    simp only [if_neg hescape] at hnul ⊢
    by_cases hslash : b = slash
    · simp only [if_pos hslash,hend,and_true] at hnul ⊢
      have hskip : (pmSlashskip q).length < n := (length_pmSlashskip_le q).trans_lt hq
      by_cases hu : u.headD 0 = slash ∨ u.headD 0 = 0
      · rw [if_neg fun hno => hu.elim hno.1 hno.2]
        by_cases hnil : pmSlashskip q = []
        · simp only [if_pos hnil,true_iff]
          rw [mem_done]
          exact hu.symm.imp_left hzero.mp
        · simp only [if_neg hnil] at hnul ⊢
          rw [mem_slash]
          rcases hu with hu | hu
          · obtain ⟨c,w,rfl⟩ := List.exists_cons_of_ne_nil (show u ≠ [] by rintro rfl; cases hu)
            obtain rfl : c = slash := hu
            rw [h.slashskip hz rfl,hloop _ w flags hskip hend hnul h.tail]
            simp
          · obtain rfl := hzero.mp hu
            rw [List.nil_append,pmSlashskip_memory hz]
            have hempty := hloop (pmSlashskip q) [] flags hskip hend hnul h
            rw [List.nil_append] at hempty
            rw [hempty]
            simp
      · rw [if_pos (not_or.mp hu)]
        refine ⟨fun hno => absurd hno Bool.false_ne_true,fun hmem => absurd ?_ hu⟩
        by_cases hnil : pmSlashskip q = []
        · rw [if_pos hnil,mem_done] at hmem
          exact hmem.symm.imp_right hzero.mpr
        · rw [if_neg hnil,mem_slash] at hmem
          rcases hmem with ⟨w,-,rfl⟩ | ⟨rfl,-⟩
          · exact Or.inl rfl
          · exact Or.inr rfl
    simp only [if_neg hslash] at hnul ⊢
    by_cases hfinish : b = 36 ∧ q = []
    · simp only [hfinish,hend,and_self,if_true,decide_eq_true_eq]
      rw [mem_finish]
      exact h.finish hz
    · have hfinish' : ¬(b = 36 ∧ q = [] ∧ flags.noAnchorEnd = true) := fun hall =>
        hfinish ⟨hall.1,hall.2.1⟩
      simp only [if_neg hfinish,if_neg hfinish'] at hnul ⊢
      exact hloop.one hq hend hnul h

end

section
variable (charLe : UInt8 → UInt8 → Bool) {z : Bytes} (hz : z.headD 0 = 0)
include hz

theorem pmLoop_recognizes (fuel : ℕ) : Recognizes (globItems charLe fuel) (pmLoop charLe fuel) z fuel := by
  induction fuel with
  | zero => exact fun p u flags hp => absurd hp (Nat.not_lt_zero _)
  | succ fuel ih => exact ih.round hz charLe

end

end ArchiveTarBuilder
