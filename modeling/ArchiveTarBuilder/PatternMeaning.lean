import ArchiveTarBuilder.GlobLanguage

/-! The verdicts of a set of patterns, in terms of what the patterns mean: the path is in the
language of an exclusion, or in that of no inclusion. -/
namespace ArchiveTarBuilder
open CString

/-- What stands in front of the components of a path. -/
inductive PathStart
  | relative | current | absolute
  deriving DecidableEq, Repr

def PathStart.text : PathStart → Bytes
  | .relative => []
  | .current => [46,slash]
  | .absolute => [slash]

def GlobStart.Reaches (l : Language UInt8) (front : PathStart) (ds : List Bytes) : GlobStart → Prop
  | .root => front = .absolute ∧ joinPath ds ∈ l
  | .first => joinPath ds ∈ l
  | .element => ∃ es, es ≠ [] ∧ es <:+ ds ∧ joinPath es ∈ l
  | .whole => (if front = .absolute then slash::joinPath ds else joinPath ds) ∈ l

theorem CleanRest.cons {c : UInt8} {u : Bytes} (h : CleanRest u) (hc : c ≠ 0)
    (hslash : c = slash → u ≠ [] ∧ u.headD 0 ≠ slash ∧
      (u.headD 0 = 46 → u.tail.headD 0 ≠ slash ∧ u.tail.headD 0 ≠ 0)) : CleanRest (c::u) where
  slashes := fun w hw => by
    rcases List.suffix_cons_iff.mp hw with heq | hw
    · obtain ⟨hc',rfl⟩ := List.cons.inj heq
      exact hslash hc'.symm
    · exact h.slashes w hw
  nul := fun hmem => (List.mem_cons.mp hmem).elim (fun h0 => hc h0.symm) h.nul

theorem CleanRest.append {d u : Bytes} (h : CleanRest u) (hnul : 0 ∉ d) (hslash : slash ∉ d) :
    CleanRest (d ++ u) := by
  induction d with
  | nil => exact h
  | cons c d ih =>
    refine (ih (fun hmem => hnul (List.mem_cons_of_mem c hmem)) fun hmem =>
      hslash (List.mem_cons_of_mem c hmem)).cons ?_ ?_
    · exact fun hc => hnul (by simp [hc])
    · exact fun hc => absurd (by simp [hc]) hslash

section
variable {ds : List Bytes} (hds : ∀ d ∈ ds, PathItem d)
include hds

theorem joinPath_ne (hne : ds ≠ []) : joinPath ds ≠ [] :=
  (joinPath_eq_nil fun d hd => (hds d hd).nonempty).not.mpr hne

theorem cleanRest_joinPath : CleanRest (joinPath ds) := by
  induction ds with
  | nil => exact ⟨fun w hw => absurd (List.suffix_nil.mp hw) (List.cons_ne_nil slash w),List.not_mem_nil⟩
  | cons d ds ih =>
    have hd := hds d List.mem_cons_self
    have hds' : ∀ d ∈ ds, PathItem d := fun x hx => hds x (List.mem_cons_of_mem d hx)
    rw [joinPath_behind]
    refine CleanRest.append ?_ hd.nul hd.slash
    rw [behindItem]
    split_ifs with hnil
    · rw [hnil] at ih
      exact ih (by simp)
    · exact (ih hds').cons (by decide) fun _ => ⟨joinPath_ne hds' hnil,joinPath_start hds'⟩

theorem cleanRest_path (front : PathStart) (hne : ds ≠ []) : CleanRest (front.text ++ joinPath ds) := by
  have hclean := cleanRest_joinPath hds
  have hslash : CleanRest (slash::joinPath ds) :=
    hclean.cons (by decide) fun _ => ⟨joinPath_ne hds hne,joinPath_start hds⟩
  cases front with
  | relative => exact hclean
  | current => exact hslash.cons (by decide) fun hno => absurd hno (by decide)
  | absolute => exact hslash

theorem pmDotskip_joinPath : pmDotskip (joinPath ds) = joinPath ds :=
  pmDotskip_start fun hdot => ((joinPath_start hds).2 hdot).1

theorem mem_starts_joinPath (hne : ds ≠ []) (v : Bytes) :
    v ∈ joinPath ds::behindSlashes (joinPath ds) ↔ ∃ es, es ≠ [] ∧ es <:+ ds ∧ v = joinPath es := by
  induction ds with
  | nil => exact absurd rfl hne
  | cons d ds ih =>
    rw [List.mem_cons,behindSlashes_joinPath (hds d List.mem_cons_self)]
    have hrest : (v ∈ if ds = [] then [] else joinPath ds::behindSlashes (joinPath ds)) ↔
        ∃ es, es ≠ [] ∧ es <:+ ds ∧ v = joinPath es := by
      split_ifs with hnil
      · subst hnil
        simp
      · exact ih (fun x hx => hds x (List.mem_cons_of_mem d hx)) hnil
    rw [hrest]
    constructor
    · rintro (rfl | ⟨es,hes,hsuffix,rfl⟩)
      · exact ⟨d::ds,hne,List.suffix_rfl,rfl⟩
      · exact ⟨es,hes,hsuffix.trans (List.suffix_cons d ds),rfl⟩
    · rintro ⟨es,hes,hsuffix,rfl⟩
      rcases List.suffix_cons_iff.mp hsuffix with rfl | hsuffix
      · exact Or.inl rfl
      · exact Or.inr ⟨es,hes,hsuffix,rfl⟩

theorem GlobStart.takes_path (start : GlobStart) (l : Language UInt8) (front : PathStart) (hne : ds ≠ []) :
    start.Takes l (front.text ++ joinPath ds) ↔ start.Reaches l front ds := by
  have hhead := (joinPath_start hds).1
  have hdotted : pmDotskip (46::slash::joinPath ds) = joinPath ds := by
    rw [pmDotskip,if_pos ⟨rfl,rfl⟩,List.tail_cons,pmSlashskip,if_pos (Or.inl rfl)]
    exact pmSlashskip_start hhead (joinPath_start hds).2
  have hskip := pmDotskip_joinPath hds
  have hstarts (v : Bytes) := mem_starts_joinPath hds hne v
  have helement : (∃ v ∈ joinPath ds::behindSlashes (joinPath ds), pmDotskip v ∈ l) ↔
      ∃ es, es ≠ [] ∧ es <:+ ds ∧ joinPath es ∈ l := by
    constructor
    · rintro ⟨v,hv,hmem⟩
      obtain ⟨es,hes,hsuffix,rfl⟩ := (hstarts v).mp hv
      rw [pmDotskip_joinPath fun d hd => hds d (hsuffix.subset hd)] at hmem
      exact ⟨es,hes,hsuffix,hmem⟩
    · rintro ⟨es,hes,hsuffix,hmem⟩
      refine ⟨joinPath es,(hstarts _).mpr ⟨es,hes,hsuffix,rfl⟩,?_⟩
      rwa [pmDotskip_joinPath fun d hd => hds d (hsuffix.subset hd)]
  cases front with
  | relative =>
    rw [PathStart.text,List.nil_append]
    cases start with
    | root =>
      refine iff_of_false ?_ fun hno => by cases hno.1
      rintro ⟨w,-,hw⟩
      rw [hw] at hhead
      exact hhead rfl
    | first => rw [GlobStart.Takes,dropWhile_start hhead,hskip]; rfl
    | element =>
      rw [GlobStart.Takes,elementStarts,if_neg hhead]
      exact helement
    | whole => rw [GlobStart.Takes,hskip]; rfl
  | current =>
    have hdot : (46::slash::joinPath ds).headD 0 ≠ slash := show (46 : UInt8) ≠ slash by decide
    cases start with
    | root =>
      refine iff_of_false ?_ fun hno => by cases hno.1
      rintro ⟨w,-,hw⟩
      exact absurd (List.cons.inj hw).1 (by decide)
    | first =>
      have hdrop : (46::slash::joinPath ds).dropWhile (· = slash) = 46::slash::joinPath ds :=
        dropWhile_start hdot
      change pmDotskip ((46::slash::joinPath ds).dropWhile (· = slash)) ∈ l ↔ _
      rw [hdrop,hdotted]
      rfl
    | element =>
      have hbehind : behindSlashes (46::slash::joinPath ds) =
          joinPath ds::behindSlashes (joinPath ds) := rfl
      change (∃ v ∈ elementStarts (46::slash::joinPath ds),pmDotskip v ∈ l) ↔ _
      rw [elementStarts,if_neg hdot,hbehind]
      refine Iff.trans ?_ helement
      rw [List.exists_mem_cons_iff,hdotted,or_iff_right_of_imp]
      exact fun hmem => ⟨joinPath ds,List.mem_cons_self,hskip.symm ▸ hmem⟩
    | whole =>
      change pmDotskip (46::slash::joinPath ds) ∈ l ↔ _
      rw [hdotted]
      rfl
  | absolute =>
    have hslash : (slash::joinPath ds).headD 0 = slash := rfl
    cases start with
    | root =>
      constructor
      · rintro ⟨w,hmem,hw⟩
        obtain rfl : joinPath ds = w := (List.cons.inj hw).2
        exact ⟨rfl,hmem⟩
      · exact fun hmem => ⟨joinPath ds,hmem.2,rfl⟩
    | first =>
      have hdrop : (slash::joinPath ds).dropWhile (· = slash) = joinPath ds := by
        rw [List.dropWhile_cons_of_pos (by simp),dropWhile_start hhead]
      change pmDotskip ((slash::joinPath ds).dropWhile (· = slash)) ∈ l ↔ _
      rw [hdrop,hskip]
      rfl
    | element => exact helement
    | whole =>
      change pmDotskip (slash::joinPath ds) ∈ l ↔ _
      have hno : (slash::joinPath ds).headD 0 ≠ 46 := show slash ≠ 46 by decide
      rw [pmDotskip_start fun hdot => absurd hdot hno]
      rfl

end

section
variable (charLe : UInt8 → UInt8 → Bool)

/-- A pattern matches a path: as an exclusion when `free`, or as an inclusion. -/
def GlobMatches (free : Bool) (pattern : Bytes) (front : PathStart) (ds : List Bytes) : Prop :=
  pattern ≠ [] ∧ (globOf charLe free pattern).1.Reaches (globOf charLe free pattern).2.language front ds

theorem lafePathmatch_language (free : Bool) {pattern : Bytes}
    (hnul : (globOf charLe free pattern).2.takesNul = false) (front : PathStart) {ds : List Bytes}
    (hds : ∀ d ∈ ds, PathItem d) (hne : ds ≠ []) {z : Bytes} (hz : z.headD 0 = 0) :
    lafePathmatch charLe pattern (front.text ++ joinPath ds ++ z) ⟨free,true⟩ = true ↔
      GlobMatches charLe free pattern front ds := by
  have hclean := cleanRest_path hds front hne
  by_cases hp : pattern = []
  · subst hp
    refine iff_of_false ?_ fun h => h.1 rfl
    obtain ⟨c,w,hw⟩ := List.exists_cons_of_ne_nil (show front.text ++ joinPath ds ≠ [] from
      fun hnil => joinPath_ne hds hne (List.append_eq_nil_iff.mp hnil).2)
    rw [hw] at hclean ⊢
    rw [lafePathmatch,pathmatchBy,if_pos rfl,decide_eq_true_eq]
    exact hclean.head_ne
  · rw [globOf] at hnul
    have hloop := pmLoop_recognizes charLe hz (pattern.length+1)
    have hpath := @Recognizes.pathmatchBy _ _ z hz _ hloop pattern _ ⟨free,true⟩ (Nat.lt_succ_self _) hp rfl
      hnul hclean
    rw [lafePathmatch,hpath,GlobStart.takes_path hds _ _ front hne]
    exact (and_iff_right hp).symm

/-- The verdict behind any history: an exclusion whose language has the path, or inclusions and none
whose language has it. -/
theorem verdict_language (calls : List MatchCall)
    (hexclude : ∀ pattern, .exclude pattern ∈ calls →
      (globOf charLe true (storedPattern pattern)).2.takesNul = false)
    (hinclude : ∀ pattern, .includes pattern ∈ calls →
      (globOf charLe false (storedPattern pattern)).2.takesNul = false)
    (front : PathStart) {ds : List Bytes} (hds : ∀ d ∈ ds, PathItem d) (hne : ds ≠ []) (behind : Bytes) :
    (lafeExcluded (withMemory charLe behind) (runCalls charLe calls) (front.text ++ joinPath ds)).1 = true ↔
      (∃ pattern, .exclude pattern ∈ calls ∧ GlobMatches charLe true (storedPattern pattern) front ds) ∨
      ((∃ pattern, .includes pattern ∈ calls) ∧ ∀ pattern, .includes pattern ∈ calls →
        ¬GlobMatches charLe false (storedPattern pattern) front ds) := by
  have hmemory : (0::behind : Bytes).headD 0 = 0 := rfl
  have hexcludes (pattern : Bytes) (h : .exclude pattern ∈ calls) :=
    lafePathmatch_language charLe true (hexclude pattern h) front hds hne hmemory
  have hincludes (pattern : Bytes) (h : .includes pattern ∈ calls) :=
    lafePathmatch_language charLe false (hinclude pattern h) front hds hne hmemory
  rw [(lafeExcluded_eq (withMemory charLe behind) (runCalls charLe calls) _).1,excludes_iff]
  simp only [mem_exclusions_run,mem_inclusions_run]
  refine or_congr ⟨?_,?_⟩ (and_congr ⟨?_,?_⟩ ⟨?_,?_⟩)
  · rintro ⟨_,⟨pattern,hadded,rfl⟩,hmatch⟩
    exact ⟨pattern,hadded,(hexcludes pattern hadded).mp hmatch⟩
  · rintro ⟨pattern,hadded,hmatch⟩
    exact ⟨_,⟨pattern,hadded,rfl⟩,(hexcludes pattern hadded).mpr hmatch⟩
  · rintro ⟨_,pattern,hadded,rfl⟩
    exact ⟨pattern,hadded⟩
  · rintro ⟨pattern,hadded⟩
    exact ⟨_,pattern,hadded,rfl⟩
  · intro h pattern hadded hmatch
    have hno := h _ ⟨pattern,hadded,rfl⟩
    rw [matchInclusion,MatchPlatform.subject,(hincludes pattern hadded).mpr hmatch] at hno
    cases hno
  · rintro h _ ⟨pattern,hadded,rfl⟩
    exact Bool.eq_false_iff.mpr fun hmatch => h pattern hadded ((hincludes pattern hadded).mp hmatch)

end

/-- Without `lib/*.[co]`, of what is under `src`: the file `./src/lib/a.c`. -/
theorem verdict_language_class :
    let calls : List MatchCall := [.exclude [108,105,98,47,42,46,91,99,111,93],.includes [115,114,99,47]]
    let ds : List Bytes := [[115,114,99],[108,105,98],[97,46,99]]
    (∃ pattern, .exclude pattern ∈ calls ∧
      GlobMatches (fun a b => decide (a ≤ b)) true (storedPattern pattern) .current ds) ∨
      ((∃ pattern, .includes pattern ∈ calls) ∧ ∀ pattern, .includes pattern ∈ calls →
        ¬GlobMatches (fun a b => decide (a ≤ b)) false (storedPattern pattern) .current ds) := by
  refine (verdict_language (fun a b => decide (a ≤ b)) _ ?_ ?_ .current ?_ (by simp) []).mp
    (by decide +kernel)
  · intro pattern hmem
    simp only [List.mem_cons,MatchCall.exclude.injEq,List.not_mem_nil,reduceCtorEq,or_false] at hmem
    rw [hmem]
    decide +kernel
  · intro pattern hmem
    simp only [List.mem_cons,MatchCall.includes.injEq,List.not_mem_nil,reduceCtorEq,or_false,false_or]
      at hmem
    rw [hmem]
    decide +kernel
  · simp only [List.mem_cons,List.not_mem_nil,or_false,forall_eq_or_imp,forall_eq]
    exact ⟨⟨by decide,by decide,by decide,by decide⟩,⟨by decide,by decide,by decide,by decide⟩,
      by decide,by decide,by decide,by decide⟩

/-! Quoted names. -/

def quoted (s : Bytes) : Bytes := s.flatMap fun b => [92,b]

theorem quoted_cons (b : UInt8) (s : Bytes) : quoted (b::s) = 92::b::quoted s := rfl

section
variable (charLe : UInt8 → UInt8 → Bool)

theorem globItems_quoted (fuel : ℕ) (free : Bool) (s : Bytes) (hfuel : (quoted s).length < fuel)
    (hs : 0 ∉ s) : (globItems charLe fuel free (quoted s)).takesNul = false ∧
      ∀ u, u ∈ (globItems charLe fuel free (quoted s)).language ↔
        ∃ r, u = s ++ r ∧ (r = [] ∨ r.headD 0 = slash) := by
  induction s generalizing fuel with
  | nil =>
    obtain ⟨fuel,rfl⟩ := Nat.exists_eq_succ_of_ne_zero (Nat.ne_of_gt hfuel)
    refine ⟨rfl,fun u => (mem_done u).trans ?_⟩
    simp
  | cons b s ih =>
    obtain ⟨fuel,rfl⟩ := Nat.exists_eq_succ_of_ne_zero (Nat.ne_of_gt (Nat.zero_lt_of_lt hfuel))
    rw [quoted_cons,List.length_cons,List.length_cons] at hfuel
    have hb : b ≠ 0 := fun hb => hs (by simp [hb])
    obtain ⟨hnul,hlanguage⟩ := ih fuel (by omega) fun hmem => hs (List.mem_cons_of_mem b hmem)
    have hitems : globItems charLe (fuel+1) free (quoted (b::s)) =
        .one (fun c => decide (b = c)) (globItems charLe fuel free (quoted s)) := rfl
    rw [hitems]
    refine ⟨by rw [Glob.takesNul,hnul]; simpa using hb,fun u => ?_⟩
    rw [Glob.language,mem_oneByte_mul]
    constructor
    · rintro ⟨c,w,rfl,hc,hw⟩
      obtain rfl : b = c := of_decide_eq_true hc
      obtain ⟨r,rfl,hr⟩ := (hlanguage w).mp hw
      exact ⟨r,rfl,hr⟩
    · rintro ⟨r,rfl,hr⟩
      exact ⟨b,s ++ r,rfl,decide_eq_true rfl,(hlanguage _).mpr ⟨r,rfl,hr⟩⟩

end

theorem append_eq_iff {x y a b : Bytes} (hx : slash ∉ x) (hy : slash ∉ y)
    (ha : a = [] ∨ a.headD 0 = slash) (hb : b = [] ∨ b.headD 0 = slash) :
    x ++ a = y ++ b ↔ x = y ∧ a = b := by
  have hno {c : UInt8} {x a b : Bytes} (hx : slash ∉ c::x) (hb : b = [] ∨ b.headD 0 = slash) :
      c::x ++ a ≠ b := by
    rintro rfl
    rcases hb with hb | hb
    · cases hb
    · exact hx (by simp [show c = slash from hb])
  refine ⟨fun h => ?_,fun h => by rw [h.1,h.2]⟩
  induction x generalizing y with
  | nil =>
    cases y with
    | nil => exact ⟨rfl,h⟩
    | cons d y => exact absurd h.symm (hno hy ha)
  | cons c x ih =>
    cases y with
    | nil => exact absurd h (hno hx hb)
    | cons d y =>
      obtain ⟨rfl,hrest⟩ := List.cons.inj h
      obtain ⟨rfl,hab⟩ := ih (fun hmem => hx (List.mem_cons_of_mem c hmem))
        (fun hmem => hy (List.mem_cons_of_mem c hmem)) hrest
      exact ⟨rfl,hab⟩

theorem behindItem_start (items : List Bytes) : behindItem items =
    [] ∨ (behindItem items).headD 0 = slash := by
  rw [behindItem]
  split_ifs
  · exact Or.inl rfl
  · exact Or.inr rfl

theorem joinPath_append_iff {cs es : List Bytes} (hcs : ∀ c ∈ cs, PathItem c) (hes : ∀ e ∈ es, PathItem e)
    (hne : cs ≠ []) : (∃ r : Bytes, joinPath es = joinPath cs ++ r ∧ (r = [] ∨ r.headD 0 = slash)) ↔
      cs <+: es := by
  induction cs generalizing es with
  | nil => exact absurd rfl hne
  | cons c cs ih =>
    have hc := hcs c List.mem_cons_self
    have hcs' : ∀ c ∈ cs, PathItem c := fun x hx => hcs x (List.mem_cons_of_mem c hx)
    cases es with
    | nil =>
      refine iff_of_false ?_ (by simp)
      rintro ⟨r,hr,-⟩
      exact joinPath_ne hcs hne (List.append_eq_nil_iff.mp hr.symm).1
    | cons e es =>
      have he := hes e List.mem_cons_self
      have hes' : ∀ e ∈ es, PathItem e := fun x hx => hes x (List.mem_cons_of_mem e hx)
      have hsplit {r : Bytes} (hr : r = [] ∨ r.headD 0 = slash) :
          joinPath (e::es) = joinPath (c::cs) ++ r ↔ e = c ∧ behindItem es = behindItem cs ++ r := by
        rw [joinPath_behind,joinPath_behind,List.append_assoc]
        refine append_eq_iff he.slash hc.slash (behindItem_start es) ?_
        rcases behindItem_start cs with hnil | hslash
        · rwa [hnil]
        · obtain ⟨b,w,hb⟩ := List.exists_cons_of_ne_nil (show behindItem cs ≠ [] from
            fun hnil => by rw [hnil] at hslash; cases hslash)
          rw [hb] at hslash ⊢
          exact Or.inr hslash
      rw [List.cons_prefix_cons]
      by_cases hnil : cs = []
      · subst hnil
        constructor
        · rintro ⟨r,hr,hstart⟩
          exact ⟨((hsplit hstart).mp hr).1.symm,List.nil_prefix⟩
        · rintro ⟨rfl,-⟩
          exact ⟨behindItem es,(hsplit (behindItem_start es)).mpr ⟨rfl,rfl⟩,behindItem_start es⟩
      · rw [← ih hcs' hes' hnil]
        have hbehind (r : Bytes) : behindItem es = behindItem cs ++ r ↔
            joinPath es = joinPath cs ++ r := by
          rw [behindItem,behindItem,if_neg hnil]
          split_ifs with hes''
          · subst hes''
            refine iff_of_false (by simp) fun hr => ?_
            exact joinPath_ne hcs' hnil (List.append_eq_nil_iff.mp hr.symm).1
          · rw [List.cons_append,List.cons.injEq]
            simp
        constructor
        · rintro ⟨r,hr,hstart⟩
          obtain ⟨rfl,hrest⟩ := (hsplit hstart).mp hr
          exact ⟨rfl,r,(hbehind r).mp hrest,hstart⟩
        · rintro ⟨rfl,r,hr,hstart⟩
          exact ⟨r,(hsplit hstart).mpr ⟨rfl,(hbehind r).mpr hr⟩,hstart⟩

section
variable {cs ds : List Bytes} (hcs : ∀ c ∈ cs, PathItem c) (hne : cs ≠ [])
include hcs hne

theorem globOf_quoted (charLe : UInt8 → UInt8 → Bool) (free : Bool) :
    (globOf charLe free (quoted (joinPath cs))).1 = (if free then .element else .whole) ∧
      (globOf charLe free (quoted (joinPath cs))).2.takesNul = false ∧
      ∀ es, (∀ e ∈ es, PathItem e) →
        (joinPath es ∈ (globOf charLe free (quoted (joinPath cs))).2.language ↔ cs <+: es) := by
  have hnul : 0 ∉ joinPath cs := zero_notMem_joinPath fun c hc => (hcs c hc).nul
  obtain ⟨hitems,hlanguage⟩ := globItems_quoted charLe ((quoted (joinPath cs)).length+1) free (joinPath cs)
    (Nat.lt_succ_self _) hnul
  have hentry : globOf charLe free (quoted (joinPath cs)) =
      (if free then .element else .whole,
        globItems charLe ((quoted (joinPath cs)).length+1) free (quoted (joinPath cs))) := by
    obtain ⟨b,s,hb⟩ := List.exists_cons_of_ne_nil (joinPath_ne hcs hne)
    rw [hb,quoted_cons]
    rfl
  rw [hentry]
  exact ⟨rfl,hitems,fun es hes => (hlanguage _).trans (joinPath_append_iff hcs hes hne)⟩

theorem quoted_ne : quoted (joinPath cs) ≠ [] := by
  obtain ⟨b,s,hb⟩ := List.exists_cons_of_ne_nil (joinPath_ne hcs hne)
  rw [hb,quoted_cons]
  exact List.cons_ne_nil _ _

omit hne in
theorem storedPattern_quoted : storedPattern (quoted (joinPath cs)) = quoted (joinPath cs) := by
  have hmem {s : Bytes} (hs : 0 ∉ s) : 0 ∉ quoted s := by
    intro hz
    obtain ⟨b,hb,hz⟩ := List.mem_flatMap.mp hz
    rcases List.mem_cons.mp hz with hz | hz
    · exact absurd hz (by decide)
    · exact hs (List.mem_singleton.mp hz ▸ hb)
  have hlast (s : Bytes) : (quoted s).getLast? = s.getLast? := by
    induction s using List.reverseRecOn with
    | nil => rfl
    | append_singleton s b _ =>
      rw [quoted,List.flatMap_append,List.flatMap_singleton,List.getLast?_concat]
      exact List.getLast?_append_cons _ 92 [b]
  have hnul := hmem (zero_notMem_joinPath fun c hc => (hcs c hc).nul)
  have hslash : (joinPath cs).getLast? ≠ some slash :=
    joinPath_getLast?_ne fun c hc => ⟨(hcs c hc).nonempty,(hcs c hc).slash⟩
  rw [storedPattern,cstr_of_not_mem _ hnul,hlast,if_neg hslash]

theorem quoted_matches (charLe : UInt8 → UInt8 → Bool) (front : PathStart) (hds : ∀ d ∈ ds, PathItem d) :
    GlobMatches charLe true (quoted (joinPath cs)) front ds ↔ cs <:+: ds := by
  obtain ⟨hstart,-,hlanguage⟩ := globOf_quoted hcs hne charLe true
  rw [GlobMatches,hstart,and_iff_right (quoted_ne hcs hne),List.infix_iff_prefix_suffix]
  constructor
  · rintro ⟨es,-,hsuffix,hmem⟩
    exact ⟨es,(hlanguage es fun e he => hds e (hsuffix.subset he)).mp hmem,hsuffix⟩
  · rintro ⟨es,hstart,hsuffix⟩
    refine ⟨es,?_,hsuffix,(hlanguage es fun e he => hds e (hsuffix.subset he)).mpr hstart⟩
    rintro rfl
    exact hne (List.prefix_nil.mp hstart)

/-- With the quoted name of anything among the exclusions, whatever other patterns there are, just
the paths with its components are excluded, too. -/
theorem exclude_quoted (p : MatchPlatform) (matching : Option LafeMatching) (front : PathStart)
    (hds : ∀ d ∈ ds, PathItem d) (hpath : ds ≠ []) :
    (lafeExcluded p (lafeExclude matching (quoted (joinPath cs))) (front.text ++ joinPath ds)).1 =
      (decide (cs <:+: ds) || (lafeExcluded p matching (front.text ++ joinPath ds)).1) := by
  have hmatch : matchExclusion p (quoted (joinPath cs)) (front.text ++ joinPath ds) =
      decide (cs <:+: ds) := by
    rw [Bool.eq_iff_iff,decide_eq_true_eq,← quoted_matches hcs hne p.charLe front hds]
    exact lafePathmatch_language p.charLe true (globOf_quoted hcs hne p.charLe true).2.1 front hds hpath rfl
  have hpatterns : (lafeExclude matching (quoted (joinPath cs))).map LafeMatching.patterns =
      some (quoted (joinPath cs)::((matching.map LafeMatching.patterns).getD ([],[])).1,
        ((matching.map LafeMatching.patterns).getD ([],[])).2) := by
    cases matching with
    | none =>
      simp [lafeExclude,addPattern_eq,LafeMatching.patterns,storedPattern_quoted hcs,
        initializeMatching]
    | some m => simp [lafeExclude,addPattern_eq,LafeMatching.patterns,storedPattern_quoted hcs]
  rw [(lafeExcluded_eq p _ _).1,(lafeExcluded_eq p _ _).1,hpatterns,← hmatch]
  cases matching with
  | none => simp [excludes]
  | some m => simp [excludes,Bool.or_assoc]

end

/-- The name `a*` next to the pattern `*.c`, for the path `/a*/x`. -/
theorem exclude_quoted_star :
    let p : MatchPlatform := ⟨fun a b => decide (a ≤ b),fun _ => []⟩
    (lafeExcluded p (lafeExclude (lafeExclude none [42,46,99]) (quoted (joinPath [[97,42]])))
      (PathStart.absolute.text ++ joinPath [[97,42],[120]])).1 =
        (decide ([[97,42]] <:+: [[97,42],[120]]) || (lafeExcluded p (lafeExclude none [42,46,99])
          (PathStart.absolute.text ++ joinPath [[97,42],[120]])).1) := by
  have hitem : ∀ d ∈ [[97,42],[120]], PathItem d := by
    simp only [List.mem_cons,List.not_mem_nil,or_false,forall_eq_or_imp,forall_eq]
    exact ⟨⟨by decide,by decide,by decide,by decide⟩,by decide,by decide,by decide,by decide⟩
  have hname : ∀ c ∈ [[97,42]], PathItem c := fun c hc => hitem c
    (List.mem_cons.mpr (Or.inl (List.mem_singleton.mp hc)))
  exact exclude_quoted hname (by simp) ⟨fun a b => decide (a ≤ b),fun _ => []⟩ _ .absolute hitem (by simp)

end ArchiveTarBuilder
