import ArchiveTarBuilder.CleanPath
import ArchiveTarBuilder.MatchHistory
import ArchiveTarBuilder.PathMemory

/-! Patterns without special characters match whole components: as an exclusion anywhere in a path,
as an inclusion at its start. -/
namespace ArchiveTarBuilder
open CString

/-- A component of a path that is not `.`. -/
structure PathItem (d : Bytes) : Prop where
  nonempty : d ≠ []
  not_dot : d ≠ dot
  nul : 0 ∉ d
  slash : slash ∉ d

/-- A character that stands for itself wherever it is in a pattern but, for `^`, at the start. -/
def LiteralByte (b : UInt8) : Prop := b ∉ [0,36,42,47,63,91,92]

instance : DecidablePred LiteralByte := fun b => inferInstanceAs (Decidable (b ∉ [0,36,42,47,63,91,92]))

/-- A component of a pattern without special characters. -/
structure LiteralItem (c : Bytes) : Prop where
  nonempty : c ≠ []
  not_dot : c ≠ dot
  bytes : ∀ b ∈ c, LiteralByte b

theorem LiteralItem.pathItem {c : Bytes} (h : LiteralItem c) : PathItem c where
  nonempty := h.nonempty
  not_dot := h.not_dot
  nul := fun hmem => h.bytes 0 hmem (by decide)
  slash := fun hmem => h.bytes slash hmem (by decide)

def behindItem (items : List Bytes) : Bytes := if items = [] then [] else slash::joinPath items

theorem joinPath_behind (item : Bytes) (items : List Bytes) :
    joinPath (item::items) = item ++ behindItem items := by
  rw [behindItem]
  split_ifs with hnil
  · subst hnil
    simp [joinPath,bStringJoin]
  · exact joinPath_cons hnil

theorem joinPath_start {items : List Bytes} (h : ∀ d ∈ items, PathItem d) :
    (joinPath items).headD 0 ≠ slash ∧ ((joinPath items).headD 0 = 46 →
      (joinPath items).tail.headD 0 ≠ slash ∧ (joinPath items).tail.headD 0 ≠ 0) := by
  cases items with
  | nil => exact ⟨by decide,by simp [joinPath,bStringJoin]⟩
  | cons d items =>
    have hd := h d List.mem_cons_self
    rw [joinPath_behind]
    obtain ⟨b,d,rfl⟩ := List.exists_cons_of_ne_nil hd.nonempty
    refine ⟨fun hb => hd.slash (by simp [show b = slash from hb]),fun hb => ?_⟩
    obtain rfl : b = 46 := hb
    obtain ⟨e,d,rfl⟩ := List.exists_cons_of_ne_nil (show d ≠ [] from fun hnil =>
      hd.not_dot (by rw [hnil]; rfl))
    exact ⟨fun he => hd.slash (by simp [show e = slash from he]),
      fun he => hd.nul (by simp [show e = 0 from he])⟩

theorem pmSlashskip_start {s : Bytes} (hslash : s.headD 0 ≠ slash)
    (hdot : s.headD 0 = 46 → s.tail.headD 0 ≠ slash ∧ s.tail.headD 0 ≠ 0) : pmSlashskip s = s := by
  cases s with
  | nil => rfl
  | cons c s =>
    rw [pmSlashskip,if_neg]
    rintro (hc | ⟨hc,hd⟩)
    · exact hslash hc
    · exact hd.elim (hdot hc).1 (hdot hc).2

theorem pmDotskip_start {s : Bytes} (hdot : s.headD 0 = 46 → s.tail.headD 0 ≠ slash) :
    pmDotskip s = s := by
  rw [pmDotskip,if_neg]
  rintro ⟨hc,hd⟩
  exact hdot hc hd

section
variable (charLe : UInt8 → UInt8 → Bool) {flags : PathmatchFlags}

theorem pmLoop_byte {b : UInt8} (hb : LiteralByte b) (fuel : ℕ) (q s : Bytes) :
    pmLoop charLe (fuel+1) (b::q) s flags =
      (decide (b = s.headD 0) && pmLoop charLe fuel q s.tail flags) := by
  simp only [LiteralByte,List.mem_cons,List.not_mem_nil,or_false,not_or] at hb
  obtain ⟨-,hdollar,hstar,hslash,hone,hclass,hescape⟩ := hb
  have hslash' : b ≠ slash := hslash
  simp only [pmLoop,pmRound,if_neg hone,if_neg hstar,if_neg hclass,if_neg hescape,if_neg hslash',
    hdollar,false_and,if_false]
  by_cases hc : b = s.headD 0
  · rw [if_neg (not_not.mpr hc),decide_eq_true hc,Bool.true_and]
  · rw [if_pos hc,decide_eq_false hc,Bool.false_and]

theorem pmLoop_item {x y : Bytes} (hx : ∀ b ∈ x, LiteralByte b) (hy : 0 ∉ y ∧ slash ∉ y)
    (ps rs : List Bytes) (fuel : ℕ) :
    pmLoop charLe (x.length+(fuel+1)) (x ++ behindItem ps) (y ++ behindItem rs) flags =
      (decide (x = y) && pmLoop charLe (fuel+1) (behindItem ps) (behindItem rs) flags) := by
  have hbehind (items : List Bytes) : (behindItem items).headD 0 = 0 ∨
      (behindItem items).headD 0 = slash := by
    rw [behindItem]
    split_ifs
    · exact .inl rfl
    · exact .inr rfl
  induction x generalizing y with
  | nil =>
    cases y with
    | nil => simp
    | cons c y =>
      have hc : c ≠ 0 ∧ c ≠ slash := ⟨fun hc => hy.1 (by simp [hc]),fun hc => hy.2 (by simp [hc])⟩
      rw [decide_eq_false (by simp),Bool.false_and,List.length_nil,Nat.zero_add,List.nil_append]
      have hc' : c ≠ 47 := hc.2
      rw [behindItem]
      split_ifs <;> simp [pmLoop,pmRound,hc,hc',slash]
  | cons b x ih =>
    have hb := hx b List.mem_cons_self
    have hfuel : (b::x).length+(fuel+1) = (x.length+(fuel+1))+1 := by
      rw [List.length_cons]
      omega
    rw [hfuel,List.cons_append,pmLoop_byte charLe hb]
    cases y with
    | nil =>
      have hne : b ≠ (behindItem rs).headD 0 := by
        intro hb'
        rcases hbehind rs with h0 | hs
        · exact hb (by rw [hb',h0]; decide)
        · exact hb (by rw [hb',hs]; decide)
      rw [List.nil_append,decide_eq_false hne]
      simp
    | cons c y =>
      have hrest := @ih y (fun b' hb' => hx b' (List.mem_cons_of_mem b hb'))
        ⟨fun hmem => hy.1 (List.mem_cons_of_mem c hmem),fun hmem => hy.2 (List.mem_cons_of_mem c hmem)⟩
      rw [List.cons_append,List.headD_cons,List.tail_cons,hrest,← Bool.and_assoc]
      simp

theorem pmSlashskip_behind {items : List Bytes} (h : ∀ d ∈ items, PathItem d) :
    pmSlashskip (behindItem items) = joinPath items := by
  rw [behindItem]
  split_ifs with hnil
  · rw [hnil]
    rfl
  · obtain ⟨hslash,hdot⟩ := joinPath_start h
    rw [pmSlashskip,if_pos (.inl rfl)]
    exact pmSlashskip_start hslash hdot

theorem pmLoop_behind {cs ds : List Bytes} (hcs : cs ≠ []) (hlit : ∀ c ∈ cs, PathItem c)
    (hds : ∀ d ∈ ds, PathItem d) (fuel : ℕ) :
    pmLoop charLe (fuel+1) (behindItem cs) (behindItem ds) flags =
      pmLoop charLe fuel (joinPath cs) (joinPath ds) flags := by
  have hskip : pmSlashskip (joinPath cs) = joinPath cs := by
    obtain ⟨hslash,hdot⟩ := joinPath_start hlit
    exact pmSlashskip_start hslash hdot
  have hnil : joinPath cs ≠ [] := (joinPath_eq_nil fun c hc => (hlit c hc).nonempty).not.mpr hcs
  have hhead : ¬((behindItem ds).headD 0 ≠ slash ∧ (behindItem ds).headD 0 ≠ 0) := by
    rw [behindItem]
    split_ifs <;> simp
  conv_lhs => rw [behindItem,if_neg hcs]
  simp only [pmLoop,pmRound,if_neg (show ¬slash = 63 by decide),if_neg (show ¬slash = 42 by decide),
    if_neg (show ¬slash = 91 by decide),if_neg (show ¬slash = 92 by decide),if_true,if_neg hhead,hskip,
    hnil,false_and,if_false,pmSlashskip_behind hds]

theorem pmLoop_items (hend : flags.noAnchorEnd = true) {cs ds : List Bytes} (hcs : cs ≠ [])
    (hlit : ∀ c ∈ cs, LiteralItem c) (hds : ∀ d ∈ ds, PathItem d) (fuel : ℕ)
    (hfuel : (joinPath cs).length < fuel) :
    pmLoop charLe fuel (joinPath cs) (joinPath ds) flags = decide (cs <+: ds) := by
  induction cs generalizing ds fuel with
  | nil => exact absurd rfl hcs
  | cons c cs ih =>
    have hc := hlit c List.mem_cons_self
    rw [joinPath_behind,List.length_append] at hfuel
    obtain ⟨n,rfl⟩ : ∃ n, fuel = c.length+(n+1) := ⟨fuel-c.length-1,by omega⟩
    cases ds with
    | nil =>
      have hpath : joinPath [] = [] ++ behindItem [] := rfl
      rw [joinPath_behind,hpath,pmLoop_item charLe hc.bytes (by simp)]
      simp [hc.nonempty]
    | cons d ds =>
      have hd := hds d List.mem_cons_self
      have hds' : ∀ d ∈ ds, PathItem d := fun d' hd' => hds d' (List.mem_cons_of_mem d hd')
      rw [joinPath_behind,joinPath_behind,pmLoop_item charLe hc.bytes ⟨hd.nul,hd.slash⟩]
      have hrest : pmLoop charLe (n+1) (behindItem cs) (behindItem ds) flags =
          decide (cs <+: ds) := by
        by_cases hnil : cs = []
        · subst hnil
          rw [show behindItem [] = [] from rfl,behindItem]
          split_ifs <;> simp [pmLoop,pmRound,hend]
        · have hlit' : ∀ c ∈ cs, LiteralItem c := fun c' hc' => hlit c' (List.mem_cons_of_mem c hc')
          rw [pmLoop_behind charLe hnil (fun c' hc' => (hlit' c' hc').pathItem) hds']
          rw [behindItem,if_neg hnil,List.length_cons] at hfuel
          exact ih hnil hlit' hds' n (by omega)
      rw [hrest]
      simp [List.cons_prefix_cons]

theorem behindSlashes_joinPath {d : Bytes} (hd : PathItem d) (ds : List Bytes) :
    behindSlashes (joinPath (d::ds)) =
      if ds = [] then [] else joinPath ds::behindSlashes (joinPath ds) := by
  have hitem {x : Bytes} (hnul : 0 ∉ x) (hslash : slash ∉ x) (rest : Bytes) :
      behindSlashes (x ++ rest) = behindSlashes rest := by
    induction x with
    | nil => rfl
    | cons b x ih =>
      have hb : b ≠ 0 ∧ b ≠ slash := ⟨fun hb => hnul (by simp [hb]),fun hb => hslash (by simp [hb])⟩
      rw [List.cons_append,behindSlashes,if_neg hb.1,if_neg hb.2]
      exact ih (fun hmem => hnul (List.mem_cons_of_mem b hmem))
        fun hmem => hslash (List.mem_cons_of_mem b hmem)
  rw [joinPath_behind,hitem hd.nul hd.slash,behindItem]
  split_ifs <;> rfl

/-- What holds of one of the starts of the components holds of a sublist of consecutive ones. -/
theorem starts_any {cs ds : List Bytes} (hcs : cs ≠ []) (hds : ∀ d ∈ ds, PathItem d)
    {pm : Bytes → Bool} (hpm : ∀ items, (∀ d ∈ items, PathItem d) → pm (joinPath items) = decide (cs <+: items)) :
    (joinPath ds::behindSlashes (joinPath ds)).any pm = decide (cs <:+: ds) := by
  induction ds with
  | nil => simp [joinPath,bStringJoin,behindSlashes,show pm [] = _ from hpm [] (by simp)]
  | cons d ds ih =>
    have hds' : ∀ d ∈ ds, PathItem d := fun d' hd' => hds d' (List.mem_cons_of_mem d hd')
    have hrest : (behindSlashes (joinPath (d::ds))).any pm = decide (cs <:+: ds) := by
      rw [behindSlashes_joinPath (hds d List.mem_cons_self)]
      split_ifs with hnil
      · subst hnil
        simp [hcs]
      · exact ih hds'
    rw [List.any_cons,hrest,hpm _ hds,← Bool.decide_or]
    simp only [List.infix_cons_iff]

end

def pathOf (absolute : Bool) (ds : List Bytes) : Bytes :=
  (if absolute then [slash] else []) ++ joinPath ds

theorem elementStarts_pathOf (absolute : Bool) {ds : List Bytes} (hds : ∀ d ∈ ds, PathItem d) :
    elementStarts (pathOf absolute ds) = joinPath ds::behindSlashes (joinPath ds) := by
  cases absolute with
  | true => rfl
  | false =>
    have hslash := (joinPath_start hds).1
    rw [pathOf,if_neg Bool.false_ne_true,List.nil_append,elementStarts,if_neg hslash]

section
variable (charLe : UInt8 → UInt8 → Bool) {cs ds : List Bytes} (hcs : cs ≠ [])
  (hlit : ∀ c ∈ cs, LiteralItem c) (hstart : (joinPath cs).head? ≠ some 94)
  (hds : ∀ d ∈ ds, PathItem d)
include hcs hlit

theorem pmCall_items {flags : PathmatchFlags} (hend : flags.noAnchorEnd = true)
    (hds : ∀ d ∈ ds, PathItem d) {fuel : ℕ} (hfuel : (joinPath cs).length < fuel) :
    pmLoop charLe fuel (pmCall (joinPath cs) (joinPath ds) flags).pattern
      (pmCall (joinPath cs) (joinPath ds) flags).path flags = decide (cs <+: ds) := by
  have hskip {items : List Bytes} (h : ∀ d ∈ items, PathItem d) :
      pmDotskip (joinPath items) = joinPath items :=
    pmDotskip_start fun hdot => ((joinPath_start h).2 hdot).1
  simp only [pmCall,hskip hds,hskip fun c hc => (hlit c hc).pathItem]
  exact pmLoop_items charLe hend hcs hlit hds fuel hfuel

include hstart

theorem pmCalls_items (s : Bytes) (flags : PathmatchFlags) : pmCalls (joinPath cs) s flags =
    if flags.noAnchorStart then (elementStarts s).map fun t => pmCall (joinPath cs) t flags
    else [pmCall (joinPath cs) s flags] := by
  obtain ⟨c,cs,rfl⟩ := List.exists_cons_of_ne_nil hcs
  have hc := hlit c List.mem_cons_self
  rw [joinPath_behind] at hstart ⊢
  obtain ⟨b,c,rfl⟩ := List.exists_cons_of_ne_nil hc.nonempty
  have hb : b ≠ 42 ∧ b ≠ slash := by
    have hbyte := hc.bytes b List.mem_cons_self
    exact ⟨by rintro rfl; exact hbyte (by decide),by rintro rfl; exact hbyte (by decide)⟩
  have hcaret : b ≠ 94 := by simpa using hstart
  simp only [List.cons_append,pmCalls,if_neg hcaret,pmCallsFrom,List.headD_cons,hb.1,hb.2,false_and,
    false_or,if_false]

include hds

theorem lafePathmatch_exclusion (absolute : Bool) :
    lafePathmatch charLe (joinPath cs) (pathOf absolute ds) ⟨true,true⟩ = decide (cs <:+: ds) := by
  have hnil : joinPath cs ≠ [] := (joinPath_eq_nil fun c hc => (hlit c hc).nonempty).not.mpr hcs
  rw [lafePathmatch,pathmatchBy_any _ hnil,pmCalls_items hcs hlit hstart,if_pos rfl,List.any_map,
    elementStarts_pathOf absolute hds]
  exact starts_any hcs hds fun items hitems =>
    pmCall_items charLe hcs hlit rfl hitems (Nat.lt_succ_self _)

theorem lafePathmatch_inclusion :
    lafePathmatch charLe (joinPath cs) (joinPath ds) ⟨false,true⟩ = decide (cs <+: ds) := by
  have hnil : joinPath cs ≠ [] := (joinPath_eq_nil fun c hc => (hlit c hc).nonempty).not.mpr hcs
  rw [lafePathmatch,pathmatchBy_any _ hnil,pmCalls_items hcs hlit hstart,if_neg Bool.false_ne_true]
  rw [List.any_cons,List.any_nil,Bool.or_false]
  exact pmCall_items charLe hcs hlit rfl hds (Nat.lt_succ_self _)

end

theorem zero_notMem_joinPath {items : List Bytes} (h : ∀ x ∈ items, 0 ∉ x) : 0 ∉ joinPath items := by
  intro hz
  rcases mem_joinPath hz with hslash | ⟨x,hx,hc⟩
  · exact absurd hslash (by decide)
  · exact h x hx hc

theorem storedPattern_slash {pattern : Bytes} (h : 0 ∉ pattern) :
    storedPattern (pattern ++ [slash]) = pattern := by
  have hcstr : cstr (pattern ++ [slash]) = pattern ++ [slash] :=
    cstr_of_not_mem _ (by simpa [slash] using h)
  simp [storedPattern,hcstr]

theorem storedPattern_joinPath {cs : List Bytes} (h : ∀ c ∈ cs, PathItem c) (trailing : Bool) :
    storedPattern (joinPath cs ++ if trailing then [slash] else []) = joinPath cs := by
  have hnul : 0 ∉ joinPath cs := zero_notMem_joinPath fun c hc => (h c hc).nul
  cases trailing with
  | true => exact storedPattern_slash hnul
  | false =>
    have hlast : (joinPath cs).getLast? ≠ some slash :=
      joinPath_getLast?_ne fun c hc => ⟨(h c hc).nonempty,(h c hc).slash⟩
    simp [storedPattern,cstr_of_not_mem _ hnul,hlast]

theorem matchExclusion_plain (p : MatchPlatform) {pattern path : Bytes} (hp : 0 ∉ pattern)
    (hclass : 91 ∉ pattern) (hpath : 0 ∉ path) : matchExclusion p pattern path =
      lafePathmatch p.charLe pattern path ⟨true,true⟩ := by
  rw [matchExclusion,MatchPlatform.subject,lafePathmatch_cstr hp hclass,
    cstr_append_zero path _ hpath]

theorem matchInclusion_plain (p : MatchPlatform) {pattern path : Bytes} (hp : 0 ∉ pattern)
    (hclass : 91 ∉ pattern) (hpath : 0 ∉ path) : matchInclusion p pattern path =
      lafePathmatch p.charLe pattern path ⟨false,true⟩ := by
  rw [matchInclusion,MatchPlatform.subject,lafePathmatch_cstr hp hclass,
    cstr_append_zero path _ hpath]

theorem lafeExcluded_exclude (p : MatchPlatform) (pattern path : Bytes) :
    (lafeExcluded p (lafeExclude none pattern) path).1 = matchExclusion p (storedPattern pattern) path := by
  rw [(lafeExcluded_eq p _ path).1]
  simp [lafeExclude,initializeMatching,addPattern_eq,LafeMatching.patterns,excludes]

theorem lafeExcluded_include (p : MatchPlatform) (pattern path : Bytes) :
    (lafeExcluded p (lafeInclude none pattern) path).1 =
      !matchInclusion p (storedPattern pattern) path := by
  rw [(lafeExcluded_eq p _ path).1]
  simp [lafeInclude,initializeMatching,addPattern_eq,LafeMatching.patterns,excludes]

/-- As the only exclusion a literal pattern excludes the paths in which its components follow one
another, and as the only inclusion it includes the relative paths that start with them. -/
theorem literal_pattern_components (p : MatchPlatform) {cs ds : List Bytes} (hcs : cs ≠ [])
    (hlit : ∀ c ∈ cs, LiteralItem c) (hstart : (joinPath cs).head? ≠ some 94)
    (hds : ∀ d ∈ ds, PathItem d) (trailing : Bool) :
    (∀ absolute, (lafeExcluded p (lafeExclude none (joinPath cs ++ if trailing then [slash] else []))
      (pathOf absolute ds)).1 = decide (cs <:+: ds)) ∧
    (lafeExcluded p (lafeInclude none (joinPath cs ++ if trailing then [slash] else []))
      (joinPath ds)).1 = decide (¬cs <+: ds) := by
  have hitems : ∀ c ∈ cs, PathItem c := fun c hc => (hlit c hc).pathItem
  have hnul : 0 ∉ joinPath cs := zero_notMem_joinPath fun c hc => (hitems c hc).nul
  have hpath : 0 ∉ joinPath ds := zero_notMem_joinPath fun d hd => (hds d hd).nul
  have hclass : 91 ∉ joinPath cs := by
    intro hmem
    rcases mem_joinPath hmem with hslash | ⟨c,hc,hb⟩
    · exact absurd hslash (by decide)
    · exact (hlit c hc).bytes 91 hb (by decide)
  refine ⟨fun absolute => ?_,?_⟩
  · have hpath' : 0 ∉ pathOf absolute ds := by
      cases absolute
      · exact hpath
      · simpa [pathOf,slash] using hpath
    rw [lafeExcluded_exclude,storedPattern_joinPath hitems,matchExclusion_plain p hnul hclass hpath']
    exact lafePathmatch_exclusion p.charLe hcs hlit hstart hds absolute
  · rw [lafeExcluded_include,storedPattern_joinPath hitems,matchInclusion_plain p hnul hclass hpath,
      lafePathmatch_inclusion p.charLe hcs hlit hstart hds]
    simp

/-- The pattern `a/b/` for the path `x/a/b`. -/
theorem literal_pattern_components_of_two :
    (∀ absolute, (lafeExcluded ⟨fun a b => decide (a ≤ b),fun _ => []⟩
      (lafeExclude none (joinPath [[97],[98]] ++ if true then [slash] else []))
      (pathOf absolute [[120],[97],[98]])).1 = decide ([[97],[98]] <:+: [[120],[97],[98]])) ∧
    (lafeExcluded ⟨fun a b => decide (a ≤ b),fun _ => []⟩
      (lafeInclude none (joinPath [[97],[98]] ++ if true then [slash] else []))
      (joinPath [[120],[97],[98]])).1 = decide (¬[[97],[98]] <+: [[120],[97],[98]]) := by
  refine literal_pattern_components ⟨fun a b => decide (a ≤ b),fun _ => []⟩ (by simp) ?_
    (by decide +kernel) ?_ true
  · simp only [List.mem_cons,List.not_mem_nil,or_false,forall_eq_or_imp,forall_eq]
    exact ⟨⟨by decide,by decide,by decide +kernel⟩,by decide,by decide,by decide +kernel⟩
  · simp only [List.mem_cons,List.not_mem_nil,or_false,forall_eq_or_imp,forall_eq]
    exact ⟨⟨by decide,by decide,by decide,by decide⟩,⟨by decide,by decide,by decide,by decide⟩,
      by decide,by decide,by decide,by decide⟩

end ArchiveTarBuilder
