import ArchiveTarBuilder.PathReads

/-! What lies in memory behind a path. A match that reads nothing there answers the same whatever it
is, and a pattern without `[` never reads there. -/
namespace ArchiveTarBuilder
open Backtracking CString

theorem cstr_cons {c : UInt8} (hc : c ≠ 0) (s : Bytes) : cstr (c::s) = c::cstr s := by
  simp [cstr,hc]

@[simp] theorem cstr_zero_cons (s : Bytes) : cstr (0::s) = [] := by
  simp [cstr]

@[simp] theorem headD_cstr (s : Bytes) : (cstr s).headD 0 = s.headD 0 := by
  cases s with
  | nil => rfl
  | cons c s =>
    by_cases hc : c = 0
    · subst hc
      simp
    · simp [cstr_cons hc]

theorem cstr_tail {s : Bytes} (h : s.headD 0 ≠ 0) : cstr s.tail = (cstr s).tail := by
  cases s with
  | nil => rfl
  | cons c s => rw [cstr_cons (by simpa using h),List.tail_cons,List.tail_cons]

theorem cstr_pmSlashskip (s : Bytes) : cstr (pmSlashskip s) = pmSlashskip (cstr s) := by
  induction s with
  | nil => rfl
  | cons c s ih =>
    by_cases hc : c = 0
    · subst hc
      rfl
    · rw [cstr_cons hc,pmSlashskip,pmSlashskip,headD_cstr]
      split_ifs
      · exact ih
      · exact cstr_cons hc s

theorem cstr_pmDotskip (s : Bytes) : cstr (pmDotskip s) = pmDotskip (cstr s) := by
  by_cases hdot : s.headD 0 = 46
  · have htail := cstr_tail (s := s) (by rw [hdot]; decide)
    rw [pmDotskip,pmDotskip,headD_cstr,← htail,headD_cstr]
    split_ifs
    · exact cstr_pmSlashskip s.tail
    · rfl
  · rw [pmDotskip,pmDotskip,headD_cstr,if_neg fun h => hdot h.1,if_neg fun h => hdot h.1]

theorem cstr_dropWhile (s : Bytes) :
    cstr (s.dropWhile (· = slash)) = (cstr s).dropWhile (· = slash) := by
  induction s with
  | nil => rfl
  | cons c s ih =>
    by_cases hc : c = 0
    · subst hc
      rfl
    · by_cases hslash : c = slash
      · rw [cstr_cons hc]
        simp [hslash,ih]
      · rw [cstr_cons hc]
        simp [hslash,cstr_cons hc]

theorem places_cstr (s : Bytes) : (places s).map cstr = places (cstr s) := by
  induction s with
  | nil => rfl
  | cons c s ih =>
    by_cases hc : c = 0
    · subst hc
      rfl
    · rw [cstr_cons hc,places,places,if_neg hc,if_neg hc,List.map_cons,ih,cstr_cons hc]

theorem elementStarts_cstr (s : Bytes) : (elementStarts s).map cstr = elementStarts (cstr s) := by
  have hbehind (s : Bytes) : (behindSlashes s).map cstr = behindSlashes (cstr s) := by
    induction s with
    | nil => rfl
    | cons c s ih =>
      by_cases hc : c = 0
      · subst hc
        rfl
      · rw [cstr_cons hc,behindSlashes,behindSlashes,if_neg hc,if_neg hc]
        split_ifs
        · rw [List.map_cons,ih]
        · exact ih
  rw [elementStarts,elementStarts,headD_cstr]
  split_ifs with hslash
  · rw [← cstr_tail (by rw [hslash]; decide),List.map_cons,hbehind]
  · rw [List.map_cons,hbehind]

def PmAttempt.cut (a : PmAttempt) : PmAttempt := { a with path := cstr a.path }

theorem pmCallsFrom_cstr (p s : Bytes) (flags : PathmatchFlags) :
    (pmCallsFrom p s flags).map PmAttempt.cut = pmCallsFrom p (cstr s) flags := by
  have hcall (p s : Bytes) : (pmCall p s flags).cut = pmCall p (cstr s) flags := by
    simp only [pmCall,PmAttempt.cut,cstr_pmDotskip]
  simp only [pmCallsFrom,headD_cstr]
  split_ifs
  · rfl
  · rw [List.map_singleton,hcall,cstr_dropWhile]
  · rw [List.map_map,← elementStarts_cstr,List.map_map]
    exact List.map_congr_left fun t _ => hcall p t
  · rw [List.map_singleton,hcall]

theorem pmCalls_cstr (p s : Bytes) (flags : PathmatchFlags) :
    (pmCalls p s flags).map PmAttempt.cut = pmCalls p (cstr s) flags := by
  cases p with
  | nil => rfl
  | cons b p =>
    rw [pmCalls,pmCalls]
    split_ifs
    · exact pmCallsFrom_cstr p s _
    · exact pmCallsFrom_cstr (b::p) s _

theorem pathmatchBy_any (loop : Bytes → Bytes → PathmatchFlags → Bool) {p : Bytes} (hp : p ≠ [])
    (s : Bytes) (flags : PathmatchFlags) : pathmatchBy loop p s flags =
      (pmCalls p s flags).any fun a => loop a.pattern a.path a.flags := by
  have hfrom (p : Bytes) (flags : PathmatchFlags) :
      (if p.headD 0 = slash ∧ s.headD 0 ≠ slash then false
        else if p.headD 0 = 42 ∨ p.headD 0 = slash then
          pmBy loop (p.dropWhile (· = slash)) (s.dropWhile (· = slash)) flags
        else if flags.noAnchorStart then (elementStarts s).any fun t => pmBy loop p t flags
        else pmBy loop p s flags) =
      (pmCallsFrom p s flags).any fun a => loop a.pattern a.path a.flags := by
    rw [pmCallsFrom]
    split_ifs
    · rfl
    · simp [pmBy,pmCall]
    · rw [List.any_map]
      rfl
    · simp [pmBy,pmCall]
  cases p with
  | nil => exact absurd rfl hp
  | cons b p =>
    rw [pathmatchBy,if_neg hp,pmCalls]
    refine (hfrom (if (b::p).headD 0 = 94 then (b::p).tail else b::p)
      (if (b::p).headD 0 = 94 then { flags with noAnchorStart := false } else flags)).trans ?_
    by_cases hb : b = 94
    · rw [if_pos hb,if_pos (show (b::p).headD 0 = 94 from hb),
        if_pos (show (b::p).headD 0 = 94 from hb)]
      rfl
    · rw [if_neg hb,if_neg (show (b::p).headD 0 ≠ 94 from hb),
        if_neg (show (b::p).headD 0 ≠ 94 from hb)]

section
variable {charLe : UInt8 → UInt8 → Bool}

theorem pmLoop_stars (fuel : ℕ) {q : Bytes} (h : onlyStars q = true) (s : Bytes)
    (flags : PathmatchFlags) : pmLoop charLe (fuel+1) q s flags = true := by
  cases q with
  | nil => cases h
  | cons b q =>
    obtain rfl : b = 42 := by
      by_contra hb
      rw [Cursor.onlyStars_cons_of_ne hb] at h
      cases h
    simp [pmLoop,pmRound,(Cursor.onlyStars_iff q).mp h]

theorem pmNext_stars {q : Bytes} (h : onlyStars q = true) (s : Bytes) (flags : PathmatchFlags) :
    pmNext charLe ⟨q,s,flags⟩ = .ends true := by
  cases q with
  | nil => cases h
  | cons b q =>
    obtain rfl : b = 42 := by
      by_contra hb
      rw [Cursor.onlyStars_cons_of_ne hb] at h
      cases h
    rw [pmNext_of_ne charLe (by simp)]
    simp [pmStep,(Cursor.onlyStars_iff q).mp h]

section
variable {fuel : ℕ} (ih : ∀ p s flags found, 0 ∉ p → p.length < fuel →
  search (pmNext charLe) fuel ⟨p,cstr s,flags⟩ = some found → pmLoop charLe fuel p s flags = found)
  {q s : Bytes} {flags : PathmatchFlags} {found : Bool} (hq : 0 ∉ q) (hfuel : q.length < fuel)
include ih hq hfuel

theorem pmLoop_next (hs : s.headD 0 ≠ 0)
    (h : (Outcome.goesOn [⟨q,(cstr s).tail,flags⟩]).run (search (pmNext charLe) fuel) = some found) :
    pmLoop charLe fuel q s.tail flags = found := by
  rw [Outcome.run,tryAll_singleton,← cstr_tail hs] at h
  exact ih q s.tail flags found hq hfuel h

theorem literal_search {b : UInt8} (hb : b ≠ 0)
    (h : (if b ≠ s.headD 0 then Outcome.ends false else .goesOn [⟨q,(cstr s).tail,flags⟩]).run
      (search (pmNext charLe) fuel) = some found) :
    (if b ≠ s.headD 0 then false else pmLoop charLe fuel q s.tail flags) = found := by
  split_ifs at h ⊢ with hne
  · exact Option.some.inj h
  · exact pmLoop_next ih hq hfuel (by rwa [← not_not.mp hne]) h

theorem class_search (h : (pmNext charLe ⟨91::q,cstr s,flags⟩).run (search (pmNext charLe) fuel) = some found) :
    pmRound charLe (pmLoop charLe fuel) (91::q) s flags = found := by
  have hend : classAtEnd charLe ⟨91::q,cstr s,flags⟩ = false := by
    by_contra hend
    rw [pmNext,if_pos (by simpa using hend)] at h
    cases h
  rw [pmNext,if_neg (by simp [hend])] at h
  simp only [pmStep,if_neg (show ¬(91 : UInt8) = 63 by decide),
    if_neg (show ¬(91 : UInt8) = 42 by decide),if_true,headD_cstr] at h
  simp only [pmRound,if_neg (show ¬(91 : UInt8) = 63 by decide),
    if_neg (show ¬(91 : UInt8) = 42 by decide),if_true]
  cases hfound : pmClass q with
  | none =>
    simp only [hfound] at h ⊢
    exact literal_search ih hq hfuel (by decide) h
  | some r =>
    obtain ⟨list,q'⟩ := r
    have hlen : q'.length < q.length := pmClass_length q _ hfound
    have hq' : 0 ∉ q' := fun hmem => hq (by rw [(Cursor.pmClass_eq hfound).1]; simp [hmem])
    simp only [hfound] at h ⊢
    split_ifs at h ⊢ with haccepts
    · by_cases hs : s.headD 0 = 0
      · -- the class stands at the end of the path with `*`s behind it
        have hcut : cstr s = [] := by
          cases s with
          | nil => rfl
          | cons c s =>
            obtain rfl : c = 0 := hs
            exact cstr_zero_cons s
        rw [hs] at haccepts
        have honly : onlyStars q' = true := by
          simpa [classAtEnd,hcut,hfound,haccepts] using hend
        obtain ⟨n,rfl⟩ : ∃ n, fuel = n+1 := Nat.exists_eq_add_of_le' (by omega)
        rw [Outcome.run,tryAll_singleton,search,pmNext_stars honly,Outcome.run] at h
        rw [pmLoop_stars n honly]
        exact Option.some.inj h
      · exact pmLoop_next ih hq' (hlen.trans hfuel) hs h
    · exact Option.some.inj h

theorem star_search (hne : q ≠ [])
    (h : (Outcome.goesOn ((places (cstr s)).flatMap fun t => pmCalls q t flags)).run
      (search (pmNext charLe) fuel) = some found) :
    ((places s).any fun t => pathmatchBy (pmLoop charLe fuel) q t flags) = found := by
  have hany : (fun t => pathmatchBy (pmLoop charLe fuel) q t flags) =
      fun t => (pmCalls q t flags).any fun a => pmLoop charLe fuel a.pattern a.path a.flags :=
    funext fun t => pathmatchBy_any _ hne t flags
  have hcut : (places (cstr s)).flatMap (fun t => pmCalls q t flags) =
      ((places s).flatMap fun t => pmCalls q t flags).map PmAttempt.cut := by
    rw [← places_cstr,List.flatMap_map,List.map_flatMap]
    exact List.flatMap_congr fun t _ => (pmCalls_cstr _ t flags).symm
  rw [hcut,Outcome.run,tryAll_map] at h
  rw [hany,← List.any_flatMap]
  refine tryAll_any (fun a ha found' hfound => ?_) h
  obtain ⟨t,-,hcall⟩ := List.mem_flatMap.mp ha
  have hsuffix := (mem_pmCalls hcall).1
  exact ih a.pattern a.path a.flags found' (fun hmem => hq (hsuffix.subset hmem))
    (hsuffix.length_le.trans_lt hfuel) hfound

end

/-- A search that does not break is what the loop answers with any memory behind the path. -/
theorem pmLoop_search (fuel : ℕ) (p s : Bytes) (flags : PathmatchFlags) (found : Bool)
    (hp : 0 ∉ p) (hfuel : p.length < fuel)
    (h : search (pmNext charLe) fuel ⟨p,cstr s,flags⟩ = some found) :
    pmLoop charLe fuel p s flags = found := by
  induction fuel generalizing p s flags found with
  | zero => omega
  | succ fuel ih =>
    rw [search] at h
    rw [pmLoop]
    cases p with
    | nil =>
      rw [pmNext_of_ne charLe (by simp)] at h
      simp only [pmStep,Outcome.run,← cstr_pmSlashskip,headD_cstr,Option.some.injEq] at h
      exact h
    | cons b q =>
      have hq : 0 ∉ q := fun hmem => hp (List.mem_cons_of_mem b hmem)
      have hb : b ≠ 0 := fun hb => hp (by simp [hb])
      rw [List.length_cons] at hfuel
      have hlt : q.length < fuel := Nat.lt_of_succ_lt_succ hfuel
      by_cases hclass : b = 91
      · subst hclass
        exact class_search ih hq hlt h
      rw [pmNext_of_ne charLe (by simpa using hclass)] at h
      simp only [pmStep,if_neg hclass,headD_cstr] at h
      simp only [pmRound,if_neg hclass]
      by_cases hone : b = 63
      · simp only [if_pos hone] at h ⊢
        split_ifs at h ⊢ with hc
        · exact Option.some.inj h
        · exact pmLoop_next ih hq hlt hc h
      simp only [if_neg hone] at h ⊢
      by_cases hstar : b = 42
      · simp only [if_pos hstar] at h ⊢
        have hsuffix := List.dropWhile_suffix (l := q) fun x => decide (x = 42)
        split_ifs at h ⊢ with hend
        · exact Option.some.inj h
        · exact star_search ih (fun hmem => hq (hsuffix.subset hmem))
            (hsuffix.length_le.trans_lt hlt) hend h
      simp only [if_neg hstar] at h ⊢
      by_cases hescape : b = 92
      · simp only [if_pos hescape] at h ⊢
        cases q with
        | nil =>
          have hsame : (s.headD 0 ≠ 92) = (92 ≠ s.headD 0) := propext ne_comm
          simp only [hsame] at h ⊢
          exact literal_search ih hq hlt (by decide) h
        | cons d q =>
          rw [List.length_cons] at hlt
          exact literal_search ih (fun hmem => hq (by simp [hmem])) (by omega)
            (fun hd => hq (by simp [hd])) h
      simp only [if_neg hescape] at h ⊢
      by_cases hslash : b = slash
      · simp only [if_pos hslash,← cstr_pmSlashskip] at h ⊢
        split_ifs at h ⊢
        · exact Option.some.inj h
        · exact Option.some.inj h
        · rw [Outcome.run,tryAll_singleton] at h
          exact ih _ _ _ _ (fun hmem => hq ((pmSlashskip_suffix q).subset hmem))
            ((length_pmSlashskip_le q).trans_lt hlt) h
      simp only [if_neg hslash] at h ⊢
      by_cases hend : b = 36 ∧ q = [] ∧ flags.noAnchorEnd = true
      · simp only [if_pos hend,← cstr_pmSlashskip,headD_cstr] at h ⊢
        exact Option.some.inj h
      · simp only [if_neg hend] at h ⊢
        exact literal_search ih hq hlt hb h

/-- A match that reads nothing behind the NULs answers the same with any memory there. -/
theorem lafePathmatch_memory {p : Bytes} (hp : 0 ∉ p) (s : Bytes) (flags : PathmatchFlags) {found : Bool}
    (h : Cursor.lafePathmatch charLe (some p) (some (cstr s)) flags = some found) :
    lafePathmatch charLe p s flags = found := by
  rw [Cursor.lafePathmatch_some charLe hp (zero_notMem_cstr s)] at h
  split_ifs at h with hnil
  · subst hnil
    rw [lafePathmatch,pathmatchBy,if_pos rfl,← headD_cstr,← Option.some.inj h]
    simp only [Cursor.headD_eq_zero (zero_notMem_cstr s)]
  · rw [← pmCalls_cstr,tryAll_map] at h
    rw [lafePathmatch,pathmatchBy_any _ hnil]
    refine tryAll_any (fun a ha found' hfound => ?_) h
    have hsuffix := (mem_pmCalls ha).1
    exact pmLoop_search _ a.pattern a.path a.flags found' (fun hmem => hp (hsuffix.subset hmem))
      (Nat.lt_succ_of_le hsuffix.length_le) hfound

theorem pattern_suffix_of_comes {a b : PmAttempt}
    (h : Comes (·.pattern.length) (pmNext charLe) a b) : b.pattern <:+ a.pattern := by
  induction h with
  | here => exact List.suffix_rfl
  | later goes _ _ ih =>
    obtain ⟨⟨c,q,hpattern,hsuffix⟩,-⟩ := mem_pmNext goes (List.mem_append_right _ List.mem_cons_self)
    rw [hpattern]
    exact ih.trans (hsuffix.trans (List.suffix_cons c q))

theorem lafePathmatch_plain {p : Bytes} (hclass : 91 ∉ p) (s : Bytes) (flags : PathmatchFlags) :
    Cursor.lafePathmatch charLe (some (cstr p)) (some (cstr s)) flags ≠ none := by
  rw [lafePathmatch_reads_iff]
  rintro a ⟨before,b,after,hcalls,-,hcomes⟩
  have hsuffix : a.pattern <:+ cstr p :=
    (pattern_suffix_of_comes hcomes).trans (mem_pmCalls (by rw [hcalls]; simp)).1
  have hhead : a.pattern.headD 0 ≠ 91 := by
    intro hhead
    cases hpattern : a.pattern with
    | nil => simp [hpattern] at hhead
    | cons c q =>
      rw [hpattern] at hhead hsuffix
      obtain rfl : c = 91 := hhead
      exact hclass ((List.takeWhile_prefix _).subset (hsuffix.subset List.mem_cons_self))
  rw [classAtEnd,decide_eq_false hhead]
  simp

theorem lafePathmatch_cstr {p : Bytes} (hp : 0 ∉ p) (hclass : 91 ∉ p) (s : Bytes)
    (flags : PathmatchFlags) : lafePathmatch charLe p s flags =
    lafePathmatch charLe p (cstr s) flags := by
  obtain ⟨found,hfound⟩ := Option.ne_none_iff_exists'.mp (@lafePathmatch_plain charLe p hclass s flags)
  rw [cstr_of_not_mem p hp] at hfound
  rw [lafePathmatch_memory hp s flags hfound,lafePathmatch_memory hp (cstr s) flags
    (by rwa [cstr_of_not_mem _ (zero_notMem_cstr s)])]

end

end ArchiveTarBuilder
