import ArchiveTarBuilder.MemberName

/-! What `b_path_clean` makes of a path: the slash of an absolute path, and the components of the
path with single slashes between them. -/
namespace ArchiveTarBuilder
open CString

section
variable {items : List Bytes} (h : TokenItems items)
include h

theorem joinPath_head?_ne : (joinPath items).head? ≠ some slash := by
  cases items with
  | nil => simp [joinPath,bStringJoin]
  | cons x xs =>
    obtain ⟨hne,hslash⟩ := h x List.mem_cons_self
    obtain ⟨c,x,rfl⟩ := List.exists_cons_of_ne_nil hne
    have hc : c ≠ slash := fun hc => hslash (by simp [hc])
    by_cases hnil : xs = []
    · subst hnil
      simpa [joinPath,bStringJoin] using hc
    · simpa [joinPath_cons hnil] using hc

theorem joinPath_getLast?_ne : (joinPath items).getLast? ≠ some slash := by
  induction items with
  | nil => simp [joinPath,bStringJoin]
  | cons x xs ih =>
    have hxs : TokenItems xs := fun y hy => h y (List.mem_cons_of_mem x hy)
    by_cases hnil : xs = []
    · subst hnil
      have hone : joinPath [x] = x := by simp [joinPath,bStringJoin]
      rw [hone]
      exact fun hlast => (h x List.mem_cons_self).2 (List.mem_of_getLast? hlast)
    · have hrest : joinPath xs ≠ [] := (joinPath_eq_nil fun y hy => (hxs y hy).1).not.mpr hnil
      rw [joinPath_cons hnil,List.getLast?_append_of_ne_nil _ (List.cons_ne_nil _ _),
        List.getLast?_cons_of_ne_nil hrest]
      exact ih hxs

end

theorem slashes_infix_append {x rest : Bytes} (hx : slash ∉ x) (h : [slash,slash] <:+: x ++ rest) :
    [slash,slash] <:+: rest := by
  induction x with
  | nil => exact h
  | cons c x ih =>
    rcases List.infix_cons_iff.mp h with hpre | hin
    · exact absurd (List.cons_prefix_cons.mp hpre).1 fun hc => hx (by simp [hc])
    · exact ih (fun hmem => hx (List.mem_cons_of_mem c hmem)) hin

theorem slashes_not_infix {items : List Bytes} (h : TokenItems items) :
    ¬[slash,slash] <:+: slash::joinPath items := by
  induction items with
  | nil => exact fun hin => absurd hin.length_le (by simp [joinPath,bStringJoin])
  | cons x xs ih =>
    have hxs : TokenItems xs := fun y hy => h y (List.mem_cons_of_mem x hy)
    obtain ⟨hne,hslash⟩ := h x List.mem_cons_self
    intro hin
    rcases List.infix_cons_iff.mp hin with hpre | hin
    · have hhead := joinPath_head?_ne h
      obtain ⟨rest,hrest⟩ := (List.cons_prefix_cons.mp hpre).2
      simp [← hrest] at hhead
    · by_cases hnil : xs = []
      · subst hnil
        have hone : joinPath [x] = x ++ [] := by simp [joinPath,bStringJoin]
        rw [hone] at hin
        exact absurd (slashes_infix_append hslash hin).length_le (by simp)
      · rw [joinPath_cons hnil] at hin
        exact ih hxs (slashes_infix_append hslash hin)

/-- A cleaned path is absolute if the path is, has its components, holds no empty one and no slash
at its end unless it is `/`, and does not change when it is cleaned again. -/
theorem bPathClean_normal (path : Bytes) :
    isAbsolute (bPathClean path) = isAbsolute path ∧
    strtok (bPathClean path) = dropDots (strtok (cstr path)) ∧
    ¬[slash,slash] <:+: bPathClean path ∧
    (bPathClean path = [slash] ∨ (bPathClean path).getLast? ≠ some slash) ∧
    bPathClean (bPathClean path) = bPathClean path := by
  have hnul := zero_notMem_cstr path
  rw [← bPathClean_cstr path,← isAbsolute_cstr path]
  generalize cstr path = path at hnul ⊢
  have htok := tokenItems_components path
  have hclean := bPathClean_eq hnul
  have hnul' : 0 ∉ bPathClean path := by
    rw [hclean,List.mem_append]
    rintro (hz | hz)
    · split at hz <;> simp [slash] at hz
    · rcases mem_joinPath hz with hz | ⟨x,hx,hz⟩
      · exact absurd hz (by decide)
      · exact zero_notMem_components hnul hx hz
  have habs : isAbsolute (bPathClean path) = isAbsolute path := by
    rw [hclean]
    cases ha : isAbsolute path with
    | true => rfl
    | false => simpa [isAbsolute] using joinPath_head?_ne htok
  have hstrtok : strtok (bPathClean path) = components path := by
    rw [hclean]
    split
    · exact (strtok_append [] _).trans (strtok_joinPath htok)
    · exact strtok_joinPath htok
  refine ⟨habs,hstrtok,?_,?_,?_⟩
  · rw [hclean]
    split
    · exact slashes_not_infix htok
    · exact fun hin => slashes_not_infix htok (List.infix_cons hin)
  · have hlast := joinPath_getLast?_ne htok
    rw [hclean]
    by_cases hnil : joinPath (components path) = []
    · rw [hnil]
      split
      · exact Or.inl rfl
      · exact Or.inr (by simp)
    · rw [List.getLast?_append_of_ne_nil _ hnil]
      exact Or.inr hlast
  · rw [bPathClean_eq hnul',habs,components,hstrtok,components,dropDots_dropDots,hclean,components]

end ArchiveTarBuilder
