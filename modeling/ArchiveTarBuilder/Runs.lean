import Mathlib

/-! Maximal runs of a list between separators. -/
namespace Runs

variable {α : Type*} (sep : α → Bool)

def runs (xs : List α) : List (List α) := (xs.splitOnP sep).filter fun run => !run.isEmpty

@[simp] theorem runs_nil : runs sep [] = [] := by simp [runs,List.splitOnP_nil]

theorem unbroken_or_cut (xs : List α) : (∀ x ∈ xs, sep x = false) ∨
    ∃ run a rest, xs = run ++ a::rest ∧ (∀ x ∈ run, sep x = false) ∧ sep a = true := by
  induction xs with
  | nil => exact .inl (by simp)
  | cons x xs ih =>
    by_cases hx : sep x = true
    · exact .inr ⟨[],x,xs,rfl,by simp,hx⟩
    · have hx : sep x = false := by simpa using hx
      rcases ih with h | ⟨run,a,rest,rfl,hrun,ha⟩
      · exact .inl (List.forall_mem_cons.mpr ⟨hx,h⟩)
      · exact .inr ⟨x::run,a,rest,rfl,List.forall_mem_cons.mpr ⟨hx,hrun⟩,ha⟩

variable {sep} {xs ys : List α} {a b : α}

theorem runs_append_sep (h : sep a) : runs sep (xs ++ a::ys) = runs sep xs ++ runs sep ys := by
  rw [runs,List.splitOnP_append_cons xs ys h,List.filter_append]
  rfl

theorem runs_other_sep (ha : sep a) (hb : sep b) :
    runs sep (xs ++ a::ys) = runs sep (xs ++ b::ys) := by
  rw [runs_append_sep ha,runs_append_sep hb]

theorem runs_unbroken (h : ∀ x ∈ xs, sep x = false) :
    runs sep xs = if xs = [] then [] else [xs] := by
  rw [runs,List.splitOnP_eq_singleton h]
  cases xs <;> simp

theorem exists_run_of_prefix (hne : xs ≠ []) (h : ∀ x ∈ xs, sep x = false) (ys : List α) :
    ∃ run ∈ runs sep (xs ++ ys), xs.length ≤ run.length := by
  rcases unbroken_or_cut sep ys with hys | ⟨more,a,rest,rfl,hmore,ha⟩
  · refine ⟨xs ++ ys,?_,by simp⟩
    rw [runs_unbroken fun x hx => (List.mem_append.mp hx).elim (h x) (hys x),if_neg (by simp [hne])]
    exact List.mem_singleton_self _
  · refine ⟨xs ++ more,?_,by simp⟩
    rw [← List.append_assoc,runs_append_sep ha,
      runs_unbroken fun x hx => (List.mem_append.mp hx).elim (h x) (hmore x),if_neg (by simp [hne])]
    exact List.mem_append_left _ (List.mem_singleton_self _)

end Runs
