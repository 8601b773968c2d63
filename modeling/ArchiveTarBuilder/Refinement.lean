import Mathlib

/-! Machines that answer requests, compared with what they should be. A machine may break at a
request; a specification always answers. -/
namespace Refinement

variable {C A O R : Type*}

def run (step : C → O → Option (R × C)) : C → List O → Option (List R × C)
  | c,[] => some ([],c)
  | c,o::os => (step c o).bind fun r => (run step r.2 os).map fun rs => (r.1::rs.1,rs.2)

def specRun (spec : A → O → R × A) : A → List O → List R × A
  | a,[] => ([],a)
  | a,o::os =>
    let r := spec a o
    let rs := specRun spec r.2 os
    (r.1::rs.1,rs.2)

/-- One request: the machine does not break, it keeps its invariant, and unless something has gone
wrong it answers as it should. What has gone wrong once stays so. -/
structure Step (inv wrong : C → Prop) (rep : C → A → Prop) (c : C) (r : R × C) (s : A → R × A) :
    Prop where
  keeps : inv r.2
  stays : wrong c → wrong r.2
  answers : ¬wrong r.2 → ∀ a, rep c a → r.1 = (s a).1 ∧ rep r.2 (s a).2

theorem run_refines {step : C → O → Option (R × C)} {spec : A → O → R × A} {inv wrong : C → Prop}
    {rep : C → A → Prop}
    (hstep : ∀ c o, inv c → ∃ r, step c o = some r ∧ Step inv wrong rep c r (spec · o)) (c : C)
    (os : List O) (h : inv c) :
    ∃ rs, run step c os = some rs ∧ Step inv wrong rep c rs (specRun spec · os) := by
  induction os generalizing c with
  | nil => exact ⟨([],c),rfl,h,id,fun _ a ha => ⟨rfl,ha⟩⟩
  | cons o os ih =>
    obtain ⟨r,hr,hs⟩ := hstep c o h
    obtain ⟨rs,hrs,hss⟩ := ih r.2 hs.keeps
    refine ⟨(r.1::rs.1,rs.2),by simp [run,hr,hrs],hss.keeps,hss.stays ∘ hs.stays,fun hok a ha => ?_⟩
    obtain ⟨hfirst,hrep⟩ := hs.answers (fun hw => hok (hss.stays hw)) a ha
    obtain ⟨hrest,hrep'⟩ := hss.answers hok _ hrep
    exact ⟨by rw [specRun,hfirst,hrest],hrep'⟩

end Refinement
