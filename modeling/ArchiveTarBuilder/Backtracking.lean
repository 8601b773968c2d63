import Mathlib

/-! Searches that try one state after the other. A round at a state breaks, ends the search, or goes
on with a list of states, of which the first that succeeds decides. -/
namespace Backtracking

variable {σ : Type*}

inductive Outcome (σ : Type*)
  | breaks | ends (found : Bool) | goesOn (states : List σ)

def tryAll (run : σ → Option Bool) : List σ → Option Bool
  | [] => some false
  | a::states => (run a).bind fun found => if found then some true else tryAll run states

def Outcome.run (run : σ → Option Bool) : Outcome σ → Option Bool
  | breaks => none
  | ends found => some found
  | goesOn states => tryAll run states

def search (round : σ → Outcome σ) : ℕ → σ → Option Bool
  | 0,_ => some false
  | fuel+1,a => (round a).run (search round fuel)

theorem tryAll_eq_none (run : σ → Option Bool) (states : List σ) : tryAll run states = none ↔
    ∃ before a after, states = before ++ a::after ∧ (∀ b ∈ before, run b = some false) ∧
      run a = none := by
  induction states with
  | nil => simp [tryAll]
  | cons a states ih =>
    rw [tryAll]
    constructor
    · intro h
      rcases hrun : run a with - | found
      · exact ⟨[],a,states,rfl,by simp,hrun⟩
      · cases found with
        | true => simp [hrun] at h
        | false =>
          obtain ⟨before,b,after,rfl,hbefore,hb⟩ := ih.mp (by simpa [hrun] using h)
          exact ⟨a::before,b,after,rfl,by simpa using ⟨hrun,hbefore⟩,hb⟩
    · rintro ⟨before,b,after,heq,hbefore,hb⟩
      cases before with
      | nil =>
        obtain ⟨rfl,-⟩ := List.cons.inj heq
        rw [hb]
        rfl
      | cons c before =>
        obtain ⟨rfl,rfl⟩ := List.cons.inj heq
        rw [hbefore a List.mem_cons_self]
        exact ih.mpr ⟨before,b,after,rfl,fun d hd => hbefore d (List.mem_cons_of_mem a hd),hb⟩

theorem tryAll_congr {run run' : σ → Option Bool} {states : List σ}
    (h : ∀ a ∈ states, run a = run' a) : tryAll run states = tryAll run' states := by
  induction states with
  | nil => rfl
  | cons a states ih =>
    rw [tryAll,tryAll,h a List.mem_cons_self,ih fun b hb => h b (List.mem_cons_of_mem a hb)]

@[simp] theorem tryAll_singleton (run : σ → Option Bool) (a : σ) : tryAll run [a] = run a := by
  rw [tryAll]
  rcases run a with - | found
  · rfl
  · cases found <;> rfl

theorem tryAll_append (run : σ → Option Bool) (states states' : List σ) :
    tryAll run (states ++ states') =
      (tryAll run states).bind fun found => if found then some true else tryAll run states' := by
  induction states with
  | nil => simp [tryAll]
  | cons a states ih =>
    rw [List.cons_append,tryAll,tryAll,ih]
    rcases run a with - | found
    · rfl
    · cases found <;> rfl

theorem tryAll_map {τ : Type*} (run : σ → Option Bool) (f : τ → σ) (states : List τ) :
    tryAll run (states.map f) = tryAll (run ∘ f) states := by
  induction states with
  | nil => rfl
  | cons a states ih => simp [tryAll,ih]

theorem tryAll_flatMap {τ : Type*} (run : σ → Option Bool) (f : τ → List σ) (states : List τ) :
    tryAll run (states.flatMap f) = tryAll (fun a => tryAll run (f a)) states := by
  induction states with
  | nil => rfl
  | cons a states ih => rw [List.flatMap_cons,tryAll_append,ih,tryAll]

/-- Without a break the states are what they are to any function that they agree with. -/
theorem tryAll_any {run : σ → Option Bool} {answer : σ → Bool} {states : List σ} {found : Bool}
    (h : ∀ a ∈ states, ∀ b, run a = some b → answer a = b) (hrun : tryAll run states = some found) :
    states.any answer = found := by
  induction states with
  | nil => simpa [tryAll] using hrun
  | cons a states ih =>
    rw [tryAll] at hrun
    obtain ⟨b,hb,hrest⟩ := Option.bind_eq_some_iff.mp hrun
    have ha := h a List.mem_cons_self b hb
    cases b with
    | true => simpa [ha] using hrest
    | false =>
      rw [List.any_cons,ha,Bool.false_or]
      exact ih (fun d hd => h d (List.mem_cons_of_mem a hd)) (by simpa using hrest)

def Shrinks (size : σ → ℕ) (round : σ → Outcome σ) : Prop :=
  ∀ a states, round a = .goesOn states → ∀ b ∈ states, size b < size a

section
variable {size : σ → ℕ} {round : σ → Outcome σ}

theorem search_fuel (h : Shrinks size round) (n m : ℕ) (a : σ) (hn : size a < n) (hm : size a < m) :
    search round n a = search round m a := by
  induction n generalizing m a with
  | zero => omega
  | succ n ih =>
    obtain ⟨m,rfl⟩ := Nat.exists_eq_succ_of_ne_zero (by omega : m ≠ 0)
    rw [search,search]
    cases hround : round a with
    | breaks => rfl
    | ends found => rfl
    | goesOn states =>
      refine tryAll_congr fun b hb => ?_
      have hlt := h a states hround b hb
      exact ih m b (by omega) (by omega)

variable (size round)

/-- A search from `a` comes to a state, since what it tries before fails. -/
inductive Comes : σ → σ → Prop
  | here (a : σ) : Comes a a
  | later {a b c : σ} {before after : List σ} (goes : round a = .goesOn (before ++ b::after))
      (fails : ∀ d ∈ before, search round (size d+1) d = some false) (comes : Comes b c) : Comes a c

variable {size round}

theorem search_eq_none (h : Shrinks size round) (n : ℕ) (a : σ) (hn : size a < n) :
    search round n a = none ↔ ∃ b, Comes size round a b ∧ round b = .breaks := by
  induction n generalizing a with
  | zero => omega
  | succ n ih =>
    rw [search]
    have hfuel {states : List σ} (hround : round a = .goesOn states) {b : σ} (hb : b ∈ states) :
        size b < n ∧ search round n b = search round (size b+1) b := by
      have hlt := h a states hround b hb
      exact ⟨by omega,search_fuel h _ _ b (by omega) (by omega)⟩
    constructor
    · intro hnone
      cases hround : round a with
      | breaks => exact ⟨a,.here a,hround⟩
      | ends found => simp [hround,Outcome.run] at hnone
      | goesOn states =>
        rw [hround,Outcome.run,tryAll_eq_none] at hnone
        obtain ⟨before,b,after,rfl,hbefore,hb⟩ := hnone
        obtain ⟨c,hcomes,hc⟩ := (ih b (hfuel hround (by simp)).1).mp hb
        refine ⟨c,.later hround (fun d hd => ?_) hcomes,hc⟩
        rw [← (hfuel hround (by simp [hd])).2]
        exact hbefore d hd
    · rintro ⟨c,hcomes,hc⟩
      cases hcomes with
      | here => rw [hc,Outcome.run]
      | later goes fails comes =>
        rename_i b before after
        rw [goes,Outcome.run,tryAll_eq_none]
        refine ⟨before,b,after,rfl,fun d hd => ?_,?_⟩
        · rw [(hfuel goes (by simp [hd])).2]
          exact fails d hd
        · exact (ih b (hfuel goes (by simp)).1).mpr ⟨c,comes,hc⟩

variable (size round)

/-- The same for a list of states that are tried one after the other. -/
def ComesFrom (states : List σ) (c : σ) : Prop := ∃ before b after, states = before ++ b::after ∧
  (∀ d ∈ before, search round (size d+1) d = some false) ∧ Comes size round b c

variable {size round}

theorem tryAll_search_eq_none (h : Shrinks size round) (n : ℕ) (states : List σ)
    (hn : ∀ a ∈ states, size a < n) : tryAll (search round n) states = none ↔
      ∃ c, ComesFrom size round states c ∧ round c = .breaks := by
  have hfuel {a : σ} (ha : a ∈ states) : search round n a = search round (size a+1) a :=
    search_fuel h _ _ a (hn a ha) (Nat.lt_succ_self _)
  rw [tryAll_eq_none]
  constructor
  · rintro ⟨before,b,after,rfl,hbefore,hb⟩
    obtain ⟨c,hcomes,hc⟩ := (search_eq_none h n b (hn b (by simp))).mp hb
    refine ⟨c,⟨before,b,after,rfl,fun d hd => ?_,hcomes⟩,hc⟩
    rw [← hfuel (by simp [hd])]
    exact hbefore d hd
  · rintro ⟨c,⟨before,b,after,rfl,hbefore,hcomes⟩,hc⟩
    refine ⟨before,b,after,rfl,fun d hd => ?_,(search_eq_none h n b (hn b (by simp))).mpr ⟨c,hcomes,hc⟩⟩
    rw [hfuel (by simp [hd])]
    exact hbefore d hd

end

end Backtracking
