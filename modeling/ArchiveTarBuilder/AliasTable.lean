import Mathlib

/-! A table that entries fill one after the other. An entry gives its key a value of its own, or
the value that another key has by then. -/
namespace AliasTable

variable {κ ν : Type*} [DecidableEq κ]

inductive Entry (κ ν : Type*)
  | own (key : κ) (value : ν)
  | sameAs (key of : κ)

def Entry.key : Entry κ ν → κ
  | own key _ => key
  | sameAs key _ => key

def enter (table : κ → Option ν) : Entry κ ν → κ → Option ν
  | .own key value => Function.update table key (some value)
  | .sameAs key of => Function.update table key (table of)

def fill (es : List (Entry κ ν)) : κ → Option ν := es.foldl enter fun _ => none

/-- An entry that gives its key what it is meant to have: the value itself, or a key that is known
and is meant to have the same. -/
def Entry.Fits (meant : κ → ν) (known : List κ) : Entry κ ν → Prop
  | own key value => value = meant key
  | sameAs key of => of ∈ known ∧ meant of = meant key

def Fit (meant : κ → ν) : List κ → List (Entry κ ν) → Prop
  | _, [] => True
  | known, e::es => e.Fits meant known ∧ Fit meant (e.key::known) es

/-- The table holds the known keys and what they are meant to have. -/
def Holds (meant : κ → ν) (known : List κ) (table : κ → Option ν) : Prop :=
  ∀ key, table key = if key ∈ known then some (meant key) else none

theorem Holds.enter {meant : κ → ν} {known : List κ} {table : κ → Option ν}
    (h : Holds meant known table) {e : Entry κ ν} (he : e.Fits meant known) :
    Holds meant (e.key::known) (AliasTable.enter table e) := by
  have hupdate (key : κ) (value : Option ν) (hvalue : value = some (meant key)) :
      Holds meant (key::known) (Function.update table key value) := by
    intro k
    by_cases hk : k = key
    · subst hk
      rw [Function.update_self,if_pos List.mem_cons_self,hvalue]
    · rw [Function.update_of_ne hk,h k]
      simp only [List.mem_cons,hk,false_or]
  cases e with
  | own key value => exact hupdate key _ (congrArg some he)
  | sameAs key of => exact hupdate key _ (by rw [h of,if_pos he.1,he.2])

theorem Holds.foldl {meant : κ → ν} {known : List κ} {table : κ → Option ν}
    (h : Holds meant known table) {es : List (Entry κ ν)} (hes : Fit meant known es) :
    Holds meant ((es.map Entry.key).reverse ++ known) (es.foldl AliasTable.enter table) := by
  induction es generalizing known table with
  | nil => exact h
  | cons e es ih =>
    obtain ⟨he,hes⟩ := hes
    rw [List.map_cons,List.reverse_cons,List.append_assoc,List.singleton_append]
    exact ih (h.enter he) hes

/-- A key has what it is meant to have when an entry is for it, and nothing otherwise. -/
theorem fill_eq {meant : κ → ν} {es : List (Entry κ ν)} (h : Fit meant [] es) (key : κ) :
    fill es key = if key ∈ es.map Entry.key then some (meant key) else none := by
  have hempty : Holds meant [] fun _ => none := fun key => by simp
  have hall := hempty.foldl h key
  unfold fill
  simpa only [List.append_nil,List.mem_reverse] using hall

end AliasTable
