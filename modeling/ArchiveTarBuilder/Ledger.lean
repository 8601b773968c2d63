import Mathlib.Algebra.Order.Group.Multiset

/-! Logs of resources that are acquired and released, with notes in between: what is held behind a
log, and what is held at each note. -/
namespace Ledger

inductive Event (κ μ : Type*)
  | acquire (k : κ) | release (k : κ) | note (m : μ)

section
variable {κ μ : Type*}

def Event.noted : Event κ μ → Option μ
  | .note m => some m
  | _ => none

def Event.acquired : Event κ μ → Option κ
  | .acquire k => some k
  | _ => none

variable [DecidableEq κ]

def Event.post (held : Multiset κ) : Event κ μ → Option (Multiset κ)
  | .acquire k => some ({k}+held)
  | .release k => if k ∈ held then some (held.erase k) else none
  | .note _ => some held

def replay : Multiset κ → List (Event κ μ) → Option (Multiset κ)
  | held, [] => some held
  | held, e::log => (e.post held).bind fun held => replay held log

def AtNotes (P : Multiset κ → μ → Prop) (held : Multiset κ) (log : List (Event κ μ)) : Prop :=
  ∀ pre m post, log = pre ++ .note m::post → ∃ now, replay held pre = some now ∧ P now m

structure Leads (P : Multiset κ → μ → Prop) (held : Multiset κ) (log : List (Event κ μ))
    (after : Multiset κ) : Prop where
  replays : replay held log = some after
  notes : AtNotes P held log

theorem replay_append (held : Multiset κ) (log more : List (Event κ μ)) :
    replay held (log ++ more) = (replay held log).bind fun held => replay held more := by
  induction log generalizing held with
  | nil => rfl
  | cons e log ih =>
    rw [List.cons_append,replay,replay,Option.bind_assoc]
    simp only [ih]

variable {P : Multiset κ → μ → Prop} {held after last : Multiset κ} {log more : List (Event κ μ)}

theorem Leads.nil : Leads P held [] held where
  replays := rfl
  notes := fun pre m post h => absurd (congrArg List.length h) (by simp)

theorem Leads.append (h : Leads P held log after) (h' : Leads P after more last) :
    Leads P held (log ++ more) last where
  replays := by
    rw [replay_append,h.replays]
    exact h'.replays
  notes := fun pre m post heq => by
    rcases List.append_eq_append_iff.mp heq with ⟨rest,rfl,hrest⟩ | ⟨rest,rfl,hrest⟩
    · obtain ⟨now,hnow,hp⟩ := h'.notes rest m post hrest
      exact ⟨now,by rw [replay_append,h.replays]; exact hnow,hp⟩
    · cases rest with
      | nil =>
        obtain ⟨now,hnow,hp⟩ := h'.notes [] m post hrest.symm
        refine ⟨now,?_,hp⟩
        have hheld := h.replays
        rw [List.append_nil] at hheld
        rw [hheld]
        exact hnow
      | cons e rest =>
        obtain ⟨rfl,-⟩ := List.cons.inj hrest
        exact h.notes pre m rest rfl

theorem Leads.event {e : Event κ μ} (h : e.post held = some after) (hnote : ∀ m, e = .note m → P held m) :
    Leads P held [e] after where
  replays := by rw [replay,h]; rfl
  notes := fun pre m post heq => by
    cases pre with
    | nil => exact ⟨held,rfl,hnote m (List.cons.inj heq).1⟩
    | cons e' pre => exact absurd (congrArg List.length heq) (by simp)

theorem Leads.acquire (k : κ) : Leads P held [.acquire k] ({k}+held) :=
  .event rfl fun m hm => by cases hm

theorem Leads.release (k : κ) : Leads P ({k}+held) [.release k] held := by
  refine .event ?_ fun m hm => by cases hm
  rw [Event.post,if_pos (by simp),Multiset.singleton_add,Multiset.erase_cons_head]

theorem Leads.notes_map {ms : List μ} (h : ∀ m ∈ ms, P held m) : Leads P held (ms.map .note) held := by
  induction ms with
  | nil => exact .nil
  | cons m ms ih =>
    have hone : Leads P held [.note m] held := .event rfl fun m' hm' => by
      cases hm'
      exact h m List.mem_cons_self
    exact hone.append (ih fun m' hm' => h m' (List.mem_cons_of_mem m hm'))

theorem Leads.release_map (ks : List κ) : Leads P ((ks : Multiset κ)+held) (ks.map .release) held := by
  induction ks with
  | nil =>
    rw [Multiset.coe_nil,zero_add]
    exact .nil
  | cons k ks ih =>
    rw [← Multiset.cons_coe,← Multiset.singleton_add,add_assoc]
    exact (Leads.release k).append ih

end

end Ledger
