import Mathlib

/-! Objects that are handed out and given back, linked by their addresses, and the programs that use
them. Nothing here names the archiver. -/
namespace Pool

/-- The objects in use, by their addresses. -/
abbrev Objects (β : Type) := Finmap fun _ : ℕ => β

structure State (β : Type) where
  objects : Objects β
  proposals : ℕ → Option ℕ
  requests : ℕ

/-- A program stops where it uses an object that is not there. -/
def Prog (β α : Type) := State β → Except Unit α × State β

section
variable {α β γ : Type}

def Prog.bind (m : Prog β α) (f : α → Prog β γ) : Prog β γ := fun s =>
  match m s with
  | (.error e,s) => (.error e,s)
  | (.ok a,s) => f a s

instance : Monad (Prog β) where
  pure a := fun s => (.ok a,s)
  bind := Prog.bind

def fault : Prog β α := fun s => (.error (),s)

def load (a : ℕ) : Prog β β := fun s =>
  match s.objects.lookup a with
  | none => (.error (),s)
  | some b => (.ok b,s)

def store (a : ℕ) (b : β) : Prog β Unit := fun s =>
  if a ∈ s.objects then (.ok (),{ s with objects := s.objects.insert a b }) else (.error (),s)

def free (a : ℕ) : Prog β Unit := fun s =>
  if a ∈ s.objects then (.ok (),{ s with objects := s.objects.erase a }) else (.error (),s)

def Objects.vacant (p : Objects β) (proposal : ℕ) : ℕ :=
  if proposal ∈ p then p.keys.sup id+1 else proposal

def malloc (b : β) : Prog β (Option ℕ) := fun s =>
  match s.proposals s.requests with
  | none => (.ok none,{ s with requests := s.requests+1 })
  | some proposal =>
    let a := Objects.vacant s.objects proposal
    (.ok (some a),{ s with objects := s.objects.insert a b, requests := s.requests+1 })

def rounds : Prog β ℕ := fun s => (.ok (s.objects.keys.card+1),s)

def Returns (m : Prog β α) (s : State β) (a : α) (t : State β) : Prop := m s = (.ok a,t)

variable {m : Prog β α} {f : α → Prog β γ} {s t u : State β} {a : α} {c : γ}

theorem Returns.pure : Returns (Pure.pure a : Prog β α) s a s := rfl

theorem Returns.bind (hm : Returns m s a t) (hf : Returns (f a) t c u) : Returns (m >>= f) s c u := by
  change Prog.bind m f s = (.ok c,u)
  rw [Prog.bind,hm]
  exact hf

def Stops (m : Prog β α) (s : State β) : Prop := (m s).1 = .error ()

theorem Stops.bind (hm : Stops m s) : Stops (m >>= f) s := by
  change (Prog.bind m f s).1 = .error ()
  unfold Stops at hm
  rw [Prog.bind]
  rcases hr : m s with ⟨_ | a,t⟩
  · rfl
  · rw [hr] at hm
    cases hm

theorem Returns.stops (hm : Returns m s a t) (hf : Stops (f a) t) : Stops (m >>= f) s := by
  change (Prog.bind m f s).1 = .error ()
  rw [Prog.bind,hm]
  exact hf

theorem Objects.vacant_not_mem (p : Objects β) (proposal : ℕ) : Objects.vacant p proposal ∉ p := by
  unfold Objects.vacant
  split_ifs with h
  · intro hmem
    have hle : p.keys.sup id+1 ≤ p.keys.sup id :=
      Finset.le_sup (f := id) (Finmap.mem_keys.mpr hmem)
    omega
  · exact h

theorem malloc_refused {b : β} (h : s.proposals s.requests = none) :
    Returns (malloc b) s none { s with requests := s.requests+1 } := by
  simp only [Returns,malloc,h]

end

def Unasked {β : Type} (s t : State β) : Prop := t.proposals = s.proposals ∧ t.requests = s.requests

theorem Unasked.trans {β : Type} {s t u : State β} (h : Unasked s t) (h' : Unasked t u) : Unasked s u :=
  ⟨h'.1.trans h.1,h'.2.trans h.2⟩

/-- The objects are those of `base` and the owned ones, which lie apart. -/
structure Owns {β : Type} (base p : Objects β) (own : List (ℕ × β)) : Prop where
  nodup : (own.map Prod.fst).Nodup
  apart : ∀ c ∈ own, c.1 ∉ base
  holds : ∀ c ∈ own, p.lookup c.1 = some c.2
  rest : ∀ a, a ∉ own.map Prod.fst → p.lookup a = base.lookup a

namespace Owns
variable {β : Type} {base p : Objects β} {own own' : List (ℕ × β)} {a : ℕ} {b c : β}

theorem nil (base : Objects β) : Owns base base [] :=
  ⟨List.nodup_nil,by simp,by simp,fun _ _ => rfl⟩

theorem eq_base (h : Owns base p []) : p = base := Finmap.ext_lookup fun a => h.rest a (by simp)

theorem perm (h : Owns base p own) (hperm : own.Perm own') : Owns base p own' where
  nodup := (hperm.map Prod.fst).nodup_iff.mp h.nodup
  apart := fun c hc => h.apart c (hperm.mem_iff.mpr hc)
  holds := fun c hc => h.holds c (hperm.mem_iff.mpr hc)
  rest := fun a ha => h.rest a fun hmem => ha ((hperm.map Prod.fst).mem_iff.mp hmem)

theorem lookup (h : Owns base p ((a,b)::own)) : p.lookup a = some b := h.holds (a,b) (by simp)

theorem mem (h : Owns base p ((a,b)::own)) : a ∈ p := Finmap.mem_iff.mpr ⟨b,h.lookup⟩

theorem insert_new (h : Owns base p own) (ha : a ∉ p) : Owns base (p.insert a b) ((a,b)::own) := by
  have hnew : a ∉ own.map Prod.fst := by
    intro hmem
    obtain ⟨d,hd,rfl⟩ := List.mem_map.mp hmem
    exact ha (Finmap.mem_iff.mpr ⟨d.2,h.holds d hd⟩)
  refine ⟨List.nodup_cons.mpr ⟨hnew,h.nodup⟩,List.forall_mem_cons.mpr ⟨?_,h.apart⟩,
    List.forall_mem_cons.mpr ⟨Finmap.lookup_insert p,fun d hd => ?_⟩,?_⟩
  · have hnone := h.rest a hnew
    rw [Finmap.lookup_eq_none.mpr ha] at hnone
    exact Finmap.lookup_eq_none.mp hnone.symm
  · have hne : d.1 ≠ a := fun heq => hnew (heq ▸ List.mem_map_of_mem hd)
    rw [Finmap.lookup_insert_of_ne p hne]
    exact h.holds d hd
  · intro x hx
    obtain ⟨hne,hx⟩ : x ≠ a ∧ x ∉ own.map Prod.fst := by simpa using hx
    rw [Finmap.lookup_insert_of_ne p hne]
    exact h.rest x (by simpa using hx)

theorem insert_old (h : Owns base p ((a,b)::own)) : Owns base (p.insert a c) ((a,c)::own) := by
  have hnodup : a ∉ own.map Prod.fst ∧ (own.map Prod.fst).Nodup := List.nodup_cons.mp h.nodup
  obtain ⟨happart,hothers⟩ := List.forall_mem_cons.mp h.apart
  refine ⟨h.nodup,List.forall_mem_cons.mpr ⟨happart,hothers⟩,
    List.forall_mem_cons.mpr ⟨Finmap.lookup_insert p,fun d hd => ?_⟩,?_⟩
  · have hne : d.1 ≠ a := fun heq => hnodup.1 (heq ▸ List.mem_map_of_mem hd)
    rw [Finmap.lookup_insert_of_ne p hne]
    exact h.holds d (List.mem_cons_of_mem _ hd)
  · intro x hx
    have hne : x ≠ a := fun heq => hx (by simp [heq])
    rw [Finmap.lookup_insert_of_ne p hne]
    exact h.rest x hx

theorem erase (h : Owns base p ((a,b)::own)) : Owns base (p.erase a) own := by
  have hnodup : a ∉ own.map Prod.fst ∧ (own.map Prod.fst).Nodup := List.nodup_cons.mp h.nodup
  refine ⟨hnodup.2,fun d hd => h.apart d (by simp [hd]),fun d hd => ?_,fun x hx => ?_⟩
  · have hne : d.1 ≠ a := fun heq => hnodup.1 (heq ▸ List.mem_map_of_mem hd)
    rw [Finmap.lookup_erase_ne hne]
    exact h.holds d (by simp [hd])
  · by_cases heq : x = a
    · subst heq
      rw [Finmap.lookup_erase]
      exact (Finmap.lookup_eq_none.mpr (h.apart (x,b) (by simp))).symm
    · rw [Finmap.lookup_erase_ne heq]
      exact h.rest x (by simpa [heq] using hx)

theorem length_le (h : Owns base p own) : own.length ≤ p.keys.card := by
  rw [← List.length_map Prod.fst,← List.toFinset_card_of_nodup h.nodup]
  refine Finset.card_le_card fun x hx => ?_
  obtain ⟨d,hd,rfl⟩ := List.mem_map.mp (List.mem_toFinset.mp hx)
  exact Finmap.mem_keys.mpr (Finmap.mem_iff.mpr ⟨d.2,h.holds d hd⟩)

variable {s : State β}

theorem loads (h : Owns base s.objects ((a,b)::own)) : Returns (load a) s b s := by
  simp only [Returns,load,h.lookup]

theorem stores (h : Owns base s.objects ((a,b)::own)) : ∃ t, Returns (store a c) s () t ∧
    Unasked s t ∧ Owns base t.objects ((a,c)::own) :=
  ⟨{ s with objects := s.objects.insert a c },by simp only [Returns,store,if_pos h.mem],⟨rfl,rfl⟩,
    h.insert_old⟩

theorem frees (h : Owns base s.objects ((a,b)::own)) : ∃ t, Returns (free a) s () t ∧
    Unasked s t ∧ Owns base t.objects own :=
  ⟨{ s with objects := s.objects.erase a },by simp only [Returns,free,if_pos h.mem],⟨rfl,rfl⟩,h.erase⟩

theorem mallocs (h : Owns base s.objects own) {proposal : ℕ}
    (hproposal : s.proposals s.requests = some proposal) : ∃ a t, Returns (malloc b) s (some a) t ∧
      t.proposals = s.proposals ∧ Owns base t.objects ((a,b)::own) := by
  have hvacant := Objects.vacant_not_mem s.objects proposal
  exact ⟨Objects.vacant s.objects proposal,
    { s with
      objects := s.objects.insert (Objects.vacant s.objects proposal) b
      requests := s.requests+1 },
    by simp only [Returns,malloc,hproposal],rfl,h.insert_new hvacant⟩

end Owns

section
variable {α β γ ρ σ : Type}

def start : List (ℕ × α) → Option ℕ
  | [] => none
  | c::_ => some c.1

def chain (node : α → Option ℕ → β) : List (ℕ × α) → List (ℕ × β)
  | [] => []
  | c::l => (c.1,node c.2 (start l))::chain node l

theorem chain_length (node : α → Option ℕ → β) (l : List (ℕ × α)) : (chain node l).length =
    l.length := by
  induction l with
  | nil => rfl
  | cons c l ih => rw [chain,List.length_cons,List.length_cons,ih]

/-- `for (p = start; p != NULL; p = p->next)`, with a body that may leave the loop. -/
def forNodes (next : β → Prog β (Option ℕ)) (body : ℕ → σ → Prog β (Except γ σ)) :
    ℕ → Option ℕ → σ → Prog β (Except γ σ)
  | 0,_,_ => fault
  | _+1,none,s => pure (.ok s)
  | fuel+1,some a,s => do
    match ← body a s with
    | .error c => return .error c
    | .ok s =>
      let b ← load a
      let p ← next b
      forNodes next body fuel p s

/-- `while (p != NULL)`, with `p = p->next` in front of the `free()`. -/
def freeNodes (next : β → Prog β (Option ℕ)) : ℕ → Option ℕ → Prog β Unit
  | 0,_ => fault
  | _+1,none => pure ()
  | fuel+1,some a => do
    let b ← load a
    let p ← next b
    free a
    freeNodes next fuel p

def foldNodes (f : ℕ → α → ρ → Except ρ ρ × α) : List (ℕ × α) → ρ → Except ρ ρ × List (ℕ × α)
  | [],t => (.ok t,[])
  | c::l,t =>
    match f c.1 c.2 t with
    | (.error t,x) => (.error t,(c.1,x)::l)
    | (.ok t,x) => ((foldNodes f l t).1,(c.1,x)::(foldNodes f l t).2)

def ended : Except ρ ρ → ρ
  | .error t => t
  | .ok t => t

def shown (out : ρ → γ) (view : ρ → σ) : Except ρ ρ → Except γ σ
  | .error t => .error (out t)
  | .ok t => .ok (view t)

theorem start_foldNodes (f : ℕ → α → ρ → Except ρ ρ × α) (l : List (ℕ × α)) (t : ρ) :
    start (foldNodes f l t).2 = start l := by
  cases l with
  | nil => rfl
  | cons c l =>
    rw [foldNodes]
    split <;> rfl

theorem length_foldNodes (f : ℕ → α → ρ → Except ρ ρ × α) (l : List (ℕ × α)) (t : ρ) :
    (foldNodes f l t).2.length = l.length := by
  induction l generalizing t with
  | nil => rfl
  | cons c l ih =>
    rw [foldNodes]
    split
    · rfl
    · rw [List.length_cons,List.length_cons,ih]

variable {base : Objects β} (node : α → Option ℕ → β) {next : β → Prog β (Option ℕ)}

/-- A loop over a chain does what its body does, value after value; `ctx` is what else the body
writes to. -/
theorem forNodes_runs (hnext : ∀ x p, next (node x p) = pure p) {out : ρ → γ} {view : ρ → σ}
    {ctx : ρ → List (ℕ × β)} {f : ℕ → α → ρ → Except ρ ρ × α} {body : ℕ → σ → Prog β (Except γ σ)}
    (hbody : ∀ a x p t own s, Owns base s.objects ((a,node x p)::(ctx t ++ own)) →
      ∃ s', Returns (body a (view t)) s (shown out view (f a x t).1) s' ∧ Unasked s s' ∧
        Owns base s'.objects ((a,node (f a x t).2 p)::(ctx (ended (f a x t).1) ++ own)))
    (l : List (ℕ × α)) {fuel : ℕ} {t : ρ} {own : List (ℕ × β)} {s : State β} (hfuel : l.length < fuel)
    (hown : Owns base s.objects (ctx t ++ (chain node l ++ own))) :
    ∃ s', Returns (forNodes next body fuel (start l) (view t)) s (shown out view (foldNodes f l t).1) s' ∧
      Unasked s s' ∧ Owns base s'.objects
        (ctx (ended (foldNodes f l t).1) ++ (chain node (foldNodes f l t).2 ++ own)) := by
  induction l generalizing fuel t own s with
  | nil =>
    obtain ⟨fuel,rfl⟩ := Nat.exists_eq_succ_of_ne_zero (Nat.ne_of_gt hfuel)
    exact ⟨s,Returns.pure,⟨rfl,rfl⟩,hown⟩
  | cons c l ih =>
    obtain ⟨a,x⟩ := c
    obtain ⟨fuel,rfl⟩ := Nat.exists_eq_succ_of_ne_zero (Nat.ne_of_gt ((Nat.zero_le _).trans_lt hfuel))
    have hfuel : l.length < fuel := by simpa using hfuel
    obtain ⟨s',hrun,hkeeps,hown'⟩ := hbody a x (start l) t _ s (hown.perm List.perm_middle)
    have hloop : forNodes next body (fuel+1) (start ((a,x)::l)) (view t) =
        body a (view t) >>= fun r =>
        match r with
        | .error c => pure (.error c)
        | .ok u => load a >>= fun b => next b >>= fun p => forNodes next body fuel p u := rfl
    rw [Nat.succ_eq_add_one,hloop]
    rcases hf : f a x t with ⟨t' | t',y⟩
    · simp only [hf] at hrun hown'
      simp only [foldNodes,hf]
      exact ⟨s',hrun.bind Returns.pure,hkeeps,hown'.perm List.perm_middle.symm⟩
    · simp only [hf] at hrun hown'
      simp only [foldNodes,hf]
      have hlast : ((a,node y (start l))::(ctx t' ++ (chain node l ++ own))).Perm
          (ctx t' ++ (chain node l ++ ((a,node y (start l))::own))) := by
        rw [← List.append_assoc,← List.append_assoc]
        exact List.perm_middle.symm
      obtain ⟨s'',hrest,hkeeps',hown''⟩ := ih hfuel (hown'.perm hlast)
      refine ⟨s'',?_,hkeeps.trans hkeeps',?_⟩
      · refine hrun.bind (hown'.loads.bind ?_)
        rw [hnext]
        exact Returns.pure.bind hrest
      · rw [chain,start_foldNodes]
        refine hown''.perm (List.Perm.append_left _ ?_)
        exact List.perm_middle

theorem freeNodes_runs (hnext : ∀ x p, next (node x p) = pure p) (l : List (ℕ × α)) {fuel : ℕ}
    {own : List (ℕ × β)} {s : State β} (hfuel : l.length < fuel)
    (hown : Owns base s.objects (chain node l ++ own)) :
    ∃ s', Returns (freeNodes next fuel (start l)) s () s' ∧ Unasked s s' ∧
    Owns base s'.objects own := by
  induction l generalizing fuel s with
  | nil =>
    obtain ⟨fuel,rfl⟩ := Nat.exists_eq_succ_of_ne_zero (Nat.ne_of_gt hfuel)
    exact ⟨s,Returns.pure,⟨rfl,rfl⟩,hown⟩
  | cons c l ih =>
    obtain ⟨fuel,rfl⟩ := Nat.exists_eq_succ_of_ne_zero (Nat.ne_of_gt ((Nat.zero_le _).trans_lt hfuel))
    have hfuel : l.length < fuel := by simpa using hfuel
    obtain ⟨s',hfree,hkeeps,hown'⟩ := Owns.frees hown
    obtain ⟨s'',hrest,hkeeps',hown''⟩ := ih hfuel hown'
    refine ⟨s'',?_,hkeeps.trans hkeeps',hown''⟩
    have hloop : freeNodes next (fuel+1) (start (c::l)) = load c.1 >>= fun b => next b >>= fun p =>
        free c.1 >>= fun _ => freeNodes next fuel p := rfl
    rw [Nat.succ_eq_add_one,hloop]
    refine (Owns.loads hown).bind ?_
    rw [hnext]
    exact Returns.pure.bind (hfree.bind hrest)

end

end Pool
