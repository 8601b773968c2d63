import ArchiveTarBuilder.Region

/-! Programs that ask for objects of memory, may be refused them, and stop where they would leave
one. Nothing here names the archiver. -/
namespace Memory
open ArchiveTarBuilder.Region

structure Heap (β : Type) where
  grants : ℕ → Bool
  fresh : ℕ → ℕ → β
  requests : ℕ
  refused : Bool

def behind {α β : Type} : Except (Heap β) (α × Heap β) → Heap β
  | .error h => h
  | .ok r => r.2

structure Mem (β α : Type) where
  run : Heap β → Except (Heap β) (α × Heap β)
  stays : ∀ h, h.refused = true → (behind (run h)).refused = true

section
variable {β : Type}

instance : Monad (Mem β) where
  pure a := ⟨fun h => .ok (a,h),fun _ h => h⟩
  bind m f := {
    run := fun h =>
      match m.run h with
      | .error h => .error h
      | .ok (a,h) => (f a).run h
    stays := fun h hrefused => by
      have hm := m.stays h hrefused
      cases hrun : m.run h with
      | error h' => simpa [hrun,behind] using hm
      | ok r => exact (f r.1).stays r.2 (by simpa [hrun,behind] using hm) }

variable {α γ : Type}

@[simp] theorem run_pure (a : α) (h : Heap β) : (pure a : Mem β α).run h = .ok (a,h) := rfl

theorem run_bind (m : Mem β α) (f : α → Mem β γ) (h : Heap β) : (m >>= f).run h =
    match m.run h with
    | .error h => .error h
    | .ok (a,h) => (f a).run h := rfl

def fault : Mem β α := ⟨.error,fun _ h => h⟩

def ask : Mem β Bool :=
  ⟨fun h => .ok (h.grants h.requests,{ h with requests := h.requests+1 }),fun _ h => h⟩

def refuse : Mem β Unit := ⟨fun h => .ok ((),{ h with refused := true }),fun _ _ => rfl⟩

def newCells (n : ℕ) : Mem β (List β) :=
  ⟨fun h => .ok ((List.range n).map (h.fresh h.requests),h),fun _ h => h⟩

def alloc (limit n : ℕ) : Mem β (Option (List β)) := do
  if (← ask) ∧ n ≤ limit then
    let cells ← newCells n
    return some cells
  else
    refuse
    return none

def realloc (limit : ℕ) (obj : List β) (n : ℕ) : Mem β (Option (List β)) := do
  match ← alloc limit n with
  | none => return none
  | some cells => return some (overwrite cells 0 (obj.take n))

def store (obj : List β) (off : ℕ) (xs : List β) : Mem β (List β) :=
  if off+xs.length ≤ obj.length then pure (overwrite obj off xs) else fault

def load (obj : List β) (off n : ℕ) : Mem β (List β) :=
  if off+n ≤ obj.length then pure (slice obj off n) else fault

/-- The program stays in its objects; what it gives, and whether it was refused memory, satisfy
`post`. -/
def Ends (m : Mem β α) (post : α → Bool → Prop) : Prop :=
  ∀ h, ∃ a r h', m.run h = .ok (a,h') ∧ h'.refused = (h.refused || r) ∧ post a r

/-- The same unless memory is refused. -/
def Yields (m : Mem β α) (post : α → Prop) : Prop :=
  ∀ h, match m.run h with
    | .error h' => h'.refused = true
    | .ok (a,h') => h'.refused = true ∨ h.refused = false ∧ post a

/-- `NULL` if memory was refused, and only then. -/
def OrNull (good : α → Prop) : Option α → Bool → Prop
  | none,refused => refused = true
  | some a,refused => refused = false ∧ good a

end

section
variable {β α γ : Type} {m : Mem β α} {f : α → Mem β γ}

theorem Ends.pure {post : α → Bool → Prop} {a : α} (h : post a false) :
    Ends (Pure.pure a : Mem β α) post :=
  fun heap => ⟨a,false,heap,rfl,(Bool.or_false _).symm,h⟩

theorem Ends.bind {mid : α → Bool → Prop} {post : γ → Bool → Prop} (hm : Ends m mid)
    (hf : ∀ a r, mid a r → Ends (f a) fun c r' => post c (r || r')) : Ends (m >>= f) post := by
  intro h
  obtain ⟨a,r,h',hrun,hrefused,hmid⟩ := hm h
  obtain ⟨c,r',h'',hrun',hrefused',hpost⟩ := hf a r hmid h'
  refine ⟨c,r || r',h'',?_,?_,hpost⟩
  · rw [run_bind,hrun]
    exact hrun'
  · rw [hrefused',hrefused,Bool.or_assoc]

theorem Ends.mono {post post' : α → Bool → Prop} (hm : Ends m post)
    (himp : ∀ a r, post a r → post' a r) : Ends m post' := by
  intro h
  obtain ⟨a,r,h',hrun,hrefused,hpost⟩ := hm h
  exact ⟨a,r,h',hrun,hrefused,himp a r hpost⟩

theorem Yields.pure {post : α → Prop} {a : α} (h : post a) : Yields (Pure.pure a : Mem β α) post := by
  intro heap
  cases hrefused : heap.refused with
  | true => exact Or.inl hrefused
  | false => exact Or.inr ⟨rfl,h⟩

theorem Yields.bind {mid : α → Prop} {post : γ → Prop} (hm : Yields m mid)
    (hf : ∀ a, mid a → Yields (f a) post) : Yields (m >>= f) post := by
  intro h
  have hm := hm h
  rw [run_bind]
  cases hrun : m.run h with
  | error h' => simpa [hrun] using hm
  | ok p =>
    obtain ⟨a,h'⟩ := p
    simp only [hrun] at hm ⊢
    rcases hm with hrefused | ⟨hrefused,hmid⟩
    · have hstays := (f a).stays h' hrefused
      cases hrun' : (f a).run h' with
      | error h'' => simpa [hrun',behind] using hstays
      | ok p => exact Or.inl (by simpa [hrun',behind] using hstays)
    · have hf := hf a hmid h'
      cases hrun' : (f a).run h' with
      | error h'' => simpa [hrun'] using hf
      | ok p =>
        simp only [hrun'] at hf ⊢
        exact hf.imp_right fun hf => ⟨hrefused,hf.2⟩

theorem Yields.mono {post post' : α → Prop} (hm : Yields m post) (himp : ∀ a, post a → post' a) :
    Yields m post' := by
  intro h
  have hm := hm h
  cases hrun : m.run h with
  | error h' => simpa [hrun] using hm
  | ok p =>
    simp only [hrun] at hm ⊢
    exact hm.imp_right fun hm => ⟨hm.1,himp p.1 hm.2⟩

theorem Ends.yields {post : α → Bool → Prop} (hm : Ends m post) : Yields m (post · false) := by
  intro h
  obtain ⟨a,r,h',hrun,hrefused,hpost⟩ := hm h
  simp only [hrun]
  cases r with
  | true => exact Or.inl (by rw [hrefused,Bool.or_true])
  | false =>
    cases hh : h.refused with
    | true => exact Or.inl (by rw [hrefused,hh,Bool.true_or])
    | false => exact Or.inr ⟨rfl,hpost⟩

theorem Ends.gives {good : α → Prop} {m : Mem β (Option α)} (hm : Ends m (OrNull good)) :
    Yields m fun a => ∃ b, a = some b ∧ good b := by
  refine hm.yields.mono fun a ha => ?_
  cases a with
  | none => exact absurd ha Bool.false_ne_true
  | some b => exact ⟨b,rfl,ha.2⟩

theorem ends_ask : Ends (ask : Mem β Bool) fun _ r => r = false :=
  fun _ => ⟨_,false,_,rfl,(Bool.or_false _).symm,rfl⟩

theorem ends_refuse : Ends (refuse : Mem β Unit) fun _ r => r = true :=
  fun _ => ⟨_,true,_,rfl,(Bool.or_true _).symm,rfl⟩

theorem ends_newCells (n : ℕ) :
    Ends (newCells n : Mem β (List β)) fun cells r => r = false ∧ cells.length = n :=
  fun _ => ⟨_,false,_,rfl,(Bool.or_false _).symm,rfl,by simp⟩

theorem ends_alloc (limit n : ℕ) :
    Ends (alloc limit n : Mem β _) (OrNull fun cells => cells.length = n ∧ n ≤ limit) := by
  unfold alloc
  refine Ends.bind ends_ask fun granted r hr => ?_
  subst hr
  simp only [Bool.false_or]
  split_ifs with h
  · refine Ends.bind (ends_newCells n) fun cells r hr => ?_
    obtain ⟨rfl,hlen⟩ := hr
    exact Ends.pure ⟨rfl,hlen,h.2⟩
  · refine Ends.bind ends_refuse fun _ r hr => ?_
    subst hr
    exact Ends.pure rfl

theorem ends_realloc (limit : ℕ) (obj : List β) (n : ℕ) :
    Ends (realloc limit obj n)
      (OrNull fun cells => cells.length = n ∧ n ≤ limit ∧ obj.take n <+: cells) := by
  unfold realloc
  refine Ends.bind (ends_alloc limit n) fun cells r hr => ?_
  cases cells with
  | none => exact Ends.pure (by simpa [OrNull] using hr)
  | some cells =>
    obtain ⟨rfl,hlen,hlimit⟩ := hr
    refine Ends.pure ⟨rfl,?_,hlimit,?_⟩
    · rw [overwrite_length _ _ _ (by simp [hlen]),hlen]
    · rw [overwrite,List.take_zero,List.nil_append]
      exact List.prefix_append _ _

theorem ends_store {obj xs : List β} {off : ℕ} (h : off+xs.length ≤ obj.length) :
    Ends (store obj off xs) fun obj' r => r = false ∧ obj' = overwrite obj off xs := by
  rw [store,if_pos h]
  exact Ends.pure ⟨rfl,rfl⟩

theorem ends_load {obj : List β} {off n : ℕ} (h : off+n ≤ obj.length) :
    Ends (load obj off n) fun cells r => r = false ∧ cells = slice obj off n := by
  rw [load,if_pos h]
  exact Ends.pure ⟨rfl,rfl⟩

end

end Memory
