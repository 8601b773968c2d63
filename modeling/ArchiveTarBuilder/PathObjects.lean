import ArchiveTarBuilder.MemberName
import ArchiveTarBuilder.StoredStrings

/-! `b_path_new` and `b_path_clean` on their objects: whatever requests for memory are refused, they
stay in their objects, and give the items and the clean path unless one was. -/
namespace ArchiveTarBuilder
namespace Objects
open CString Memory BStack

structure Tokenized (rest tail : Bytes) (start : ℕ) (obj : Bytes) (pos : ℕ) (token rest' : Bytes) :
    Prop where
  tokens : strtok rest = token::strtok rest'
  reads : Reads (obj.drop start) token
  length : token.length+rest'.length ≤ rest.length
  shorter : rest'.length < rest.length
  nul : 0 ∉ rest'
  stands : ∃ front, obj = front ++ rest' ++ 0::tail ∧ pos = front.length

theorem strtok_slashes {lead : Bytes} (h : ∀ c ∈ lead, c = slash) (s : Bytes) :
    strtok (lead ++ s) = strtok s := by
  induction lead with
  | nil => rfl
  | cons c lead ih =>
    rw [h c List.mem_cons_self,List.cons_append]
    exact (strtok_append [] _).trans (ih fun d hd => h d (List.mem_cons_of_mem c hd))

theorem strtok_token {token : Bytes} (hne : token ≠ []) (hslash : slash ∉ token) :
    strtok token = [token] := by
  have hitems : TokenItems [token] := fun x hx => by
    rw [List.mem_singleton.mp hx]
    exact ⟨hne,hslash⟩
  simpa [joinPath,ArchiveTarBuilder.bStringJoin] using strtok_joinPath hitems

theorem exists_token (rest : Bytes) : ∃ lead token after, rest = lead ++ (token ++ after) ∧
    (∀ c ∈ lead, c = slash) ∧ slash ∉ token ∧
    ((token = [] ∧ after = []) ∨ token ≠ [] ∧ (after = [] ∨ ∃ after', after = slash::after')) := by
  refine ⟨rest.takeWhile (· = slash),(rest.dropWhile (· = slash)).takeWhile (· ≠ slash),
    (rest.dropWhile (· = slash)).dropWhile (· ≠ slash),?_,?_,?_,?_⟩
  · rw [List.takeWhile_append_dropWhile,List.takeWhile_append_dropWhile]
  · exact fun c hc => by simpa using List.mem_takeWhile_imp hc
  · exact fun hmem => by simpa using List.mem_takeWhile_imp hmem
  · generalize hbehind : rest.dropWhile (· = slash) = behind
    cases behind with
    | nil => exact Or.inl ⟨rfl,rfl⟩
    | cons c behind =>
      have hc : c ≠ slash := by
        have hhead := List.head?_dropWhile_not (fun c : UInt8 => decide (c = slash)) rest
        rw [hbehind] at hhead
        simpa using hhead
      refine Or.inr ⟨by simp [hc],?_⟩
      cases hafter : (c::behind).dropWhile (· ≠ slash) with
      | nil => exact Or.inl rfl
      | cons d after =>
        have hhead := List.head?_dropWhile_not (fun c : UInt8 => decide (c ≠ slash)) (c::behind)
        rw [hafter] at hhead
        exact Or.inr ⟨after,by rw [show d = slash by simpa using hhead]⟩

theorem takeWhile_append_stop {α : Type*} {p : α → Bool} {pre rest : List α} (h : ∀ c ∈ pre, p c = true)
    (hstop : ∀ c ∈ rest.head?, p c = false) : (pre ++ rest).takeWhile p = pre := by
  rw [List.takeWhile_append_of_pos h]
  cases rest with
  | nil => simp
  | cons c rest => simp [hstop c rfl]

theorem ends_strtokR {front rest tail : Bytes} (hnul : 0 ∉ rest) :
    Ends (strtokR (front ++ rest ++ 0::tail) front.length) fun p r => r = false ∧
      ((strtok rest = [] ∧ p.1 = none) ∨ ∃ start token rest',p.1 = some start ∧
        Tokenized rest tail start p.2.1 p.2.2 token rest') := by
  obtain ⟨lead,token,after,rfl,hlead,htoken,hcases⟩ := exists_token rest
  have hnultoken : 0 ∉ token := fun hmem => hnul (by simp [hmem])
  have hdrop : (front ++ (lead ++ (token ++ after)) ++ 0::tail).drop front.length =
      lead ++ (token ++ (after ++ 0::tail)) := by simp
  have hdrop' : (front ++ (lead ++ (token ++ after)) ++ 0::tail).drop (front.length+lead.length) =
      token ++ (after ++ 0::tail) := by
    rw [← List.drop_drop,hdrop,List.drop_left]
  have hlead' : (lead ++ (token ++ (after ++ 0::tail))).takeWhile (· = slash) = lead := by
    refine takeWhile_append_stop (by simpa using hlead) fun c hc => ?_
    cases token with
    | nil =>
      obtain rfl : after = [] := by simpa using hcases
      obtain rfl : 0 = c := by simpa using hc
      decide
    | cons d token =>
      obtain rfl : d = c := by simpa using hc
      simpa using fun hd : d = slash => htoken (by simp [hd])
  have htoken' : (token ++ (after ++ 0::tail)).takeWhile (fun c => c ≠ slash ∧ c ≠ 0) = token := by
    refine takeWhile_append_stop (fun c hc => ?_) fun c hc => ?_
    · exact decide_eq_true ⟨fun h => htoken (h ▸ hc),fun h => hnultoken (h ▸ hc)⟩
    · rcases hcases with ⟨-,rfl⟩ | ⟨-,rfl | ⟨after',rfl⟩⟩
      all_goals simp_all
  have hreads (rest' : Bytes) : Reads (token ++ 0::rest') token :=
    ⟨by simp,cstr_append_zero token rest' hnultoken⟩
  simp only [strtokR,hdrop,hlead',hdrop',htoken']
  rw [if_neg (by simp)]
  rcases hcases with ⟨rfl,rfl⟩ | ⟨hne,hcases⟩
  · -- only slashes are left
    rw [if_pos (by simp)]
    exact Ends.pure ⟨rfl,Or.inl ⟨strtok_slashes hlead [],rfl⟩⟩
  · have hpos : 0 < token.length := List.length_pos_iff.mpr hne
    have hdrop'' : (front ++ (lead ++ (token ++ after)) ++ 0::tail).drop
        (front.length+lead.length+token.length) = after ++ 0::tail := by
      rw [← List.drop_drop,hdrop',List.drop_left]
    rw [if_neg (by omega),hdrop'']
    rcases hcases with rfl | ⟨after',rfl⟩
    · -- the token ends where the string does
      rw [if_pos (by simp)]
      refine Ends.pure ⟨rfl,Or.inr ⟨_,token,[],rfl,⟨?_,?_,by simp,by simp; omega,by simp,?_⟩⟩⟩
      · rw [List.append_nil,strtok_slashes hlead,strtok_token hne htoken,strtok_nil]
      · simp only [hdrop']
        exact hreads tail
      · exact ⟨front ++ (lead ++ token),by simp,by simp [Nat.add_assoc]⟩
    · rw [if_neg (by simp [slash])]
      have hobj : front ++ (lead ++ (token ++ slash::after')) ++ 0::tail =
          front ++ (lead ++ token) ++ (slash::after' ++ 0::tail) := by simp
      have hlen : front.length+lead.length+token.length = (front ++ (lead ++ token)).length := by
        simp [Nat.add_assoc]
      rw [hobj,hlen]
      refine Ends.bind (ends_terminate (by simp)) fun obj r hr => ?_
      obtain ⟨rfl,rfl⟩ := hr
      refine Ends.pure ⟨rfl,Or.inr ⟨_,token,after',rfl,⟨?_,?_,by simp; omega,by simp; omega,?_,?_⟩⟩⟩
      · rw [strtok_slashes hlead,strtok_append,strtok_token hne htoken,List.singleton_append]
      · have hstart : (front ++ (lead ++ token) ++ 0::(slash::after' ++ 0::tail).drop 1).drop
            (front.length+lead.length) = token ++ 0::(after' ++ 0::tail) := by
          rw [← List.drop_drop]
          simp
        simp only [hstart]
        exact hreads _
      · exact fun hmem => hnul (by simp [hmem])
      · exact ⟨front ++ (lead ++ token) ++ [0],by simp,by simp [Nat.add_assoc]⟩

/-- The stack of a path so far, or one with a `NULL` in it if memory was refused. -/
def Stacked (stack : Pointers) (items : List Bytes) (refused : Bool) : Prop :=
  refused = false ∧ Items stack items ∨ refused = true ∧ ∃ ptrs, Stands stack ptrs ∧ none ∈ ptrs

def PathStack (items : List Bytes) : Option Pointers → Bool → Prop
  | none,refused => refused = true
  | some stack,refused => Stacked stack items refused

section
variable (fresh : ℕ → Option (Option BString)) {string : BString} {path : Bytes} {ret : Pointers}
  {stack : List Bytes} {r₀ : Bool}

theorem Stacked.stands (h : Stacked ret stack r₀) : ∃ ptrs, Stands ret ptrs := by
  rcases h with ⟨-,bs,hstands,-⟩ | ⟨-,ptrs,hstands,-⟩
  · exact ⟨_,hstands⟩
  · exact ⟨ptrs,hstands⟩

theorem Items.count (h : Items ret stack) : ret.count = stack.length := by
  obtain ⟨bs,hstands,hbs⟩ := h
  rw [hstands.holds.count,List.length_map,hbs.length_eq]

theorem ends_startsAtRoot (h : string.Holds path) :
    Ends (startsAtRoot string) fun first r => r = false ∧ first = isAbsolute path := by
  obtain ⟨rest,hstr⟩ := h.str
  unfold startsAtRoot
  refine Ends.bind (ends_load (by simp [hstr]; omega)) fun cells r hr => ?_
  obtain ⟨rfl,rfl⟩ := hr
  refine Ends.pure ⟨rfl,?_⟩
  rw [hstr]
  cases path with
  | nil => simp [Region.slice,isAbsolute,slash]
  | cons c path => simp [Region.slice,isAbsolute]

/-- A pointer on top of the stack: a string, or the `NULL` of one for which memory was refused. -/
theorem Stacked.push (h : Stacked ret stack r₀) (s : Bytes) (copy : Option BString) (r : Bool)
    (hcopy : OrNull (BString.Holds · s) copy r) :
    Ends (stackPush fresh ret copy) fun p r' =>
      (ret.count = ret.size ∧ r' = true ∧ p.1 = none) ∨
        (p.1 = copy ∧ Stacked p.2 (stack ++ [s]) (r₀ || (r || r'))) := by
  obtain ⟨ptrs,hstands⟩ := h.stands
  rcases h with ⟨rfl,bs,hbs,hholds⟩ | ⟨rfl,ptrs',hptrs,hnull⟩
  · refine (ends_stackPush fresh hbs copy).mono fun p r' hp => ?_
    rcases hp with hfull | ⟨rfl,hpushed,hafter⟩
    · exact Or.inl hfull
    · refine Or.inr ⟨hpushed,?_⟩
      cases copy with
      | none =>
        obtain rfl : r = true := hcopy
        exact Or.inr ⟨rfl,_,hafter,by simp⟩
      | some copy =>
        obtain ⟨rfl,hcopy⟩ := hcopy
        refine Or.inl ⟨rfl,bs ++ [copy],by simpa using hafter,?_⟩
        exact List.rel_append hholds (List.Forall₂.cons hcopy List.Forall₂.nil)
  · refine (ends_stackPush fresh hptrs copy).mono fun p r' hp => ?_
    rcases hp with hfull | ⟨rfl,hpushed,hafter⟩
    · exact Or.inl hfull
    · exact Or.inr ⟨hpushed,Or.inr ⟨Bool.true_or _,_,hafter,by simp [hnull]⟩⟩

theorem Stacked.room (h : Stacked ret stack r₀) (hempty : ret.count = 0) : ret.count ≠ ret.size := by
  obtain ⟨ptrs,hstands⟩ := h.stands
  have hle := hstands.sound.le_size
  have hpos := hstands.sound.positive
  omega

theorem Stacked.of_empty (h : Stacked ret stack r₀) (hempty : ret.count = 0) :
    r₀ = false ∧ stack = [] := by
  rcases h with ⟨hr,hitems⟩ | ⟨-,ptrs,hstands,hnull⟩
  · exact ⟨hr,List.eq_nil_of_length_eq_zero (hitems.count ▸ hempty)⟩
  · rw [hstands.holds.count,List.length_eq_zero_iff] at hempty
    simp [hempty] at hnull

theorem ends_pushEmpty (h : string.Holds path) (hret : Stacked ret stack r₀) :
    Ends (pushEmpty fresh string ret) fun ret' r => Stacked ret'
      (if stack = [] ∧ isAbsolute path = true then stack ++ [[]] else stack) (r₀ || r) := by
  unfold pushEmpty
  by_cases hempty : ret.count = 0
  · rw [if_pos hempty]
    obtain ⟨rfl,rfl⟩ := hret.of_empty hempty
    refine Ends.bind (ends_startsAtRoot h) fun first r hr => ?_
    obtain ⟨rfl,rfl⟩ := hr
    cases isAbsolute path with
    | false => exact Ends.pure (by simpa using hret)
    | true =>
      refine Ends.bind (ends_bStringNew (reads_literal List.not_mem_nil) (by simp)) fun copy r hr => ?_
      refine Ends.bind (hret.push fresh [] copy r hr) fun p r' hp => ?_
      rcases hp with ⟨hfull,-⟩ | ⟨-,hafter⟩
      · exact absurd hfull (hret.room hempty)
      · exact Ends.pure (by simpa using hafter)
  · rw [if_neg hempty]
    refine Ends.pure ?_
    rcases hret with ⟨hr,hitems⟩ | hnull
    · have hne : stack ≠ [] := fun hnil => hempty (by rw [hitems.count,hnil,List.length_nil])
      rw [if_neg fun h => hne h.1]
      exact Or.inl ⟨by simpa using hr,hitems⟩
    · exact Or.inr ⟨by simp [hnull.1],hnull.2⟩

theorem PathStack.refused {p : Option Pointers} {items : List Bytes} (h : PathStack items p true)
    (items' : List Bytes) : PathStack items' p true := by
  cases p with
  | none => rfl
  | some ret => exact Or.inr (h.resolve_left fun h => Bool.noConfusion h.1)

theorem ends_pathLoop (h : string.Holds path) (left : ℕ) (front rest tail : Bytes) (ret : Pointers)
    (stack : List Bytes) (r₀ : Bool) (hnul : 0 ∉ rest) (hleft : rest.length < left)
    (hsize : rest.length+1 < 2^64) (hret : Stacked ret stack r₀) :
    Ends (pathLoop fresh string left (front ++ rest ++ 0::tail) front.length ret) fun p r =>
      PathStack (pathItems (isAbsolute path) (strtok rest) stack) p (r₀ || r) := by
  induction left generalizing front rest ret stack r₀ with
  | zero => omega
  | succ left ih =>
    rw [pathLoop]
    refine Ends.bind (ends_strtokR hnul) fun p r hr => ?_
    obtain ⟨start,obj,pos⟩ := p
    obtain ⟨rfl,⟨hnil,hnone⟩ | ⟨start',token,rest',hsome,htok⟩⟩ := hr
    · simp only at hnone
      subst hnone
      refine Ends.pure ?_
      rw [hnil]
      simpa [PathStack,pathItems] using hret
    · simp only at hsome htok
      subst hsome
      obtain ⟨front',rfl,rfl⟩ := htok.stands
      have hlength := htok.length
      have hshorter := htok.shorter
      have hskip : Ends (if 0 < ret.count then strEq ((front' ++ rest' ++ 0::tail).drop start') dot
          else pure false : Program Bool) fun skipped r => r = false ∧
          skipped = decide (0 < ret.count ∧ token = dot) := by
        split_ifs with hcount
        · refine (ends_strEq htok.reads dot).mono fun skipped r hr => ⟨hr.1,?_⟩
          simp [hr.2,hcount]
        · exact Ends.pure ⟨rfl,by simp [hcount]⟩
      refine Ends.bind hskip fun skipped r hr => ?_
      obtain ⟨rfl,rfl⟩ := hr
      -- behind a refusal the items do not matter
      have hitems : ∀ p r, PathStack (if 0 < ret.count ∧ token = dot then
            pathItems (isAbsolute path) (strtok rest') stack
          else pathItems (isAbsolute path) (strtok rest')
            ((if stack = [] ∧ isAbsolute path = true then stack ++ [[]] else stack) ++ [token]))
            p (r₀ || r) →
          PathStack (pathItems (isAbsolute path) (strtok rest) stack) p (r₀ || r) := by
        intro p r hp
        cases hr₀ : r₀ with
        | true =>
          rw [hr₀,Bool.true_or] at hp
          exact hp.refused _
        | false =>
          have hcount : ret.count = stack.length :=
            (hret.resolve_right fun h => by simp [hr₀] at h).2.count
          rw [hr₀] at hp
          simpa only [htok.tokens,pathItems,hcount,List.length_pos_iff] using hp
      refine Ends.mono ?_ hitems
      by_cases hdot : 0 < ret.count ∧ token = dot
      · simp only [decide_eq_true hdot,if_true,if_pos hdot]
        exact ih front' rest' ret stack r₀ htok.nul (by omega) (by omega) hret
      · simp only [decide_eq_false hdot,Bool.false_eq_true,if_false,if_neg hdot]
        refine Ends.bind (ends_pushEmpty fresh h hret) fun ret' r hr => ?_
        refine Ends.bind (ends_bStringNew htok.reads (by omega)) fun copy r' hcopy => ?_
        cases copy with
        | none =>
          obtain rfl : r' = true := hcopy
          exact Ends.pure (by simp [PathStack])
        | some copy =>
          refine Ends.bind (hr.push fresh token (some copy) r' hcopy) fun p r'' hp => ?_
          obtain ⟨pushed,ret''⟩ := p
          rcases hp with ⟨-,rfl,hnull⟩ | ⟨hpushed,hafter⟩
          · simp only at hnull
            subst hnull
            exact Ends.pure (by simp [PathStack])
          · simp only at hpushed hafter
            subst hpushed
            have hrest := ih front' rest' ret'' _ _ htok.nul (by omega) (by omega) hafter
            simpa [Bool.or_assoc] using hrest

theorem ends_pushSlash (h : string.Holds path) (hret : Stacked ret stack r₀) :
    Ends (pushSlash fresh string ret) fun p r => PathStack
      (if stack = [] ∧ isAbsolute path = true then [[slash]] else stack) p (r₀ || r) := by
  unfold pushSlash
  by_cases hempty : ret.count = 0
  · rw [if_pos hempty]
    obtain ⟨rfl,rfl⟩ := hret.of_empty hempty
    refine Ends.bind (ends_startsAtRoot h) fun first r hr => ?_
    obtain ⟨rfl,rfl⟩ := hr
    cases isAbsolute path with
    | false => exact Ends.pure (by simpa [PathStack] using hret)
    | true =>
      refine Ends.bind (ends_bStringNew (reads_literal (s := [slash]) (by decide)) (by simp))
        fun root r hr => ?_
      refine Ends.bind (hret.push fresh [slash] root r hr) fun p r' hp => ?_
      obtain ⟨pushed,ret'⟩ := p
      rcases hp with ⟨hfull,-⟩ | ⟨hpushed,hafter⟩
      · exact absurd hfull (hret.room hempty)
      · simp only at hpushed hafter
        subst hpushed
        cases pushed with
        | none =>
          obtain rfl : r = true := hr
          exact Ends.pure (by simp [PathStack])
        | some root => exact Ends.pure (by simpa [PathStack] using hafter)
  · rw [if_neg hempty]
    refine Ends.pure ?_
    rcases hret with ⟨hr,hitems⟩ | hnull
    · have hne : stack ≠ [] := fun hnil => hempty (by rw [hitems.count,hnil,List.length_nil])
      rw [if_neg fun h => hne h.1]
      exact Or.inl ⟨by simpa using hr,hitems⟩
    · exact Or.inr ⟨by simp [hnull.1],hnull.2⟩

theorem cstr_append_zero' (s rest : Bytes) : cstr (s ++ 0::rest) = cstr s := by
  induction s with
  | nil => rfl
  | cons c s ih =>
    by_cases hc : c = 0
    · simp [cstr,hc]
    · simpa [cstr,hc] using ih

/-- The items of the path, or a stack with a `NULL` in it or none at all if memory was refused. -/
theorem ends_bPathNew (h : string.Holds path) :
    Ends (bPathNew fresh string) (PathStack (ArchiveTarBuilder.bPathNew path)) := by
  have hsize := h.length_lt
  obtain ⟨rest,hstr⟩ := h.str
  unfold bPathNew
  refine Ends.bind ends_stackNew fun ret r hr => ?_
  cases ret with
  | none => exact Ends.pure (by simpa [OrNull,PathStack] using hr)
  | some ret =>
    obtain ⟨rfl,hstands⟩ := hr
    rw [h.len,sizeT_of_lt (by omega)]
    refine Ends.bind (ends_malloc _) fun dup r hr => ?_
    cases dup with
    | none => exact Ends.pure (by simpa [OrNull,PathStack] using hr)
    | some dup =>
      obtain ⟨rfl,hlen,-⟩ := hr
      have hcopy := @ends_memcpy path [] dup (0::rest) (by omega)
      rw [List.nil_append,List.nil_append,List.length_nil,← hstr] at hcopy
      refine Ends.bind hcopy fun dup' r hr => ?_
      obtain ⟨rfl,rfl⟩ := hr
      refine Ends.bind (ends_terminate (by rw [List.length_drop]; omega)) fun dup' r hr => ?_
      obtain ⟨rfl,rfl⟩ := hr
      have hreads : Reads (path ++ 0::(dup.drop path.length).drop 1) (cstr path) :=
        ⟨by simp,cstr_append_zero' path _⟩
      obtain ⟨tail,htail⟩ := hreads.split
      have hcut : (cstr path).length ≤ path.length := (List.takeWhile_sublist _).length_le
      have hstart : Stacked ret [] false := Or.inl ⟨rfl,[],hstands,List.Forall₂.nil⟩
      have hloop := ends_pathLoop fresh h (path.length+1) [] (cstr path) tail ret [] false
        (zero_notMem_cstr path) (by omega) (by omega) hstart
      rw [List.nil_append,List.length_nil,← htail] at hloop
      refine Ends.bind hloop fun ret' r hr => ?_
      cases ret' with
      | none => exact Ends.pure (by simpa [PathStack] using hr)
      | some ret' =>
        refine (ends_pushSlash fresh h hr).mono fun p r' hp => ?_
        simpa [ArchiveTarBuilder.bPathNew] using hp

end

theorem joinPath_sublist {xs ys : List Bytes} (h : xs.Sublist ys) :
    (joinPath xs).length ≤ (joinPath ys).length := by
  simp only [joinPath,length_bStringJoin,List.length_singleton,Nat.one_mul]
  have hsum : (xs.map List.length).sum ≤ (ys.map List.length).sum :=
    List.Sublist.sum_le_sum (h.map _) fun _ _ => Nat.zero_le _
  have hlen := h.length_le
  omega

theorem length_joinPath_strtok (s : Bytes) : (joinPath (strtok s)).length ≤ s.length := by
  refine (joinPath_sublist List.filter_sublist).trans_eq ?_
  rw [joinPath,ArchiveTarBuilder.bStringJoin,List.intercalate_splitOn]

theorem dropDots_sublist (items : List Bytes) : (dropDots items).Sublist items := by
  cases items with
  | nil => exact List.Sublist.refl []
  | cons first rest => exact List.filter_sublist.cons_cons first

theorem length_bPathClean_le (path : Bytes) : (ArchiveTarBuilder.bPathClean path).length ≤ path.length := by
  have hcut : (cstr path).length ≤ path.length := (List.takeWhile_sublist _).length_le
  rw [← bPathClean_cstr,bPathClean_eq (zero_notMem_cstr path)]
  generalize cstr path = s at hcut
  refine le_trans ?_ hcut
  have hcomponents := joinPath_sublist (dropDots_sublist (strtok s))
  split_ifs with habs
  · obtain ⟨t,rfl⟩ : ∃ t, s = slash::t := by
      cases s with
      | nil => simp [isAbsolute] at habs
      | cons c t => exact ⟨t,by simpa [isAbsolute] using habs⟩
    have htokens : strtok (slash::t) = strtok t := strtok_append [] t
    rw [htokens] at hcomponents
    have hle := length_joinPath_strtok t
    simp only [components,htokens,List.length_append,List.length_cons,List.length_nil]
    omega
  · rw [List.nil_append]
    exact hcomponents.trans (length_joinPath_strtok s)

/-- Whatever memory holds and whichever requests are refused, `b_path_clean` stays in its objects.
It returns `NULL` if one was refused, and otherwise the clean path with a NUL behind it. -/
theorem bPathClean_stored (fresh : ℕ → Option (Option BString)) {string : BString} {path : Bytes}
    (h : string.Holds path) : Ends (bPathClean fresh string)
      (OrNull (BString.Holds · (ArchiveTarBuilder.bPathClean path))) := by
  have hsize := h.length_lt
  have hle := length_bPathClean_le path
  unfold bPathClean
  refine Ends.bind (ends_bPathNew fresh h) fun parts r hr => ?_
  cases parts with
  | none => exact Ends.pure (by simpa [OrNull,PathStack] using hr)
  | some parts =>
    rcases hr with ⟨rfl,hitems⟩ | ⟨rfl,ptrs,hstands,hnull⟩
    · have hjoin := @ends_bStringJoin parts _ hitems [slash] (by decide)
        (by rw [← ArchiveTarBuilder.bPathClean]; omega)
      simpa [ArchiveTarBuilder.bPathClean] using hjoin
    · refine (@ends_bStringJoin_null parts ptrs hstands hnull [slash] (by decide)).mono fun b r hb => ?_
      subst hb
      exact Bool.true_or r

/-- The path `a//b`. -/
theorem bPathClean_stored_twoSlashes : Ends (bPathClean (fun _ => none) ⟨[97,47,47,98,0],4⟩)
    (OrNull (BString.Holds · [97,47,98])) := by
  have hpath : BString.Holds ⟨[97,47,47,98,0],4⟩ [97,47,47,98] := ⟨rfl,⟨[],rfl⟩,by decide⟩
  have hclean : ArchiveTarBuilder.bPathClean [97,47,47,98] = [97,47,98] := by decide +kernel
  exact hclean ▸ bPathClean_stored (fun _ => none) hpath

end Objects
end ArchiveTarBuilder
