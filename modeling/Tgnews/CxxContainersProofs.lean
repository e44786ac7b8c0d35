import Mathlib

/-! # Hash maps, range-checked access and faults

    The containers a C++ program leans on, as pure values.  An
    `std::unordered_map` is Mathlib's `AList`: distinct keys are a field of the
    structure, so a map with a repeated key cannot be built.  Its iteration order
    is unspecified, so a program that iterates takes an `IterOrder`, any listing
    of the entries whatsoever, and results about it hold for all of them.

    What the program can do wrong at run time is a `Fault`; a computation that
    may go wrong is an `Except Fault`. -/

namespace CxxContainers

/-- The ways a call leaves the normal path. -/
inductive Fault where
  /-- `std::out_of_range`, thrown by `at`, `substr` and `compare`. -/
  | outOfRange
  /-- A null pointer is dereferenced. -/
  | nullDeref
  /-- An unchecked access past the end (`operator[]`, `back` of an empty vector). -/
  | pastTheEnd
  /-- A variable that was never set is read. -/
  | uninitialised
  /-- `std::bad_alloc`: the memory asked for cannot be had. -/
  | badAlloc
  /-- `nlohmann::json::type_error`. -/
  | typeError
  deriving DecidableEq, Repr

/-- An `std::unordered_map`. -/
abbrev UMap (K V : Type) := AList (fun _ : K => V)

variable {K V α β : Type}

/-- Equality of maps, decided on the entries so that it evaluates. -/
instance [DecidableEq K] [DecidableEq V] : DecidableEq (UMap K V) := fun m m' =>
  decidable_of_iff (m.entries = m'.entries) ⟨AList.ext, congrArg AList.entries⟩

/-- An iteration order: some listing of the entries of each map. -/
structure IterOrder (K V : Type) where
  run : UMap K V → List (K × V)
  perm : ∀ m, (run m).Perm (m.entries.map fun e => (e.1, e.2))

/-- The order in which the model happens to hold the entries. -/
def IterOrder.stored : IterOrder K V where
  run m := m.entries.map fun e => (e.1, e.2)
  perm _ := List.Perm.refl _

/-- An iteration meets every key once. -/
theorem IterOrder.nodup_run (order : IterOrder K V) (m : UMap K V) :
    ((order.run m).map Prod.fst).Nodup := by
  refine ((order.perm m).map Prod.fst).nodup_iff.mpr ?_
  rw [List.map_map]
  exact m.nodupKeys

/-- What holds of every entry holds of all that an iteration meets. -/
theorem IterOrder.forall_run (order : IterOrder K V) {m : UMap K V} {P : K × V → Prop} :
    (∀ p ∈ order.run m, P p) ↔ ∀ e ∈ m.entries, P (e.1, e.2) := by
  simp only [(order.perm m).mem_iff, List.forall_mem_map]

/-- The iteration order of an `std::unordered_set`, by the keys emplaced into it. -/
structure SetOrder (K : Type) [DecidableEq K] where
  run : List K → List K
  perm : ∀ l, (run l).Perm l.dedup

/-- The order in which the model happens to hold the keys. -/
def SetOrder.stored [DecidableEq K] : SetOrder K where
  run l := l.dedup
  perm _ := List.Perm.refl _

/-- It goes through exactly the keys emplaced, and meets each once. -/
theorem SetOrder.mem_run [DecidableEq K] (order : SetOrder K) {l : List K} {k : K} :
    k ∈ order.run l ↔ k ∈ l := by
  rw [(order.perm l).mem_iff, List.mem_dedup]

theorem SetOrder.nodup_run [DecidableEq K] (order : SetOrder K) (l : List K) :
    (order.run l).Nodup :=
  (order.perm l).nodup_iff.mpr (List.nodup_dedup l)

/-- `v.at(i)`. -/
def vectorAt (v : List α) (i : Nat) : Except Fault α :=
  match v[i]? with
  | some a => .ok a
  | none => .error .outOfRange

/-- `v[i]`, with no check of the index. -/
def elemAt (v : List α) (i : Nat) : Except Fault α :=
  match v[i]? with
  | some a => .ok a
  | none => .error .pastTheEnd

theorem vectorAt_of_getElem? {v : List α} {i : Nat} {a : α} (h : v[i]? = some a) :
    vectorAt v i = .ok a := by
  rw [vectorAt, h]

theorem elemAt_of_getElem? {v : List α} {i : Nat} {a : α} (h : v[i]? = some a) :
    elemAt v i = .ok a := by
  rw [elemAt, h]

/-- What a sequence of two steps returns, its first step returned. -/
theorem of_bind_ok {ε : Type} {x : Except ε α} {f : α → Except ε β} {b : β}
    (h : (x >>= f) = .ok b) : ∃ a, x = .ok a ∧ f a = .ok b := by
  cases x with
  | error e => exact nomatch h
  | ok a => exact ⟨a, rfl, h⟩

/-- `for (auto& x : v) if (p(x)) out.emplace_back(std::move(x));`: what is moved out,
    and what `v` holds afterwards.  `move` gives the new object and what the move
    constructor leaves of its argument, `keep` an element that stays, as an element
    of a vector in which others may be left over from a move. -/
def moveOutIf (p : α → Bool) (move : α → α × β) (keep : α → β) : List α → List α × List β
  | [] => ([], [])
  | a :: l =>
      if p a then
        ((move a).1 :: (moveOutIf p move keep l).1, (move a).2 :: (moveOutIf p move keep l).2)
      else ((moveOutIf p move keep l).1, keep a :: (moveOutIf p move keep l).2)

/-- The elements moved out are those that pass, in order. -/
theorem moveOutIf_fst (p : α → Bool) (move : α → α × β) (keep : α → β) (l : List α) :
    (moveOutIf p move keep l).1 = (l.filter p).map fun a => (move a).1 := by
  induction l with
  | nil => rfl
  | cons a l ih =>
      rw [moveOutIf]
      by_cases h : p a
      · rw [if_pos h, List.filter_cons_of_pos h, List.map_cons, ← ih]
      · rw [if_neg h, List.filter_cons_of_neg h, ← ih]

/-- What is left, position by position. -/
theorem moveOutIf_snd (p : α → Bool) (move : α → α × β) (keep : α → β) (l : List α) :
    (moveOutIf p move keep l).2 = l.map fun a => if p a then (move a).2 else keep a := by
  induction l with
  | nil => rfl
  | cons a l ih =>
      rw [moveOutIf, List.map_cons, ← ih]
      by_cases h : p a
      · rw [if_pos h, if_pos h]
      · rw [if_neg h, if_neg h]

/-- A computation of a pair, by what its first component comes to. -/
theorem exists_of_map_fst {ε : Type} {x : Except ε (α × β)} {a : α}
    (h : x.map Prod.fst = .ok a) : ∃ b, x = .ok (a, b) := by
  cases x with
  | error e => cases h
  | ok p =>
      obtain ⟨a', b⟩ := p
      obtain rfl : a' = a := Except.ok.inj h
      exact ⟨b, rfl⟩

/-- A loop whose turns all return is a map. -/
theorem mapM_eq_pure {m : Type → Type} [Monad m] [LawfulMonad m] {α β : Type} {f : α → m β}
    {g : α → β} {l : List α} (h : ∀ a ∈ l, f a = pure (g a)) : l.mapM f = pure (l.map g) := by
  induction l with
  | nil => rfl
  | cons a l ih =>
      rw [List.mapM_cons, h a List.mem_cons_self,
        ih (fun b hb => h b (List.mem_cons_of_mem _ hb)), pure_bind, pure_bind, List.map_cons]

/-- A loop that never faults is a map. -/
theorem mapM_eq_ok {ε : Type} {f : α → Except ε β} {g : α → β} {l : List α}
    (h : ∀ a ∈ l, f a = .ok (g a)) : l.mapM f = .ok (l.map g) :=
  mapM_eq_pure h

/-- **The rule of the counted loop**: an invariant that every turn preserves, and
    under which no turn faults, holds after the last turn. -/
theorem foldlM_range {ε : Type} {f : β → Nat → Except ε β} {I : Nat → β → Prop} {n : Nat}
    (hstep : ∀ k < n, ∀ b, I k b → ∃ b', f b k = .ok b' ∧ I (k + 1) b') {b : β} (h0 : I 0 b) :
    ∃ b', (List.range n).foldlM f b = .ok b' ∧ I n b' := by
  induction n with
  | zero => exact ⟨b, rfl, h0⟩
  | succ n ih =>
      obtain ⟨b₁, hrun, h₁⟩ := ih fun k hk => hstep k (by omega)
      obtain ⟨b₂, hlast, h₂⟩ := hstep n (Nat.lt_succ_self n) b₁ h₁
      refine ⟨b₂, ?_, h₂⟩
      rw [List.range_succ, List.foldlM_append, hrun]
      show [n].foldlM f b₁ = .ok b₂
      rw [List.foldlM_cons, hlast]
      rfl

/-- A map succeeds if each element does, with what is known of each result. -/
theorem exists_mapM {ε : Type} {f : α → Except ε β} {P : β → Prop} {l : List α}
    (h : ∀ a ∈ l, ∃ b, f a = .ok b ∧ P b) : ∃ bs, l.mapM f = .ok bs ∧ ∀ b ∈ bs, P b := by
  induction l with
  | nil => exact ⟨[], rfl, fun b hb => absurd hb List.not_mem_nil⟩
  | cons a l ih =>
      obtain ⟨b, hb, hP⟩ := h a List.mem_cons_self
      obtain ⟨bs, hbs, hPs⟩ := ih fun x hx => h x (List.mem_cons_of_mem _ hx)
      refine ⟨b :: bs, ?_, List.forall_mem_cons.mpr ⟨hP, hPs⟩⟩
      rw [List.mapM_cons, hb, hbs]
      rfl

/-- A map fails if one element does, with the one fault there is. -/
theorem mapM_fault {ε : Type} {f : α → Except ε β} {l : List α} {a : α} {e : ε} (ha : a ∈ l)
    (hfault : f a = .error e) (honly : ∀ a' e', f a' = .error e' → e = e') :
    l.mapM f = .error e := by
  induction l with
  | nil => cases ha
  | cons a' l ih =>
      rw [List.mapM_cons]
      cases hf : f a' with
      | error e' =>
          rw [honly a' e' hf]
          rfl
      | ok b =>
          rcases List.mem_cons.mp ha with rfl | ha
          · rw [hf] at hfault
            cases hfault
          · rw [ih ha]
            rfl

/-- **A loop keeps its invariant**, and succeeds if each turn does. -/
theorem foldlM_invariant {ε : Type} {f : β → α → Except ε β} {I : β → Prop} {l : List α}
    (hstep : ∀ a ∈ l, ∀ b, I b → ∃ b', f b a = .ok b' ∧ I b') {b : β} (h0 : I b) :
    ∃ b', l.foldlM f b = .ok b' ∧ I b' := by
  induction l generalizing b with
  | nil => exact ⟨b, rfl, h0⟩
  | cons a l ih =>
      obtain ⟨b₁, hrun, h₁⟩ := hstep a List.mem_cons_self b h0
      obtain ⟨b₂, hrest, h₂⟩ := ih (fun x hx => hstep x (List.mem_cons_of_mem _ hx)) h₁
      refine ⟨b₂, ?_, h₂⟩
      rw [List.foldlM_cons, hrun]
      exact hrest

/-- The same for an invariant that looks at the elements already met. -/
theorem foldlM_prefix {ε : Type} {f : β → α → Except ε β} {I : List α → β → Prop} {l : List α}
    (hstep : ∀ done, ∀ a ∈ l, ∀ b, I done b → ∃ b', f b a = .ok b' ∧ I (done ++ [a]) b') {b : β}
    (h0 : I [] b) : ∃ b', l.foldlM f b = .ok b' ∧ I l b' := by
  induction l using List.reverseRecOn with
  | nil => exact ⟨b, rfl, h0⟩
  | append_singleton l a ih =>
      obtain ⟨b₁, hrun, h₁⟩ := ih fun done x hx => hstep done x (List.mem_append_left _ hx)
      obtain ⟨b₂, hlast, h₂⟩ := hstep l a (List.mem_append_right _ List.mem_cons_self) b₁ h₁
      refine ⟨b₂, ?_, h₂⟩
      rw [List.foldlM_append, hrun]
      show [a].foldlM f b₁ = .ok b₂
      rw [List.foldlM_cons, hlast]
      rfl

/-- A turn that faults whatever came before it ends the loop with a fault. -/
theorem foldlM_fault {f : β → α → Except Fault β} {l : List α} {a : α} (ha : a ∈ l)
    (hfault : ∀ b, ∃ e, f b a = .error e) (b : β) : ∃ e, l.foldlM f b = .error e := by
  induction l generalizing b with
  | nil => cases ha
  | cons a' l ih =>
      rw [List.foldlM_cons]
      cases hb : f b a' with
      | error e => exact ⟨e, rfl⟩
      | ok b' =>
          rcases List.mem_cons.mp ha with rfl | ha
          · obtain ⟨e, he⟩ := hfault b
            rw [he] at hb
            cases hb
          · exact ih ha b'

/-- Vectors of one length, side by side. -/
theorem length_zip_left {l : List α} {l' : List β} (h : l'.length = l.length) :
    (l.zip l').length = l.length := by
  rw [List.length_zip, h, Nat.min_self]

/-- Two vectors walked side by side. -/
theorem take_succ_zip {l : List α} {l' : List β} {k : Nat} {a : α} {b : β}
    (ha : l[k]? = some a) (hb : l'[k]? = some b) :
    (l.zip l').take (k + 1) = (l.zip l').take k ++ [(a, b)] := by
  have hab : (l.zip l')[k]? = some (a, b) := List.getElem?_zip_eq_some.mpr ⟨ha, hb⟩
  rw [List.take_add_one, hab]
  rfl

/-- First positions, counted from `n` on. -/
theorem map_add_idxOf?_cons [BEq α] [LawfulBEq α] [DecidableEq α] (a b : α) (l : List α)
    (n : Nat) :
    ((a :: l).idxOf? b).map (· + n)
      = if a = b then some n else (l.idxOf? b).map (· + (n + 1)) := by
  rw [List.idxOf?_cons]
  by_cases hab : a = b
  · rw [if_pos hab, if_pos (by simpa using hab), Option.map_some, Nat.zero_add]
  · rw [if_neg hab, if_neg (by simpa using hab), Option.map_map]
    congr 1
    funext i
    show i + 1 + n = i + (n + 1)
    omega

/-- Among pairs with distinct keys, looking a key up finds its pair. -/
theorem lookup_eq_some_of_nodup [BEq K] [LawfulBEq K] {l : List (K × V)}
    (hl : (l.map Prod.fst).Nodup) {k : K} {v : V} : l.lookup k = some v ↔ (k, v) ∈ l := by
  induction l with
  | nil => simp
  | cons p l ih =>
      obtain ⟨a, b⟩ := p
      obtain ⟨ha, hl⟩ := List.nodup_cons.mp hl
      by_cases hk : k = a
      · subst hk
        rw [List.lookup_cons_self, List.mem_cons]
        constructor
        · rintro h
          exact Or.inl (by rw [Option.some.inj h])
        · rintro (h | h)
          · rw [(Prod.mk.inj h).2]
          · exact absurd (List.mem_map_of_mem h) ha
      · rw [List.lookup_cons, beq_eq_false_iff_ne.mpr hk, List.mem_cons]
        show l.lookup k = some v ↔ _
        rw [ih hl]
        constructor
        · exact Or.inr
        · rintro (h | h)
          · exact absurd (Prod.mk.inj h).1 hk
          · exact h

section Maps

variable [DecidableEq K]

/-- `m.at(k)`: the value under `k`, or `std::out_of_range`. -/
def mapAt (m : UMap K V) (k : K) : Except Fault V :=
  match m.lookup k with
  | some v => .ok v
  | none => .error .outOfRange

/-- `f(m[k])`: update the value under `k` in place, starting from the default
    value `d` when the key is new. -/
def update (m : UMap K V) (k : K) (d : V) (f : V → V) : UMap K V :=
  m.insert k (f ((m.lookup k).getD d))

/-- `m.emplace(k, v)`: a key already present keeps its value. -/
def emplace (m : UMap K V) (k : K) (v : V) : UMap K V :=
  if k ∈ m then m else m.insert k v

theorem mapAt_of_lookup {m : UMap K V} {k : K} {v : V} (h : m.lookup k = some v) :
    mapAt m k = .ok v := by
  rw [mapAt, h]

theorem exists_lookup_of_mem {m : UMap K V} {k : K} (h : k ∈ m) :
    ∃ v, m.lookup k = some v :=
  Option.isSome_iff_exists.mp (AList.lookup_isSome.mpr h)

theorem lookup_update (m : UMap K V) (k k' : K) (d : V) (f : V → V) :
    (update m k d f).lookup k'
      = if k' = k then some (f ((m.lookup k).getD d)) else m.lookup k' := by
  by_cases hk : k' = k
  · subst hk
    rw [if_pos rfl, update, AList.lookup_insert]
  · rw [if_neg hk, update, AList.lookup_insert_ne hk]

@[simp] theorem mem_update {m : UMap K V} {k k' : K} {d : V} {f : V → V} :
    k' ∈ update m k d f ↔ k' = k ∨ k' ∈ m := by
  rw [update, AList.mem_insert]

theorem lookup_emplace (m : UMap K V) (k k' : K) (v : V) :
    (emplace m k v).lookup k'
      = if k' = k then (m.lookup k).or (some v) else m.lookup k' := by
  by_cases hk : k' = k
  · subst hk
    rw [if_pos rfl, emplace]
    by_cases hm : k' ∈ m
    · obtain ⟨w, hw⟩ := exists_lookup_of_mem hm
      rw [if_pos hm, hw]; rfl
    · rw [if_neg hm, AList.lookup_insert, AList.lookup_eq_none.mpr hm]; rfl
  · rw [if_neg hk, emplace]
    by_cases hm : k ∈ m
    · rw [if_pos hm]
    · rw [if_neg hm, AList.lookup_insert_ne hk]

/-- An iteration goes through exactly the pairs of the map. -/
theorem IterOrder.mem_run (order : IterOrder K V) {m : UMap K V} {k : K} {v : V} :
    (k, v) ∈ order.run m ↔ m.lookup k = some v := by
  rw [(order.perm m).mem_iff, List.mem_map]
  constructor
  · rintro ⟨e, he, heq⟩
    obtain ⟨rfl, rfl⟩ := Prod.mk.inj heq
    exact AList.mem_lookup_iff.mpr he
  · intro h
    exact ⟨⟨k, v⟩, AList.mem_lookup_iff.mp h, rfl⟩

/-- Emplacing a list of pairs one after the other. -/
def emplaceAll (m : UMap K V) (l : List (K × V)) : UMap K V :=
  l.foldl (fun m p => emplace m p.1 p.2) m

/-- **First wins**: after emplacing a whole list, a key holds what it held
    before, or else the value of its first pair. -/
theorem lookup_emplaceAll (l : List (K × V)) (m : UMap K V) (k : K) :
    (emplaceAll m l).lookup k
      = (m.lookup k).or ((l.find? fun p => p.1 = k).map Prod.snd) := by
  induction l generalizing m with
  | nil => simp [emplaceAll]
  | cons p l ih =>
      obtain ⟨a, v⟩ := p
      rw [show emplaceAll m ((a, v) :: l) = emplaceAll (emplace m a v) l from rfl,
        ih, lookup_emplace]
      by_cases hk : k = a
      · subst hk
        rw [if_pos rfl, List.find?_cons_of_pos (by simp)]
        cases m.lookup k <;> rfl
      · rw [if_neg hk, List.find?_cons_of_neg (by simpa using fun h => hk h.symm)]

/-- Assigning a list of pairs one after the other: `m[k] = v` for each. -/
def assignAll (m : UMap K V) (l : List (K × V)) : UMap K V :=
  l.foldl (fun m p => m.insert p.1 p.2) m

theorem mem_assignAll (l : List (K × V)) (m : UMap K V) (k : K) :
    k ∈ assignAll m l ↔ k ∈ m ∨ k ∈ l.map Prod.fst := by
  induction l generalizing m with
  | nil => simp [assignAll]
  | cons p l ih =>
      rw [show assignAll m (p :: l) = assignAll (m.insert p.1 p.2) l from rfl, ih,
        AList.mem_insert, List.map_cons, List.mem_cons]
      tauto

/-- **Last wins** turned around: every entry of the map is one of the pairs. -/
theorem mem_entries_assignAll {l : List (K × V)} {m : UMap K V} {e : Σ _ : K, V}
    (h : e ∈ (assignAll m l).entries) : e ∈ m.entries ∨ (e.1, e.2) ∈ l := by
  induction l generalizing m with
  | nil => exact Or.inl h
  | cons p l ih =>
      rcases ih (m := m.insert p.1 p.2) h with hm | hl
      · rw [AList.entries_insert] at hm
        rcases List.mem_cons.mp hm with heq | hold
        · subst heq
          exact Or.inr List.mem_cons_self
        · exact Or.inl ((List.kerase_sublist _ _).subset hold)
      · exact Or.inr (List.mem_cons_of_mem _ hl)

/-- With distinct new keys, assignment only adds entries. -/
theorem entries_assignAll {l : List (K × V)} {m : UMap K V}
    (hnodup : (l.map Prod.fst).Nodup) (hnew : ∀ p ∈ l, p.1 ∉ m) :
    (assignAll m l).entries.Perm ((l.map fun p => ⟨p.1, p.2⟩) ++ m.entries) := by
  induction l generalizing m with
  | nil => exact List.Perm.refl _
  | cons p l ih =>
      obtain ⟨hp, hl⟩ := List.nodup_cons.mp hnodup
      have hins := AList.entries_insert_of_notMem (b := p.2) (hnew p List.mem_cons_self)
      have hfresh : ∀ q ∈ l, q.1 ∉ m.insert p.1 p.2 := by
        intro q hq hmem
        rcases (AList.mem_insert _).mp hmem with heq | hold
        · exact hp (heq ▸ List.mem_map_of_mem hq)
        · exact hnew q (List.mem_cons_of_mem _ hq) hold
      have h := ih hl hfresh
      rw [hins] at h
      exact h.trans List.perm_middle

/-- Emplacing and assigning agree on distinct new keys. -/
theorem emplaceAll_eq_assignAll {l : List (K × V)} {m : UMap K V}
    (hnodup : (l.map Prod.fst).Nodup) (hnew : ∀ p ∈ l, p.1 ∉ m) :
    emplaceAll m l = assignAll m l := by
  induction l generalizing m with
  | nil => rfl
  | cons p l ih =>
      obtain ⟨hp, hl⟩ := List.nodup_cons.mp hnodup
      have hstep : emplace m p.1 p.2 = m.insert p.1 p.2 := if_neg (hnew p List.mem_cons_self)
      show emplaceAll (emplace m p.1 p.2) l = assignAll (m.insert p.1 p.2) l
      rw [hstep]
      refine ih hl ?_
      intro q hq hmem
      rcases (AList.mem_insert _).mp hmem with heq | hold
      · exact hp (heq ▸ List.mem_map_of_mem hq)
      · exact hnew q (List.mem_cons_of_mem _ hq) hold

/-- A map filled by assignment has one entry per distinct key. -/
theorem length_entries_assignAll (l : List (K × V)) :
    (assignAll ∅ l).entries.length = (l.map Prod.fst).dedup.length := by
  have hperm : (assignAll ∅ l).keys.Perm (l.map Prod.fst).dedup := by
    refine (List.perm_ext_iff_of_nodup (AList.keys_nodup _) (List.nodup_dedup _)).mpr ?_
    intro k
    rw [← AList.mem_keys, mem_assignAll, List.mem_dedup]
    simp
  have hlen := hperm.length_eq
  rw [AList.keys, List.keys, List.length_map] at hlen
  exact hlen

end Maps

end CxxContainers
