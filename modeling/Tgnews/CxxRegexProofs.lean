import Tgnews.CxxTextProofs

/-! # What a leftmost-greedy replacement keeps

    The matcher of `CxxText` against the texts a pattern describes (`Matches`), and
    `regex_replace` by one separator against the substrings that match.  The route:

    * `matchLen` finds a match when some beginning of the text is one, and what it
      finds is one (`matchLen_sound`, `matchLen_complete`); a starred piece takes the
      longest run the rest goes on from (`manyLen_longest`);
    * text without the separator that is in the output was in the input, in one piece
      and where no match begins (`infix_of_replaceFrom`): a replacement makes nothing
      new, and removes whatever forces a match;
    * if a match that begins inside the chosen one also ends inside it (`Swallows`),
      the characters kept are exactly those in no matching substring
      (`mem_replaceFrom`, `mem_replaceFrom_or_covered`). -/

namespace CxxRegex

open CxxText

/-! ## Patterns and the texts they describe -/

/-- The texts a pattern describes. -/
def Matches : List Piece → Str → Prop
  | [], w => w = []
  | .one p :: re, w => ∃ c v, w = c :: v ∧ p c ∧ Matches re v
  | .many p :: re, w => ∃ r v, w = r ++ v ∧ (∀ c ∈ r, p c) ∧ Matches re v

theorem matches_literal_append {l : String} {re : List Piece} {w : Str} :
    Matches (literal l ++ re) w ↔ ∃ v, w = l.toList ++ v ∧ Matches re v := by
  rw [literal]
  generalize l.toList = l
  induction l generalizing w with
  | nil => exact ⟨fun h => ⟨w, rfl, h⟩, fun ⟨v, hw, hv⟩ => hw ▸ hv⟩
  | cons a l ih =>
      constructor
      · rintro ⟨c, v, rfl, hc, hv⟩
        obtain ⟨u, rfl, hu⟩ := ih.mp hv
        exact ⟨u, by rw [of_decide_eq_true hc]; rfl, hu⟩
      · rintro ⟨u, rfl, hu⟩
        exact ⟨a, l ++ u, rfl, decide_eq_true rfl, ih.mpr ⟨u, rfl, hu⟩⟩

/-- One character of a class and then many: a run of at least one. -/
theorem matches_plus {p : Char → Bool} {re : List Piece} {w : Str} :
    Matches (.one p :: .many p :: re) w ↔
      ∃ r v, w = r ++ v ∧ r ≠ [] ∧ (∀ c ∈ r, p c) ∧ Matches re v := by
  constructor
  · rintro ⟨c, v, rfl, hc, r, u, rfl, hr, hu⟩
    exact ⟨c :: r, u, rfl, List.cons_ne_nil _ _, List.forall_mem_cons.mpr ⟨hc, hr⟩, hu⟩
  · rintro ⟨r, v, rfl, hne, hr, hv⟩
    obtain ⟨c, r, rfl⟩ := List.exists_cons_of_ne_nil hne
    obtain ⟨hc, hr⟩ := List.forall_mem_cons.mp hr
    exact ⟨c, r ++ v, rfl, hc, r, v, rfl, hr, hv⟩

/-! ## The matcher -/

/-- What a starred piece takes is a run of its class. -/
theorem manyLen_sound {p : Char → Bool} {k : Str → Option Nat} :
    ∀ {s : Str} {n : Nat}, manyLen p k s = some n →
      ∃ r t j, s = r ++ t ∧ (∀ c ∈ r, p c) ∧ k t = some j ∧ n = r.length + j := by
  intro s
  induction s with
  | nil => intro n h; exact ⟨[], [], n, rfl, by simp, h, by simp⟩
  | cons c s ih =>
      intro n h
      rw [manyLen] at h
      by_cases hc : p c = true
      · rw [if_pos hc] at h
        rcases Option.or_eq_some_iff.mp h with hm | ⟨-, hk⟩
        · obtain ⟨m, hs, rfl⟩ := Option.map_eq_some_iff.mp hm
          obtain ⟨r, t, j, rfl, hr, hk, rfl⟩ := ih hs
          exact ⟨c :: r, t, j, rfl, List.forall_mem_cons.mpr ⟨hc, hr⟩, hk,
            by rw [List.length_cons]; omega⟩
        · exact ⟨[], c :: s, n, rfl, by simp, hk, by simp⟩
      · rw [if_neg hc] at h
        exact ⟨[], c :: s, n, rfl, by simp, h, by simp⟩

theorem manyLen_isSome {p : Char → Bool} {k : Str → Option Nat} {t : Str}
    (hk : (k t).isSome) : (manyLen p k t).isSome := by
  cases t with
  | nil => exact hk
  | cons c t =>
      rw [manyLen]
      by_cases hc : p c = true
      · rw [if_pos hc, Option.isSome_or, hk, Bool.or_true]
      · rw [if_neg hc]; exact hk

/-- **Longest first.**  From a run that the rest goes on from, the starred piece
    succeeds, with a run at least as long. -/
theorem manyLen_longest {p : Char → Bool} {k : Str → Option Nat} {r t : Str}
    (hr : ∀ c ∈ r, p c) (hk : (k t).isSome) :
    ∃ r' t' j, r ++ t = r' ++ t' ∧ r.length ≤ r'.length ∧ (∀ c ∈ r', p c) ∧ k t' = some j
      ∧ manyLen p k (r ++ t) = some (r'.length + j) := by
  induction r with
  | nil =>
      obtain ⟨n, hn⟩ := Option.isSome_iff_exists.mp (manyLen_isSome (p := p) hk)
      obtain ⟨r', t', j, rfl, hr', hj, rfl⟩ := manyLen_sound hn
      exact ⟨r', t', j, rfl, Nat.zero_le _, hr', hj, hn⟩
  | cons c r ih =>
      obtain ⟨hc, hr⟩ := List.forall_mem_cons.mp hr
      obtain ⟨r', t', j, heq, hlen, hr', hj, hn⟩ := ih hr
      refine ⟨c :: r', t', j, by rw [List.cons_append, heq, List.cons_append],
        Nat.succ_le_succ hlen, List.forall_mem_cons.mpr ⟨hc, hr'⟩, hj, ?_⟩
      rw [List.cons_append, manyLen, if_pos hc, hn, List.length_cons]
      simp only [Option.map_some, Option.some_or, Option.some.injEq]
      omega

/-- A run that cannot be made longer is taken whole when the rest goes on from it. -/
theorem manyLen_run {p : Char → Bool} {k : Str → Option Nat} {r t : Str} {j : Nat}
    (hr : ∀ c ∈ r, p c) (ht : ∀ c ∈ t.head?, p c = false) (hk : k t = some j) :
    manyLen p k (r ++ t) = some (r.length + j) := by
  induction r with
  | nil =>
      rw [List.nil_append, List.length_nil, Nat.zero_add, ← hk]
      cases t with
      | nil => rfl
      | cons c t =>
          have hc : p c = false := ht c rfl
          rw [manyLen, if_neg (by rw [hc]; decide)]
  | cons c r ih =>
      obtain ⟨hc, hr⟩ := List.forall_mem_cons.mp hr
      rw [List.cons_append, manyLen, if_pos hc, ih hr, List.length_cons]
      simp only [Option.map_some, Option.some_or, Option.some.injEq]
      omega

theorem matchLen_literal_append (l : String) (re : List Piece) (s : Str) :
    matchLen (literal l ++ re) (l.toList ++ s) = (matchLen re s).map (l.toList.length + ·) := by
  rw [literal]
  generalize l.toList = l
  induction l with
  | nil => simp
  | cons a l ih =>
      rw [List.map_cons, List.cons_append, List.cons_append, matchLen,
        if_pos (decide_eq_true rfl), ih, Option.map_map]
      congr 1
      funext n
      show l.length + n + 1 = l.length + 1 + n
      omega

/-- A literal, a run of one character, another literal, and a run of a class that goes on
    as far as it can: the match takes all of it. -/
theorem matchLen_literal_run (l₁ l₂ : String) {a : Char} {p : Char → Bool} {r t : Str} (k : Nat)
    (ha : ∀ c ∈ (l₂.toList ++ (r ++ t)).head?, c ≠ a) (hr : ∀ c ∈ r, p c)
    (ht : ∀ c ∈ t.head?, p c = false) :
    matchLen (literal l₁ ++ [.many (· = a)] ++ literal l₂ ++ [.many p])
        (l₁.toList ++ (List.replicate k a ++ (l₂.toList ++ (r ++ t))))
      = some (l₁.toList.length + (k + (l₂.toList.length + r.length))) := by
  have hlast : matchLen [.many p] (r ++ t) = some r.length :=
    manyLen_run (k := matchLen []) (j := 0) hr ht rfl
  have hrest : matchLen (literal l₂ ++ [.many p]) (l₂.toList ++ (r ++ t))
      = some (l₂.toList.length + r.length) := by
    rw [matchLen_literal_append, hlast]
    rfl
  rw [List.append_assoc, List.append_assoc, matchLen_literal_append]
  show (manyLen (· = a) (matchLen (literal l₂ ++ [.many p]))
    (List.replicate k a ++ (l₂.toList ++ (r ++ t)))).map _ = _
  rw [manyLen_run (by simp) (fun c hc => decide_eq_false (ha c hc)) hrest, List.length_replicate]
  rfl

/-- **What is found is a match.** -/
theorem matchLen_sound : ∀ {re : List Piece} {s : Str} {n : Nat}, matchLen re s = some n →
    ∃ w y, s = w ++ y ∧ w.length = n ∧ Matches re w := by
  intro re
  induction re with
  | nil =>
      intro s n h
      exact ⟨[], s, rfl, Option.some.inj h, rfl⟩
  | cons piece re ih =>
      intro s n h
      cases piece with
      | one p =>
          cases s with
          | nil => cases h
          | cons c s =>
              rw [matchLen] at h
              by_cases hc : p c = true
              · rw [if_pos hc] at h
                obtain ⟨m, hm, rfl⟩ := Option.map_eq_some_iff.mp h
                obtain ⟨w, y, rfl, rfl, hw⟩ := ih hm
                exact ⟨c :: w, y, rfl, rfl, c, w, rfl, hc, hw⟩
              · rw [if_neg hc] at h
                cases h
      | many p =>
          obtain ⟨r, t, j, rfl, hr, hj, rfl⟩ := manyLen_sound h
          obtain ⟨w, y, rfl, rfl, hw⟩ := ih hj
          exact ⟨r ++ w, y, by rw [List.append_assoc], List.length_append, r, w, rfl, hr, hw⟩

/-- **A match is found.** -/
theorem matchLen_complete : ∀ {re : List Piece} {w : Str} (y : Str), Matches re w →
    (matchLen re (w ++ y)).isSome := by
  intro re
  induction re with
  | nil => intro w y _; rfl
  | cons piece re ih =>
      intro w y h
      cases piece with
      | one p =>
          obtain ⟨c, v, rfl, hc, hv⟩ := h
          rw [List.cons_append, matchLen, if_pos hc, Option.isSome_map]
          exact ih y hv
      | many p =>
          obtain ⟨r, v, rfl, hr, hv⟩ := h
          obtain ⟨r', t', j, -, -, -, -, hn⟩ := manyLen_longest hr (ih y hv)
          rw [List.append_assoc, matchLen, hn]
          rfl

/-! ## The replacement, step by step -/

/-- No text of the pattern begins here, or only the empty one. -/
def NoMatch (re : List Piece) (s : Str) : Prop := ∀ m, matchLen re s ≠ some (m + 1)

theorem replaceFrom_match {re : List Piece} {repl : Str} {c : Char} {s : Str} {m : Nat}
    (h : matchLen re (c :: s) = some (m + 1)) :
    replaceFrom re repl 0 (c :: s) = repl ++ replaceFrom re repl m s := by
  rw [replaceFrom, h]

theorem replaceFrom_noMatch {re : List Piece} {repl : Str} {c : Char} {s : Str}
    (h : NoMatch re (c :: s)) :
    replaceFrom re repl 0 (c :: s) = c :: replaceFrom re repl 0 s := by
  rw [replaceFrom]
  split
  · rename_i m hm
    exact absurd hm (h m)
  · rfl

/-- Either a match of some length begins here, or none does. -/
theorem match_or_noMatch (re : List Piece) (s : Str) :
    (∃ m, matchLen re s = some (m + 1)) ∨ NoMatch re s := by
  by_cases h : ∃ m, matchLen re s = some (m + 1)
  · exact Or.inl h
  · exact Or.inr fun m hm => h ⟨m, hm⟩

/-- The rest of a match is dropped. -/
theorem replaceFrom_skip (re : List Piece) (repl : Str) (k : Nat) (s : Str) :
    replaceFrom re repl k s = replaceFrom re repl 0 (s.drop k) := by
  induction s generalizing k with
  | nil => cases k <;> rfl
  | cons c s ih =>
      cases k with
      | zero => rfl
      | succ k =>
          rw [List.drop_succ_cons, ← ih k, replaceFrom]

/-- Text in which nothing matches stays as it is. -/
theorem replaceFrom_eq_self {re : List Piece} {repl s : Str}
    (h : ∀ t, t <:+ s → NoMatch re t) : replaceFrom re repl 0 s = s := by
  induction s with
  | nil => rfl
  | cons c s ih =>
      rw [replaceFrom_noMatch (h _ List.suffix_rfl),
        ih fun t ht => h t (ht.trans (List.suffix_cons c s))]

/-! ## Nothing new is made -/

section Separator

variable {re : List Piece} {sep : Char}

/-- Text without the separator at the head of the output is at the head of the input. -/
theorem prefix_of_replaceFrom {w s : Str} (hw : sep ∉ w)
    (h : w <+: replaceFrom re [sep] 0 s) : w <+: s := by
  induction s generalizing w with
  | nil => exact h
  | cons c s ih =>
      cases w with
      | nil => exact List.nil_prefix
      | cons d w =>
          obtain ⟨hd, hw⟩ := not_or.mp (mt List.mem_cons.mpr hw)
          rcases match_or_noMatch re (c :: s) with ⟨m, hm⟩ | hno
          · rw [replaceFrom_match hm] at h
            exact absurd (List.cons_prefix_cons.mp h).1.symm hd
          · rw [replaceFrom_noMatch hno] at h
            obtain ⟨hdc, htail⟩ := List.cons_prefix_cons.mp h
            exact List.cons_prefix_cons.mpr ⟨hdc, ih hw htail⟩

/-- **A replacement makes nothing new.**  Text without the separator that stands in
    the output stands in the input, at a place where no match begins. -/
theorem infix_of_replaceFrom {w s : Str} {k : Nat} (hne : w ≠ []) (hw : sep ∉ w)
    (h : w <:+: replaceFrom re [sep] k s) :
    ∃ a b, s = a ++ (w ++ b) ∧ NoMatch re (w ++ b) := by
  induction s generalizing k with
  | nil =>
      rw [replaceFrom_skip, List.drop_nil] at h
      exact absurd (List.infix_nil.mp h) hne
  | cons c s ih =>
      -- a later occurrence is found by the hypothesis, behind one more character
      have later : ∀ j, w <:+: replaceFrom re [sep] j s →
          ∃ a b, c :: s = a ++ (w ++ b) ∧ NoMatch re (w ++ b) := by
        intro j hj
        obtain ⟨a, b, rfl, hno⟩ := ih hj
        exact ⟨c :: a, b, rfl, hno⟩
      cases k with
      | succ k => exact later k h
      | zero =>
          rcases match_or_noMatch re (c :: s) with ⟨m, hm⟩ | hno
          · rw [replaceFrom_match hm] at h
            rcases List.infix_cons_iff.mp h with hpre | hin
            · obtain ⟨d, w, rfl⟩ := List.exists_cons_of_ne_nil hne
              exact absurd (List.mem_cons.mpr (Or.inl (List.cons_prefix_cons.mp hpre).1.symm)) hw
            · exact later m hin
          · by_cases hpre : w <+: replaceFrom re [sep] 0 (c :: s)
            · obtain ⟨b, hb⟩ := prefix_of_replaceFrom hw hpre
              exact ⟨[], b, hb.symm, by rw [hb]; exact hno⟩
            · rw [replaceFrom_noMatch hno] at h hpre
              exact later 0 ((List.infix_cons_iff.mp h).resolve_left hpre)

/-! ## What is kept -/

/-- The character between `x` and `y` lies in a substring that matches. -/
def Covered (re : List Piece) (x : Str) (c : Char) (y : Str) : Prop :=
  ∃ x₁ x₂ y₁ y₂, x = x₁ ++ x₂ ∧ y = y₁ ++ y₂ ∧ Matches re (x₂ ++ c :: y₁)

/-- A match that begins inside the one the matcher chooses also ends inside it. -/
def Swallows (re : List Piece) : Prop :=
  ∀ {s : Str} {n : Nat}, matchLen re s = some n → ∀ {x w y : Str}, s = x ++ w ++ y →
    x.length < n → Matches re w → x.length + w.length ≤ n

theorem Covered.append_left {x : Str} {c : Char} {y : Str} (v : Str) (h : Covered re x c y) :
    Covered re (v ++ x) c y := by
  obtain ⟨x₁, x₂, y₁, y₂, rfl, hy, hm⟩ := h
  exact ⟨v ++ x₁, x₂, y₁, y₂, by rw [List.append_assoc], hy, hm⟩

/-- Behind `v`, a character is covered by a match that begins behind `v` or in it. -/
theorem covered_append {v x : Str} {c : Char} {y : Str} (h : Covered re (v ++ x) c y) :
    Covered re x c y ∨ ∃ v₁ v₂ y₁ y₂, v = v₁ ++ v₂ ∧ v₂ ≠ [] ∧ y = y₁ ++ y₂ ∧
      Matches re (v₂ ++ x ++ c :: y₁) := by
  obtain ⟨x₁, x₂, y₁, y₂, hx, hy, hm⟩ := h
  rcases List.append_eq_append_iff.mp hx with ⟨a, rfl, rfl⟩ | ⟨a, rfl, rfl⟩
  · exact Or.inl ⟨a, x₂, y₁, y₂, rfl, hy, hm⟩
  · by_cases ha : a = []
    · refine Or.inl ⟨[], x, y₁, y₂, rfl, hy, ?_⟩
      rw [ha, List.nil_append] at hm
      exact hm
    · exact Or.inr ⟨x₁, a, y₁, y₂, rfl, ha, hy, hm⟩

/-- A character of `v ++ t` stands behind `v` or in it. -/
theorem append_cons_eq_append {x y v t : Str} {c : Char} (h : x ++ c :: y = v ++ t) :
    (∃ a, x = v ++ a ∧ t = a ++ c :: y) ∨ ∃ a, v = x ++ c :: a ∧ y = a ++ t := by
  rcases List.append_eq_append_iff.mp h with ⟨a, rfl, ha⟩ | ⟨a, rfl, rfl⟩
  · cases a with
    | nil => exact Or.inl ⟨[], by simp, ha.symm⟩
    | cons e a =>
        obtain ⟨rfl, rfl⟩ := List.cons.inj ha
        exact Or.inr ⟨a, rfl, rfl⟩
  · exact Or.inl ⟨a, rfl, rfl⟩

/-- Splitting off the match that was found, with what is dropped behind it. -/
theorem exists_match {c : Char} {s : Str} {m : Nat} (h : matchLen re (c :: s) = some (m + 1)) :
    ∃ v, c :: s = v ++ s.drop m ∧ v.length = m + 1 ∧ Matches re v := by
  obtain ⟨w, y, hs, hlen, hw⟩ := matchLen_sound h
  refine ⟨w, ?_, hlen, hw⟩
  have hdrop : (c :: s).drop (m + 1) = y := by rw [hs, ← hlen, List.drop_left]
  rw [List.drop_succ_cons] at hdrop
  rw [hdrop, hs]

/-- **What is not kept was in a match.** -/
theorem mem_replaceFrom_or_covered {s x y : Str} {c : Char} {k : Nat}
    (h : s.drop k = x ++ c :: y) : c ∈ replaceFrom re [sep] k s ∨ Covered re x c y := by
  induction s generalizing k x with
  | nil =>
      rw [List.drop_nil] at h
      exact absurd h.symm (by simp)
  | cons d s ih =>
      cases k with
      | succ k => exact ih (by rw [← h, List.drop_succ_cons])
      | zero =>
          rw [List.drop_zero] at h
          rcases match_or_noMatch re (d :: s) with ⟨m, hm⟩ | hno
          · obtain ⟨v, hs, -, hv⟩ := exists_match hm
            rw [replaceFrom_match hm]
            rcases append_cons_eq_append (h.symm.trans hs) with ⟨a, rfl, ha⟩ | ⟨a, rfl, rfl⟩
            · rcases ih ha with hmem | hcov
              · exact Or.inl (List.mem_append_right _ hmem)
              · exact Or.inr (hcov.append_left v)
            · exact Or.inr ⟨[], x, a, s.drop m, rfl, rfl, hv⟩
          · rw [replaceFrom_noMatch hno]
            cases x with
            | nil => exact Or.inl (List.mem_cons.mpr (Or.inl (List.cons.inj h).1.symm))
            | cons e x =>
                obtain ⟨rfl, hs⟩ := List.cons.inj h
                rcases ih (k := 0) hs with hmem | hcov
                · exact Or.inl (List.mem_cons_of_mem _ hmem)
                · exact Or.inr (hcov.append_left [d])

theorem not_matches_of_noMatch (hnil : ¬ Matches re []) {w y : Str} (h : NoMatch re (w ++ y)) :
    ¬ Matches re w := by
  intro hw
  obtain ⟨n, hn⟩ := Option.isSome_iff_exists.mp (matchLen_complete y hw)
  cases n with
  | succ m => exact h m hn
  | zero =>
      obtain ⟨u, -, -, hlen, hu⟩ := matchLen_sound hn
      rw [List.length_eq_zero_iff.mp hlen] at hu
      exact hnil hu

/-- Where no match begins, the first character is in none. -/
theorem not_covered_head (hnil : ¬ Matches re []) {c : Char} {y : Str}
    (h : NoMatch re (c :: y)) : ¬ Covered re [] c y := by
  rintro ⟨x₁, x₂, y₁, y₂, hx, rfl, hw⟩
  obtain ⟨-, rfl⟩ := List.append_eq_nil_iff.mp hx.symm
  exact not_matches_of_noMatch hnil (y := y₂) h hw

/-- Where no match begins, a later character is in none of the longer text either. -/
theorem not_covered_cons (hnil : ¬ Matches re []) {d c : Char} {x y : Str}
    (h : NoMatch re (d :: (x ++ c :: y))) (hx : ¬ Covered re x c y) :
    ¬ Covered re (d :: x) c y := by
  intro hbad
  rcases covered_append (v := [d]) hbad with hcov | ⟨v₁, v₂, y₁, y₂, hd, hv₂, rfl, hw⟩
  · exact hx hcov
  · rcases List.append_eq_singleton_iff.mp hd.symm with ⟨-, rfl⟩ | ⟨-, rfl⟩
    · refine not_matches_of_noMatch hnil (y := y₂) ?_ hw
      simpa using h
    · exact hv₂ rfl

/-- Behind the match chosen, a character is in no match that begins inside it. -/
theorem not_covered_behind (hre : Swallows re) {v x y : Str} {c : Char}
    (h : matchLen re (v ++ (x ++ c :: y)) = some v.length) (hx : ¬ Covered re x c y) :
    ¬ Covered re (v ++ x) c y := by
  intro hbad
  rcases covered_append hbad with hcov | ⟨v₁, v₂, y₁, y₂, rfl, hv₂, rfl, hw⟩
  · exact hx hcov
  · -- the match would have to end where the chosen one does
    have hpos := List.length_pos_iff.mpr hv₂
    have hend := hre h (x := v₁) (y := y₂) (by simp) (by rw [List.length_append]; omega) hw
    simp only [List.length_append, List.length_cons] at hend
    omega

/-- **What is kept was in no match.** -/
theorem mem_replaceFrom (hnil : ¬ Matches re []) (hre : Swallows re) {s : Str} {c : Char}
    {k : Nat} (h : c ∈ replaceFrom re [sep] k s) :
    c = sep ∨ ∃ x y, s.drop k = x ++ c :: y ∧ ¬ Covered re x c y := by
  induction s generalizing k with
  | nil =>
      rw [replaceFrom_skip, List.drop_nil] at h
      cases h
  | cons d s ih =>
      cases k with
      | succ k => exact ih h
      | zero =>
          rw [List.drop_zero]
          rcases match_or_noMatch re (d :: s) with ⟨m, hm⟩ | hno
          · rw [replaceFrom_match hm] at h
            rcases List.mem_cons.mp h with hsep | hmem
            · exact Or.inl hsep
            · rcases ih hmem with hsep | ⟨x, y, hs, hcov⟩
              · exact Or.inl hsep
              · obtain ⟨v, hv, hlen, -⟩ := exists_match hm
                rw [hs] at hv
                refine Or.inr ⟨v ++ x, y, by rw [hv, List.append_assoc], ?_⟩
                exact not_covered_behind hre (by rw [← hv, hm, hlen]) hcov
          · rw [replaceFrom_noMatch hno] at h
            rcases List.mem_cons.mp h with rfl | hmem
            · exact Or.inr ⟨[], s, rfl, not_covered_head hnil hno⟩
            · rcases ih hmem with hsep | ⟨x, y, hs, hcov⟩
              · exact Or.inl hsep
              · rw [List.drop_zero] at hs
                rw [hs] at hno
                exact Or.inr ⟨d :: x, y, by rw [hs]; rfl, not_covered_cons hnil hno hcov⟩

end Separator

end CxxRegex
