import Mathlib

/-! # Tallies that are normalised on the way

    A tally counts what it is shown, and can be divided by its total at any time.  Is
    its normalised value still the frequencies of all that was shown?  Dividing a tally
    is harmless as long as nothing is counted afterwards; what is counted later weighs
    more than what was counted before.

    `faithful_iff` says exactly when the frequencies stay right along a sequence of
    events.  Both directions follow the factor between the tally and the true counts:
    it is one until the tally is divided by a total of two or more, and less than one
    for ever after (`spoilt_step`); and a factor other than one survives a further
    count only if a single thing has ever been counted. -/

namespace Tally

variable {ι : Type}

/-- What can happen to a tally. -/
inductive Event (ι : Type) where
  | count (i : ι)
  | normalize

/-- What was counted. -/
def counted (es : List (Event ι)) : List ι :=
  es.filterMap fun
    | .count i => some i
    | .normalize => none

@[simp] theorem counted_nil : counted ([] : List (Event ι)) = [] := rfl

@[simp] theorem counted_append (es es' : List (Event ι)) :
    counted (es ++ es') = counted es ++ counted es' := List.filterMap_append

@[simp] theorem counted_count_cons (i : ι) (es : List (Event ι)) :
    counted (.count i :: es) = i :: counted es := rfl

@[simp] theorem counted_normalize_cons (es : List (Event ι)) :
    counted (.normalize :: es) = counted es := rfl

/-- A list of one thing, over and over. -/
def AllSame (l : List ι) : Prop := ∀ i ∈ l, ∀ j ∈ l, i = j

/-- A tally of two or more is divided only if nothing is counted afterwards, or if
    nothing but one thing is counted at all. -/
def Unspoilt (es : List (Event ι)) : Prop :=
  ∀ pre post, es = pre ++ .normalize :: post →
    (counted pre).length ≤ 1 ∨ counted post = [] ∨ AllSame (counted pre ++ counted post)

/-! ## Totals and counts -/

/-- The sum of all entries. -/
def total [Fintype ι] (v : ι → ℚ) : ℚ := ∑ i, v i

/-- Division by the total, unless it is zero. -/
def normalized [Fintype ι] (v : ι → ℚ) : ι → ℚ := if 0 < total v then (total v)⁻¹ • v else v

/-- Scaling scales the total. -/
theorem total_smul [Fintype ι] (a : ℚ) (v : ι → ℚ) : total (a • v) = a * total v := by
  rw [total, total, Finset.mul_sum]
  rfl

/-- Dividing twice is dividing once. -/
theorem normalized_normalized [Fintype ι] (v : ι → ℚ) :
    normalized (normalized v) = normalized v := by
  by_cases h : 0 < total v
  · have hone : total ((total v)⁻¹ • v) = 1 := by rw [total_smul, inv_mul_cancel₀ h.ne']
    have hdiv : normalized v = (total v)⁻¹ • v := if_pos h
    rw [hdiv, normalized, hone, if_pos one_pos, inv_one, one_smul]
  · have hsame : normalized v = v := if_neg h
    rw [hsame, hsame]

variable [DecidableEq ι]

/-- The true counts. -/
def counts (l : List ι) : ι → ℚ := fun i => (l.count i : ℚ)

/-- One more event adds one to its count. -/
theorem counts_concat (l : List ι) (i : ι) : counts (l ++ [i]) = counts l + Pi.single i 1 := by
  ext j
  rw [counts, List.count_append, List.count_singleton, Pi.add_apply, counts]
  by_cases h : i = j
  · subst h
    simp
  · rw [Pi.single_eq_of_ne (Ne.symm h)]
    simp [h]

/-- Counting the one thing a scaled tally holds leaves it scaled. -/
theorem exists_smul_concat {a : ℚ} (ha : 0 < a) {l : List ι} {i : ι} (hl : ∀ j ∈ l, j = i) :
    ∃ b : ℚ, 0 < b ∧ a • counts l + Pi.single i 1 = b • counts (l ++ [i]) := by
  have hcounts : counts l = (l.length : ℚ) • Pi.single i (1 : ℚ) := by
    rw [List.eq_replicate_of_mem hl]
    ext j
    rw [counts, List.count_replicate, List.length_replicate, Pi.smul_apply, smul_eq_mul]
    by_cases h : i = j
    · subst h
      simp
    · rw [Pi.single_eq_of_ne (Ne.symm h)]
      simp [h]
  have hpos : (0 : ℚ) < l.length + 1 := by positivity
  refine ⟨(a * l.length + 1) / (l.length + 1), by positivity, ?_⟩
  have hadd : ∀ x : ℚ, x • Pi.single i (1 : ℚ) + Pi.single i 1 = (x + 1) • Pi.single i (1 : ℚ) :=
    fun x => by rw [add_smul, one_smul]
  rw [counts_concat, hcounts, smul_smul, hadd, hadd, smul_smul, div_mul_cancel₀ _ hpos.ne']

variable [Fintype ι]

theorem total_add_single (v : ι → ℚ) (i : ι) : total (v + Pi.single i 1) = total v + 1 := by
  rw [total, total]
  simp [Finset.sum_add_distrib]

/-- The counts add up to the number of events. -/
theorem total_counts (l : List ι) : total (counts l) = l.length := by
  induction l using List.reverseRecOn with
  | nil => simp [total, counts]
  | append_singleton l i ih =>
      rw [counts_concat, total_add_single, ih, List.length_append, List.length_singleton]
      push_cast
      rfl

/-- A scaled tally has the same frequencies. -/
theorem normalized_smul {a : ℚ} (ha : 0 < a) (l : List ι) :
    normalized (a • counts l) = normalized (counts l) := by
  have htotal := total_counts l
  rw [normalized, normalized, total_smul, htotal]
  cases l with
  | nil =>
      have hzero : counts ([] : List ι) = 0 := rfl
      simp [hzero]
  | cons i l =>
      have hlen : (0 : ℚ) < (i :: l).length := by simp; positivity
      rw [if_pos (mul_pos ha hlen), if_pos hlen, smul_smul, mul_inv, mul_right_comm,
        inv_mul_cancel₀ ha.ne', one_mul]

/-- Dividing the true counts scales them. -/
theorem exists_normalized_eq_smul (l : List ι) :
    ∃ a : ℚ, 0 < a ∧ normalized (counts l) = a • counts l ∧ (1 < l.length → a < 1) := by
  rw [normalized, total_counts]
  by_cases h : (0 : ℚ) < l.length
  · refine ⟨(l.length : ℚ)⁻¹, inv_pos.mpr h, by rw [if_pos h], ?_⟩
    intro hlt
    exact inv_lt_one_of_one_lt₀ (by exact_mod_cast hlt)
  · refine ⟨1, one_pos, by rw [if_neg h, one_smul], ?_⟩
    intro hlt
    exact absurd (by exact_mod_cast (by omega : 0 < l.length)) h

/-! ## Runs -/

/-- One event. -/
def step (v : ι → ℚ) : Event ι → ι → ℚ
  | .count i => v + Pi.single i 1
  | .normalize => normalized v

/-- The tally after a sequence of events. -/
def after (es : List (Event ι)) : ι → ℚ := es.foldl step 0

/-- A run takes one event after the other. -/
theorem after_concat (es : List (Event ι)) (e : Event ι) :
    after (es ++ [e]) = step (after es) e := by
  rw [after, List.foldl_concat]
  rfl

/-- At every point the normalised tally holds the frequencies of what was counted. -/
def Faithful (es : List (Event ι)) : Prop :=
  ∀ pre, pre <+: es → normalized (after pre) = normalized (counts (counted pre))

/-- What an unspoilt run keeps true between what happened and what is to come: the
    counts are exact, or they are scaled and what comes cannot show it. -/
def Inv (pre post : List (Event ι)) : Prop :=
  after pre = counts (counted pre) ∨
    (∃ a : ℚ, 0 < a ∧ after pre = a • counts (counted pre)) ∧
      (counted post = [] ∨ AllSame (counted pre ++ counted post))

/-- Under the invariant what is read is the normalised counter. -/
theorem Inv.faithful {pre post : List (Event ι)} (h : Inv pre post) :
    normalized (after pre) = normalized (counts (counted pre)) := by
  rcases h with h | ⟨⟨a, ha, h⟩, -⟩
  · rw [h]
  · rw [h, normalized_smul ha]

/-- Counting keeps the invariant. -/
theorem inv_count {pre post : List (Event ι)} {i : ι} (h : Inv pre (.count i :: post)) :
    Inv (pre ++ [.count i]) post := by
  have hcounted : counted (pre ++ [.count i]) = counted pre ++ [i] := by simp
  rw [Inv, after_concat, step, hcounted]
  rcases h with h | ⟨⟨a, ha, h⟩, hnone | hsame⟩
  · left
    rw [h, counts_concat]
  · rw [counted_count_cons] at hnone
    cases hnone
  · rw [counted_count_cons] at hsame
    obtain ⟨b, hb, heq⟩ := exists_smul_concat ha fun j hj =>
      hsame j (List.mem_append_left _ hj) i (by simp)
    refine Or.inr ⟨⟨b, hb, by rw [h, heq]⟩, Or.inr ?_⟩
    rw [List.append_assoc, List.singleton_append]
    exact hsame

/-- So does normalising, with one event at most before it or none behind it, or if all events
    are the same. -/
theorem inv_normalize {pre post : List (Event ι)} (h : Inv pre (.normalize :: post))
    (hsplit : (counted pre).length ≤ 1 ∨ counted post = [] ∨
      AllSame (counted pre ++ counted post)) :
    Inv (pre ++ [.normalize]) post := by
  have hcounted : counted (pre ++ [Event.normalize]) = counted pre := by simp
  obtain ⟨a, ha, heq, -⟩ := exists_normalized_eq_smul (counted pre)
  rw [Inv, after_concat, step, h.faithful, hcounted]
  rcases hsplit with hshort | hsafe
  · left
    rw [normalized, total_counts]
    by_cases hpos : (0 : ℚ) < (counted pre).length
    · have hone : (counted pre).length = 1 := by
        have : 0 < (counted pre).length := by exact_mod_cast hpos
        omega
      rw [if_pos hpos, hone]
      simp
    · rw [if_neg hpos]
  · exact Or.inr ⟨⟨a, ha, heq⟩, hsafe⟩

/-- **An unspoilt run keeps the frequencies.** -/
theorem inv_of_unspoilt {es : List (Event ι)} (h : Unspoilt es) :
    ∀ pre post, es = pre ++ post → Inv pre post := by
  intro pre
  induction pre using List.reverseRecOn with
  | nil =>
      intro post _
      exact Or.inl rfl
  | append_singleton pre e ih =>
      intro post hes
      rw [List.append_assoc, List.singleton_append] at hes
      cases e with
      | count i => exact inv_count (ih _ hes)
      | normalize => exact inv_normalize (ih _ hes) (h pre post hes)

/-- A count in a run that stays faithful, when the tally is scaled by less than one:
    the scale stays below one, and only one thing has been counted. -/
theorem spoilt_step {a : ℚ} (ha : 0 < a) (ha1 : a < 1) {l : List ι} (hl : l ≠ []) {i : ι}
    (h : normalized (a • counts l + Pi.single i 1) = normalized (counts (l ++ [i]))) :
    (∃ b : ℚ, 0 < b ∧ b < 1 ∧ a • counts l + Pi.single i 1 = b • counts (l ++ [i])) ∧
      ∀ j ∈ l, j = i := by
  have hlen : (0 : ℚ) < l.length := by exact_mod_cast List.length_pos_iff.mpr hl
  have htotal : total (a • counts l + Pi.single i 1) = a * l.length + 1 := by
    rw [total_add_single, total_smul, total_counts]
  have htotal' : total (counts (l ++ [i])) = l.length + 1 := by
    rw [counts_concat, total_add_single, total_counts]
  have hpos : 0 < a * l.length + 1 := by positivity
  have hpos' : (0 : ℚ) < l.length + 1 := by positivity
  rw [normalized, normalized, htotal, htotal', if_pos hpos, if_pos hpos'] at h
  -- the two agree up to the ratio of their totals
  have hscale : a • counts l + Pi.single i 1
      = ((a * l.length + 1) / (l.length + 1)) • counts (l ++ [i]) := by
    have h' := congrArg ((a * l.length + 1) • ·) h
    simp only [smul_smul, mul_inv_cancel₀ hpos.ne', one_smul] at h'
    rw [h', div_eq_mul_inv]
  refine ⟨⟨_, by positivity, ?_, hscale⟩, ?_⟩
  · rw [div_lt_one hpos']
    have := mul_lt_mul_of_pos_right ha1 hlen
    linarith
  · intro j hj
    by_contra hne
    have hcount : (0 : ℚ) < counts l j := by
      rw [counts]
      exact_mod_cast List.count_pos_iff.mpr hj
    have hj' := congrFun hscale j
    rw [counts_concat, Pi.smul_apply, Pi.add_apply, Pi.add_apply, Pi.smul_apply,
      Pi.single_eq_of_ne hne, add_zero, add_zero, smul_eq_mul, smul_eq_mul] at hj'
    have heq := mul_right_cancel₀ hcount.ne' hj'
    rw [eq_div_iff hpos'.ne'] at heq
    linarith

/-- **A faithful run is unspoilt.** -/
theorem unspoilt_of_faithful {es : List (Event ι)} (h : Faithful es) : Unspoilt es := by
  intro pre post hes
  by_cases hshort : (counted pre).length ≤ 1
  · exact Or.inl hshort
  refine Or.inr ?_
  -- from the division on the tally is scaled by less than one
  have hspoilt : ∀ mid rest, post = mid ++ rest →
      (∃ a : ℚ, 0 < a ∧ a < 1 ∧ after (pre ++ .normalize :: mid)
        = a • counts (counted pre ++ counted mid)) ∧
      (counted mid = [] ∨ AllSame (counted pre ++ counted mid)) := by
    intro mid
    induction mid using List.reverseRecOn with
    | nil =>
        intro rest _
        obtain ⟨a, ha, heq, hlt⟩ := exists_normalized_eq_smul (counted pre)
        refine ⟨⟨a, ha, hlt (by omega), ?_⟩, Or.inl rfl⟩
        rw [after_concat, step, h pre ⟨_, hes.symm⟩, counted_nil, List.append_nil, heq]
    | append_singleton mid e ih =>
        intro rest hpost
        rw [List.append_assoc, List.singleton_append] at hpost
        obtain ⟨⟨a, ha, ha1, heq⟩, hone⟩ := ih _ hpost
        have hrun : pre ++ .normalize :: (mid ++ [e]) = (pre ++ .normalize :: mid) ++ [e] := by
          simp
        have hprefix : (pre ++ .normalize :: mid) ++ [e] <+: es := by
          rw [hes, hpost]
          exact ⟨rest, by simp⟩
        rw [hrun, after_concat, heq]
        have hfaith := h _ hprefix
        rw [after_concat, heq] at hfaith
        cases e with
        | normalize =>
            obtain ⟨b, hb, hbeq, hlt⟩ := exists_normalized_eq_smul (counted pre ++ counted mid)
            have hmid : counted (mid ++ [Event.normalize]) = counted mid := by simp
            rw [step, normalized_smul ha, hmid, hbeq]
            refine ⟨⟨b, hb, hlt ?_, rfl⟩, hone⟩
            rw [List.length_append]
            omega
        | count i =>
            have hmid : counted (mid ++ [Event.count i]) = counted mid ++ [i] := by simp
            have hall : counted ((pre ++ .normalize :: mid) ++ [Event.count i])
                = (counted pre ++ counted mid) ++ [i] := by simp
            have hne : counted pre ++ counted mid ≠ [] := by
              intro hnil
              rw [(List.append_eq_nil_iff.mp hnil).1, List.length_nil] at hshort
              omega
            rw [step, hall] at hfaith
            obtain ⟨hscaled, honly⟩ := spoilt_step ha ha1 hne hfaith
            rw [step, hmid, ← List.append_assoc]
            have honly' : ∀ j ∈ counted pre ++ counted mid ++ [i], j = i := fun j hj =>
              (List.mem_append.mp hj).elim (honly j) List.mem_singleton.mp
            exact ⟨hscaled, Or.inr fun j hj k hk => (honly' j hj).trans (honly' k hk).symm⟩
  exact (hspoilt post [] (List.append_nil _).symm).2

/-- **The frequencies stay right exactly along the unspoilt runs.** -/
theorem faithful_iff (es : List (Event ι)) : Faithful es ↔ Unspoilt es := by
  constructor
  · exact unspoilt_of_faithful
  · rintro h pre ⟨post, rfl⟩
    exact (inv_of_unspoilt h pre post rfl).faithful

end Tally
