import Tgnews.WorkerPoolProofs

/-! # A main thread that runs pools one after another

    A program that hands a vector to a pool of workers, waits for all of them, goes on
    with what they left, and may hand it to another pool.  The scheduler is free within
    each pool.  The route:

    * `Ends` — all runs from a state are bounded, none gets stuck where it should not,
      and where they end a property holds; `Ends.allEnd` reads that off the tree of runs;
    * `Settles` — what a pool is known to compute, whatever its schedule;
    * `Finishes` — what a whole program computes.  Its rules follow the program:
      `Finishes.exit`, `Finishes.throw`, and `Finishes.pool`, `Finishes.pool_error` for a
      pool that settles. -/

namespace ForkJoin

open WorkerPool

universe u

/-! ## Runs that all end -/

section Runs

variable {γ : Type u} {r : γ → γ → Prop} {P : γ → Prop}

/-- A run of `k` steps. -/
inductive Reach (r : γ → γ → Prop) : Nat → γ → γ → Prop where
  | refl (c : γ) : Reach r 0 c c
  | tail {k : Nat} {c d e : γ} : Reach r k c d → r d e → Reach r (k + 1) c e

/-- All runs from a state end within `n` steps, and where they end `P` holds. -/
inductive Ends (r : γ → γ → Prop) (P : γ → Prop) : Nat → γ → Prop where
  | here {n : Nat} {c : γ} : (∀ d, ¬ r c d) → P c → Ends r P n c
  | later {n : Nat} {c : γ} : (∃ d, r c d) → (∀ d, r c d → Ends r P n d) →
      Ends r P (n + 1) c

/-- What `Ends` says of the runs. -/
structure AllEnd (r : γ → γ → Prop) (P : γ → Prop) (n : Nat) (c : γ) : Prop where
  bounded : ∀ {k : Nat} {d : γ}, Reach r k c d → k ≤ n
  outcome : ∀ {k : Nat} {d : γ}, Reach r k c d → (∀ e, ¬ r d e) → P d

/-- A step leaves a run one step shorter. -/
theorem Ends.next {n : Nat} {c d : γ} (h : Ends r P n c) (hst : r c d) :
    ∃ m, n = m + 1 ∧ Ends r P m d := by
  cases h with
  | here hstuck _ => exact absurd hst (hstuck d)
  | later _ hall => exact ⟨_, rfl, hall d hst⟩

theorem Ends.stuck {n : Nat} {c : γ} (h : Ends r P n c) (hstuck : ∀ d, ¬ r c d) : P c := by
  cases h with
  | here _ hP => exact hP
  | later hnext _ =>
      obtain ⟨d, hst⟩ := hnext
      exact absurd hst (hstuck d)

/-- A longer bound does no harm. -/
theorem Ends.mono {n m : Nat} {c : γ} (h : Ends r P n c) (hnm : n ≤ m) : Ends r P m c := by
  induction h generalizing m with
  | here hstuck hP => exact .here hstuck hP
  | later hnext _ ih =>
      obtain ⟨m, rfl⟩ := Nat.exists_eq_add_of_le' (Nat.one_le_of_lt hnm)
      exact .later hnext fun d hst => ih d hst (Nat.le_of_succ_le_succ hnm)

/-- After a run of `k` steps there are `k` fewer to go. -/
theorem Ends.reach {n k : Nat} {c d : γ} (h : Ends r P n c) (hrun : Reach r k c d) :
    ∃ m, n = m + k ∧ Ends r P m d := by
  induction hrun with
  | refl c => exact ⟨n, rfl, h⟩
  | tail _ hst ih =>
      obtain ⟨m, rfl, hends⟩ := ih h
      obtain ⟨m', rfl, hrest⟩ := hends.next hst
      exact ⟨m', by omega, hrest⟩

/-- Read off the tree of runs: the bound, and where they end. -/
theorem Ends.allEnd {n : Nat} {c : γ} (h : Ends r P n c) : AllEnd r P n c where
  bounded hrun := by
    obtain ⟨m, hm, -⟩ := h.reach hrun
    omega
  outcome hrun hstuck := by
    obtain ⟨m, -, hends⟩ := h.reach hrun
    exact hends.stuck hstuck

/-- The end is reached by some run. -/
theorem Ends.exists_end {n : Nat} {c : γ} (h : Ends r P n c) :
    ∃ k d, Reach r k c d ∧ (∀ e, ¬ r d e) ∧ P d := by
  have hfrom : ∀ {n k : Nat} {d : γ}, Ends r P n d → Reach r k c d →
      ∃ k d, Reach r k c d ∧ (∀ e, ¬ r d e) ∧ P d := by
    intro n k d hends
    induction hends generalizing k with
    | here hstuck hP => exact fun hrun => ⟨_, _, hrun, hstuck, hP⟩
    | later hnext _ ih =>
        obtain ⟨e, hst⟩ := hnext
        exact fun hrun => ih e hst (hrun.tail hst)
  exact hfrom h (.refl c)

end Runs

/-! ## Programs -/

/-- What the main thread is to do: end with a result, throw, or hand a vector to a pool
    and go on with the vector that the workers leave. -/
inductive Program (ω ε : Type) : Type 1 where
  | exit (result : ω)
  | throw (e : ε)
  | pool {σ α : Type} (J : Job σ α ε) (vec : List α) (next : List α → Program ω ε)

/-- The process: the main thread runs, or it waits for a pool; or the process is over,
    with a result, or taken down by an exception that nobody catches. -/
inductive Process (ω ε : Type) : Type 1 where
  | main (p : Program ω ε)
  | waiting {σ α : Type} (J : Job σ α ε) (s : State σ α) (next : List α → Program ω ε)
  | exited (result : ω)
  | aborted

variable {ω ε : Type}

/-- One step of the process. -/
inductive Advance : Process ω ε → Process ω ε → Prop where
  | exit (result : ω) : Advance (.main (.exit result)) (.exited result)
  | throw (e : ε) : Advance (.main (.throw e)) .aborted
  | fork {σ α : Type} (J : Job σ α ε) (vec : List α) (next : List α → Program ω ε) :
      Advance (.main (.pool J vec next)) (.waiting J (start vec) next)
  | work {σ α : Type} {J : Job σ α ε} {s t : State σ α} (next : List α → Program ω ε) :
      Step J s t → Advance (.waiting J s next) (.waiting J t next)
  | join {σ α : Type} {J : Job σ α ε} {p : Pool σ α} (next : List α → Program ω ε) :
      p.Joined J → Advance (.waiting J (.running p) next) (.main (next p.vec))
  | abort {σ α : Type} (J : Job σ α ε) (next : List α → Program ω ε) :
      Advance (.waiting J .terminated next) .aborted

/-- The state a process must end in, given the result of its program. -/
def Ended : Except ε ω → Process ω ε → Prop
  | .ok result, c => c = .exited result
  | .error _, c => c = .aborted

variable {σ α : Type}

/-- What a pool is known to compute: its runs are bounded, and whatever the schedule they
    end in the result. -/
structure Settles (J : Job σ α ε) (vec : List α) (n : Nat) (result : Except ε (List α)) :
    Prop where
  bounded : ∀ {k : Nat} {s : State σ α}, Run J k (start vec) s → k ≤ n
  outcome : ∀ {k : Nat} {s : State σ α}, Run J k (start vec) s → Halted J s → Outcome result s

theorem not_step_of_halted {J : Job σ α ε} {s t : State σ α} (h : Halted J s) :
    ¬ Step J s t := by
  intro hst
  cases hst with
  | spawn p hlt => exact h.1 hlt
  | work p k w a b loc hk hlt _ _ => exact h.2 w (List.mem_of_getElem? hk) hlt
  | throw p k w hk hlt _ => exact h.2 w (List.mem_of_getElem? hk) hlt

section Pool

variable {J : Job σ α ε} {vec : List α} {N n : Nat} {result : Except ε (List α)}
variable {next : List α → Program ω ε} {P : Process ω ε → Prop}

/-- A pool that has halted: all workers are joined, or the process goes down. -/
theorem ends_halted (h : Settles J vec N result)
    (hok : ∀ {v}, result = .ok v → Ends Advance P n (.main (next v)))
    (herror : ∀ {e}, result = .error e → P .aborted) {k : Nat} {s : State σ α}
    (hrun : Run J k (start vec) s) (hhalt : Halted J s) :
    Ends Advance P (n + 1) (.waiting J s next) := by
  have hout := h.outcome hrun hhalt
  cases result with
  | ok v =>
      obtain ⟨p, rfl, rfl⟩ := hout
      refine .later ⟨_, .join next hhalt⟩ ?_
      intro d hadv
      cases hadv with
      | work _ hst => exact absurd hst (not_step_of_halted hhalt)
      | join _ _ => exact hok rfl
  | error e =>
      obtain rfl : s = .terminated := hout
      refine .later ⟨_, .abort J next⟩ ?_
      intro d hadv
      cases hadv with
      | work _ hst => exact absurd hst (not_step_of_halted hhalt)
      | abort _ _ => exact .here (fun d hd => by cases hd) (herror rfl)

/-- **A pool in a program.**  Where the pool is joined the main thread goes on; where it
    is terminated, so is the process. -/
theorem ends_waiting (h : Settles J vec N result)
    (hok : ∀ {v}, result = .ok v → Ends Advance P n (.main (next v)))
    (herror : ∀ {e}, result = .error e → P .aborted) :
    ∀ {m k : Nat} {s : State σ α}, Run J k (start vec) s → N = m + k →
      Ends Advance P (m + n + 1) (.waiting J s next) := by
  intro m
  induction m with
  | zero =>
      intro k s hrun hN
      -- the bound is used up, so the pool has halted
      have hhalt : Halted J s := by
        by_contra hgo
        obtain ⟨t, hst⟩ := progress hgo
        have := h.bounded (hrun.tail hst)
        omega
      rw [Nat.zero_add]
      exact ends_halted h hok herror hrun hhalt
  | succ m ih =>
      intro k s hrun hN
      by_cases hhalt : Halted J s
      · exact (ends_halted h hok herror hrun hhalt).mono (by omega)
      · obtain ⟨t, hst⟩ := progress hhalt
        have hends : Ends Advance P ((m + n + 1) + 1) (.waiting J s next) := by
          refine .later ⟨_, .work next hst⟩ ?_
          intro d hadv
          cases hadv with
          | work _ hst => exact ih (hrun.tail hst) (by omega)
          | join _ hjoined => exact absurd hjoined hhalt
          | abort _ _ => exact absurd trivial hhalt
        exact hends.mono (by omega)

end Pool

/-! ## What a program computes -/

/-- Every run of the program ends, whatever the schedules of its pools, and it ends in the
    result. -/
def Finishes (p : Program ω ε) (result : Except ε ω) : Prop :=
  ∃ n, Ends Advance (Ended result) n (.main p)

theorem Finishes.exit (result : ω) : Finishes (.exit result : Program ω ε) (.ok result) := by
  refine ⟨1, .later ⟨_, .exit result⟩ ?_⟩
  intro d hadv
  cases hadv with
  | exit _ => exact .here (fun d hd => by cases hd) rfl

theorem Finishes.throw (e : ε) : Finishes (.throw e : Program ω ε) (.error e) := by
  refine ⟨1, .later ⟨_, .throw e⟩ ?_⟩
  intro d hadv
  cases hadv with
  | throw _ => exact .here (fun d hd => by cases hd) rfl

/-- From a pool to the state behind it. -/
theorem ends_pool {J : Job σ α ε} {vec : List α} {N n : Nat} {result : Except ε (List α)}
    {next : List α → Program ω ε} {P : Process ω ε → Prop} (h : Settles J vec N result)
    (hok : ∀ {v}, result = .ok v → Ends Advance P n (.main (next v)))
    (herror : ∀ {e}, result = .error e → P .aborted) :
    Ends Advance P (N + n + 1 + 1) (.main (.pool J vec next)) := by
  refine .later ⟨_, .fork J vec next⟩ ?_
  intro d hadv
  cases hadv with
  | fork _ _ _ => exact ends_waiting h hok herror (.refl _) rfl

/-- **A pool that computes a vector**, and the rest of the program on that vector. -/
theorem Finishes.pool {J : Job σ α ε} {vec v : List α} {N : Nat}
    {next : List α → Program ω ε} {r : Except ε ω} (h : Settles J vec N (.ok v))
    (hnext : Finishes (next v) r) : Finishes (.pool J vec next) r := by
  obtain ⟨n, hends⟩ := hnext
  refine ⟨N + n + 1 + 1, ends_pool h ?_ ?_⟩
  · intro v' hv
    rw [← Except.ok.inj hv]
    exact hends
  · intro e he
    cases he

/-- **A pool that fails** takes the program down. -/
theorem Finishes.pool_error {J : Job σ α ε} {vec : List α} {N : Nat} {e : ε}
    {next : List α → Program ω ε} (h : Settles J vec N (.error e)) :
    Finishes (.pool J vec next) (.error e) := by
  refine ⟨N + 0 + 1 + 1, ends_pool h ?_ ?_⟩
  · intro v hv
    cases hv
  · intro _ _
    rfl

/-- **What `Finishes` says of the runs**: they are bounded, one that cannot go on is over,
    and it is over in the one way that the result says. -/
theorem Finishes.runs {p : Program ω ε} {result : Except ε ω} (h : Finishes p result) :
    ∃ n, AllEnd Advance (Ended result) n (.main p) := by
  obtain ⟨n, hends⟩ := h
  exact ⟨n, hends.allEnd⟩

/-- **A program finishes in one way.** -/
theorem Finishes.unique {p : Program ω ε} {r r' : Except ε ω} (h : Finishes p r)
    (h' : Finishes p r') : r.toOption = r'.toOption := by
  obtain ⟨n, hends⟩ := h
  obtain ⟨n', hends'⟩ := h'
  obtain ⟨k, c, hrun, hstuck, hc⟩ := hends.exists_end
  have hc' := hends'.allEnd.outcome hrun hstuck
  cases r with
  | ok w =>
      obtain rfl : c = .exited w := hc
      cases r' with
      | ok w' =>
          cases (show Process.exited w = Process.exited w' from hc')
          rfl
      | error e' => cases (show Process.exited w = Process.aborted from hc')
  | error e =>
      obtain rfl : c = .aborted := hc
      cases r' with
      | ok w' => cases (show Process.aborted = Process.exited w' from hc')
      | error e' => rfl

end ForkJoin
