import Mathlib

/-! # A pool of workers over one shared vector

    The fork-join pattern `for (; begin < n; begin += step) spawn(begin, end)`
    followed by `join` on every worker, as a transition system.  A worker owns
    the index range it was given and a local state that it carries from one index
    to the next; a step of the system is a turn of the spawning loop or one index
    processed by one worker, and the scheduler is free.  A worker that throws
    takes the process down.

    The route:

    * `spawnLoop` computes the ranges with wrapping 64-bit additions, and
      `spawnLoop_tiles` shows that they tile `0 .. n-1`;
    * `pending` lists the indices nobody has processed.  A spawn leaves it alone
      and a work step removes exactly one index, so it never holds an index twice;
    * `run_outcome` reads the final state off that invariant: whatever the
      schedule, it is the left-to-right map `seqMap`;
    * `run_length_le` and `progress` say that every run ends;
    * `spawnsAtMost_iff` counts the workers that a run can spawn. -/

namespace WorkerPool

variable {σ α β ε : Type}

/-! ## The spawning loop -/

/-- Addition of two `size_t`: it wraps at 64 bits. -/
def sizeAdd (a b : Nat) : Nat := (a + b) % 2 ^ 64

/-- `std::max<size_t>(1u, n / threads)`. -/
def stepSize (threads n : Nat) : Nat := max 1 (n / threads)

/-- The ranges handed out by the spawning loop when its variable is `start`;
    `none` when the fuel runs out before the loop ends. -/
def spawnLoop (n step : Nat) : Nat → Nat → Option (List (Nat × Nat))
  | 0, _ => none
  | fuel + 1, start =>
      if start < n then
        (spawnLoop n step fuel (sizeAdd start step)).map
          ((start, min n (sizeAdd start step)) :: ·)
      else some []

/-- The ranges cut `start .. n-1` into consecutive non-empty pieces. -/
inductive Tiles (n : Nat) : Nat → List (Nat × Nat) → Prop where
  | done {start : Nat} : n ≤ start → Tiles n start []
  | cons {start stop next : Nat} {rs : List (Nat × Nat)} :
      start < stop → stop = min n next → Tiles n next rs →
      Tiles n start ((start, stop) :: rs)

theorem sizeAdd_eq {a b : Nat} (h : a + b < 2 ^ 64) : sizeAdd a b = a + b :=
  Nat.mod_eq_of_lt h

/-- **The loop ends and its ranges tile the indices.**  Without a wrap the
    variable grows by at least one per turn, so `n - start + 1` turns are enough. -/
theorem spawnLoop_tiles {n step : Nat} (hstep : 0 < step) (hwrap : n + step < 2 ^ 64) :
    ∀ (fuel start : Nat), n - start < fuel →
      ∃ rs, spawnLoop n step fuel start = some rs ∧ Tiles n start rs
        ∧ ∀ r ∈ rs, r.1 + step < 2 ^ 64 := by
  intro fuel
  induction fuel with
  | zero => intro start h; exact absurd h (Nat.not_lt_zero _)
  | succ fuel ih =>
      intro start h
      by_cases hlt : start < n
      · -- below `n` the addition cannot wrap
        have hadd : sizeAdd start step = start + step := sizeAdd_eq (by omega)
        obtain ⟨rs, hrs, htiles, hno⟩ := ih (start + step) (by omega)
        refine ⟨(start, min n (start + step)) :: rs, ?_, ?_, ?_⟩
        · rw [spawnLoop, if_pos hlt, hadd, hrs]; rfl
        · exact Tiles.cons (by omega) rfl htiles
        · intro r hr
          rcases List.mem_cons.mp hr with heq | hmem
          · subst heq
            show start + step < 2 ^ 64
            omega
          · exact hno r hmem
      · refine ⟨[], ?_, Tiles.done (by omega), ?_⟩
        · rw [spawnLoop, if_neg hlt]
        · intro r hr; exact nomatch hr

/-- The ranges of a tiling are non-empty and within bounds. -/
theorem Tiles.nonempty {n start : Nat} {rs : List (Nat × Nat)} (h : Tiles n start rs) :
    ∀ r ∈ rs, start ≤ r.1 ∧ r.1 < r.2 ∧ r.2 ≤ n := by
  induction h with
  | done _ => intro r hr; exact nomatch hr
  | @cons start stop next rs hlt hstop _ ih =>
      intro r hr
      rcases List.mem_cons.mp hr with heq | hmem
      · subst heq
        refine ⟨Nat.le_refl _, hlt, ?_⟩
        show stop ≤ n
        omega
      · obtain ⟨h1, h2, h3⟩ := ih r hmem
        exact ⟨by omega, h2, h3⟩

/-- The ranges of a tiling are ordered, hence pairwise disjoint. -/
theorem Tiles.pairwise {n start : Nat} {rs : List (Nat × Nat)} (h : Tiles n start rs) :
    rs.Pairwise (fun r s => r.2 ≤ s.1) := by
  induction h with
  | done _ => exact List.Pairwise.nil
  | @cons start stop next rs hlt hstop ht ih =>
      refine List.Pairwise.cons ?_ ih
      intro s hs
      have := (ht.nonempty s hs).1
      show stop ≤ s.1
      omega

/-- The ranges of a tiling list every index from `start` on, once and in order. -/
theorem Tiles.cover {n start : Nat} {rs : List (Nat × Nat)} (h : Tiles n start rs) :
    rs.flatMap (fun r => List.range' r.1 (r.2 - r.1)) = List.range' start (n - start) := by
  induction h with
  | @done start hge =>
      rw [Nat.sub_eq_zero_of_le hge]; rfl
  | @cons start stop next rs hlt hstop _ ih =>
      rw [List.flatMap_cons, ih]
      -- only the last range is cut short by `n`
      by_cases hn : next ≤ n
      · have hs : stop = next := by omega
        subst hs
        have h := @List.range'_append_1 start (stop - start) (n - stop)
        rw [show start + (stop - start) = stop by omega,
          show stop - start + (n - stop) = n - start by omega] at h
        exact h
      · rw [show n - next = 0 by omega, show stop = n by omega]
        exact List.append_nil _

/-! ## The transition system -/

/-- A worker: the range it was given, the next index to process, its local state. -/
structure Worker (σ : Type) where
  start : Nat
  stop : Nat
  cur : Nat
  loc : σ

/-- The shared state: the spawning loop's variable, the workers, the vector. -/
structure Pool (σ α : Type) where
  next : Nat
  workers : List (Worker σ)
  vec : List α

/-- The process: it runs, or an exception has left a worker and ended it. -/
inductive State (σ α : Type) where
  | running (p : Pool σ α)
  | terminated

/-- What a pool computes: the number of indices, the step of the spawning loop,
    the local state of a fresh worker, and the body for one index. -/
structure Job (σ α ε : Type) where
  count : Nat
  step : Nat
  init : σ
  body : σ → Nat → α → Except ε (σ × α)

/-- The pool before the first turn of the spawning loop. -/
def start (vec : List α) : State σ α :=
  .running { next := 0, workers := [], vec := vec }

/-- The pool after a turn of the spawning loop. -/
def Pool.spawn (J : Job σ α ε) (p : Pool σ α) : Pool σ α :=
  { p with
    next := sizeAdd p.next J.step
    workers := p.workers ++
      [{ start := p.next, stop := min J.count (sizeAdd p.next J.step),
         cur := p.next, loc := J.init }] }

/-- The pool after worker `k` has written `b` at its index. -/
def Pool.write (p : Pool σ α) (k : Nat) (w : Worker σ) (loc : σ) (b : α) : Pool σ α :=
  { p with
    workers := p.workers.set k { w with cur := w.cur + 1, loc := loc }
    vec := p.vec.set w.cur b }

/-- One step: the spawning loop turns, a worker processes its next index, or
    its body throws (an index past the end of the vector throws too). -/
inductive Step (J : Job σ α ε) : State σ α → State σ α → Prop where
  | spawn (p : Pool σ α) : p.next < J.count → Step J (.running p) (.running (p.spawn J))
  | work (p : Pool σ α) (k : Nat) (w : Worker σ) (a b : α) (loc : σ) :
      p.workers[k]? = some w → w.cur < w.stop → p.vec[w.cur]? = some a →
      J.body w.loc w.cur a = .ok (loc, b) →
      Step J (.running p) (.running (p.write k w loc b))
  | throw (p : Pool σ α) (k : Nat) (w : Worker σ) :
      p.workers[k]? = some w → w.cur < w.stop →
      (∀ a, p.vec[w.cur]? = some a → ∃ e, J.body w.loc w.cur a = .error e) →
      Step J (.running p) .terminated

/-- A run of `k` steps. -/
inductive Run (J : Job σ α ε) : Nat → State σ α → State σ α → Prop where
  | refl (s : State σ α) : Run J 0 s s
  | tail {k : Nat} {s t u : State σ α} : Run J k s t → Step J t u → Run J (k + 1) s u

/-- Every worker has been spawned and has finished: `join` returns for all. -/
def Pool.Joined (J : Job σ α ε) (p : Pool σ α) : Prop :=
  ¬ p.next < J.count ∧ ∀ w ∈ p.workers, ¬ w.cur < w.stop

/-- The process has left the pool: all workers are joined, or it was terminated. -/
def Halted (J : Job σ α ε) : State σ α → Prop
  | .running p => p.Joined J
  | .terminated => True

/-- The left-to-right map, from index `i` on. -/
def seqMap (f : Nat → α → Except ε β) : Nat → List α → Except ε (List β)
  | _, [] => .ok []
  | i, a :: l =>
      match f i a with
      | .error e => .error e
      | .ok b =>
          match seqMap f (i + 1) l with
          | .error e => .error e
          | .ok bs => .ok (b :: bs)

theorem seqMap_cons (f : Nat → α → Except ε β) (i : Nat) (a : α) (l : List α) :
    seqMap f i (a :: l) = (f i a >>= fun b => seqMap f (i + 1) l >>= fun bs => .ok (b :: bs)) := by
  rw [seqMap]
  cases f i a with
  | error e => rfl
  | ok b =>
      show _ = (seqMap f (i + 1) l >>= fun bs => .ok (b :: bs))
      cases seqMap f (i + 1) l <;> rfl

/-- A body that does not look at the index. -/
theorem seqMap_eq_mapM (g : α → Except ε β) (i : Nat) (l : List α) :
    seqMap (fun _ a => g a) i l = l.mapM g := by
  induction l generalizing i with
  | nil => rfl
  | cons a l ih =>
      rw [seqMap_cons, List.mapM_cons, ih]
      rfl

/-- The body computes `f` at every index, whatever local state the worker has
    reached: `I` is what the workers keep true of it. -/
structure Computes (J : Job σ α ε) (f : Nat → α → Except ε α) (I : σ → Prop) : Prop where
  init : I J.init
  ok : ∀ {loc loc' : σ} {i : Nat} {a b : α}, I loc →
    J.body loc i a = .ok (loc', b) → I loc' ∧ f i a = .ok b
  error : ∀ {loc : σ} {i : Nat} {a : α} {e : ε}, I loc →
    J.body loc i a = .error e → f i a = .error e

/-- Workers without a local state. -/
theorem Computes.stateless {J : Job Unit α ε} {f : Nat → α → Except ε α}
    (h : ∀ i a, J.body () i a = (f i a).map fun b => ((), b)) :
    Computes J f fun _ => True := by
  refine ⟨trivial, ?_, ?_⟩
  · intro loc loc' i a b _ hbody
    rw [h] at hbody
    cases hf : f i a with
    | error e => rw [hf] at hbody; exact nomatch hbody
    | ok b' =>
        rw [hf] at hbody
        exact ⟨trivial, congrArg Except.ok (Prod.mk.inj (Except.ok.inj hbody)).2⟩
  · intro loc i a e _ hbody
    rw [h] at hbody
    cases hf : f i a with
    | error e' =>
        rw [hf] at hbody
        exact congrArg Except.error (Except.error.inj hbody)
    | ok b' => rw [hf] at hbody; exact nomatch hbody

/-! ## The pending indices -/

/-- The indices a list of workers still has to process. -/
def owed (ws : List (Worker σ)) : List Nat :=
  ws.flatMap fun w => List.range' w.cur (w.stop - w.cur)

/-- The indices nobody has processed: those owed by a worker, and those not yet
    handed out. -/
def pending (J : Job σ α ε) (p : Pool σ α) : List Nat :=
  owed p.workers ++ List.range' p.next (J.count - p.next)

/-- Processing one index takes exactly that index out of what is owed. -/
theorem owed_set {ws : List (Worker σ)} {k : Nat} {w : Worker σ} (loc : σ)
    (hk : ws[k]? = some w) (hlt : w.cur < w.stop) :
    (owed ws).Perm (w.cur :: owed (ws.set k { w with cur := w.cur + 1, loc := loc })) := by
  induction ws generalizing k with
  | nil => exact nomatch hk
  | cons v ws ih =>
      cases k with
      | zero =>
          have hv : v = w := Option.some.inj hk
          subst hv
          rw [List.set_cons_zero, owed, List.flatMap_cons, owed, List.flatMap_cons]
          rw [show v.stop - v.cur = (v.stop - (v.cur + 1)) + 1 by omega, List.range'_succ]
          exact List.Perm.refl _
      | succ k =>
          have h := ih (k := k) hk
          rw [List.set_cons_succ, owed, List.flatMap_cons, owed, List.flatMap_cons]
          exact (h.append_left _).trans List.perm_middle

/-- A turn of the spawning loop hands out indices and keeps them pending. -/
theorem pending_spawn {J : Job σ α ε} {p : Pool σ α} (hstep : 0 < J.step)
    (hwrap : J.count + J.step < 2 ^ 64) (hlt : p.next < J.count) :
    pending J (p.spawn J) = pending J p := by
  have hadd : sizeAdd p.next J.step = p.next + J.step := sizeAdd_eq (by omega)
  rw [pending, pending, Pool.spawn, owed, List.flatMap_append, List.append_assoc]
  simp only [hadd, List.flatMap_cons, List.flatMap_nil, List.append_nil]
  congr 1
  -- the new range is a whole step, or all that is left
  by_cases hle : p.next + J.step ≤ J.count
  · rw [Nat.min_eq_right hle, show p.next + J.step - p.next = J.step by omega,
      List.range'_append_1,
      show J.step + (J.count - (p.next + J.step)) = J.count - p.next by omega]
  · rw [Nat.min_eq_left (by omega), show J.count - (p.next + J.step) = 0 by omega]
    exact List.append_nil _

/-- Processing one index takes exactly that index out of what is pending. -/
theorem pending_write {J : Job σ α ε} {p : Pool σ α} {k : Nat} {w : Worker σ}
    (loc : σ) (b : α) (hk : p.workers[k]? = some w) (hlt : w.cur < w.stop) :
    (pending J p).Perm (w.cur :: pending J (p.write k w loc b)) :=
  (owed_set loc hk hlt).append_right _

/-- An index a worker is about to process is pending. -/
theorem cur_mem_pending {J : Job σ α ε} {p : Pool σ α} {k : Nat} {w : Worker σ}
    (hk : p.workers[k]? = some w) (hlt : w.cur < w.stop) : w.cur ∈ pending J p := by
  refine List.mem_append_left _ (List.mem_flatMap.mpr ⟨w, List.mem_of_getElem? hk, ?_⟩)
  rw [List.mem_range'_1]
  omega

/-- With every worker joined, nothing is pending. -/
theorem pending_eq_nil {J : Job σ α ε} {p : Pool σ α} (h : p.Joined J) :
    pending J p = [] := by
  have howed : owed p.workers = [] := by
    rw [owed, List.flatMap_eq_nil_iff]
    intro w hw
    rw [show w.stop - w.cur = 0 by have := h.2 w hw; omega]
    rfl
  rw [pending, howed, show J.count - p.next = 0 by have := h.1; omega]
  rfl

/-! ## The invariant of a run -/

section Invariant

variable {J : Job σ α ε} {f : Nat → α → Except ε α} {I : σ → Prop} {v₀ : List α}

/-- What holds of a running pool that started from `v₀`: pending indices are
    distinct and untouched, all others hold the value of `f`. -/
structure Inv (J : Job σ α ε) (f : Nat → α → Except ε α) (I : σ → Prop)
    (v₀ : List α) (p : Pool σ α) : Prop where
  nodup : (pending J p).Nodup
  bound : ∀ i ∈ pending J p, i < v₀.length
  length : p.vec.length = v₀.length
  todo : ∀ i ∈ pending J p, p.vec[i]? = v₀[i]?
  done : ∀ i < v₀.length, i ∉ pending J p →
    ∃ a b, v₀[i]? = some a ∧ f i a = .ok b ∧ p.vec[i]? = some b
  loc : ∀ w ∈ p.workers, I w.loc

/-- The same for the process: a terminated one met an index where `f` fails. -/
def StateInv (J : Job σ α ε) (f : Nat → α → Except ε α) (I : σ → Prop)
    (v₀ : List α) : State σ α → Prop
  | .running p => Inv J f I v₀ p
  | .terminated => ∃ i a e, v₀[i]? = some a ∧ f i a = .error e

theorem inv_start (hn : J.count = v₀.length) :
    StateInv J f I v₀ (start v₀ : State σ α) := by
  have hp : pending J { next := 0, workers := ([] : List (Worker σ)), vec := v₀ }
      = List.range' 0 v₀.length := by
    rw [pending, hn]; rfl
  refine ⟨?_, ?_, rfl, fun _ _ => rfl, ?_, ?_⟩
  · rw [hp]; exact List.nodup_range'
  · intro i hi
    rw [hp, List.mem_range'_1] at hi
    omega
  · intro i hi hni
    rw [hp, List.mem_range'_1] at hni
    omega
  · intro w hw; exact nomatch hw

theorem inv_spawn {p : Pool σ α} (hstep : 0 < J.step) (hwrap : J.count + J.step < 2 ^ 64)
    (hC : Computes J f I) (hlt : p.next < J.count) (h : Inv J f I v₀ p) :
    Inv J f I v₀ (p.spawn J) := by
  have hp := pending_spawn hstep hwrap hlt
  refine ⟨?_, ?_, h.length, ?_, ?_, ?_⟩
  · rw [hp]; exact h.nodup
  · rw [hp]; exact h.bound
  · rw [hp]; exact h.todo
  · rw [hp]; exact h.done
  · intro w hw
    rcases List.mem_append.mp hw with hold | hnew
    · exact h.loc w hold
    · rw [List.mem_singleton.mp hnew]
      exact hC.init

theorem inv_write {p : Pool σ α} {k : Nat} {w : Worker σ} {a b : α} {loc : σ}
    (hC : Computes J f I) (hk : p.workers[k]? = some w) (hlt : w.cur < w.stop)
    (ha : p.vec[w.cur]? = some a) (hb : J.body w.loc w.cur a = .ok (loc, b))
    (h : Inv J f I v₀ p) : Inv J f I v₀ (p.write k w loc b) := by
  have hperm := pending_write (J := J) loc b hk hlt
  have hcur : w.cur ∈ pending J p := cur_mem_pending hk hlt
  obtain ⟨hfresh, hnodup⟩ := List.nodup_cons.mp (hperm.nodup_iff.mp h.nodup)
  have hsub : ∀ i ∈ pending J (p.write k w loc b), i ∈ pending J p := fun i hi =>
    hperm.mem_iff.mpr (List.mem_cons_of_mem _ hi)
  obtain ⟨hloc, hf⟩ := hC.ok (h.loc w (List.mem_of_getElem? hk)) hb
  have hlen : w.cur < p.vec.length := by
    rw [h.length]; exact h.bound _ hcur
  refine ⟨hnodup, fun i hi => h.bound i (hsub i hi), ?_, ?_, ?_, ?_⟩
  · show (p.vec.set w.cur b).length = v₀.length
    rw [List.length_set]; exact h.length
  · intro i hi
    show (p.vec.set w.cur b)[i]? = v₀[i]?
    -- the written index has left the pending list, so `i` is another one
    have hne : w.cur ≠ i := fun heq => hfresh (heq ▸ hi)
    rw [List.getElem?_set_ne hne]
    exact h.todo i (hsub i hi)
  · intro i hi hni
    show ∃ a' b', v₀[i]? = some a' ∧ f i a' = .ok b' ∧ (p.vec.set w.cur b)[i]? = some b'
    -- `i` is the index just written, or it was done before
    by_cases heq : i = w.cur
    · subst heq
      exact ⟨a, b, (h.todo _ hcur) ▸ ha, hf, List.getElem?_set_self hlen⟩
    · rw [List.getElem?_set_ne (Ne.symm heq)]
      refine h.done i hi ?_
      intro hmem
      rcases List.mem_cons.mp (hperm.mem_iff.mp hmem) with h1 | h2
      · exact heq h1
      · exact hni h2
  · intro v hv
    rcases List.mem_or_eq_of_mem_set hv with hold | hnew
    · exact h.loc v hold
    · rw [hnew]; exact hloc

/-- **One step preserves the invariant.** -/
theorem inv_step (hstep : 0 < J.step) (hwrap : J.count + J.step < 2 ^ 64)
    (hC : Computes J f I) {s t : State σ α} (hst : Step J s t)
    (h : StateInv J f I v₀ s) : StateInv J f I v₀ t := by
  cases hst with
  | spawn p hlt => exact inv_spawn hstep hwrap hC hlt h
  | work p k w a b loc hk hlt ha hb => exact inv_write hC hk hlt ha hb h
  | throw p k w hk hlt hthrow =>
      have h' : Inv J f I v₀ p := h
      have hcur : w.cur ∈ pending J p := cur_mem_pending hk hlt
      obtain ⟨a, ha⟩ : ∃ a, v₀[w.cur]? = some a :=
        ⟨_, List.getElem?_eq_getElem (h'.bound _ hcur)⟩
      obtain ⟨e, he⟩ := hthrow a ((h'.todo _ hcur).trans ha)
      exact ⟨w.cur, a, e, ha, hC.error (h'.loc w (List.mem_of_getElem? hk)) he⟩

/-- **A whole run preserves the invariant.** -/
theorem inv_run (hstep : 0 < J.step) (hwrap : J.count + J.step < 2 ^ 64)
    (hC : Computes J f I) (hn : J.count = v₀.length) {k : Nat} {s t : State σ α}
    (hs : s = start v₀) (hrun : Run J k s t) : StateInv J f I v₀ t := by
  induction hrun with
  | refl _ => rw [hs]; exact inv_start hn
  | tail _ hst ih => exact inv_step hstep hwrap hC hst (ih hs)

/-! ## The outcome of a run -/

/-- If `f` succeeds everywhere with the values of `v`, the map is `v`. -/
theorem seqMap_eq_ok {g : Nat → α → Except ε β} {l : List α} {v : List β} {j : Nat}
    (hlen : v.length = l.length)
    (h : ∀ i < l.length, ∃ a b, l[i]? = some a ∧ g (j + i) a = .ok b ∧ v[i]? = some b) :
    seqMap g j l = .ok v := by
  induction l generalizing j v with
  | nil =>
      rw [List.length_nil, List.length_eq_zero_iff] at hlen
      rw [hlen]; rfl
  | cons a l ih =>
      cases v with
      | nil => exact nomatch hlen
      | cons c v =>
          obtain ⟨a', b, ha, hb, hc⟩ := h 0 (Nat.succ_pos _)
          obtain rfl : a = a' := Option.some.inj ha
          obtain rfl : c = b := Option.some.inj hc
          have htail : seqMap g (j + 1) l = .ok v := by
            refine ih (Nat.succ.inj hlen) ?_
            intro i hi
            obtain ⟨a₁, b₁, h1, h2, h3⟩ := h (i + 1) (Nat.succ_lt_succ hi)
            rw [show j + (i + 1) = j + 1 + i by omega] at h2
            exact ⟨a₁, b₁, h1, h2, h3⟩
          rw [seqMap, show g j a = .ok c from hb, htail]

/-- If `f` fails somewhere, the map fails. -/
theorem seqMap_eq_error {g : Nat → α → Except ε β} {l : List α} {i j : Nat} {a : α} {e : ε}
    (ha : l[i]? = some a) (he : g (j + i) a = .error e) :
    ∃ e', seqMap g j l = .error e' := by
  induction l generalizing i j with
  | nil => exact nomatch ha
  | cons c l ih =>
      rw [seqMap]
      cases hc : g j c with
      | error e' => exact ⟨e', rfl⟩
      | ok b =>
          cases i with
          | zero =>
              obtain rfl : c = a := Option.some.inj ha
              rw [show g j c = .error e from he] at hc
              exact nomatch hc
          | succ i =>
              rw [show j + (i + 1) = j + 1 + i by omega] at he
              obtain ⟨e', h'⟩ := ih ha he
              exact ⟨e', by rw [h']⟩

/-- The state a process must halt in, given the sequential result. -/
def Outcome : Except ε (List α) → State σ α → Prop
  | .ok v, s => ∃ p, s = .running p ∧ p.vec = v
  | .error _, s => s = .terminated

/-- **Any schedule computes the left-to-right map.**  A run that reaches a halted
    state ends with the vector of `seqMap`, and it is terminated exactly when
    `seqMap` fails. -/
theorem run_outcome (hstep : 0 < J.step) (hwrap : J.count + J.step < 2 ^ 64)
    (hC : Computes J f I) (hn : J.count = v₀.length) {k : Nat} {s : State σ α}
    (hrun : Run J k (start v₀) s) (hhalt : Halted J s) :
    Outcome (seqMap f 0 v₀) s := by
  have hinv := inv_run hstep hwrap hC hn rfl hrun
  cases s with
  | running p =>
      have hI : Inv J f I v₀ p := hinv
      have hnil := pending_eq_nil (J := J) hhalt
      have hall : ∀ i < v₀.length,
          ∃ a b, v₀[i]? = some a ∧ f (0 + i) a = .ok b ∧ p.vec[i]? = some b := by
        intro i hi
        rw [Nat.zero_add]
        exact hI.done i hi (by rw [hnil]; exact List.not_mem_nil)
      rw [seqMap_eq_ok hI.length hall]
      exact ⟨p, rfl, rfl⟩
  | terminated =>
      obtain ⟨i, a, e, ha, he⟩ := hinv
      rw [show i = 0 + i from (Nat.zero_add i).symm] at he
      obtain ⟨e', h'⟩ := seqMap_eq_error ha he
      rw [h']
      rfl

/-! ## Every run ends -/

/-- What is left to do: pending indices and turns of the spawning loop. -/
def Pool.rest (J : Job σ α ε) (p : Pool σ α) : Nat :=
  (pending J p).length + (J.count - p.next)

/-- What is left to do for the process; a terminated one has nothing left. -/
def State.rest (J : Job σ α ε) : State σ α → Nat
  | .running p => p.rest J + 1
  | .terminated => 0

/-- Each step leaves less to do. -/
theorem rest_step (hstep : 0 < J.step) (hwrap : J.count + J.step < 2 ^ 64)
    {s t : State σ α} (hst : Step J s t) : t.rest J < s.rest J := by
  cases hst with
  | spawn p hlt =>
      show (pending J (p.spawn J)).length + (J.count - sizeAdd p.next J.step) + 1
        < (pending J p).length + (J.count - p.next) + 1
      rw [pending_spawn hstep hwrap hlt, sizeAdd_eq (by omega)]
      omega
  | work p k w a b loc hk hlt ha hb =>
      have h := (pending_write (J := J) loc b hk hlt).length_eq
      rw [List.length_cons] at h
      show (pending J (p.write k w loc b)).length + (J.count - p.next) + 1
        < (pending J p).length + (J.count - p.next) + 1
      omega
  | throw p k w hk hlt _ => exact Nat.succ_pos _

/-- **Every run is short**: at most two steps per index, and one to terminate. -/
theorem run_length_le (hstep : 0 < J.step) (hwrap : J.count + J.step < 2 ^ 64)
    {k : Nat} {s : State σ α} (hrun : Run J k (start v₀) s) :
    k ≤ 2 * J.count + 1 := by
  have key : ∀ {k : Nat} {s t : State σ α}, Run J k s t → k + t.rest J ≤ s.rest J := by
    intro k s t h
    induction h with
    | refl _ => omega
    | tail _ hst ih =>
        have := rest_step hstep hwrap hst
        omega
  have hstart : (start v₀ : State σ α).rest J = 2 * J.count + 1 := by
    show (List.range' 0 (J.count - 0)).length + (J.count - 0) + 1 = 2 * J.count + 1
    rw [List.length_range']
    omega
  have := key hrun
  omega

/-- **No deadlock**: a process that has not halted can take a step. -/
theorem progress {s : State σ α} (h : ¬ Halted J s) : ∃ t, Step J s t := by
  cases s with
  | terminated => exact absurd trivial h
  | running p =>
      by_cases hlt : p.next < J.count
      · exact ⟨_, Step.spawn p hlt⟩
      · obtain ⟨w, hw, hcur⟩ : ∃ w ∈ p.workers, w.cur < w.stop := by
          by_contra hno
          refine h ⟨hlt, ?_⟩
          intro w hw hcur
          exact hno ⟨w, hw, hcur⟩
        obtain ⟨k, hk⟩ := List.getElem?_of_mem hw
        -- that worker can go on, whether its body returns or throws
        cases ha : p.vec[w.cur]? with
        | none =>
            refine ⟨_, Step.throw p k w hk hcur ?_⟩
            intro a h'
            rw [ha] at h'
            cases h'
        | some a =>
            cases hb : J.body w.loc w.cur a with
            | ok r => exact ⟨_, Step.work p k w a r.2 r.1 hk hcur ha hb⟩
            | error e =>
                refine ⟨_, Step.throw p k w hk hcur ?_⟩
                intro a' h'
                obtain rfl : a = a' := Option.some.inj (ha.symm.trans h')
                exact ⟨e, hb⟩

/-! ## The workers of a run own the ranges of the loop -/

/-- A worker that goes on keeps its range. -/
theorem map_range_set {ws : List (Worker σ)} {k : Nat} {w : Worker σ} (hk : ws[k]? = some w)
    (loc : σ) :
    (ws.set k { w with cur := w.cur + 1, loc := loc }).map (fun w => (w.start, w.stop))
      = ws.map fun w => (w.start, w.stop) := by
  obtain ⟨hlen, hw⟩ := List.getElem?_eq_some_iff.mp hk
  rw [List.map_set]
  refine (congrArg _ ?_).trans
    (List.set_getElem_self (i := k) (by rw [List.length_map]; exact hlen))
  rw [List.getElem_map, hw]

/-- The ranges of the workers spawned so far, and those still to come, are the
    ranges of the loop. -/
theorem ranges_run {fuel : Nat} {rs : List (Nat × Nat)}
    (hrs : spawnLoop J.count J.step fuel 0 = some rs) {k : Nat} {s t : State σ α}
    (hs : s = start v₀) (hrun : Run J k s t) : ∀ p, t = .running p →
      ∃ fuel' rest, spawnLoop J.count J.step fuel' p.next = some rest
        ∧ rs = p.workers.map (fun w => (w.start, w.stop)) ++ rest := by
  induction hrun with
  | refl _ =>
      intro p hp
      obtain rfl : _ = p := State.running.inj (hs.symm.trans hp)
      exact ⟨fuel, rs, hrs, rfl⟩
  | tail _ hst ih =>
      intro p' hp
      cases hst with
      | spawn p hlt =>
          obtain rfl := State.running.inj hp
          obtain ⟨fuel', rest, hloop, heq⟩ := ih hs p rfl
          -- the first of the ranges to come becomes the new worker's
          cases fuel' with
          | zero => exact nomatch hloop
          | succ fuel' =>
              rw [spawnLoop, if_pos hlt, Option.map_eq_some_iff] at hloop
              obtain ⟨rest', hrest, rfl⟩ := hloop
              refine ⟨fuel', rest', hrest, ?_⟩
              rw [heq, Pool.spawn, List.map_append, List.append_assoc]
              rfl
      | work p k w a b loc hk hlt ha hb =>
          obtain rfl := State.running.inj hp
          obtain ⟨fuel', rest, hloop, heq⟩ := ih hs p rfl
          refine ⟨fuel', rest, hloop, ?_⟩
          rw [heq]
          exact congrArg (· ++ rest) (map_range_set hk loc).symm
      | throw p k w hk hlt _ => exact nomatch hp

/-- **Joined workers own exactly the ranges of the loop.** -/
theorem joined_ranges {fuel : Nat} {rs : List (Nat × Nat)}
    (hrs : spawnLoop J.count J.step fuel 0 = some rs) {k : Nat} {p : Pool σ α}
    (hrun : Run J k (start v₀) (.running p)) (hj : p.Joined J) :
    p.workers.map (fun w => (w.start, w.stop)) = rs := by
  obtain ⟨fuel', rest, hloop, heq⟩ := ranges_run hrs rfl hrun p rfl
  cases fuel' with
  | zero => exact nomatch hloop
  | succ fuel' =>
      rw [spawnLoop, if_neg hj.1] at hloop
      rw [heq, ← Option.some.inj hloop, List.append_nil]

/-! ## How many workers -/

/-- No run ever has more than `m` workers. -/
def SpawnsAtMost (J : Job σ α ε) (vec : List α) (m : Nat) : Prop :=
  ∀ {k : Nat} {p : Pool σ α}, Run J k (start vec) (.running p) → p.workers.length ≤ m

/-- While `m` turns cover the indices, the variable of the loop counts the workers. -/
theorem next_run {m : Nat} (hm : m * J.step < 2 ^ 64) (hcover : J.count ≤ m * J.step) {k : Nat}
    {s t : State σ α} (hs : s = start v₀) (hrun : Run J k s t) : ∀ p, t = .running p →
      p.next = p.workers.length * J.step ∧ p.workers.length ≤ m := by
  induction hrun with
  | refl _ =>
      intro p hp
      obtain rfl : _ = p := State.running.inj (hs.symm.trans hp)
      exact ⟨(Nat.zero_mul _).symm, Nat.zero_le _⟩
  | tail _ hst ih =>
      intro p' hp
      cases hst with
      | spawn p hlt =>
          obtain rfl := State.running.inj hp
          obtain ⟨hnext, -⟩ := ih hs p rfl
          have hless : p.workers.length < m := by
            refine Nat.lt_of_mul_lt_mul_right (a := J.step) ?_
            rw [← hnext]
            omega
          have hturn : (p.workers.length + 1) * J.step ≤ m * J.step :=
            Nat.mul_le_mul_right _ hless
          have hadd : sizeAdd p.next J.step = (p.workers.length + 1) * J.step := by
            rw [hnext, Nat.add_one_mul] at *
            exact sizeAdd_eq (by omega)
          rw [Pool.spawn, List.length_append, List.length_singleton]
          exact ⟨hadd, hless⟩
      | work p k w a b loc hk hlt ha hb =>
          obtain rfl := State.running.inj hp
          rw [Pool.write, List.length_set]
          exact ih hs p rfl
      | throw p k w hk hlt _ => cases hp

/-- The spawning loop alone can turn as long as it has not covered the indices. -/
theorem exists_spawned {j : Nat} (hj : j * J.step < 2 ^ 64)
    (hall : ∀ i < j, i * J.step < J.count) :
    ∃ p : Pool σ α, Run J j (start v₀) (.running p) ∧ p.next = j * J.step
      ∧ p.workers.length = j := by
  induction j with
  | zero => exact ⟨_, Run.refl _, (Nat.zero_mul _).symm, rfl⟩
  | succ j ih =>
      rw [Nat.add_one_mul] at hj
      obtain ⟨p, hrun, hnext, hlen⟩ := ih (by omega) fun i hi => hall i (by omega)
      refine ⟨p.spawn J, hrun.tail (Step.spawn p ?_), ?_, ?_⟩
      · rw [hnext]
        exact hall j (Nat.lt_succ_self j)
      · rw [Pool.spawn, Nat.add_one_mul, ← hnext]
        exact sizeAdd_eq (by omega)
      · rw [Pool.spawn, List.length_append, hlen, List.length_singleton]

/-- **At most `m` workers exactly when `m` turns cover the indices.** -/
theorem spawnsAtMost_iff {m : Nat} (hm : m * J.step < 2 ^ 64) :
    SpawnsAtMost J v₀ m ↔ J.count ≤ m * J.step := by
  constructor
  · intro h
    by_contra hgt
    have hall : ∀ i < m, i * J.step < J.count := by
      intro i hi
      have := Nat.mul_le_mul_right J.step (Nat.le_of_lt hi)
      omega
    obtain ⟨p, hrun, hnext, hlen⟩ : ∃ p : Pool σ α, Run J m (start v₀) (.running p) ∧
        p.next = m * J.step ∧ p.workers.length = m := exists_spawned hm hall
    have hone := h (hrun.tail (Step.spawn p (by rw [hnext]; omega)))
    rw [Pool.spawn, List.length_append, hlen, List.length_singleton] at hone
    omega
  · intro hcover k p hrun
    exact (next_run hm hcover rfl hrun p rfl).2

end Invariant

end WorkerPool
