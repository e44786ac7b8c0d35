import Tgnews.CxxTextProofs

/-! # Logistic regression (`logreg.hpp`, `dump_model` of `02.IsNews.ipynb`)

    The notebook prints a trained model as text; the constructor of
    `LogisticRegression` reads that text word by word and folds each scale into its
    weight, and `Infer` evaluates the model on a feature vector.  Numbers are exact
    rationals; how they are printed and parsed is a parameter (`Numerals`).

    The loop of the constructor is bounded by the state of the stream, not by the
    header, so the model goes extraction by extraction: one at the end of the file
    stores nothing, one that meets a bad word stores zero, and a store outside the
    vectors is a fault.

    * `loadLoop_triples` — the loop fills the vectors from the left; what it has
      done and the zeros still to fill are the two halves of its invariant;
    * `load_dumpModel` — the text of a model loads to its weights over scales;
    * `inferLoop_loaded` — the loaded model computes the score of the trained one;
    * `loadAccesses` — the elements that the loop reads and writes, its condition
      included, and when they are all within the vectors. -/

namespace TgnewsLogreg

open CxxContainers CxxText

/-- Decimal notation: printing on the notebook's side, reading a word on the
    stream's side. -/
structure Numerals where
  showCount : Nat → Str
  readCount : Str → Option Nat
  showNum : ℚ → Str
  readNum : Str → Option ℚ

/-- The number is printed as one word, which reads back as the number. -/
structure Numerals.Prints (N : Numerals) (q : ℚ) : Prop where
  word : IsWord (N.showNum q)
  read : N.readNum (N.showNum q) = some q

/-- The same for a count. -/
structure Numerals.PrintsCount (N : Numerals) (n : Nat) : Prop where
  word : IsWord (N.showCount n)
  read : N.readCount (N.showCount n) = some n

/-! ## Writing -/

/-- A trained classifier over `n` features. -/
structure LinearModel (n : Nat) where
  coef : Fin n → ℚ
  intercept : ℚ

/-- A fitted scaler over `n` features; a scale is never negative. -/
structure Scaler (n : Nat) where
  mean : Fin n → ℚ
  scale : Fin n → ℚ
  scale_nonneg : ∀ i, 0 ≤ scale i

/-- `DummyScaler`: means zero, scales one. -/
def dummyScaler (n : Nat) : Scaler n where
  mean _ := 0
  scale _ := 1
  scale_nonneg _ := by norm_num

/-- `zip(coef_, mean_, scale_)`. -/
def triples {n : Nat} (model : LinearModel n) (scaler : Scaler n) : List (ℚ × ℚ × ℚ) :=
  List.ofFn fun i => (model.coef i, scaler.mean i, scaler.scale i)

/-- A line of the file. -/
def tripleLine (N : Numerals) (t : ℚ × ℚ × ℚ) : Str :=
  N.showNum t.1 ++ ' ' :: (N.showNum t.2.1 ++ ' ' :: (N.showNum t.2.2 ++ ['\n']))

/-- `dump_model`. -/
def dumpModel (N : Numerals) {n : Nat} (model : LinearModel n) (scaler : Option (Scaler n)) :
    Str :=
  let scaler := scaler.getD (dummyScaler n)
  N.showCount n ++ '\n' :: (N.showNum model.intercept
    ++ '\n' :: (triples model scaler).flatMap (tripleLine N))

/-! ## Loading -/

/-- `LogisticRegression`; the bias has no value until it is read. -/
structure LogisticRegression where
  weights : List ℚ
  bias : Option ℚ
  featuresCount : Nat
  mean : List ℚ
  std : List ℚ
  deriving DecidableEq

/-- The three vectors that an extraction of the loop can fill. -/
inductive Column where
  | weights
  | mean
  | std
  deriving DecidableEq, Repr

/-- `v[pos] = q`, with no check of the index. -/
def storeAt (v : List ℚ) (pos : Nat) (q : ℚ) : Except Fault (List ℚ) :=
  if pos < v.length then .ok (v.set pos q) else .error .pastTheEnd

/-- Store an extracted number. -/
def LogisticRegression.store (r : LogisticRegression) (pos : Nat) (q : ℚ) :
    Column → Except Fault LogisticRegression
  | .weights => (storeAt r.weights pos q).map fun v => { r with weights := v }
  | .mean => (storeAt r.mean pos q).map fun v => { r with mean := v }
  | .std => (storeAt r.std pos q).map fun v => { r with std := v }

/-- The body of the loop: a positive scale is folded into the weight. -/
def LogisticRegression.scaleWeight (r : LogisticRegression) (pos : Nat) : LogisticRegression :=
  if 0 < r.std.getD pos 0 then
    { r with weights := r.weights.set pos (r.weights.getD pos 0 / r.std.getD pos 0) }
  else r

/-- The loop of the constructor, extraction by extraction: `col` is the vector the
    next one fills at `pos`. -/
def loadLoop (N : Numerals) : Nat → Column → List Str → LogisticRegression →
    Except Fault LogisticRegression
  -- at the end of the file nothing is stored, and the stream fails
  | _, _, [], r => .ok r
  | pos, col, w :: ws, r =>
      match N.readNum w with
      -- a word that is no number stores zero, and the stream fails
      | none => r.store pos 0 col
      | some q => do
          let r ← r.store pos q col
          match col with
          | .weights => loadLoop N pos .mean ws r
          | .mean => loadLoop N pos .std ws r
          | .std => loadLoop N (pos + 1) .weights ws (r.scaleWeight pos)

/-- A model whose vectors have been resized for `n` features. -/
def LogisticRegression.sized (n : Nat) (bias : Option ℚ) : LogisticRegression where
  weights := List.replicate n 0
  bias := bias
  featuresCount := n
  mean := List.replicate n 0
  std := List.replicate n 0

/-- `LogisticRegression(weights_path)` on the text of the file. -/
def LogisticRegression.load (N : Numerals) (file : Str) : Except Fault LogisticRegression :=
  match tokens file with
  | [] => .error .uninitialised
  | w :: ws =>
      match N.readCount w with
      | none => .ok (.sized 0 none)
      | some n =>
          match ws with
          | [] => .ok (.sized n none)
          | b :: ws =>
              match N.readNum b with
              | none => .ok (.sized n (some 0))
              | some bias => loadLoop N 0 .weights ws (.sized n (some bias))

/-! ## What the constructor evaluates

    `input >> weights_[pos] >> mean_[pos] >> std_[pos]` names its three elements
    whether or not the stream still reads, so a turn of the loop that reads nothing
    evaluates them too. -/

/-- An evaluation of an element of one of the three vectors. -/
structure Access where
  col : Column
  pos : Nat
  deriving DecidableEq, Repr

/-- The condition of the loop. -/
def conditionAccesses (pos : Nat) : List Access :=
  [⟨.weights, pos⟩, ⟨.mean, pos⟩, ⟨.std, pos⟩]

/-- The body of the loop: the scale is looked at, and the weight is divided by it. -/
def bodyAccesses (pos : Nat) (std : ℚ) : List Access :=
  ⟨.std, pos⟩ :: if 0 < std then [⟨.weights, pos⟩, ⟨.std, pos⟩, ⟨.weights, pos⟩] else []

/-- The loop, turn by turn. -/
def loopAccesses (N : Numerals) : Nat → List Str → List Access
  | pos, w :: m :: s :: ws =>
      conditionAccesses pos ++
        match N.readNum w, N.readNum m, N.readNum s with
        | some _, some _, some std => bodyAccesses pos std ++ loopAccesses N (pos + 1) ws
        | _, _, _ => []
  | pos, _ => conditionAccesses pos

/-- `LogisticRegression(weights_path)`: a stream that has failed before the loop reads
    nothing in its first turn. -/
def loadAccesses (N : Numerals) (file : Str) : List Access :=
  match tokens file with
  | w :: b :: ws =>
      match N.readCount w, N.readNum b with
      | some _, some _ => loopAccesses N 0 ws
      | _, _ => conditionAccesses 0
  | _ => conditionAccesses 0

/-! ## Evaluating -/

/-- The loop of `Infer`. -/
def LogisticRegression.inferLoop (m : LogisticRegression) (features : List ℚ) :
    Except Fault ℚ :=
  (List.range m.featuresCount).foldlM (fun result i => do
    let x ← elemAt features i
    let mean ← elemAt m.mean i
    let weight ← elemAt m.weights i
    return result + (x - mean) * weight) 0

/-- `Infer`; the logistic function is left uninterpreted. -/
def LogisticRegression.infer (sigmoid : ℚ → ℚ) (m : LogisticRegression) (features : List ℚ) :
    Except Fault ℚ := do
  let result ← m.inferLoop features
  match m.bias with
  | some bias => return sigmoid (result + bias)
  | none => .error .uninitialised

/-! ## The text of a model and its words -/

/-- The words of a line. -/
def tripleWords (N : Numerals) (t : ℚ × ℚ × ℚ) : List Str :=
  [N.showNum t.1, N.showNum t.2.1, N.showNum t.2.2]

/-- The three numbers of a line read back. -/
def Numerals.PrintsTriple (N : Numerals) (t : ℚ × ℚ × ℚ) : Prop :=
  N.Prints t.1 ∧ N.Prints t.2.1 ∧ N.Prints t.2.2

theorem tokens_tripleLine {N : Numerals} {t : ℚ × ℚ × ℚ} (h : N.PrintsTriple t) (rest : Str) :
    tokens (tripleLine N t ++ rest) = tripleWords N t ++ tokens rest := by
  rw [tripleLine, List.append_assoc, List.cons_append, List.append_assoc, List.cons_append,
    List.append_assoc, List.cons_append, List.nil_append,
    tokens_word h.1.word (by decide), tokens_word h.2.1.word (by decide),
    tokens_word h.2.2.word (by decide)]
  rfl

theorem tokens_tripleLines {N : Numerals} {ts : List (ℚ × ℚ × ℚ)}
    (h : ∀ t ∈ ts, N.PrintsTriple t) :
    tokens (ts.flatMap (tripleLine N)) = ts.flatMap (tripleWords N) := by
  induction ts with
  | nil => rfl
  | cons t ts ih =>
      rw [List.flatMap_cons, tokens_tripleLine (h t List.mem_cons_self),
        ih (fun u hu => h u (List.mem_cons_of_mem _ hu)), List.flatMap_cons]

/-! ## The loop of the constructor -/

/-- The weight a line leaves in the model. -/
def foldedWeight (t : ℚ × ℚ × ℚ) : ℚ := if 0 < t.2.2 then t.1 / t.2.2 else t.1

/-- A store at the first position still to fill. -/
theorem storeAt_append (done rest : List ℚ) (z q : ℚ) :
    storeAt (done ++ z :: rest) done.length q = .ok (done ++ q :: rest) := by
  rw [storeAt, if_pos (by rw [List.length_append, List.length_cons]; omega),
    List.set_append_right _ _ (Nat.le_refl _), Nat.sub_self, List.set_cons_zero]

theorem getD_append_length (done rest : List ℚ) (q : ℚ) :
    (done ++ q :: rest).getD done.length 0 = q := by
  rw [List.getD_eq_getElem?_getD, List.getElem?_append_right (Nat.le_refl _), Nat.sub_self]
  rfl

/-- The body of the loop after a line has been stored. -/
theorem scaleWeight_append {W M S rw rm rs : List ℚ} {b : Option ℚ} {n : Nat}
    (t : ℚ × ℚ × ℚ) (hS : S.length = W.length) :
    LogisticRegression.scaleWeight
        ⟨W ++ t.1 :: rw, b, n, M ++ t.2.1 :: rm, S ++ t.2.2 :: rs⟩ W.length
      = ⟨W ++ foldedWeight t :: rw, b, n, M ++ t.2.1 :: rm, S ++ t.2.2 :: rs⟩ := by
  have hstd : (S ++ t.2.2 :: rs).getD W.length 0 = t.2.2 := by
    rw [← hS]
    exact getD_append_length S rs t.2.2
  have hweight : (W ++ t.1 :: rw).getD W.length 0 = t.1 := getD_append_length W rw t.1
  rw [LogisticRegression.scaleWeight, foldedWeight]
  show (if 0 < (S ++ t.2.2 :: rs).getD W.length 0 then _ else _) = _
  rw [hstd, hweight]
  by_cases hpos : 0 < t.2.2
  · rw [if_pos hpos, if_pos hpos, List.set_append_right _ _ (Nat.le_refl _), Nat.sub_self,
      List.set_cons_zero]
  · rw [if_neg hpos, if_neg hpos]

/-- One extraction that reads a number. -/
theorem loadLoop_read {N : Numerals} {w : Str} {q : ℚ} {r r' : LogisticRegression} {pos : Nat}
    {col : Column} (ws : List Str) (hw : N.readNum w = some q) :
    r.store pos q col = .ok r' → loadLoop N pos col (w :: ws) r = match col with
      | .weights => loadLoop N pos .mean ws r'
      | .mean => loadLoop N pos .std ws r'
      | .std => loadLoop N (pos + 1) .weights ws (r'.scaleWeight pos) := by
  intro hr
  rw [loadLoop, hw]
  show (r.store pos q col >>= fun r => _) = _
  rw [hr]
  rfl

/-- One turn of the loop: the three extractions of a line and the body. -/
theorem loadLoop_triple {N : Numerals} {t : ℚ × ℚ × ℚ} (h : N.PrintsTriple t)
    {W M S : List ℚ} (hM : M.length = W.length) (hS : S.length = W.length)
    (zs : List ℚ) (b : Option ℚ) (n : Nat) (ws : List Str) :
    loadLoop N W.length .weights (tripleWords N t ++ ws)
        ⟨W ++ 0 :: zs, b, n, M ++ 0 :: zs, S ++ 0 :: zs⟩
      = loadLoop N (W.length + 1) .weights ws
          ⟨W ++ foldedWeight t :: zs, b, n, M ++ t.2.1 :: zs, S ++ t.2.2 :: zs⟩ := by
  have hw : LogisticRegression.store ⟨W ++ 0 :: zs, b, n, M ++ 0 :: zs, S ++ 0 :: zs⟩ W.length
      t.1 .weights = .ok ⟨W ++ t.1 :: zs, b, n, M ++ 0 :: zs, S ++ 0 :: zs⟩ := by
    rw [LogisticRegression.store, storeAt_append]
    rfl
  have hm : LogisticRegression.store ⟨W ++ t.1 :: zs, b, n, M ++ 0 :: zs, S ++ 0 :: zs⟩
      W.length t.2.1 .mean = .ok ⟨W ++ t.1 :: zs, b, n, M ++ t.2.1 :: zs, S ++ 0 :: zs⟩ := by
    rw [LogisticRegression.store, ← hM, storeAt_append]
    rfl
  have hs : LogisticRegression.store ⟨W ++ t.1 :: zs, b, n, M ++ t.2.1 :: zs, S ++ 0 :: zs⟩
      W.length t.2.2 .std = .ok ⟨W ++ t.1 :: zs, b, n, M ++ t.2.1 :: zs, S ++ t.2.2 :: zs⟩ := by
    rw [LogisticRegression.store, ← hS, storeAt_append]
    rfl
  show loadLoop N W.length .weights (N.showNum t.1 :: N.showNum t.2.1 :: N.showNum t.2.2 :: ws)
    _ = _
  rw [loadLoop_read _ h.1.read hw, loadLoop_read _ h.2.1.read hm,
    loadLoop_read _ h.2.2.read hs]
  show loadLoop N (W.length + 1) .weights ws (LogisticRegression.scaleWeight _ W.length) = _
  rw [scaleWeight_append t hS]

/-- **The loop fills the vectors.**  `W`, `M` and `S` are what it has done; as many
    zeros are still to fill as there are lines left. -/
theorem loadLoop_triples {N : Numerals} {ts : List (ℚ × ℚ × ℚ)}
    (h : ∀ t ∈ ts, N.PrintsTriple t) {W M S : List ℚ} (hM : M.length = W.length)
    (hS : S.length = W.length) (b : Option ℚ) (n : Nat) :
    loadLoop N W.length .weights (ts.flatMap (tripleWords N))
        ⟨W ++ List.replicate ts.length 0, b, n, M ++ List.replicate ts.length 0,
          S ++ List.replicate ts.length 0⟩
      = .ok ⟨W ++ ts.map foldedWeight, b, n, M ++ ts.map (fun t => t.2.1),
          S ++ ts.map (fun t => t.2.2)⟩ := by
  induction ts generalizing W M S with
  | nil => rfl
  | cons t ts ih =>
      rw [List.flatMap_cons, List.length_cons, List.replicate_succ,
        loadLoop_triple (h t List.mem_cons_self) hM hS]
      have hnext := ih (fun u hu => h u (List.mem_cons_of_mem _ hu))
        (W := W ++ [foldedWeight t]) (M := M ++ [t.2.1]) (S := S ++ [t.2.2])
        (by simp [hM]) (by simp [hS])
      rw [List.length_append, List.append_assoc, List.append_assoc, List.append_assoc,
        List.append_assoc, List.append_assoc, List.append_assoc] at hnext
      exact hnext

/-- What a dump loads to. -/
def loaded {n : Nat} (model : LinearModel n) (scaler : Scaler n) : LogisticRegression where
  weights := (triples model scaler).map foldedWeight
  bias := some model.intercept
  featuresCount := n
  mean := (triples model scaler).map fun t => t.2.1
  std := (triples model scaler).map fun t => t.2.2

/-- The printed numbers of a model read back. -/
structure Numerals.PrintsModel (N : Numerals) {n : Nat} (model : LinearModel n)
    (scaler : Scaler n) : Prop where
  count : N.PrintsCount n
  intercept : N.Prints model.intercept
  coef : ∀ i, N.Prints (model.coef i)
  mean : ∀ i, N.Prints (scaler.mean i)
  scale : ∀ i, N.Prints (scaler.scale i)

/-- **Encoder and decoder agree**: the text of a model loads, whatever `n`. -/
theorem load_dumpModel {N : Numerals} {n : Nat} {model : LinearModel n}
    {scaler : Option (Scaler n)} (h : N.PrintsModel model (scaler.getD (dummyScaler n))) :
    LogisticRegression.load N (dumpModel N model scaler)
      = .ok (loaded model (scaler.getD (dummyScaler n))) := by
  have htriples : ∀ t ∈ triples model (scaler.getD (dummyScaler n)), N.PrintsTriple t := by
    intro t ht
    obtain ⟨i, rfl⟩ := List.mem_ofFn.mp ht
    exact ⟨h.coef i, h.mean i, h.scale i⟩
  have hlen : (triples model (scaler.getD (dummyScaler n))).length = n := List.length_ofFn
  have hloop := loadLoop_triples htriples (W := []) (M := []) (S := []) rfl rfl
    (some model.intercept) n
  rw [hlen] at hloop
  rw [LogisticRegression.load, dumpModel, tokens_word h.count.word (by decide),
    tokens_word h.intercept.word (by decide), tokens_tripleLines htriples]
  simp only [h.count.read, h.intercept.read]
  exact hloop

/-! ## The score -/

/-- A summation loop whose body never faults. -/
theorem foldlM_sum {ι : Type} {f : ℚ → ι → Except Fault ℚ} {g : ι → ℚ} {l : List ι}
    (h : ∀ i ∈ l, ∀ r, f r i = .ok (r + g i)) (r : ℚ) :
    l.foldlM f r = .ok (r + (l.map g).sum) := by
  induction l generalizing r with
  | nil => rw [List.map_nil, List.sum_nil, add_zero]; rfl
  | cons i l ih =>
      rw [List.foldlM_cons, h i List.mem_cons_self]
      show l.foldlM f (r + g i) = _
      rw [ih (fun j hj => h j (List.mem_cons_of_mem _ hj)), List.map_cons, List.sum_cons,
        add_assoc]

/-- The term of one feature, as the trained model has it. -/
def scoreTerm {n : Nat} (model : LinearModel n) (scaler : Scaler n) (x : Fin n → ℚ)
    (i : Fin n) : ℚ :=
  model.coef i * (x i - scaler.mean i) / (if scaler.scale i = 0 then 1 else scaler.scale i)

/-- Folding the scale into the weight does not change the term. -/
theorem term_eq_scoreTerm {n : Nat} (model : LinearModel n) (scaler : Scaler n)
    (x : Fin n → ℚ) (i : Fin n) :
    (x i - scaler.mean i) * foldedWeight (model.coef i, scaler.mean i, scaler.scale i)
      = scoreTerm model scaler x i := by
  rw [foldedWeight, scoreTerm]
  -- scales are not negative, so the test for a positive one is the test for zero
  by_cases hz : scaler.scale i = 0
  · rw [if_neg (by simp [hz]), if_pos hz]
    ring
  · have hpos : 0 < scaler.scale i := lt_of_le_of_ne (scaler.scale_nonneg i) (Ne.symm hz)
    rw [if_pos hpos, if_neg hz]
    ring

/-- The loop of `Infer` on a loaded model. -/
theorem inferLoop_loaded {n : Nat} (model : LinearModel n) (scaler : Scaler n) (x : List ℚ)
    (hx : n ≤ x.length) :
    (loaded model scaler).inferLoop x
      = .ok (∑ i : Fin n, scoreTerm model scaler (fun i => x.get (Fin.castLE hx i)) i) := by
  have htriple : ∀ i : Fin n, (triples model scaler)[i.1]?
      = some (model.coef i, scaler.mean i, scaler.scale i) := by
    intro i
    rw [triples, List.getElem?_ofFn, dif_pos i.2]
  rw [LogisticRegression.inferLoop]
  show (List.range n).foldlM _ 0 = _
  rw [← List.map_coe_finRange_eq_range, List.foldlM_map, foldlM_sum (g := scoreTerm model scaler
    fun i => x.get (Fin.castLE hx i)), zero_add, Fin.sum_univ_def]
  intro i _ r
  have hfeature : elemAt x i.1 = .ok (x.get (Fin.castLE hx i)) :=
    elemAt_of_getElem? (List.getElem?_eq_getElem (lt_of_lt_of_le i.2 hx))
  have hmean : elemAt (loaded model scaler).mean i.1 = .ok (scaler.mean i) :=
    elemAt_of_getElem? (by rw [loaded, List.getElem?_map, htriple]; rfl)
  have hweight : elemAt (loaded model scaler).weights i.1
      = .ok (foldedWeight (model.coef i, scaler.mean i, scaler.scale i)) :=
    elemAt_of_getElem? (by rw [loaded, List.getElem?_map, htriple]; rfl)
  rw [hfeature, hmean, hweight, ← term_eq_scoreTerm]
  rfl

/-- **The loaded model scores as the trained one.**  For every model, scaler and
    feature vector that is long enough, loading the notebook's text and calling
    `Infer` evaluates the scaled linear model, a scale of zero counting as one. -/
theorem infer_dumpModel (N : Numerals) (sigmoid : ℚ → ℚ) {n : Nat} (model : LinearModel n)
    (scaler : Option (Scaler n)) (hN : N.PrintsModel model (scaler.getD (dummyScaler n)))
    (x : List ℚ) (hx : n ≤ x.length) :
    (LogisticRegression.load N (dumpModel N model scaler) >>= fun m => m.infer sigmoid x)
      = .ok (sigmoid (model.intercept + ∑ i : Fin n,
          scoreTerm model (scaler.getD (dummyScaler n)) (fun i => x.get (Fin.castLE hx i)) i)) := by
  rw [load_dumpModel hN]
  show (loaded model (scaler.getD (dummyScaler n))).infer sigmoid x = _
  rw [LogisticRegression.infer, inferLoop_loaded _ _ _ hx]
  show Except.ok (sigmoid (_ + model.intercept)) = _
  rw [add_comm]

/-- A few numbers and how they are printed. -/
def sampleNumbers : List (ℚ × Str) :=
  [(3 / 2, "1.5".toList), (-2, "-2.0".toList), (1 / 4, "0.25".toList), (0, "0.0".toList),
    (1 / 2, "0.5".toList), (1, "1.0".toList)]

def sampleNumerals : Numerals where
  showCount n := (Nat.repr n).toList
  readCount w := if w = "2".toList then some 2 else none
  showNum q := (sampleNumbers.lookup q).getD []
  readNum w := (sampleNumbers.map Prod.swap).lookup w

def sampleModel : LinearModel 2 where
  coef i := if i = 0 then 3 / 2 else -2
  intercept := 1

/-- The second scale is zero. -/
def sampleScaler : Scaler 2 where
  mean i := if i = 0 then 1 / 4 else 0
  scale i := if i = 0 then 1 / 2 else 0
  scale_nonneg i := by
    by_cases h : i = 0
    · rw [if_pos h]; norm_num
    · rw [if_neg h]

/-- A model over two features, scored on a vector of three. -/
theorem infer_sampleModel :
    (LogisticRegression.load sampleNumerals
        (dumpModel sampleNumerals sampleModel (some sampleScaler))
      >>= fun m => m.infer id [1, 3, 7]) = .ok (-11 / 4) := by
  have hall : ∀ q ∈ sampleNumbers.map Prod.fst, IsWord (sampleNumerals.showNum q)
      ∧ sampleNumerals.readNum (sampleNumerals.showNum q) = some q := by decide +kernel
  have hnum : ∀ q ∈ sampleNumbers.map Prod.fst, sampleNumerals.Prints q := fun q hq =>
    ⟨(hall q hq).1, (hall q hq).2⟩
  have hprints : sampleNumerals.PrintsModel sampleModel sampleScaler :=
    ⟨⟨by decide, by decide⟩, hnum _ (by decide +kernel),
      fun i => hnum _ (by revert i; decide +kernel),
      fun i => hnum _ (by revert i; decide +kernel),
      fun i => hnum _ (by revert i; decide +kernel)⟩
  rw [infer_dumpModel sampleNumerals id sampleModel (some sampleScaler) hprints [1, 3, 7]
    (by decide), Fin.sum_univ_two]
  norm_num [scoreTerm, sampleModel, sampleScaler]

/-! ## Accesses and triples -/

/-- The number of complete triples at the front of a list of words. -/
def triplesRead (N : Numerals) : List Str → Nat
  | w :: m :: s :: ws =>
      if (N.readNum w).isSome && (N.readNum m).isSome && (N.readNum s).isSome then
        triplesRead N ws + 1
      else 0
  | _ => 0

/-- The count in the header of a file. -/
def headerCount (N : Numerals) (file : Str) : Option Nat :=
  (tokens file).head?.bind N.readCount

/-- The number of complete triples behind the header and the bias. -/
def triplesIn (N : Numerals) (file : Str) : Nat :=
  match tokens file with
  | _ :: b :: ws => if (N.readNum b).isSome then triplesRead N ws else 0
  | _ => 0

theorem pos_of_mem_conditionAccesses {pos : Nat} {a : Access}
    (h : a ∈ conditionAccesses pos) : a.pos = pos := by
  rw [conditionAccesses, List.mem_cons, List.mem_cons, List.mem_singleton] at h
  rcases h with rfl | rfl | rfl <;> rfl

theorem pos_of_mem_bodyAccesses {pos : Nat} {std : ℚ} {a : Access}
    (h : a ∈ bodyAccesses pos std) : a.pos = pos := by
  rw [bodyAccesses, List.mem_cons] at h
  rcases h with rfl | h
  · rfl
  · by_cases hstd : 0 < std
    · rw [if_pos hstd, List.mem_cons, List.mem_cons, List.mem_singleton] at h
      rcases h with rfl | rfl | rfl <;> rfl
    · rw [if_neg hstd] at h
      cases h

/-- **One turn of the loop**: it reads no whole triple and is the last, or it reads one
    and goes on behind it. -/
theorem loop_turn (N : Numerals) (ws : List Str) :
    (triplesRead N ws = 0 ∧ ∀ pos, loopAccesses N pos ws = conditionAccesses pos) ∨
    ∃ ws' std, triplesRead N ws = triplesRead N ws' + 1 ∧ ∀ pos, loopAccesses N pos ws
      = conditionAccesses pos ++ (bodyAccesses pos std ++ loopAccesses N (pos + 1) ws') := by
  match ws with
  | [] => exact Or.inl ⟨rfl, fun _ => rfl⟩
  | [_] => exact Or.inl ⟨rfl, fun _ => rfl⟩
  | [_, _] => exact Or.inl ⟨rfl, fun _ => rfl⟩
  | w :: m :: s :: ws' =>
      cases hw : N.readNum w with
      | none => exact Or.inl ⟨by simp [triplesRead, hw], fun pos => by simp [loopAccesses, hw]⟩
      | some c =>
          cases hm : N.readNum m with
          | none =>
              exact Or.inl ⟨by simp [triplesRead, hm], fun pos => by simp [loopAccesses, hw, hm]⟩
          | some mean =>
              cases hs : N.readNum s with
              | none =>
                  exact Or.inl ⟨by simp [triplesRead, hs],
                    fun pos => by simp [loopAccesses, hw, hm, hs]⟩
              | some std =>
                  refine Or.inr ⟨ws', std, ?_, ?_⟩
                  · simp [triplesRead, hw, hm, hs]
                  · intro pos
                    simp [loopAccesses, hw, hm, hs]

/-- **The loop evaluates every position up to the number of triples**, and none after. -/
theorem exists_mem_loopAccesses (N : Numerals) (ws : List Str) (pos i : Nat) :
    (∃ a ∈ loopAccesses N pos ws, a.pos = i) ↔ pos ≤ i ∧ i ≤ pos + triplesRead N ws := by
  have hcond : ∃ a ∈ conditionAccesses pos, a.pos = pos := ⟨_, List.mem_cons_self, rfl⟩
  induction hk : triplesRead N ws generalizing ws pos with
  | zero =>
      rcases loop_turn N ws with ⟨-, hloop⟩ | ⟨ws', std, hread, -⟩
      · rw [hloop pos]
        constructor
        · rintro ⟨a, ha, rfl⟩
          rw [pos_of_mem_conditionAccesses ha]
          omega
        · rintro ⟨hle, hge⟩
          obtain rfl : pos = i := by omega
          exact hcond
      · omega
  | succ k ih =>
      rcases loop_turn N ws with ⟨hread, -⟩ | ⟨ws', std, hread, hloop⟩
      · omega
      · have hrest := ih ws' (pos + 1) ⟨_, List.mem_cons_self, rfl⟩ (by omega)
        rw [hloop pos]
        constructor
        · rintro ⟨a, ha, rfl⟩
          rcases List.mem_append.mp ha with ha | ha
          · rw [pos_of_mem_conditionAccesses ha]
            omega
          · rcases List.mem_append.mp ha with ha | ha
            · rw [pos_of_mem_bodyAccesses ha]
              omega
            · obtain ⟨hle, hge⟩ := hrest.mp ⟨a, ha, rfl⟩
              omega
        · rintro ⟨hle, hge⟩
          by_cases hi : pos = i
          · obtain ⟨a, ha, hpos⟩ := hcond
            exact ⟨a, List.mem_append_left _ ha, hpos.trans hi⟩
          · obtain ⟨a, ha, hpos⟩ := hrest.mpr ⟨by omega, by omega⟩
            exact ⟨a, List.mem_append_right _ (List.mem_append_right _ ha), hpos⟩

/-- The constructor evaluates the positions up to the number of triples of the file. -/
theorem exists_mem_loadAccesses {N : Numerals} {file : Str} {n : Nat}
    (h : headerCount N file = some n) (i : Nat) :
    (∃ a ∈ loadAccesses N file, a.pos = i) ↔ i ≤ triplesIn N file := by
  have hfirst : (∃ a ∈ conditionAccesses 0, a.pos = i) ↔ i ≤ 0 := by
    constructor
    · rintro ⟨a, ha, rfl⟩
      exact Nat.le_of_eq (pos_of_mem_conditionAccesses ha)
    · intro hi
      exact ⟨_, List.mem_cons_self, (Nat.le_zero.mp hi).symm⟩
  rw [headerCount] at h
  rw [loadAccesses, triplesIn]
  match hfile : tokens file, h with
  | [w], _ => exact hfirst
  | w :: b :: ws, h =>
      have hw : N.readCount w = some n := h
      simp only [hw]
      cases N.readNum b with
      | none => exact hfirst
      | some bias =>
          show (∃ a ∈ loopAccesses N 0 ws, a.pos = i) ↔ i ≤ triplesRead N ws
          rw [exists_mem_loopAccesses, Nat.zero_add, and_iff_right (Nat.zero_le i)]

/-- The three vectors have `n` elements. -/
structure LogisticRegression.Sized (r : LogisticRegression) (n : Nat) : Prop where
  weights : r.weights.length = n
  mean : r.mean.length = n
  std : r.std.length = n

/-- A store in range succeeds. -/
theorem store_sized {r : LogisticRegression} {n pos : Nat} (h : r.Sized n) (hpos : pos < n)
    (q : ℚ) (col : Column) : ∃ r', r.store pos q col = .ok r' ∧ r'.Sized n := by
  have hstore : ∀ {v : List ℚ}, v.length = n → storeAt v pos q = .ok (v.set pos q) := by
    intro v hv
    rw [storeAt, if_pos (by omega)]
  cases col with
  | weights =>
      rw [LogisticRegression.store, hstore h.weights]
      exact ⟨_, rfl, (List.length_set).trans h.weights, h.mean, h.std⟩
  | mean =>
      rw [LogisticRegression.store, hstore h.mean]
      exact ⟨_, rfl, h.weights, (List.length_set).trans h.mean, h.std⟩
  | std =>
      rw [LogisticRegression.store, hstore h.std]
      exact ⟨_, rfl, h.weights, h.mean, (List.length_set).trans h.std⟩

theorem scaleWeight_sized {r : LogisticRegression} {n : Nat} (h : r.Sized n) (pos : Nat) :
    (r.scaleWeight pos).Sized n := by
  rw [LogisticRegression.scaleWeight]
  by_cases hstd : 0 < r.std.getD pos 0
  · rw [if_pos hstd]
    exact ⟨(List.length_set).trans h.weights, h.mean, h.std⟩
  · rw [if_neg hstd]
    exact h

/-- An extraction in range ends the loop normally, or reads a number and goes on. -/
theorem loadLoop_extract (N : Numerals) {n pos : Nat} (hpos : pos < n) (col : Column)
    (ws : List Str) {r : LogisticRegression} (h : r.Sized n) :
    (∃ r', loadLoop N pos col ws r = .ok r') ∨
    ∃ w q ws' r', ws = w :: ws' ∧ N.readNum w = some q ∧ r'.Sized n ∧
      loadLoop N pos col ws r = match col with
        | .weights => loadLoop N pos .mean ws' r'
        | .mean => loadLoop N pos .std ws' r'
        | .std => loadLoop N (pos + 1) .weights ws' (r'.scaleWeight pos) := by
  cases ws with
  | nil => exact Or.inl ⟨r, by rw [loadLoop]⟩
  | cons w ws =>
      rw [loadLoop]
      cases hw : N.readNum w with
      | none =>
          obtain ⟨r', hr', -⟩ := store_sized h hpos 0 col
          exact Or.inl ⟨r', hr'⟩
      | some q =>
          obtain ⟨r', hr', h'⟩ := store_sized h hpos q col
          refine Or.inr ⟨w, q, ws, r', rfl, hw, h', ?_⟩
          simp only [hr']
          cases col <;> rfl

/-- A turn in range ends the loop normally, or reads a triple and goes on. -/
theorem loadLoop_turn (N : Numerals) {n pos : Nat} (hpos : pos < n) (ws : List Str)
    {r : LogisticRegression} (h : r.Sized n) :
    (∃ r', loadLoop N pos .weights ws r = .ok r') ∨
    ∃ ws' r', triplesRead N ws = triplesRead N ws' + 1 ∧ r'.Sized n ∧
      loadLoop N pos .weights ws r = loadLoop N (pos + 1) .weights ws' r' := by
  rcases loadLoop_extract N hpos .weights ws h with hdone | ⟨w, c, ws₁, r₁, rfl, hw, h₁, hloop₁⟩
  · exact Or.inl hdone
  rcases loadLoop_extract N hpos .mean ws₁ h₁ with
    ⟨r', hdone⟩ | ⟨m, mean, ws₂, r₂, rfl, hm, h₂, hloop₂⟩
  · exact Or.inl ⟨r', hloop₁.trans hdone⟩
  rcases loadLoop_extract N hpos .std ws₂ h₂ with
    ⟨r', hdone⟩ | ⟨s, std, ws₃, r₃, rfl, hs, h₃, hloop₃⟩
  · exact Or.inl ⟨r', hloop₁.trans (hloop₂.trans hdone)⟩
  exact Or.inr ⟨ws₃, r₃.scaleWeight pos, by simp [triplesRead, hw, hm, hs],
    scaleWeight_sized h₃ pos, hloop₁.trans (hloop₂.trans hloop₃)⟩

/-- The loop returns when the triples it reads leave room for one more position. -/
theorem loadLoop_returns (N : Numerals) {n : Nat} (ws : List Str) (pos : Nat)
    {r : LogisticRegression} (h : r.Sized n) (hlt : pos + triplesRead N ws < n) :
    ∃ r', loadLoop N pos .weights ws r = .ok r' := by
  induction hk : triplesRead N ws generalizing ws pos r with
  | zero =>
      rcases loadLoop_turn N (show pos < n by omega) ws h with hdone | ⟨ws', r', hread, -, -⟩
      · exact hdone
      · omega
  | succ k ih =>
      rcases loadLoop_turn N (show pos < n by omega) ws h with hdone | ⟨ws', r', hread, h', hloop⟩
      · exact hdone
      · rw [hloop]
        exact ih ws' (pos + 1) h' (by omega) (by omega)

/-- **No store is out of range where no evaluation is**: such a file loads. -/
theorem load_returns {N : Numerals} {file : Str} {n : Nat} (h : headerCount N file = some n)
    (hrange : ∀ a ∈ loadAccesses N file, a.pos < n) :
    ∃ r, LogisticRegression.load N file = .ok r := by
  obtain ⟨a, ha, hpos⟩ := (exists_mem_loadAccesses h (triplesIn N file)).mpr (Nat.le_refl _)
  have hlt := hrange a ha
  rw [hpos, triplesIn] at hlt
  rw [headerCount] at h
  rw [LogisticRegression.load]
  match hfile : tokens file, h with
  | [w], h =>
      have hw : N.readCount w = some n := h
      exact ⟨.sized n none, by simp only [hw]⟩
  | w :: b :: ws, h =>
      have hw : N.readCount w = some n := h
      rw [hfile] at hlt
      simp only [hw]
      cases hb : N.readNum b with
      | none => exact ⟨_, rfl⟩
      | some bias =>
          simp only [hb, Option.isSome_some, if_true] at hlt
          refine loadLoop_returns N (n := n) ws 0 ?_ (by omega)
          exact ⟨List.length_replicate, List.length_replicate, List.length_replicate⟩

/-- **The elements the constructor evaluates are in range exactly when the file has
    fewer triples than its header says.** -/
theorem loadAccesses_in_range_iff (N : Numerals) (file : Str) (n : Nat)
    (h : headerCount N file = some n) :
    (∀ a ∈ loadAccesses N file, a.pos < n) ↔ triplesIn N file < n := by
  constructor
  · intro hall
    obtain ⟨a, ha, hpos⟩ := (exists_mem_loadAccesses h (triplesIn N file)).mpr (Nat.le_refl _)
    rw [← hpos]
    exact hall a ha
  · intro hlt a ha
    have hle := (exists_mem_loadAccesses h a.pos).mp ⟨a, ha, rfl⟩
    omega

/-- One triple where the header says two. -/
theorem loadAccesses_short :
    headerCount sampleNumerals "2 1.0 1.5 0.25 0.5".toList = some 2 ∧
      ∀ a ∈ loadAccesses sampleNumerals "2 1.0 1.5 0.25 0.5".toList, a.pos < 2 :=
  ⟨by decide, (loadAccesses_in_range_iff _ _ 2 (by decide)).mpr (by decide)⟩

/-- Two triples, as the header says: the turn that ends the loop is at position 2. -/
theorem loadAccesses_full :
    headerCount sampleNumerals "2 1.0 1.5 0.25 0.5 -2.0 0.0 0.0".toList = some 2 ∧
      ¬ ∀ a ∈ loadAccesses sampleNumerals "2 1.0 1.5 0.25 0.5 -2.0 0.0 0.0".toList,
        a.pos < 2 := by
  refine ⟨by decide, ?_⟩
  decide +kernel

end TgnewsLogreg
