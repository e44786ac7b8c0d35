import Tgnews.TasksProofs
import Tgnews.WorkerPoolProofs

/-! # The parallel stages

    `LoadDocs`, `RecognizeLanguage`, `GenerateFeatures` and `DetectNews` cut their
    vector into ranges and give each to a worker.  Each stage is a `Job` of the
    worker pool; `Stage` collects what is proved of it: the ranges tile the indices,
    every run ends, and whatever the schedule the final vector is the one the
    sequential functions of the other modules compute.

    The workers of `GenerateFeatures` carry a generator from document to document.
    What they keep true of it is `Serving`: it has the models and dictionaries of a
    new one, and a reader for each language; `generateDoc_reuse` does the rest.

    The step of the ranges is rounded down, so a stage may spawn more workers than
    `kNumThreads`. -/

namespace TgnewsStages

open CxxContainers CxxText WorkerPool TgnewsCommon TgnewsHtml TgnewsLangrec TgnewsIo
open TgnewsFeatures TgnewsNewsDet TgnewsTasks

variable {M R S σ α β γ : Type}

/-! ## The jobs -/

/-- `LoadDocs`: `documents->at(i) = HTMLDocument(files.at(i))`. -/
def loadJob (env : Env M R S) (files : List Str) : Job Unit HTMLDocument Fault where
  count := files.length
  step := stepSize kNumThreads files.length
  init := ()
  body _ i _ := do
    let file ← vectorAt files i
    return ((), loadFile env file)

/-- `RecognizeLanguage`, its first loop. -/
def recogJob (env : LangEnv) (useLists : Bool) (documents : List HTMLDocument) :
    Job Unit HTMLDocument Fault where
  count := documents.length
  step := stepSize kNumThreads documents.length
  init := ()
  body _ _ doc := .ok ((), recogDoc env useLists doc)

/-- `GenerateFeatures`: a worker starts with a new generator and keeps it. -/
def featuresJob (tools : TextTools M R S) (files : MetaFiles) (documents : List HTMLDocument)
    (totalSentences : Int) :
    Job (Except Fault (FeaturesGenerator M R S)) DocFeatures Fault where
  count := documents.length
  step := stepSize kNumThreads documents.length
  init := FeaturesGenerator.new tools files
  body loc i feature := do
    let gen ← loc
    let doc ← vectorAt documents i
    let (gen, feature) ← generateDoc tools gen doc totalSentences feature
    return (.ok gen, feature)

/-- `DetectNews`, its first loop. -/
def detectJob (scores : Scores) (documents : List DocFeatures) : Job Unit DocFeatures Fault where
  count := documents.length
  step := stepSize kNumThreads documents.length
  init := ()
  body _ _ doc := do
    let doc ← detectDoc scores doc
    return ((), doc)

/-! ## What a stage guarantees -/

/-- A stage that starts from the vector `vec` and should compute `result`. -/
structure Stage {ε : Type} (J : Job σ α ε) (vec : List α) (result : Except ε (List α)) :
    Prop where
  /-- The spawning loop ends without a wrap, its ranges are non-empty, ordered and
      list every index once, and they are the ranges of the workers. -/
  ranges : ∃ rs, spawnLoop J.count J.step (J.count + 1) 0 = some rs
    ∧ (∀ r ∈ rs, r.1 < r.2 ∧ r.2 ≤ J.count ∧ r.1 + J.step < 2 ^ 64)
    ∧ rs.Pairwise (fun r s => r.2 ≤ s.1)
    ∧ rs.flatMap (fun r => List.range' r.1 (r.2 - r.1)) = List.range J.count
    ∧ ∀ {k : Nat} {p : Pool σ α}, Run J k (start vec) (.running p) → p.Joined J →
        p.workers.map (fun w => (w.start, w.stop)) = rs
  /-- No run goes on for ever. -/
  bounded : ∀ {k : Nat} {s : State σ α}, Run J k (start vec) s → k ≤ 2 * J.count + 1
  /-- No run gets stuck. -/
  progress : ∀ {s : State σ α}, ¬ Halted J s → ∃ t, Step J s t
  /-- Every schedule ends in the result. -/
  outcome : ∀ {k : Nat} {s : State σ α}, Run J k (start vec) s → Halted J s → Outcome result s

/-- Some schedule comes to an end. -/
theorem Stage.exists_halted {ε : Type} {J : Job σ α ε} {vec : List α}
    {result : Except ε (List α)} (h : Stage J vec result) :
    ∃ (k : Nat) (s : State σ α), Run J k (start vec) s ∧ Halted J s := by
  by_contra hno
  -- a run that never halts can be made longer than any run is
  have hlong : ∀ k, ∃ s : State σ α, Run J k (start vec) s := by
    intro k
    induction k with
    | zero => exact ⟨_, Run.refl _⟩
    | succ k ih =>
        obtain ⟨s, hrun⟩ := ih
        obtain ⟨t, hst⟩ := h.progress fun hhalt => hno ⟨k, s, hrun, hhalt⟩
        exact ⟨t, hrun.tail hst⟩
  obtain ⟨s, hrun⟩ := hlong (2 * J.count + 2)
  have := h.bounded hrun
  omega

/-- A stage does not both return and take the process down. -/
theorem Stage.isOk_eq {ε : Type} {J : Job σ α ε} {vec : List α}
    {r r' : Except ε (List α)} (h : Stage J vec r) (h' : Stage J vec r') :
    r.isOk = r'.isOk := by
  obtain ⟨k, s, hrun, hhalt⟩ := h.exists_halted
  have hout := h.outcome hrun hhalt
  have hout' := h'.outcome hrun hhalt
  cases r with
  | ok v =>
      cases r' with
      | ok v' => rfl
      | error e =>
          obtain ⟨p, rfl, -⟩ := hout
          cases hout'
  | error e =>
      cases r' with
      | ok v' =>
          obtain ⟨p, rfl, -⟩ := hout'
          cases hout
      | error e' => rfl

/-- **A job with the step of the program is a stage.** -/
theorem stage_of_computes {ε : Type} {J : Job σ α ε} {f : Nat → α → Except ε α} {I : σ → Prop}
    (vec : List α) (hcount : J.count = vec.length) (hn : J.count < 2 ^ 60)
    (hstep : J.step = stepSize kNumThreads J.count) (hC : Computes J f I) :
    Stage J vec (seqMap f 0 vec) := by
  have hpos : 0 < J.step := by
    rw [hstep, stepSize]
    omega
  have hwrap : J.count + J.step < 2 ^ 64 := by
    have hdiv : J.count / kNumThreads ≤ J.count := Nat.div_le_self _ _
    rw [hstep, stepSize]
    omega
  refine ⟨?_, fun hrun => run_length_le hpos hwrap hrun, fun h => progress h,
    fun hrun hhalt => run_outcome hpos hwrap hC hcount hrun hhalt⟩
  obtain ⟨rs, hrs, htiles, hno⟩ := spawnLoop_tiles hpos hwrap (J.count + 1) 0 (by omega)
  refine ⟨rs, hrs, ?_, htiles.pairwise, ?_, fun hrun hj => joined_ranges hrs hrun hj⟩
  · intro r hr
    obtain ⟨-, hlt, hle⟩ := htiles.nonempty r hr
    exact ⟨hlt, hle, hno r hr⟩
  · rw [htiles.cover, Nat.sub_zero, List.range_eq_range']

/-! ## The sequential results -/

/-- A loop that reads element `i` of another vector for slot `i`. -/
theorem seqMap_vectorAt (g : γ → α → Except Fault β) (a : α) (pre xs : List γ) :
    seqMap (fun i a => vectorAt (pre ++ xs) i >>= fun x => g x a) pre.length
      (List.replicate xs.length a) = xs.mapM fun x => g x a := by
  induction xs generalizing pre with
  | nil => rfl
  | cons x xs ih =>
      have hx : vectorAt (pre ++ x :: xs) pre.length = .ok x :=
        vectorAt_of_getElem? (by
          rw [List.getElem?_append_right (Nat.le_refl _), Nat.sub_self]
          rfl)
      have hrest := ih (pre ++ [x])
      rw [List.append_assoc, List.length_append] at hrest
      rw [List.length_cons, List.replicate_succ, seqMap_cons, hx, List.mapM_cons, ← hrest]
      rfl

/-! ## The four stages -/

/-- `LoadDocs` loads every file. -/
theorem stage_load (env : Env M R S) {files : List Str} (hn : files.length < 2 ^ 60) :
    Stage (loadJob env files) (List.replicate files.length HTMLDocument.empty)
      (.ok (loadDocs env files)) := by
  have hC : Computes (loadJob env files)
      (fun i _ => vectorAt files i >>= fun file => .ok (loadFile env file)) (fun _ => True) :=
    Computes.stateless fun i _ => by
      show (vectorAt files i >>= fun file => _) = _
      cases vectorAt files i <;> rfl
  have hseq := seqMap_vectorAt (fun file _ => Except.ok (loadFile env file))
    HTMLDocument.empty [] files
  rw [mapM_eq_ok (g := loadFile env) fun _ _ => rfl] at hseq
  have h := stage_of_computes (List.replicate files.length HTMLDocument.empty)
    (List.length_replicate).symm hn rfl hC
  rw [loadDocs, ← hseq]
  exact h

/-- `RecognizeLanguage` recognises every document. -/
theorem stage_recog (env : LangEnv) (useLists : Bool) {docs : List HTMLDocument}
    (hn : docs.length < 2 ^ 60) :
    Stage (recogJob env useLists docs) docs (.ok (docs.map (recogDoc env useLists))) := by
  have hC : Computes (recogJob env useLists docs)
      (fun _ doc => .ok (recogDoc env useLists doc)) (fun _ => True) :=
    Computes.stateless fun _ _ => rfl
  have h := stage_of_computes _ rfl hn rfl hC
  rw [seqMap_eq_mapM, mapM_eq_ok fun _ _ => rfl] at h
  exact h

/-- `DetectNews` looks at every document. -/
theorem stage_detect (scores : Scores) {docs : List DocFeatures} (hn : docs.length < 2 ^ 60) :
    Stage (detectJob scores docs) docs (docs.mapM (detectDoc scores)) := by
  have hC : Computes (detectJob scores docs) (fun _ doc => detectDoc scores doc)
      (fun _ => True) :=
    Computes.stateless fun _ doc => by
      show (detectDoc scores doc >>= fun doc => _) = _
      cases detectDoc scores doc <;> rfl
  have h := stage_of_computes _ rfl hn rfl hC
  rw [seqMap_eq_mapM] at h
  exact h

/-- What a worker keeps true of its generator. -/
def Serving (gen₀ : FeaturesGenerator M R S) (loc : Except Fault (FeaturesGenerator M R S)) :
    Prop :=
  ∃ gen, loc = .ok gen ∧ SameSources gen₀ gen

/-- **A reused generator computes what new ones would.** -/
theorem features_computes {tools : TextTools M R S} (htext : TextDetermined tools)
    {files : MetaFiles} {gen₀ : FeaturesGenerator M R S}
    (hnew : FeaturesGenerator.new tools files = .ok gen₀) (hready : Ready gen₀)
    (docs : List HTMLDocument) (n : Int) :
    Computes (featuresJob tools files docs n)
      (fun i feature => vectorAt docs i >>= fun doc =>
        (generateDoc tools gen₀ doc n feature).map Prod.snd) (Serving gen₀) := by
  have hbody : ∀ {gen : FeaturesGenerator M R S} (i : Nat) (feature : DocFeatures),
      (featuresJob tools files docs n).body (.ok gen) i feature
        = (vectorAt docs i >>= fun doc => generateDoc tools gen doc n feature >>= fun r =>
            .ok (.ok r.1, r.2)) := fun _ _ => rfl
  refine ⟨⟨gen₀, hnew, SameSources.refl gen₀⟩, ?_, ?_⟩
  · rintro loc loc' i feature b ⟨gen, rfl, hsame⟩ h
    rw [hbody] at h
    obtain ⟨doc, hdoc, h⟩ := of_bind_ok h
    obtain ⟨gen₁, gen₂, f, hrun₀, hrun, hkeep⟩ :=
      generateDoc_reuse htext hready hsame doc n feature
    rw [hrun] at h
    obtain ⟨rfl, rfl⟩ := Prod.mk.inj (Except.ok.inj h)
    refine ⟨⟨gen₂, rfl, hkeep⟩, ?_⟩
    rw [hdoc]
    show (generateDoc tools gen₀ doc n feature).map Prod.snd = _
    rw [hrun₀]
    rfl
  · rintro loc i feature e ⟨gen, rfl, hsame⟩ h
    rw [hbody] at h
    cases hdoc : vectorAt docs i with
    | error e' =>
        rw [hdoc] at h
        exact congrArg Except.error (Except.error.inj h)
    | ok doc =>
        -- generation does not fault, so neither does the body
        obtain ⟨gen₁, gen₂, f, -, hrun, -⟩ := generateDoc_reuse htext hready hsame doc n feature
        rw [hdoc] at h
        have h' : (generateDoc tools gen doc n feature >>= fun r =>
          Except.ok (Except.ok r.1, r.2)) = Except.error e := h
        rw [hrun] at h'
        exact nomatch h'

/-- `GenerateFeatures` computes the features of every document on its own. -/
theorem stage_features {tools : TextTools M R S} (htext : TextDetermined tools)
    (files : MetaFiles) {docs : List HTMLDocument} (hn : docs.length < 2 ^ 60) (n : Int) :
    Stage (featuresJob tools files docs n) (List.replicate docs.length DocFeatures.new)
      (generateFeatures tools files docs n) := by
  obtain ⟨gen₀, hnew, hready⟩ := new_ready tools files
  have hseq := seqMap_vectorAt
    (fun doc feature => (generateDoc tools gen₀ doc n feature).map Prod.snd)
    DocFeatures.new [] docs
  have hdoc : (fun doc => (generateDoc tools gen₀ doc n DocFeatures.new).map Prod.snd)
      = docFeatures tools files n := by
    funext doc
    rw [docFeatures, hnew]
    show _ = (generateDoc tools gen₀ doc n DocFeatures.new >>= fun r => _)
    cases generateDoc tools gen₀ doc n DocFeatures.new <;> rfl
  rw [hdoc] at hseq
  have h := stage_of_computes (List.replicate docs.length DocFeatures.new)
    (List.length_replicate).symm hn rfl (features_computes htext hnew hready docs n)
  rw [generateFeatures, ← hseq]
  exact h

/-- **The four parallel stages are their sequential maps.**  For every list of fewer
    than 2^60 elements the ranges tile the indices without a wrap, every run ends,
    and every schedule of the workers ends with the vector of the left-to-right map;
    in `GenerateFeatures` the features of a document are those that a generator used
    for no other document would give it. -/
theorem stages_sequential (env : Env M R S) (htext : TextDetermined env.tools)
    (paths : List Str) (docs : List HTMLDocument) (features : List DocFeatures)
    (useLists : Bool) (totalSentences : Int) (hpaths : paths.length < 2 ^ 60)
    (hdocs : docs.length < 2 ^ 60) (hfeatures : features.length < 2 ^ 60) :
    Stage (loadJob env paths) (List.replicate paths.length HTMLDocument.empty)
        (.ok (paths.map (loadFile env)))
    ∧ Stage (recogJob env.lang useLists docs) docs (.ok (docs.map (recogDoc env.lang useLists)))
    ∧ Stage (featuresJob env.tools env.files docs totalSentences)
        (List.replicate docs.length DocFeatures.new)
        (docs.mapM (docFeatures env.tools env.files totalSentences))
    ∧ Stage (detectJob env.scores features) features (features.mapM (detectDoc env.scores)) :=
  ⟨stage_load env hpaths, stage_recog env.lang useLists hdocs,
    stage_features htext env.files hdocs totalSentences, stage_detect env.scores hfeatures⟩

/-- Nine files and their documents: nine workers with one index each. -/
theorem stages_sequential_nine :
    Stage (loadJob (sampleEnv "ru".toList id) (List.replicate 9 "in/a.html".toList))
        (List.replicate 9 HTMLDocument.empty)
        (.ok ((List.replicate 9 "in/a.html".toList).map (loadFile (sampleEnv "ru".toList id))))
    ∧ Stage (featuresJob sampleTools sampleFiles
          ((List.replicate 9 "in/a.html".toList).map (recogFile (sampleEnv "ru".toList id))) (-1))
        (List.replicate 9 DocFeatures.new)
        (((List.replicate 9 "in/a.html".toList).map (recogFile (sampleEnv "ru".toList id))).mapM
          (docFeatures sampleTools sampleFiles (-1))) :=
  have h := stages_sequential (sampleEnv "ru".toList id) sampleTools_textDetermined
    (List.replicate 9 "in/a.html".toList)
    ((List.replicate 9 "in/a.html".toList).map (recogFile (sampleEnv "ru".toList id)))
    (List.replicate 9 DocFeatures.new) true (-1) (by decide) (by decide) (by decide)
  ⟨h.1, h.2.2.1⟩

/-! ## How many workers a stage has -/

/-- The step is rounded down, so the ranges leave a remainder for further workers. -/
theorem count_le_stepSize_iff (n : Nat) :
    n ≤ kNumThreads * stepSize kNumThreads n ↔ n < kNumThreads ∨ kNumThreads ∣ n := by
  rw [stepSize, kNumThreads]
  omega

/-- A job with the step of the program. -/
theorem spawnsAtMost_kNumThreads_iff {ε : Type} {J : Job σ α ε} (vec : List α)
    (hn : J.count < 2 ^ 64) (hstep : J.step = stepSize kNumThreads J.count) :
    SpawnsAtMost J vec kNumThreads ↔ J.count < kNumThreads ∨ kNumThreads ∣ J.count := by
  rw [← count_le_stepSize_iff, ← hstep]
  refine spawnsAtMost_iff ?_
  rw [hstep, stepSize, kNumThreads]
  omega

/-- **A stage keeps to `kNumThreads` workers exactly when it has fewer elements than
    that, or a multiple of it.** -/
theorem stages_spawn_iff (env : Env M R S) (useLists : Bool) (totalSentences : Int)
    (paths : List Str) (docs : List HTMLDocument) (features : List DocFeatures)
    (hpaths : paths.length < 2 ^ 64) (hdocs : docs.length < 2 ^ 64)
    (hfeatures : features.length < 2 ^ 64) :
    (SpawnsAtMost (loadJob env paths) (List.replicate paths.length HTMLDocument.empty) kNumThreads
        ↔ paths.length < kNumThreads ∨ kNumThreads ∣ paths.length)
    ∧ (SpawnsAtMost (recogJob env.lang useLists docs) docs kNumThreads
        ↔ docs.length < kNumThreads ∨ kNumThreads ∣ docs.length)
    ∧ (SpawnsAtMost (featuresJob env.tools env.files docs totalSentences)
          (List.replicate docs.length DocFeatures.new) kNumThreads
        ↔ docs.length < kNumThreads ∨ kNumThreads ∣ docs.length)
    ∧ (SpawnsAtMost (detectJob env.scores features) features kNumThreads
        ↔ features.length < kNumThreads ∨ kNumThreads ∣ features.length) :=
  ⟨spawnsAtMost_kNumThreads_iff (J := loadJob env paths) _ hpaths rfl,
    spawnsAtMost_kNumThreads_iff (J := recogJob env.lang useLists docs) _ hdocs rfl,
    spawnsAtMost_kNumThreads_iff (J := featuresJob env.tools env.files docs totalSentences) _
      hdocs rfl,
    spawnsAtMost_kNumThreads_iff (J := detectJob env.scores features) _ hfeatures rfl⟩

/-- Sixteen documents: two for each of the eight workers. -/
theorem stages_spawn_sixteen :
    SpawnsAtMost (loadJob (sampleEnv "ru".toList id) (List.replicate 16 "in/a.html".toList))
        (List.replicate 16 HTMLDocument.empty) kNumThreads
    ∧ SpawnsAtMost (recogJob (sampleEnv "ru".toList id).lang true
          (List.replicate 16 HTMLDocument.empty)) (List.replicate 16 HTMLDocument.empty) kNumThreads
    ∧ SpawnsAtMost (featuresJob sampleTools sampleFiles (List.replicate 16 HTMLDocument.empty) (-1))
        (List.replicate 16 DocFeatures.new) kNumThreads
    ∧ SpawnsAtMost (detectJob (sampleEnv "ru".toList id).scores (List.replicate 16 DocFeatures.new))
        (List.replicate 16 DocFeatures.new) kNumThreads := by
  have h := stages_spawn_iff (sampleEnv "ru".toList id) true (-1)
    (List.replicate 16 "in/a.html".toList) (List.replicate 16 HTMLDocument.empty)
    (List.replicate 16 DocFeatures.new) (by decide) (by decide) (by decide)
  have hdvd : kNumThreads ∣ 16 := by decide
  exact ⟨h.1.mpr (Or.inr hdvd), h.2.1.mpr (Or.inr hdvd), h.2.2.1.mpr (Or.inr hdvd),
    h.2.2.2.mpr (Or.inr hdvd)⟩

/-- Nine documents: nine workers. -/
theorem stages_spawn_nine :
    ¬ SpawnsAtMost (loadJob (sampleEnv "ru".toList id) (List.replicate 9 "in/a.html".toList))
        (List.replicate 9 HTMLDocument.empty) kNumThreads
    ∧ ¬ SpawnsAtMost (recogJob (sampleEnv "ru".toList id).lang true
          (List.replicate 9 HTMLDocument.empty)) (List.replicate 9 HTMLDocument.empty) kNumThreads
    ∧ ¬ SpawnsAtMost (featuresJob sampleTools sampleFiles
          (List.replicate 9 HTMLDocument.empty) (-1)) (List.replicate 9 DocFeatures.new) kNumThreads
    ∧ ¬ SpawnsAtMost (detectJob (sampleEnv "ru".toList id).scores
          (List.replicate 9 DocFeatures.new)) (List.replicate 9 DocFeatures.new) kNumThreads := by
  have hnine : ¬ (9 < kNumThreads ∨ kNumThreads ∣ 9) := by decide
  refine ⟨?_, ?_, ?_, ?_⟩ <;>
    exact fun h => hnine ((spawnsAtMost_kNumThreads_iff _ (by decide) rfl).mp h)

end TgnewsStages
