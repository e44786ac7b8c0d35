import Tgnews.TasksProofs

/-! # Keyed lookups along the tasks

    Features are read by language, by feature name and by class of lemmas, and a
    missing key is an exception.  None is ever missing, whatever the pages supplied and
    the language identifier says.  What carries it is an invariant of a document's
    features, `Serviceable`: a Russian or English document has the bag that news
    detection reads, and every document has both classes of lemmas, which `Lemmas` keeps
    as fields.  The route:

    * a new `DocFeatures` is serviceable, feature generation makes any slot serviceable
      and keeps its generator able to serve both languages (`generateDoc_serviceable`);
    * detection reads serviceable features without a fault and leaves them so
      (`detectDoc_serviceable`);
    * the features that are moved out are handed on whole, and of those left behind by a
      move only the two scalar fields are read;
    * `Task.handed` — the stages of a task; what a task does after them reads only what they
      hand over (`taskOutput_eq_stages` in `MainProofs`). -/

namespace TgnewsLookups

open CxxContainers CxxText TgnewsCommon TgnewsHtml TgnewsLangrec TgnewsFeatures
open TgnewsNewsDet TgnewsNewsCategories TgnewsTasks

variable {M R S : Type}

/-! ## The invariant -/

/-- The bag that detection reads is there whenever it is read. -/
def Serviceable (d : DocFeatures) : Prop :=
  d.lang = "ru".toList ∨ d.lang = "en".toList → "text:feats".toList ∈ d.bows

theorem serviceable_new : Serviceable DocFeatures.new := by
  rintro (h | h)
  · cases h
  · cases h

/-- **One document of a worker's range**: no lookup fails, the slot is serviceable and
    the generator can go on. -/
theorem generateDoc_serviceable (tools : TextTools M R S) {gen : FeaturesGenerator M R S}
    (hgen : Ready gen) (doc : HTMLDocument) (n : Int) (feature : DocFeatures) :
    ∃ gen' f, generateDoc tools gen doc n feature = .ok (gen', f) ∧ Ready gen'
      ∧ Serviceable f := by
  by_cases hlang : doc.getMeta "lang".toList = "ru".toList
      ∨ doc.getMeta "lang".toList = "en".toList
  · obtain ⟨f, gen', fs, hrun, hbow⟩ := generate_ok tools hgen doc n hlang
    refine ⟨gen', stamp doc f, ?_, hgen.sameSources (generate_sameSources hrun), ?_⟩
    · rw [generateDoc, if_pos hlang, hrun]
      rfl
    · intro _
      exact AList.lookup_isSome.mp (by rw [show (stamp doc f).bows = f.bows from rfl, hbow]; rfl)
  · exact ⟨gen, stamp doc feature, generateDoc_other tools gen doc n feature hlang, hgen,
      fun h => absurd h hlang⟩

/-- **Detection reads what is there**, and leaves a serviceable document so. -/
theorem detectDoc_serviceable (scores : Scores) {doc : DocFeatures} (h : Serviceable doc) :
    ∃ doc', detectDoc scores doc = .ok doc' ∧ Serviceable doc' := by
  have hget : doc.lang = "ru".toList ∨ doc.lang = "en".toList →
      ∃ vec, generateNewsDetFeatures doc = .ok vec := by
    intro hlang
    obtain ⟨bow, hbow⟩ := exists_lookup_of_mem (h hlang)
    refine ⟨bow.normalize.get, ?_⟩
    rw [generateNewsDetFeatures, DocFeatures.get, mapAt_of_lookup hbow]
    rfl
  rw [detectDoc]
  by_cases hurl : urlRule doc.url = true
  · rw [if_pos hurl]
    exact ⟨_, rfl, h⟩
  · rw [if_neg hurl]
    by_cases hru : doc.lang = "ru".toList
    · obtain ⟨vec, hvec⟩ := hget (Or.inl hru)
      rw [if_pos hru, hvec]
      exact ⟨_, rfl, h⟩
    · rw [if_neg hru]
      by_cases hen : doc.lang = "en".toList
      · obtain ⟨vec, hvec⟩ := hget (Or.inr hen)
        rw [if_pos hen, hvec]
        exact ⟨_, rfl, h⟩
      · rw [if_neg hen]
        exact ⟨doc, rfl, h⟩

/-! ## Ranges -/

/-- A slot of a vector is replaced by one that keeps the invariant. -/
theorem serviceable_set {features : List DocFeatures} (h : ∀ f ∈ features, Serviceable f)
    (i : Nat) {f : DocFeatures} (hf : Serviceable f) : ∀ g ∈ features.set i f, Serviceable g := by
  intro g hg
  rcases List.mem_or_eq_of_mem_set hg with hg | rfl
  · exact h g hg
  · exact hf

/-- What a worker of `GenerateFeatures` keeps true of its generator and of the vector. -/
structure Going (docs : List HTMLDocument)
    (state : FeaturesGenerator M R S × List DocFeatures) : Prop where
  ready : Ready state.1
  length : state.2.length = docs.length
  serviceable : ∀ f ∈ state.2, Serviceable f

theorem generateAt_going (tools : TextTools M R S) {docs : List HTMLDocument} (n : Int)
    {state : FeaturesGenerator M R S × List DocFeatures} (h : Going docs state) {i : Nat}
    (hi : i < docs.length) :
    ∃ state', generateAt tools docs n state i = .ok state' ∧ Going docs state' := by
  have hslot : i < state.2.length := by rw [h.length]; exact hi
  obtain ⟨gen', f, hdoc, hgen', hf⟩ :=
    generateDoc_serviceable tools h.ready docs[i] n state.2[i]
  refine ⟨(gen', state.2.set i f), ?_, hgen', ?_, serviceable_set h.serviceable i hf⟩
  · rw [generateAt, vectorAt_of_getElem? (List.getElem?_eq_getElem hi),
      vectorAt_of_getElem? (List.getElem?_eq_getElem hslot)]
    show (generateDoc tools state.1 docs[i] n state.2[i] >>= fun r => _) = _
    rw [hdoc]
    rfl
  · exact List.length_set.trans h.length

/-- **A worker of `GenerateFeatures` finds every key**, on any range of the vector. -/
theorem generateFeaturesTask_serviceable (tools : TextTools M R S) (files : MetaFiles)
    {docs : List HTMLDocument} {features : List DocFeatures}
    (hlen : features.length = docs.length) (hserv : ∀ f ∈ features, Serviceable f) (n : Int)
    {start stop : Nat} (hstop : stop ≤ docs.length) :
    ∃ features', generateFeaturesTask tools files features docs n start stop = .ok features'
      ∧ ∀ f ∈ features', Serviceable f := by
  obtain ⟨gen, hnew, hready⟩ := new_ready tools files
  have hstep : ∀ i ∈ List.range' start (stop - start),
      ∀ state : FeaturesGenerator M R S × List DocFeatures, Going docs state →
        ∃ state', generateAt tools docs n state i = .ok state' ∧ Going docs state' := by
    intro i hi state hstate
    have hrange := List.mem_range'_1.mp hi
    exact generateAt_going tools n hstate (by omega)
  have hstart : Going docs (gen, features) := ⟨hready, hlen, hserv⟩
  obtain ⟨state', hrun, hgoing⟩ := foldlM_invariant hstep hstart
  refine ⟨state'.2, ?_, hgoing.serviceable⟩
  rw [generateFeaturesTask, hnew]
  show (List.foldlM (generateAt tools docs n) (gen, features) _ >>= fun state => _) = _
  rw [hrun]
  rfl

/-- **A worker of `DetectNews` finds every key.** -/
theorem detectNewsTask_serviceable (scores : Scores) {documents : List DocFeatures}
    (hserv : ∀ d ∈ documents, Serviceable d) {start stop : Nat} (hstop : stop ≤ documents.length) :
    ∃ documents', detectNewsTask scores documents start stop = .ok documents'
      ∧ documents'.length = documents.length ∧ ∀ d ∈ documents', Serviceable d := by
  refine foldlM_invariant
    (I := fun ds : List DocFeatures => ds.length = documents.length ∧ ∀ d ∈ ds, Serviceable d)
    ?_ ⟨rfl, hserv⟩
  rintro i hi ds ⟨hlen, hds⟩
  have hi : i < ds.length := by
    have := List.mem_range'_1.mp hi
    omega
  obtain ⟨doc', hdoc, hserv'⟩ := detectDoc_serviceable scores (hds ds[i] (List.getElem_mem hi))
  refine ⟨ds.set i doc', ?_, by rw [List.length_set, hlen], serviceable_set hds i hserv'⟩
  rw [vectorAt_of_getElem? (List.getElem?_eq_getElem hi)]
  show (detectDoc scores ds[i] >>= fun doc => _) = _
  rw [hdoc]
  rfl

/-! ## The stages -/

theorem generateFeatures_serviceable (tools : TextTools M R S) (files : MetaFiles)
    (docs : List HTMLDocument) (n : Int) :
    ∃ features, generateFeatures tools files docs n = .ok features
      ∧ ∀ f ∈ features, Serviceable f := by
  refine exists_mapM fun doc _ => ?_
  obtain ⟨gen, hnew, hready⟩ := new_ready tools files
  obtain ⟨gen', f, hrun, -, hf⟩ := generateDoc_serviceable tools hready doc n DocFeatures.new
  refine ⟨f, ?_, hf⟩
  rw [docFeatures, hnew]
  show (generateDoc tools gen doc n DocFeatures.new >>= fun r => _) = _
  rw [hrun]
  rfl

/-! ## The tasks -/

/-- The tasks of `main`. -/
inductive Task where
  | languages
  | news
  | categories
  | threads
  | top
  | newsTest
  | dump
  | features
  deriving DecidableEq, Repr

/-- The argument of `main` that asks for the task. -/
def Task.name : Task → Str
  | .languages => "languages".toList
  | .news => "news".toList
  | .categories => "categories".toList
  | .threads => "threads".toList
  | .top => "top".toList
  | .newsTest => "news_test".toList
  | .dump => "dump".toList
  | .features => "features".toList

/-- What the stages of a task hand to its end. -/
structure Handed where
  documents : List HTMLDocument := []
  news : List DocFeatures := []
  features : List LeftFeatures := []

/-- The stages of a task, on the loaded documents.  The test tasks go on with the vector
    `RecognizeLanguage` left, emptied documents and documents in other languages included. -/
def Task.handed (env : Env M R S) (loaded : List HTMLDocument) : Task → Except Fault Handed
  | .languages => return { documents := (recognizeLanguage env.lang true loaded).1 }
  | .news | .categories | .threads | .top => do
      let found ← newsFrom env loaded
      return { news := found }
  | .newsTest | .dump => do
      let documents := (recognizeLanguage env.lang true loaded).2
      let (found, left) ← detectFrom env documents
      return { documents := documents, news := found, features := left }
  | .features => do
      let _ ← generateFeatures env.tools env.files (recognizeLanguage env.lang true loaded).2 3
      return {}

/-- The parts of a task that look features up: its stages, and for the categories the lemmas
    of the news. -/
def Task.stages (env : Env M R S) (loaded : List HTMLDocument) (task : Task) :
    Except Fault Unit := do
  let handed ← task.handed env loaded
  if task = .categories ∨ task = .top then
    let _ ← handed.news.mapM (buildItem env.tokenOrder)

/-- The stages of every task return. -/
theorem handed_eq_ok (env : Env M R S) (loaded : List HTMLDocument) (task : Task) :
    ∃ handed, task.handed env loaded = .ok handed := by
  cases task with
  | languages => exact ⟨_, rfl⟩
  | features =>
      obtain ⟨features, hrun, -⟩ := generateFeatures_serviceable env.tools env.files
        (recognizeLanguage env.lang true loaded).2 3
      rw [Task.handed, hrun]
      exact ⟨_, rfl⟩
  | news | categories | threads | top =>
      rw [Task.handed, newsFrom, detectFrom_eq]
      exact ⟨_, rfl⟩
  | newsTest | dump =>
      simp only [Task.handed]
      rw [detectFrom_eq]
      exact ⟨_, rfl⟩

/-- **No keyed lookup fails.**  Whatever the loaded documents hold and whatever the
    identifier answers, the stages of every task succeed; and so does each worker of
    `GenerateFeatures` and of `DetectNews`, on any range of any vector handed to it. -/
theorem lookups_served (env : Env M R S) :
    (∀ loaded (task : Task), task.stages env loaded = .ok ()) ∧
      ∀ docs n, (∀ start stop, stop ≤ docs.length → ∃ features,
          generateFeaturesTask env.tools env.files (List.replicate docs.length DocFeatures.new)
            docs n start stop = .ok features) ∧
        ∃ features, generateFeatures env.tools env.files docs n = .ok features ∧
          ∀ start stop, stop ≤ features.length → ∃ detected,
            detectNewsTask env.scores features start stop = .ok detected := by
  constructor
  · intro loaded task
    obtain ⟨handed, hhanded⟩ := handed_eq_ok env loaded task
    have hitems := mapM_eq_ok fun doc (_ : doc ∈ handed.news) => buildItem_eq env.tokenOrder doc
    rw [Task.stages, hhanded]
    show (if task = .categories ∨ task = .top then do
      let _ ← handed.news.mapM (buildItem env.tokenOrder)
      else return ()) = Except.ok ()
    rw [hitems]
    split_ifs <;> rfl
  · intro docs n
    obtain ⟨features, hrun, hserv⟩ := generateFeatures_serviceable env.tools env.files docs n
    refine ⟨?_, features, hrun, ?_⟩
    · intro start stop hstop
      obtain ⟨features', hrun', -⟩ := generateFeaturesTask_serviceable env.tools env.files
        List.length_replicate (fun f hf => (List.mem_replicate.mp hf).2 ▸ serviceable_new) n hstop
      exact ⟨features', hrun'⟩
    · intro start stop hstop
      obtain ⟨detected, hrun', -⟩ := detectNewsTask_serviceable env.scores hserv hstop
      exact ⟨detected, hrun'⟩

end TgnewsLookups
