import Tgnews.DebugProofs
import Tgnews.DumpProofs
import Tgnews.FeaturesProofs
import Tgnews.LangrecProofs
import Tgnews.NewsCategoriesProofs
import Tgnews.NewsDetProofs
import Tgnews.NewsThreadsProofs

/-! # The tasks (`tgnews.cpp`)

    Each task composes the stages: load, recognise the language, generate features,
    detect news, and then print names, categories or threads.  What a task needs
    from outside is its `Env`: the parsed files, the language identifier, the
    tagger, the word lists, the two models, the topic models, the orders in which hash
    containers happen to be walked, and the text of a number.  The stages run here one
    document after the other; that their workers compute the same is the subject of
    `StagesProofs`.

    The route:

    * `verdict` is what the stages make of one recognised document, and
      `detectFrom_eq` says that the composition is a map with `verdict`;
    * `newsOf_eq` turns that into a filter of the files, by `isNewsFile`;
    * `newsTask_prints`, `languagesTask_prints` and `threadsTask_prints` — so what a task
      prints is known, and that it is printed exactly when the strings in it are valid. -/

namespace TgnewsTasks

open CxxContainers CxxText TgnewsCommon TgnewsHtml TgnewsLangrec TgnewsIo TgnewsSerializer
open TgnewsDump TgnewsFeatures TgnewsNewsDet TgnewsNewsCategories TgnewsNewsThreads TgnewsDebug

/-- The surroundings of a run. -/
structure Env (M R S : Type) where
  dom : Str → Node
  lang : LangEnv
  tools : TextTools M R S
  files : MetaFiles
  scores : Scores
  topics : Str → ARTM
  moved : MovedFrom
  tokenOrder : IterOrder Nat Nat
  docsOrder : IterOrder Str (List DocFeatures)
  keyOrder : SetOrder Str
  dumpFloat : ℚ → Str

variable {M R S : Type}

/-- `HTMLDocument(path)`. -/
def loadFile (env : Env M R S) (path : Str) : HTMLDocument := .ofFile path (env.dom path)

/-- `LoadDocs`, left to right. -/
def loadDocs (env : Env M R S) (files : List Str) : List HTMLDocument :=
  files.map (loadFile env)

/-- `GenerateFeatures(docs, -1)` and `DetectNews`: the news, and the vector left. -/
def detectFrom (env : Env M R S) (docs : List HTMLDocument) :
    Except Fault (List DocFeatures × List LeftFeatures) := do
  let features ← generateFeatures env.tools env.files docs (-1)
  detectNews env.scores env.moved features

/-- The stages that `news`, `categories`, `threads` and `top` share. -/
def newsFrom (env : Env M R S) (docs : List HTMLDocument) : Except Fault (List DocFeatures) := do
  let (news, _) ← detectFrom env (recognizeLanguage env.lang true docs).1
  return news

/-- These stages on the files. -/
def newsOf (env : Env M R S) (files : List Str) : Except Fault (List DocFeatures) :=
  newsFrom env (loadDocs env files)

/-- Task `languages`. -/
def languagesTask (env : Env M R S) (folder : Str) (files : List Str) : Print Unit :=
  dumpLanguage env.dumpFloat (recognizeLanguage env.lang true (loadDocs env files)).1 folder

/-- Task `news`. -/
def newsTask (env : Env M R S) (folder : Str) (files : List Str) : Print Unit := do
  let news ← newsOf env files
  dumpNewsDet env.dumpFloat news folder

/-- Task `categories`. -/
def categoriesTask (env : Env M R S) (folder : Str) (files : List Str) : Print Unit := do
  let news ← newsOf env files
  let categories ← getCategories env.tokenOrder env.topics news
  dumpNewsCat env.dumpFloat env.docsOrder categories folder

/-- Task `threads`. -/
def threadsTask (env : Env M R S) (folder : Str) (files : List Str) : Print Unit := do
  let news ← newsOf env files
  dumpNewsThreads env.dumpFloat env.docsOrder (getThreads news) folder

/-- Task `top`: the categories are computed and an empty list is printed. -/
def topTask (env : Env M R S) (files : List Str) : Print Unit := do
  let news ← newsOf env files
  let _ ← getCategories env.tokenOrder env.topics news
  write "[]\n".toList

/-- The vector that `news_test` and `dump` go on with: what `RecognizeLanguage` left. -/
def handedDocs (env : Env M R S) (files : List Str) : List HTMLDocument :=
  (recognizeLanguage env.lang true (loadDocs env files)).2

/-- Task `news_test`. -/
def newsTestTask (env : Env M R S) (folder : Str) (files : List Str) : Print Unit := do
  let (news, _) ← detectFrom env (handedDocs env files)
  dumpNewsDetTest env.dumpFloat news folder

/-- Task `dump`. -/
def dumpTask (env : Env M R S) (files : List Str) : Except Fault Table := do
  let (_, features) ← detectFrom env (handedDocs env files)
  makeTsv env.keyOrder (handedDocs env files) features

/-- Task `features`: the features are generated, and only the times are printed. -/
def featuresTask (env : Env M R S) (files : List Str) : Except Fault Unit := do
  let _ ← generateFeatures env.tools env.files (handedDocs env files) 3

/-! ## One document -/

/-- The features of a document; their generation never faults. -/
def featuresOf (env : Env M R S) (doc : HTMLDocument) : DocFeatures :=
  (docFeatures env.tools env.files (-1) doc).toOption.getD DocFeatures.new

/-- The vector its model is asked about. -/
def vectorOf (env : Env M R S) (doc : HTMLDocument) : List ℚ :=
  (generateNewsDetFeatures (featuresOf env doc)).toOption.getD []

/-- A document after detection. -/
def verdict (env : Env M R S) (doc : HTMLDocument) : DocFeatures :=
  detected env.scores (vectorOf env doc) (featuresOf env doc)

theorem docFeatures_eq (env : Env M R S) (doc : HTMLDocument) :
    docFeatures env.tools env.files (-1) doc = .ok (featuresOf env doc)
      ∧ ∃ f, featuresOf env doc = stamp doc f := by
  obtain ⟨f, hf, -, -⟩ := docFeatures_ok env.tools env.files (-1) doc
  rw [featuresOf, hf]
  exact ⟨rfl, f, rfl⟩

@[simp] theorem docName_verdict (env : Env M R S) (doc : HTMLDocument) :
    (verdict env doc).docName = doc.getMeta "path".toList := by
  obtain ⟨f, hf⟩ := (docFeatures_eq env doc).2
  rw [verdict, hf]
  rfl

@[simp] theorem title_verdict (env : Env M R S) (doc : HTMLDocument) :
    (verdict env doc).title = doc.getMeta "og:title".toList := by
  obtain ⟨f, hf⟩ := (docFeatures_eq env doc).2
  rw [verdict, hf]
  rfl

@[simp] theorem lang_verdict (env : Env M R S) (doc : HTMLDocument) :
    (verdict env doc).lang = doc.getMeta "lang".toList := by
  obtain ⟨f, hf⟩ := (docFeatures_eq env doc).2
  rw [verdict, hf]
  rfl

/-- A document is flagged by its address or by the score of its vector. -/
theorem isNews_verdict (env : Env M R S) (doc : HTMLDocument) :
    (verdict env doc).isNews = flagged env.scores (doc.getMeta "lang".toList)
      (doc.getMeta "og:url".toList) (vectorOf env doc) := by
  obtain ⟨f, hf⟩ := (docFeatures_eq env doc).2
  rw [verdict, hf]
  rfl

/-- **Detection never faults** on generated features. -/
theorem detectDoc_featuresOf (env : Env M R S) (doc : HTMLDocument) :
    detectDoc env.scores (featuresOf env doc) = .ok (verdict env doc) := by
  obtain ⟨f, hf, hvec, hother⟩ := docFeatures_ok env.tools env.files (-1) doc
  have hfeatures : featuresOf env doc = stamp doc f := by
    rw [featuresOf, hf]
    rfl
  refine detectDoc_eq env.scores ?_ ?_
  · intro hlang
    rw [hfeatures] at hlang ⊢
    rw [hother hlang]
    rfl
  · intro hlang
    rw [hfeatures] at hlang
    obtain ⟨vec, hv⟩ := hvec hlang
    have hget : generateNewsDetFeatures (featuresOf env doc) = .ok vec := by
      rw [hfeatures]
      exact hv
    rw [vectorOf, hget]
    rfl

/-- **The two stages are a map**, and then the news are moved out. -/
theorem detectFrom_eq (env : Env M R S) (docs : List HTMLDocument) :
    detectFrom env docs = .ok ((docs.map (verdict env)).filter (·.isNews),
      (docs.map (verdict env)).map fun d => if d.isNews then env.moved.run d else d.left) := by
  have hgen : generateFeatures env.tools env.files docs (-1) = .ok (docs.map (featuresOf env)) :=
    mapM_eq_ok fun doc _ => (docFeatures_eq env doc).1
  rw [detectFrom, hgen]
  show detectNews env.scores env.moved (docs.map (featuresOf env)) = _
  refine detectNews_eq ?_
  rw [List.mapM_map]
  exact mapM_eq_ok fun doc _ => detectDoc_featuresOf env doc

/-! ## The files that are news -/

/-- The document of a file once its language is recognised. -/
def recogFile (env : Env M R S) (path : Str) : HTMLDocument :=
  recogDoc env.lang true (loadFile env path)

/-- The language decided for a file. -/
def langOf (env : Env M R S) (path : Str) : Str := decidedLang env.lang true (loadFile env path)

/-- A file is news: its language is Russian or English, and its address says so or
    the model of the language gives its features more than 0.3. -/
def isNewsFile (env : Env M R S) (path : Str) : Bool :=
  (langOf env path = "ru".toList || langOf env path = "en".toList)
    && flagged env.scores (langOf env path) ((loadFile env path).getMeta "og:url".toList)
      (vectorOf env (recogFile env path))

theorem path_recogFile (env : Env M R S) (path : Str) :
    (recogFile env path).getMeta "path".toList = path := by
  rw [recogFile, getMeta_recogDoc _ _ _ (by decide) (by decide), loadFile, path_ofFile]

theorem lang_recogFile (env : Env M R S) (path : Str) :
    (recogFile env path).getMeta "lang".toList = langOf env path :=
  lang_recogDoc env.lang true (loadFile env path)

/-- What moves a file out of the first vector and then out of the second. -/
theorem isNewsFile_eq (env : Env M R S) (path : Str) :
    isNewsFile env path
      = (isRuEn (recogFile env path) && (verdict env (recogFile env path)).isNews) := by
  rw [isNews_verdict, isRuEn, lang_recogFile, recogFile,
    getMeta_recogDoc _ _ _ (by decide) (by decide)]
  rfl

/-- The documents handed on after recognition. -/
theorem recognized_eq (env : Env M R S) (files : List Str) :
    (recognizeLanguage env.lang true (loadDocs env files)).1
      = (files.map (recogFile env)).filter isRuEn := by
  rw [recognizeLanguage_result, loadDocs, List.map_map]
  rfl

/-- **The shared stages never fault**, and keep exactly the files that are news, in
    order. -/
theorem newsOf_eq (env : Env M R S) (files : List Str) :
    newsOf env files
      = .ok ((files.filter (isNewsFile env)).map fun p => verdict env (recogFile env p)) := by
  rw [newsOf, newsFrom, recognized_eq, detectFrom_eq]
  show Except.ok (((((files.map (recogFile env)).filter isRuEn)).map (verdict env)).filter
    (·.isNews)) = _
  rw [List.filter_map, List.filter_map, List.filter_map, List.filter_filter, List.map_map]
  refine congrArg (fun l : List Str => Except.ok (l.map (verdict env ∘ recogFile env))) ?_
  refine List.filter_congr ?_
  intro p _
  rw [isNewsFile_eq, Bool.and_comm]
  rfl

/-! ## What the tasks print -/

theorem drop_of_substr {s r : Str} {len : Nat} (h : substr s len = .ok r) : s.drop len = r := by
  rw [substr] at h
  by_cases hlen : len ≤ s.length
  · rw [if_pos hlen] at h
    exact Except.ok.inj h
  · rw [if_neg hlen] at h
    cases h

/-- The news among the files below a folder, by their relative names. -/
def newsNames (env : Env M R S) (f : Str) (rs : List Str) : List Str :=
  rs.filter fun r => isNewsFile env (joinPath f r)

/-- The news documents among the files below a folder. -/
def newsDocs (env : Env M R S) (f : Str) (rs : List Str) : List DocFeatures :=
  (newsNames env f rs).map fun r => verdict env (recogFile env (joinPath f r))

theorem newsOf_joinPath (env : Env M R S) (f : Str) (rs : List Str) :
    newsOf env (rs.map (joinPath f)) = .ok (newsDocs env f rs) := by
  rw [newsOf_eq, List.filter_map, List.map_map]
  rfl

/-- The name of a news document can be stripped. -/
theorem substr_newsDocs {env : Env M R S} {f : Str} {len : Nat}
    (hstrip : ∀ r, substr (joinPath f r) len = .ok r) {rs : List Str} {d : DocFeatures}
    (hd : d ∈ newsDocs env f rs) : substr d.docName len = .ok (d.docName.drop len) := by
  obtain ⟨r, -, rfl⟩ := List.mem_map.mp hd
  rw [docName_verdict, path_recogFile, hstrip r, drop_of_substr (hstrip r)]

/-- The stripped names are the relative names. -/
theorem map_drop_newsDocs {env : Env M R S} {f : Str} {len : Nat}
    (hstrip : ∀ r, substr (joinPath f r) len = .ok r) (rs : List Str) :
    ((newsDocs env f rs).map fun d => d.docName.drop len) = newsNames env f rs := by
  rw [newsDocs, List.map_map]
  refine (List.map_congr_left ?_).trans (List.map_id _)
  intro r _
  show (verdict env (recogFile env (joinPath f r))).docName.drop len = r
  rw [docName_verdict, path_recogFile, drop_of_substr (hstrip r)]

/-- News documents are flagged, so a second filter keeps them all. -/
theorem filter_isNews_newsDocs (env : Env M R S) (f : Str) (rs : List Str) :
    (newsDocs env f rs).filter (·.isNews) = newsDocs env f rs := by
  rw [List.filter_eq_self]
  intro d hd
  obtain ⟨r, hr, rfl⟩ := List.mem_map.mp hd
  have hnews := (List.mem_filter.mp hr).2
  rw [isNewsFile_eq, Bool.and_eq_true] at hnews
  exact hnews.2

/-- **Task `news`** prints the relative names of the files that are news. -/
theorem newsTask_prints (env : Env M R S) {f : Str} (hf : f ≠ []) (rs : List Str) :
    Prints (∀ r ∈ newsNames env f rs, ValidUtf8 r) (newsTask env f (rs.map (joinPath f)))
      (jsonLine env.dumpFloat (newsJson (newsNames env f rs))) := by
  obtain ⟨len, hlen, hstrip⟩ := prefixLen_joinPath hf
  have hsubstr : ∀ d ∈ newsDocs env f rs, substr d.docName len = .ok (d.docName.drop len) :=
    fun _ hd => substr_newsDocs hstrip hd
  have hdump := dumpNewsDet_prints env.dumpFloat hlen hsubstr
  rw [filter_isNews_newsDocs, map_drop_newsDocs hstrip] at hdump
  rw [newsTask, newsOf_joinPath, lift_ok_bind]
  exact hdump

/-- The relative names of the files that are decided to be in a language. -/
def namesOf (env : Env M R S) (f : Str) (rs : List Str) (lang : Str) : List Str :=
  rs.filter fun r => langOf env (joinPath f r) = lang

/-- **Task `languages`** prints, for each of the two languages, the relative names of
    the files decided to be in it. -/
theorem languagesTask_prints (env : Env M R S) {f : Str} (hf : f ≠ []) (rs : List Str) :
    Prints (∀ r ∈ rs, langOf env (joinPath f r) = "ru".toList
        ∨ langOf env (joinPath f r) = "en".toList → ValidUtf8 r)
      (languagesTask env f (rs.map (joinPath f)))
      (jsonLine env.dumpFloat (languagesJson (namesOf env f rs "ru".toList)
        (namesOf env f rs "en".toList))) := by
  obtain ⟨len, hlen, hstrip⟩ := prefixLen_joinPath hf
  have hrel : ∀ r, ((recogFile env (joinPath f r)).getMeta "path".toList).drop len = r := by
    intro r
    rw [path_recogFile, drop_of_substr (hstrip r)]
  have hnames : ∀ lang, lang = "ru".toList ∨ lang = "en".toList →
      namesIn (fun d => (d.getMeta "path".toList).drop len) lang
          (((rs.map (joinPath f)).map (recogFile env)).filter isRuEn)
        = namesOf env f rs lang := by
    intro lang hlang
    rw [namesIn, List.filter_filter, List.filter_map, List.filter_map, List.map_map, List.map_map]
    refine (List.map_congr_left fun r _ => hrel r).trans ((List.map_id _).trans
      (List.filter_congr ?_))
    intro r _
    show (decide ((recogFile env (joinPath f r)).getMeta "lang".toList = lang)
      && isRuEn (recogFile env (joinPath f r))) = _
    rw [isRuEn, lang_recogFile]
    by_cases h : langOf env (joinPath f r) = lang
    · rw [h]
      rcases hlang with rfl | rfl <;> decide
    · simp [h]
  have hmem : ∀ d, d ∈ ((rs.map (joinPath f)).map (recogFile env)).filter isRuEn ↔
      ∃ r ∈ rs, recogFile env (joinPath f r) = d ∧ isRuEn d := by
    intro d
    simp only [List.mem_filter, List.mem_map, exists_exists_and_eq_and]
    tauto
  have hsubstr : ∀ d ∈ ((rs.map (joinPath f)).map (recogFile env)).filter isRuEn, RuOrEn d →
      substr (d.getMeta "path".toList) len = .ok ((d.getMeta "path".toList).drop len) := by
    intro d hd _
    obtain ⟨r, -, rfl, -⟩ := (hmem d).mp hd
    rw [path_recogFile, hstrip r, drop_of_substr (hstrip r)]
  have hdump := dumpLanguage_prints env.dumpFloat hlen hsubstr
  rw [hnames _ (Or.inl rfl), hnames _ (Or.inr rfl)] at hdump
  rw [languagesTask, recognized_eq]
  refine hdump.congr ?_ rfl
  constructor
  · intro h d hd hlisted
    obtain ⟨r, hr, rfl, -⟩ := (hmem d).mp hd
    rw [RuOrEn, lang_recogFile] at hlisted
    rw [hrel]
    exact h r hr hlisted
  · intro h r hr hlang
    have hd := (hmem (recogFile env (joinPath f r))).mpr
      ⟨r, hr, rfl, by rw [isRuEn, lang_recogFile]; simpa using hlang⟩
    have hvalid := h _ hd (by rw [RuOrEn, lang_recogFile]; exact hlang)
    rwa [hrel] at hvalid

/-! ## A small run -/

/-- A page with a title and an address. -/
def samplePage (title url : Str) : Node :=
  .element "html".toList [] [
    .element "meta".toList [("property".toList, "og:title".toList),
      ("content".toList, title)] [],
    .element "meta".toList [("property".toList, "og:url".toList),
      ("content".toList, url)] []]

/-- Surroundings in which every text is in the language `lang`, every page has the
    title `title path`, and the Russian model says one half. -/
def sampleEnv (lang : Str) (title : Str → Str) : Env Unit Str (List Word) where
  dom path := samplePage (title path) "https://example.org/1".toList
  lang := { siteFile := fun _ => [], findLanguage := fun _ => ⟨lang, 1⟩ }
  tools := sampleTools
  files := sampleFiles
  scores := { ru := fun _ => 1 / 2, en := fun _ => 1 / 4 }
  topics := sampleARTM
  moved := .emptied
  tokenOrder := .stored
  docsOrder := .stored
  keyOrder := .stored
  dumpFloat _ := []

/-- A file that is news is in one of the two languages. -/
theorem mem_namesOf_of_newsNames {env : Env M R S} {f : Str} {rs : List Str} {r : Str}
    (hr : r ∈ newsNames env f rs) :
    r ∈ namesOf env f rs "ru".toList ∨ r ∈ namesOf env f rs "en".toList := by
  obtain ⟨hmem, hnews⟩ := List.mem_filter.mp hr
  rw [isNewsFile, Bool.and_eq_true, Bool.or_eq_true, decide_eq_true_eq, decide_eq_true_eq]
    at hnews
  rcases hnews.1 with h | h
  · exact Or.inl (List.mem_filter.mpr ⟨hmem, by simpa using h⟩)
  · exact Or.inr (List.mem_filter.mpr ⟨hmem, by simpa using h⟩)

/-- **Every article once, in order, and news among languages.**  Task `news` prints
    the files that are news, task `languages` those of each language, all by their
    relative names in the order the files were found, exactly when the names of the files
    in the two languages are valid UTF-8; what is news is listed under its language. -/
theorem news_languages_articles_iff (env : Env M R S) {f : Str} (hf : f ≠ []) (rs : List Str) :
    (Writes (newsTask env f (rs.map (joinPath f)))
        (jsonLine env.dumpFloat (newsJson (rs.filter fun r => isNewsFile env (joinPath f r))))
      ∧ Writes (languagesTask env f (rs.map (joinPath f)))
        (jsonLine env.dumpFloat (languagesJson
          (rs.filter fun r => langOf env (joinPath f r) = "ru".toList)
          (rs.filter fun r => langOf env (joinPath f r) = "en".toList)))
      ∧ ∀ r ∈ rs.filter fun r => isNewsFile env (joinPath f r),
          r ∈ (rs.filter fun r => langOf env (joinPath f r) = "ru".toList)
            ∨ r ∈ rs.filter fun r => langOf env (joinPath f r) = "en".toList) ↔
    ∀ r ∈ rs, langOf env (joinPath f r) = "ru".toList
      ∨ langOf env (joinPath f r) = "en".toList → ValidUtf8 r := by
  constructor
  · rintro ⟨-, hlanguages, -⟩
    exact (languagesTask_prints env hf rs).writes_iff.mp hlanguages
  · intro hvalid
    refine ⟨(newsTask_prints env hf rs).writes ?_, (languagesTask_prints env hf rs).writes hvalid,
      fun r hr => mem_namesOf_of_newsNames hr⟩
    intro r hr
    have hmem := List.mem_of_mem_filter hr
    rcases mem_namesOf_of_newsNames hr with h | h
    · exact hvalid r hmem (Or.inl (by simpa using (List.mem_filter.mp h).2))
    · exact hvalid r hmem (Or.inr (by simpa using (List.mem_filter.mp h).2))

/-- Two Russian files that the model takes for news. -/
theorem news_languages_articles_two :
    Writes (newsTask (sampleEnv "ru".toList id) "in".toList
        (["a.html".toList, "b/c.html".toList].map (joinPath "in".toList)))
      (jsonLine (fun _ => []) (newsJson ["a.html".toList, "b/c.html".toList]))
    ∧ Writes (languagesTask (sampleEnv "ru".toList id) "in".toList
        (["a.html".toList, "b/c.html".toList].map (joinPath "in".toList)))
      (jsonLine (fun _ => []) (languagesJson ["a.html".toList, "b/c.html".toList] [])) := by
  obtain ⟨hnews, hlanguages, -⟩ := (news_languages_articles_iff (sampleEnv "ru".toList id)
    (show "in".toList ≠ [] by decide) ["a.html".toList, "b/c.html".toList]).mpr
      (by decide +kernel)
  refine ⟨?_, ?_⟩
  · have hnames : (["a.html".toList, "b/c.html".toList].filter fun r =>
        isNewsFile (sampleEnv "ru".toList id) (joinPath "in".toList r))
        = ["a.html".toList, "b/c.html".toList] := by decide +kernel
    rw [hnames] at hnews
    exact hnews
  · have hru : (["a.html".toList, "b/c.html".toList].filter fun r =>
        langOf (sampleEnv "ru".toList id) (joinPath "in".toList r) = "ru".toList)
        = ["a.html".toList, "b/c.html".toList] := by decide +kernel
    have hen : (["a.html".toList, "b/c.html".toList].filter fun r =>
        langOf (sampleEnv "ru".toList id) (joinPath "in".toList r) = "en".toList)
        = [] := by decide +kernel
    rw [hru, hen] at hlanguages
    exact hlanguages

/-- The name of the one file is the byte `FF` with its extension: neither task prints. -/
theorem news_languages_strayByte :
    ¬ (Writes (newsTask (sampleEnv "ru".toList id) "in".toList
          (["ÿ.html".toList].map (joinPath "in".toList)))
        (jsonLine (fun _ => []) (newsJson (["ÿ.html".toList].filter fun r =>
          isNewsFile (sampleEnv "ru".toList id) (joinPath "in".toList r))))
      ∧ Writes (languagesTask (sampleEnv "ru".toList id) "in".toList
          (["ÿ.html".toList].map (joinPath "in".toList)))
        (jsonLine (fun _ => []) (languagesJson
          (["ÿ.html".toList].filter fun r =>
            langOf (sampleEnv "ru".toList id) (joinPath "in".toList r) = "ru".toList)
          (["ÿ.html".toList].filter fun r =>
            langOf (sampleEnv "ru".toList id) (joinPath "in".toList r) = "en".toList)))) := by
  rintro ⟨hnews, -⟩
  have hvalid := (newsTask_prints (sampleEnv "ru".toList id) (show "in".toList ≠ [] by decide)
    ["ÿ.html".toList]).writes_iff.mp hnews
  exact absurd hvalid (by decide +kernel)

/-! ## Threads against news -/

/-- The article names of all threads. -/
def threadArticles (j : Json) : List Str := j.elems.flatMap Json.articles

/-- A prefix with nothing behind it is the whole. -/
theorem len_of_substr {s : Str} {len : Nat} (h : substr s len = .ok []) : len = s.length := by
  have hdrop := drop_of_substr h
  rw [substr] at h
  split_ifs at h with hle
  have := List.drop_eq_nil_iff.mp hdrop
  omega

/-- The threads of the news among the files below a folder, as they are walked. -/
def threadsJson (env : Env M R S) (f : Str) (rs : List Str) : Json :=
  .arr ((env.docsOrder.run (getThreads (newsDocs env f rs))).map
    (threadJson fun d => d.docName.drop (joinPath f []).length))

/-- **Task `threads`** prints the threads of the news. -/
theorem threadsTask_prints (env : Env M R S) {f : Str} (hf : f ≠ []) (rs : List Str) :
    Prints (AllUtf8 (threadsJson env f rs)) (threadsTask env f (rs.map (joinPath f)))
      (jsonLine env.dumpFloat (threadsJson env f rs)) := by
  obtain ⟨len, hlen, hstrip⟩ := prefixLen_joinPath hf
  obtain rfl : len = (joinPath f []).length := len_of_substr (hstrip [])
  have hsubstr : ∀ e ∈ (getThreads (newsDocs env f rs)).entries, ∀ d ∈ e.2,
      substr d.docName (joinPath f []).length = .ok (d.docName.drop (joinPath f []).length) := by
    intro e he d hd
    obtain ⟨d', hd', -, heq⟩ := thread_singleton he
    rw [heq, List.mem_singleton] at hd
    rw [hd]
    exact substr_newsDocs hstrip hd'
  rw [threadsTask, newsOf_joinPath, lift_ok_bind]
  exact print_of_result env.dumpFloat (newsThreadsResult_eq env.docsOrder hlen hsubstr)

/-- The articles of the threads are the names of the documents they hold. -/
theorem threadArticles_threadsJson (env : Env M R S) (f : Str) (rs : List Str) :
    (threadArticles (threadsJson env f rs)).Perm
      (((getThreads (newsDocs env f rs)).entries.flatMap fun e => e.2).map
        fun d => d.docName.drop (joinPath f []).length) := by
  show (((env.docsOrder.run (getThreads (newsDocs env f rs))).map
    (threadJson fun d => d.docName.drop (joinPath f []).length)).flatMap Json.articles).Perm _
  have hperm := (env.docsOrder.perm (getThreads (newsDocs env f rs))).flatMap_right
    fun p => p.2.map fun d => d.docName.drop (joinPath f []).length
  rw [List.flatMap_map] at hperm
  rw [List.flatMap_map, List.map_flatMap]
  simp only [articles_threadJson]
  exact hperm

/-- The titles of the news among the files below a folder. -/
def newsTitles (env : Env M R S) (f : Str) (rs : List Str) : List Str :=
  (newsNames env f rs).map fun r => (loadFile env (joinPath f r)).getMeta "og:title".toList

theorem map_title_newsDocs (env : Env M R S) (f : Str) (rs : List Str) :
    (newsDocs env f rs).map DocFeatures.title = newsTitles env f rs := by
  rw [newsDocs, List.map_map]
  refine List.map_congr_left ?_
  intro r _
  show (verdict env (recogFile env (joinPath f r))).title = _
  rw [title_verdict, recogFile, getMeta_recogDoc _ _ _ (by decide) (by decide)]

/-- **The articles of the threads are the news exactly when no title is shared.** -/
theorem threadArticles_perm_iff (env : Env M R S) {f : Str} (hf : f ≠ []) (rs : List Str) :
    (threadArticles (threadsJson env f rs)).Perm (newsNames env f rs) ↔
      (newsTitles env f rs).Nodup := by
  obtain ⟨len, -, hstrip⟩ := prefixLen_joinPath hf
  obtain rfl : len = (joinPath f []).length := len_of_substr (hstrip [])
  have hperm := threadArticles_threadsJson env f rs
  rw [← map_drop_newsDocs hstrip rs, ← map_title_newsDocs]
  constructor
  · intro h
    -- as many articles as distinct titles, and as many as documents
    have hlen := (hperm.symm.trans h).length_eq
    rw [List.length_map, List.length_map, length_threads] at hlen
    rw [← List.dedup_eq_self]
    refine (List.dedup_sublist _).eq_of_length ?_
    rw [hlen, List.length_map]
  · intro h
    exact hperm.trans (((partitions_iff _).mpr h).perm.map _)

/-- **What has to be valid** for the threads to be printed, where they hold all news. -/
theorem allUtf8_threadsJson_iff (env : Env M R S) {f : Str} (hf : f ≠ []) {rs : List Str}
    (h : (newsTitles env f rs).Nodup) :
    AllUtf8 (threadsJson env f rs) ↔ (∀ title ∈ newsTitles env f rs, ValidUtf8 title)
      ∧ ∀ r ∈ newsNames env f rs, ValidUtf8 r := by
  obtain ⟨len, -, hstrip⟩ := prefixLen_joinPath hf
  obtain rfl : len = (joinPath f []).length := len_of_substr (hstrip [])
  have hperm := ((partitions_iff (newsDocs env f rs)).mpr
    ((map_title_newsDocs env f rs).symm ▸ h)).perm
  rw [← map_drop_newsDocs hstrip rs, ← map_title_newsDocs, List.forall_mem_map,
    List.forall_mem_map, threadsJson, AllUtf8, elemsUtf8_iff, List.forall_mem_map,
    env.docsOrder.forall_run]
  simp only [allUtf8_threadJson]
  constructor
  · intro hall
    have hentry : ∀ d ∈ newsDocs env f rs, ∃ e ∈ (getThreads (newsDocs env f rs)).entries,
        e.2 = [d] ∧ e.1 = d.title := by
      intro d hd
      obtain ⟨e, he, hde⟩ := List.mem_flatMap.mp (hperm.mem_iff.mpr hd)
      obtain ⟨d', -, htitle, heq⟩ := thread_singleton he
      rw [heq, List.mem_singleton] at hde
      subst hde
      exact ⟨e, he, heq, htitle⟩
    refine ⟨fun d hd => ?_, fun d hd => ?_⟩
    · obtain ⟨e, he, -, htitle⟩ := hentry d hd
      exact htitle ▸ (hall e he).1
    · obtain ⟨e, he, hdocs, -⟩ := hentry d hd
      exact (hall e he).2 d (by rw [hdocs]; exact List.mem_singleton_self d)
  · rintro ⟨htitles, hnames⟩ e he
    obtain ⟨d, hd, htitle, hdocs⟩ := thread_singleton he
    refine ⟨htitle ▸ htitles d hd, fun d' hd' => ?_⟩
    rw [hdocs, List.mem_singleton] at hd'
    exact hd' ▸ hnames d hd

/-- **Threads partition the news exactly when no title is shared.**  For every list
    of documents `GetThreads` partitions it if and only if the titles are distinct,
    and for every folder the tasks `news` and `threads` both print, and print the same
    articles, each as often, if and only if the titles of its news are distinct and those
    titles and the names are valid UTF-8. -/
theorem threads_match_news_iff (env : Env M R S) {f : Str} (hf : f ≠ []) (rs : List Str) :
    (∀ docs, Partitions (getThreads docs) docs ↔ (docs.map DocFeatures.title).Nodup)
    ∧ ((Writes (newsTask env f (rs.map (joinPath f)))
          (jsonLine env.dumpFloat (newsJson (newsNames env f rs)))
        ∧ Writes (threadsTask env f (rs.map (joinPath f)))
          (jsonLine env.dumpFloat (threadsJson env f rs))
        ∧ (threadArticles (threadsJson env f rs)).Perm (newsNames env f rs)) ↔
      (newsTitles env f rs).Nodup ∧ (∀ title ∈ newsTitles env f rs, ValidUtf8 title)
        ∧ ∀ r ∈ newsNames env f rs, ValidUtf8 r) := by
  refine ⟨partitions_iff, ?_⟩
  rw [(newsTask_prints env hf rs).writes_iff, (threadsTask_prints env hf rs).writes_iff,
    threadArticles_perm_iff env hf]
  constructor
  · rintro ⟨-, hthreads, hnodup⟩
    exact ⟨hnodup, (allUtf8_threadsJson_iff env hf hnodup).mp hthreads⟩
  · rintro ⟨hnodup, hvalid⟩
    exact ⟨hvalid.2, (allUtf8_threadsJson_iff env hf hnodup).mpr hvalid, hnodup⟩

/-- Two files with titles of their own. -/
theorem threads_match_news_two :
    Writes (threadsTask (sampleEnv "ru".toList id) "in".toList
        (["a.html".toList, "b.html".toList].map (joinPath "in".toList)))
      (jsonLine (fun _ => [])
        (threadsJson (sampleEnv "ru".toList id) "in".toList ["a.html".toList, "b.html".toList]))
    ∧ (threadArticles (threadsJson (sampleEnv "ru".toList id) "in".toList
        ["a.html".toList, "b.html".toList])).Perm ["a.html".toList, "b.html".toList] := by
  obtain ⟨-, hiff⟩ := threads_match_news_iff (sampleEnv "ru".toList id)
    (show "in".toList ≠ [] by decide) ["a.html".toList, "b.html".toList]
  obtain ⟨-, hthreads, hperm⟩ := hiff.mpr (by decide +kernel)
  have hnames : newsNames (sampleEnv "ru".toList id) "in".toList
      ["a.html".toList, "b.html".toList] = ["a.html".toList, "b.html".toList] := by
    decide +kernel
  rw [hnames] at hperm
  exact ⟨hthreads, hperm⟩

/-- Of two news with one title a thread keeps the last. -/
theorem getThreads_sameTitle :
    ¬ Partitions
      (getThreads [{ sampleNews "ru".toList "a.html".toList with title := "t".toList },
        { sampleNews "ru".toList "b.html".toList with title := "t".toList }])
      [{ sampleNews "ru".toList "a.html".toList with title := "t".toList },
        { sampleNews "ru".toList "b.html".toList with title := "t".toList }] := by
  rw [partitions_iff]
  decide

end TgnewsTasks
