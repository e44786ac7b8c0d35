import Tgnews.TasksProofs

/-! # The tasks `news_test` and `dump` (`tgnews.cpp`)

    These two tasks drop what `RecognizeLanguage` returns and go on with the vector
    it was given.  The Russian and English documents have been moved out of that
    vector, so the features generated next are those of default documents: the
    documents are intact exactly when none was moved out. -/

namespace TgnewsTestTasks

open CxxContainers CxxText TgnewsCommon TgnewsHtml TgnewsLangrec TgnewsIo TgnewsSerializer
open TgnewsDump TgnewsFeatures TgnewsNewsDet TgnewsDebug TgnewsTasks

variable {M R S : Type}

/-- The document still carries what was loaded, and its recognised language. -/
structure Intact (env : LangEnv) (loaded handed : HTMLDocument) : Prop where
  text : handed.text = loaded.text
  metas : ∀ key, key ≠ "lang".toList → key ≠ "lang_score".toList →
    handed.metaMap.lookup key = loaded.metaMap.lookup key
  lang : handed.getMeta "lang".toList = decidedLang env true loaded

/-- The result that `news_test` prints. -/
def newsTestResult (env : Env M R S) (folder : Str) (files : List Str) : Except Fault Json := do
  let (news, _) ← detectFrom env (handedDocs env files)
  newsDetTestResult news folder

/-- What the two tasks owe to the files they were given. -/
structure KeepsDocs (env : Env M R S) (folder : Str) (files : List Str) : Prop where
  /-- Each document handed to `GenerateFeatures` is intact. -/
  intact : ∀ {i : Nat} {path : Str}, files[i]? = some path →
    ∃ doc, (handedDocs env files)[i]? = some doc ∧ Intact env.lang (loadFile env path) doc
  /-- `news_test` prints the score of every Russian file that is flagged. -/
  scores : ∃ j, newsTestResult env folder files = .ok j
    ∧ Writes (newsTestTask env folder files) (jsonLine env.dumpFloat j)
    ∧ ∀ path ∈ files, langOf env path = "ru".toList →
      (verdict env (recogFile env path)).isNews →
      j.index path = .num (verdict env (recogFile env path)).isNewsScore
  /-- `dump` writes a row with its path and language for every file. -/
  rows : ∀ {i : Nat} {path : Str}, files[i]? = some path →
    ∃ t, dumpTask env files = .ok t ∧ t.rows.length = files.length
      ∧ t.cell i "path".toList = some (cleanCell path)
      ∧ t.cell i "lang".toList = some (cleanCell (langOf env path))

/-- A recognised document is intact as long as it stays where it is. -/
theorem intact_recogDoc (env : LangEnv) (doc : HTMLDocument) :
    Intact env doc (recogDoc env true doc) :=
  ⟨text_recogDoc env true doc, fun _ h1 h2 => lookup_recogDoc env true doc h1 h2,
    lang_recogDoc env true doc⟩

/-- The vector the tasks go on with, file by file. -/
theorem handedDocs_eq (env : Env M R S) (files : List Str) :
    handedDocs env files = files.map fun p =>
      if langOf env p = "ru".toList ∨ langOf env p = "en".toList then HTMLDocument.empty
      else recogFile env p := by
  rw [handedDocs, recognizeLanguage_left, loadDocs, List.map_map]
  refine List.map_congr_left ?_
  intro p _
  show (if isRuEn (recogFile env p) = true then _ else _) = _
  rw [isRuEn, lang_recogFile]
  simp only [Bool.or_eq_true, decide_eq_true_eq]
  rfl

/-- **A document that was moved out is not intact**: it has no language left. -/
theorem not_intact_empty {env : LangEnv} {doc : HTMLDocument}
    (h : decidedLang env true doc = "ru".toList ∨ decidedLang env true doc = "en".toList) :
    ¬ Intact env doc HTMLDocument.empty := by
  intro hi
  have hlang := hi.lang
  rw [getMeta_empty] at hlang
  rcases h with h | h
  · rw [h] at hlang
    exact nomatch hlang
  · rw [h] at hlang
    exact nomatch hlang

section NoneMoved

variable {env : Env M R S} {files : List Str}

theorem handedDocs_none
    (h : ∀ p ∈ files, ¬ (langOf env p = "ru".toList ∨ langOf env p = "en".toList)) :
    handedDocs env files = files.map (recogFile env) := by
  rw [handedDocs_eq]
  refine List.map_congr_left ?_
  intro p hp
  rw [if_neg (h p hp)]

/-- The rows of `dump` when no document was moved out. -/
theorem dumpTask_rows
    (h : ∀ p ∈ files, ¬ (langOf env p = "ru".toList ∨ langOf env p = "en".toList))
    {i : Nat} {path : Str} (hi : files[i]? = some path) :
    ∃ t, dumpTask env files = .ok t ∧ t.rows.length = files.length
      ∧ t.cell i "path".toList = some (cleanCell path)
      ∧ t.cell i "lang".toList = some (cleanCell (langOf env path)) := by
  let docs := files.map (recogFile env)
  let features := (docs.map (verdict env)).map fun d => if d.isNews then env.moved.run d else d.left
  have hdoc : docs[i]? = some (recogFile env path) := by
    rw [List.getElem?_map, hi]
    rfl
  have hlen : features.length = docs.length := by simp [features]
  have hi' : i < docs.length := (List.getElem?_eq_some_iff.mp hdoc).1
  have hfeature := List.getElem?_eq_getElem (l := features) (i := i) (by omega)
  have hne : docs ≠ [] := List.ne_nil_of_length_pos (by omega)
  obtain ⟨t, ht⟩ : ∃ t, makeTsv env.keyOrder docs features = .ok t :=
    ⟨_, makeTsv_eq env.keyOrder hne hlen⟩
  have hcell : ∀ (k v : Str), (recogFile env path).metaMap.lookup k = some v →
      k ≠ "text".toList → k ≠ "related_links".toList → k ≠ "is_news".toList →
      k ≠ "is_news_score".toList → t.cell i k = some (cleanCell v) := by
    intro k v hv h1 h2 h3 h4
    -- a key of one document is a column for all
    have hkey : k ∈ metaKeys docs := by
      refine List.mem_append_left _ (List.mem_flatMap.mpr ⟨_, List.mem_of_getElem? hdoc, ?_⟩)
      exact AList.lookup_isSome.mp (by rw [hv]; rfl)
    rw [cell_makeTsv env.keyOrder hlen ht hkey h1 h2 hdoc hfeature, getMeta_markNews _ _ h3 h4,
      HTMLDocument.getMeta, hv]
    rfl
  refine ⟨t, ?_, ?_, ?_, ?_⟩
  · rw [dumpTask, handedDocs_none h, detectFrom_eq]
    exact ht
  · obtain rfl := Except.ok.inj ((makeTsv_eq env.keyOrder hne hlen).symm.trans ht)
    simp [docs]
  · refine hcell _ _ ?_ (by decide) (by decide) (by decide) (by decide)
    rw [recogFile, lookup_recogDoc _ _ _ (by decide) (by decide), loadFile, HTMLDocument.ofFile,
      AList.lookup_insert]
  · exact hcell _ _ (lookup_lang_recogDoc env.lang true (loadFile env path)) (by decide)
      (by decide) (by decide) (by decide)

/-- Without a Russian document the result of `DumpNewsDetTest` is null. -/
theorem newsDetTestResult_null {docs : List DocFeatures} (h : ∀ d ∈ docs, d.lang ≠ "ru".toList)
    {folder : Str} (hfolder : folder ≠ []) : newsDetTestResult docs folder = .ok .null := by
  obtain ⟨len, hlen, -⟩ := prefixLen_joinPath hfolder
  rw [newsDetTestResult, hlen]
  refine congrArg Except.ok ?_
  induction docs with
  | nil => rfl
  | cons d docs ih =>
      rw [List.foldl_cons, if_neg (h d List.mem_cons_self)]
      exact ih fun d hd => h d (List.mem_cons_of_mem _ hd)

/-- `news_test` prints null when no document was moved out. -/
theorem newsTestTask_null {folder : Str} (hfolder : folder ≠ [])
    (h : ∀ p ∈ files, ¬ (langOf env p = "ru".toList ∨ langOf env p = "en".toList)) :
    newsTestResult env folder files = .ok .null
      ∧ Writes (newsTestTask env folder files) (jsonLine env.dumpFloat .null) := by
  have hlang : ∀ d ∈ ((handedDocs env files).map (verdict env)).filter (·.isNews),
      d.lang ≠ "ru".toList := by
    intro d hd
    rw [handedDocs_none h, List.map_map] at hd
    obtain ⟨p, hp, rfl⟩ := List.mem_map.mp (List.mem_of_mem_filter hd)
    rw [Function.comp_apply, lang_verdict, lang_recogFile]
    exact fun hru => h p hp (Or.inl hru)
  have hresult := newsDetTestResult_null hlang hfolder
  refine ⟨?_, ?_⟩
  · rw [newsTestResult, detectFrom_eq]
    exact hresult
  · rw [newsTestTask, detectFrom_eq, lift_ok_bind]
    exact (print_of_result env.dumpFloat hresult).writes trivial

end NoneMoved

/-- **Exactly when nothing was moved out.**  The tasks `news_test` and `dump` keep
    their documents if and only if no file is decided to be Russian or English. -/
theorem keepsDocs_iff (env : Env M R S) {folder : Str} (hfolder : folder ≠ [])
    (files : List Str) :
    KeepsDocs env folder files
      ↔ ∀ p ∈ files, ¬ (langOf env p = "ru".toList ∨ langOf env p = "en".toList) := by
  constructor
  · -- at the place of such a file the tasks go on with a default document
    intro h p hp hlang
    obtain ⟨i, hi⟩ := List.getElem?_of_mem hp
    obtain ⟨doc, hdoc, hintact⟩ := h.intact hi
    rw [handedDocs_eq, List.getElem?_map, hi, Option.map_some, if_pos hlang] at hdoc
    obtain rfl := Option.some.inj hdoc
    exact not_intact_empty hlang hintact
  · intro h
    refine ⟨?_, ?_, dumpTask_rows h⟩
    · intro i path hi
      refine ⟨recogFile env path, ?_, intact_recogDoc env.lang (loadFile env path)⟩
      rw [handedDocs_none h, List.getElem?_map, hi]
      rfl
    · obtain ⟨hresult, hwrites⟩ := newsTestTask_null hfolder h
      exact ⟨.null, hresult, hwrites, fun p hp hru _ => absurd (Or.inl hru) (h p hp)⟩

/-- A file in a third language is kept. -/
theorem keepsDocs_third :
    KeepsDocs (sampleEnv "de".toList id) "in".toList ["in/a.html".toList] :=
  (keepsDocs_iff (sampleEnv "de".toList id) (by decide) ["in/a.html".toList]).mpr
    (by decide +kernel)

/-- A Russian file that is flagged is lost: `news_test` prints no score for it, and
    its document is not intact. -/
theorem newsTestTask_russian :
    langOf (sampleEnv "ru".toList id) "in/a.html".toList = "ru".toList
    ∧ (verdict (sampleEnv "ru".toList id)
        (recogFile (sampleEnv "ru".toList id) "in/a.html".toList)).isNews = true
    ∧ Writes (newsTestTask (sampleEnv "ru".toList id) "in".toList ["in/a.html".toList])
      "null\n".toList
    ∧ ¬ KeepsDocs (sampleEnv "ru".toList id) "in".toList ["in/a.html".toList] := by
  have hresult : newsTestResult (sampleEnv "ru".toList id) "in".toList ["in/a.html".toList]
      = .ok .null := by rfl
  refine ⟨by decide +kernel, by decide +kernel, ?_, ?_⟩
  · have hprints := (print_of_result (fun _ => []) hresult).writes trivial
    intro out
    exact hprints out
  intro h
  have hfirst : ["in/a.html".toList][0]? = some "in/a.html".toList := rfl
  obtain ⟨doc, hdoc, hintact⟩ := h.intact hfirst
  have hempty : doc = HTMLDocument.empty := by
    rw [handedDocs_eq] at hdoc
    exact (Option.some.inj hdoc).symm
  rw [hempty] at hintact
  exact not_intact_empty (Or.inl (by decide +kernel)) hintact

end TgnewsTestTasks
