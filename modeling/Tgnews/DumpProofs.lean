import Tgnews.SerializerProofs

/-! # The dump functions (`io.hpp`)

    Each builds its result first (`IoProofs`) and then streams it to the standard output,
    which throws on a string that is not valid UTF-8 (`SerializerProofs`).  The route:

    * `dumpLanguage_prints`, `dumpNewsDet_prints`, `dumpNewsThreads_prints` — so a dump is
      printed exactly when the names and titles in it are valid;
    * `dumpNewsThreads_writes_iff` — every thread is printed exactly then;
    * `dumpLanguage_twoLanguages_iff` — and both languages are printed with their articles
      exactly when both occur as well. -/

namespace TgnewsDump

open CxxContainers CxxText TgnewsCommon TgnewsHtml TgnewsIo TgnewsSerializer

section Dump

variable (dumpFloat : ℚ → Str)

/-- `DumpLanguage`. -/
def dumpLanguage (docs : List HTMLDocument) (pathPrefix : Str) : Print Unit := do
  let result ← languageResult docs pathPrefix
  printJson dumpFloat result

/-- `DumpNewsDet`. -/
def dumpNewsDet (docs : List DocFeatures) (pathPrefix : Str) : Print Unit := do
  let result ← newsDetResult docs pathPrefix
  printJson dumpFloat result

/-- `DumpNewsCat`, the categories in some iteration order. -/
def dumpNewsCat (order : IterOrder Str (List DocFeatures))
    (cats2docs : UMap Str (List DocFeatures)) (pathPrefix : Str) : Print Unit := do
  let result ← newsCatResult order cats2docs pathPrefix
  printJson dumpFloat result

/-- `DumpNewsThreads`, the threads in some iteration order. -/
def dumpNewsThreads (order : IterOrder Str (List DocFeatures))
    (threads2docs : UMap Str (List DocFeatures)) (pathPrefix : Str) : Print Unit := do
  let result ← newsThreadsResult order threads2docs pathPrefix
  printJson dumpFloat result

/-- `DumpNewsDetTest`. -/
def dumpNewsDetTest (docs : List DocFeatures) (pathPrefix : Str) : Print Unit := do
  let result ← newsDetTestResult docs pathPrefix
  printJson dumpFloat result

/-- A dump is printed exactly when the strings of its result are valid. -/
theorem print_of_result {result : Except Fault Json} {j : Json} (h : result = .ok j) :
    Prints (AllUtf8 j) ((liftM result : Print Json) >>= printJson dumpFloat)
      (jsonLine dumpFloat j) := by
  rw [h, lift_ok_bind]
  exact printJson_prints dumpFloat j

/-! ## Strings of the results -/

/-- The result of `DumpNewsDet` for a list of names. -/
def newsJson (names : List Str) : Json := .obj [("articles".toList, .ofNames names)]

theorem allUtf8_newsJson (names : List Str) :
    AllUtf8 (newsJson names) ↔ ∀ name ∈ names, ValidUtf8 name := by
  have hkey : ValidUtf8 "articles".toList := by decide +kernel
  rw [newsJson, AllUtf8, FieldsUtf8, FieldsUtf8, allUtf8_ofNames]
  simp only [hkey, true_and, and_true]

/-- **The output of `news`** is written exactly when the names are valid. -/
theorem dumpNewsDet_prints {f : Str} {len : Nat} {docs : List DocFeatures}
    {rel : DocFeatures → Str} (hlen : prefixLen f = .ok len)
    (h : ∀ d ∈ docs, substr d.docName len = .ok (rel d)) :
    Prints (∀ name ∈ (docs.filter (·.isNews)).map rel, ValidUtf8 name)
      (dumpNewsDet dumpFloat docs f)
      (jsonLine dumpFloat (newsJson ((docs.filter (·.isNews)).map rel))) :=
  (print_of_result dumpFloat (newsDetResult_eq hlen h)).congr (allUtf8_newsJson _).symm rfl

/-! ## The languages -/

theorem allUtf8_langJson {lang : Str} (hlang : ValidUtf8 lang) (names : List Str) :
    AllUtf8 (langJson lang names) ↔ ∀ name ∈ names, ValidUtf8 name := by
  have harticles : ValidUtf8 "articles".toList := by decide +kernel
  have hcode : ValidUtf8 "lang_code".toList := by decide +kernel
  rw [langJson]
  split_ifs with hnames
  · rw [AllUtf8, FieldsUtf8, FieldsUtf8, AllUtf8, hnames]
    exact iff_of_true ⟨⟨hcode, hlang⟩, trivial⟩ fun _ h => absurd h List.not_mem_nil
  · rw [AllUtf8, FieldsUtf8, FieldsUtf8, FieldsUtf8, allUtf8_ofNames, AllUtf8]
    simp only [harticles, hcode, hlang, true_and, and_true]

/-- The result of `DumpLanguage` for the names in each language. -/
def languagesJson (ru en : List Str) : Json :=
  .arr [langJson "ru".toList ru, langJson "en".toList en]

theorem allUtf8_languagesJson (ru en : List Str) :
    AllUtf8 (languagesJson ru en) ↔
      (∀ name ∈ ru, ValidUtf8 name) ∧ ∀ name ∈ en, ValidUtf8 name := by
  have hru : ValidUtf8 "ru".toList := by decide +kernel
  have hen : ValidUtf8 "en".toList := by decide +kernel
  rw [languagesJson, AllUtf8, ElemsUtf8, ElemsUtf8, ElemsUtf8, allUtf8_langJson hru,
    allUtf8_langJson hen, and_true]

/-- **The output of `languages`** is written exactly when the names are valid. -/
theorem dumpLanguage_prints {f : Str} {len : Nat} {docs : List HTMLDocument}
    {rel : HTMLDocument → Str} (hlen : prefixLen f = .ok len)
    (h : ∀ d ∈ docs, RuOrEn d → substr (d.getMeta "path".toList) len = .ok (rel d)) :
    Prints (∀ d ∈ docs, RuOrEn d → ValidUtf8 (rel d)) (dumpLanguage dumpFloat docs f)
      (jsonLine dumpFloat (languagesJson (namesIn rel "ru".toList docs)
        (namesIn rel "en".toList docs))) := by
  refine (print_of_result dumpFloat (languageResult_eq hlen h)).congr ?_ rfl
  have hnames : ∀ lang, (∀ name ∈ namesIn rel lang docs, ValidUtf8 name) ↔
      ∀ d ∈ docs, d.getMeta "lang".toList = lang → ValidUtf8 (rel d) := by
    intro lang
    simp only [namesIn, List.forall_mem_map, List.mem_filter, decide_eq_true_eq, and_imp]
  refine Iff.trans ?_ (allUtf8_languagesJson _ _).symm
  rw [hnames, hnames]
  constructor
  · intro hall
    exact ⟨fun d hd hru => hall d hd (Or.inl hru), fun d hd hen => hall d hd (Or.inr hen)⟩
  · rintro ⟨hru, hen⟩ d hd (hlang | hlang)
    · exact hru d hd hlang
    · exact hen d hd hlang

/-! ### Two objects with an array of articles each -/

/-- An object for a language with an array of articles, empty if no document has the
    language. -/
def LangObject (docs : List HTMLDocument) (lang : Str) (j : Json) : Prop :=
  ∃ fields articles, j = .obj fields ∧ j.index "lang_code".toList = .str lang ∧
    j.index "articles".toList = .arr articles ∧
    ((∀ d ∈ docs, d.getMeta "lang".toList ≠ lang) → articles = [])

/-- What `DumpLanguage` is to print: an object for Russian and one for English. -/
def TwoLanguages (docs : List HTMLDocument) (j : Json) : Prop :=
  ∃ ru en, j = .arr [ru, en] ∧ LangObject docs "ru".toList ru ∧ LangObject docs "en".toList en

/-- Every listed document has a path that the folder, with a slash, can be cut off, and
    what is left is valid. -/
def Nameable (docs : List HTMLDocument) (f : Str) : Prop :=
  ∃ len, prefixLen f = .ok len ∧ ∀ d ∈ docs, RuOrEn d →
    len ≤ (d.getMeta "path".toList).length ∧ ValidUtf8 ((d.getMeta "path".toList).drop len)

/-- The object of a language has its array exactly when a document has the language. -/
theorem langObject_langJson_iff (docs : List HTMLDocument) (rel : HTMLDocument → Str)
    (lang : Str) :
    LangObject docs lang (langJson lang (namesIn rel lang docs)) ↔
      ∃ d ∈ docs, d.getMeta "lang".toList = lang := by
  have hnames : namesIn rel lang docs = [] ↔ ∀ d ∈ docs, d.getMeta "lang".toList ≠ lang := by
    rw [namesIn, List.map_eq_nil_iff, List.filter_eq_nil_iff]
    simp only [decide_eq_true_eq, ne_eq]
  constructor
  · rintro ⟨fields, articles, -, -, hart, -⟩
    by_contra hnone
    rw [hnames.mpr fun d hd hlang => hnone ⟨d, hd, hlang⟩, langJson, if_pos rfl] at hart
    -- no field of that name: null, not an array
    cases hart
  · rintro ⟨d, hd, hlang⟩
    have hne : namesIn rel lang docs ≠ [] := fun h => hnames.mp h d hd hlang
    refine ⟨[("articles".toList, .ofNames (namesIn rel lang docs)),
      ("lang_code".toList, .str lang)], (namesIn rel lang docs).map .str, ?_,
      langCode_langJson lang _, ?_, fun hnone => absurd hlang (hnone d hd)⟩
    · rw [langJson, if_neg hne]
    · rw [langJson, if_neg hne]
      rfl

/-- A document `DumpLanguage` gets past has a path long enough, if it is listed. -/
theorem length_path_of_addArticles {len : Nat} {docs : List HTMLDocument} {m m' : UMap Str Json}
    (h : docs.foldlM (addArticle len) m = .ok m') :
    ∀ d ∈ docs, RuOrEn d → len ≤ (d.getMeta "path".toList).length := by
  induction docs generalizing m with
  | nil => intro d hd; cases hd
  | cons e docs ih =>
      rw [List.foldlM_cons] at h
      obtain ⟨m₁, hstep, hrest⟩ := of_bind_ok h
      intro d hd hlisted
      rcases List.mem_cons.mp hd with rfl | hd
      · rw [addArticle, if_pos (by simpa [RuOrEn] using hlisted)] at hstep
        obtain ⟨name, hname, -⟩ := of_bind_ok hstep
        by_contra hlong
        rw [substr, if_neg hlong] at hname
        cases hname
      · exact ih hrest d hd hlisted

/-- **Both objects are printed with their array exactly when both languages occur**, once
    every listed document has a name to print. -/
theorem dumpLanguage_twoLanguages_iff (docs : List HTMLDocument) (f : Str) :
    (∃ j, languageResult docs f = .ok j ∧ TwoLanguages docs j ∧
        Writes (dumpLanguage dumpFloat docs f) (jsonLine dumpFloat j)) ↔
      Nameable docs f ∧ (∃ d ∈ docs, d.getMeta "lang".toList = "ru".toList) ∧
        ∃ d ∈ docs, d.getMeta "lang".toList = "en".toList := by
  have hsubstr : ∀ {len}, (∀ d ∈ docs, RuOrEn d → len ≤ (d.getMeta "path".toList).length) →
      ∀ d ∈ docs, RuOrEn d → substr (d.getMeta "path".toList) len
        = .ok ((d.getMeta "path".toList).drop len) :=
    fun hpath d hd hlisted => if_pos (hpath d hd hlisted)
  constructor
  · rintro ⟨j, hj, ⟨ru, en, rfl, hru, hen⟩, hwrites⟩
    obtain ⟨len, hlen, hloop⟩ := of_bind_ok hj
    obtain ⟨m', hm', -⟩ := of_bind_ok hloop
    have hpath := length_path_of_addArticles hm'
    have hresult := languageResult_eq hlen (hsubstr hpath)
    have hprints := dumpLanguage_prints dumpFloat hlen (hsubstr hpath)
    obtain ⟨rfl, htail⟩ := List.cons.inj (Json.arr.inj (Except.ok.inj (hresult.symm.trans hj)))
    obtain ⟨rfl, -⟩ := List.cons.inj htail
    have hvalid := hprints.writes_iff.mp hwrites
    exact ⟨⟨len, hlen, fun d hd hlisted => ⟨hpath d hd hlisted, hvalid d hd hlisted⟩⟩,
      (langObject_langJson_iff docs _ _).mp hru, (langObject_langJson_iff docs _ _).mp hen⟩
  · rintro ⟨⟨len, hlen, hnames⟩, hru, hen⟩
    have hsub := hsubstr fun d hd hlisted => (hnames d hd hlisted).1
    exact ⟨_, languageResult_eq hlen hsub,
      ⟨_, _, rfl, (langObject_langJson_iff docs _ _).mpr hru,
        (langObject_langJson_iff docs _ _).mpr hen⟩,
      (dumpLanguage_prints dumpFloat hlen hsub).writes fun d hd hlisted =>
        (hnames d hd hlisted).2⟩

/-- One Russian document: the English object has no field `articles`. -/
theorem dumpLanguage_oneLanguage :
    ¬ ∃ j, languageResult [(HTMLDocument.empty.setMeta "path".toList
          "data/a.html".toList).setMeta "lang".toList "ru".toList] "data".toList = .ok j ∧
      TwoLanguages [(HTMLDocument.empty.setMeta "path".toList "data/a.html".toList).setMeta
        "lang".toList "ru".toList] j ∧
      Writes (dumpLanguage (fun _ => []) [(HTMLDocument.empty.setMeta "path".toList
          "data/a.html".toList).setMeta "lang".toList "ru".toList] "data".toList)
        (jsonLine (fun _ => []) j) := by
  rintro ⟨j, hj, ⟨ru, en, rfl, -, fields, articles, -, -, hart, -⟩, -⟩
  have hprinted := Json.arr.inj (Except.ok.inj hj)
  obtain ⟨-, htail⟩ := List.cons.inj hprinted
  obtain ⟨rfl, -⟩ := List.cons.inj htail
  cases hart

/-! ## The threads -/

/-- An object for each thread, between brackets. -/
def threadsText (rel : DocFeatures → Str) (threads : List (Str × List DocFeatures)) : Str :=
  let objects := threads.map fun thread => indentation 2 ++ text dumpFloat 2 (threadJson rel thread)
  if threads.isEmpty then "[]\n".toList
  else "[\n".toList ++ List.intercalate [',', '\n'] objects ++ "\n]\n".toList

theorem allUtf8_threadJson (rel : DocFeatures → Str) (thread : Str × List DocFeatures) :
    AllUtf8 (threadJson rel thread) ↔
      ValidUtf8 thread.1 ∧ ∀ doc ∈ thread.2, ValidUtf8 (rel doc) := by
  have harticles : ValidUtf8 "articles".toList := by decide +kernel
  have htitle : ValidUtf8 "title".toList := by decide +kernel
  rw [threadJson, AllUtf8, FieldsUtf8, FieldsUtf8, FieldsUtf8, allUtf8_ofNames, AllUtf8,
    List.forall_mem_map]
  tauto

/-- **The output of `threads`** is written exactly when its titles and the names it
    prints are valid UTF-8. -/
theorem dumpNewsThreads_prints (order : IterOrder Str (List DocFeatures)) {f : Str} {len : Nat}
    {threads : UMap Str (List DocFeatures)} (hlen : prefixLen f = .ok len)
    (hlong : ∀ e ∈ threads.entries, ∀ d ∈ e.2, len < d.docName.length) :
    Prints (∀ e ∈ threads.entries, ValidUtf8 e.1 ∧ ∀ d ∈ e.2, ValidUtf8 (d.docName.drop len))
      (dumpNewsThreads dumpFloat order threads f)
      (threadsText dumpFloat (fun d => d.docName.drop len) (order.run threads)) := by
  have hresult := newsThreadsResult_eq order hlen fun e he d hd =>
    (if_pos (hlong e he d hd).le : substr d.docName len = .ok (d.docName.drop len))
  refine (print_of_result dumpFloat hresult).congr ?_ ?_
  · rw [AllUtf8, elemsUtf8_iff, List.forall_mem_map, order.forall_run]
    simp only [allUtf8_threadJson]
  · rw [threadsText, jsonLine, text, elemTexts_eq, List.map_map, List.isEmpty_map]
    cases (order.run threads).isEmpty with
    | true => rfl
    | false =>
        simp only [Bool.false_eq_true, if_false, indentation, List.replicate_zero,
          List.append_nil, List.append_assoc]
        rfl

/-- **One object is printed for each thread exactly when every title is valid UTF-8**
    and stripping the prefix cuts no name within a character. -/
theorem dumpNewsThreads_writes_iff (order : IterOrder Str (List DocFeatures)) {f : Str}
    {len : Nat} (threads : UMap Str (List DocFeatures)) (hlen : prefixLen f = .ok len)
    (hnames : ∀ e ∈ threads.entries, ∀ d ∈ e.2,
      ValidUtf8 d.docName ∧ len < d.docName.length) :
    Writes (dumpNewsThreads dumpFloat order threads f)
      (threadsText dumpFloat (fun d => d.docName.drop len) (order.run threads)) ↔
    ∀ e ∈ threads.entries, ValidUtf8 e.1 ∧ ∀ d ∈ e.2, ValidUtf8 (d.docName.drop len) := by
  have hprints := dumpNewsThreads_prints dumpFloat order hlen
    fun e he d hd => (hnames e he d hd).2
  exact hprints.writes_iff

/-- Below a folder the name that is left after stripping is valid. -/
theorem validUtf8_of_joinPath {f r : Str} (hf : ValidUtf8 f) (h : ValidUtf8 (joinPath f r)) :
    ValidUtf8 r := by
  have hsep : ValidUtf8 (if f.getLast? = some '/' then [] else ['/']) := by
    split_ifs
    · exact ⟨[], rfl⟩
    · exact ⟨['/'], by decide⟩
  rw [ValidUtf8, joinPath, List.map_append, List.map_append] at h
  exact h.of_append (Utf8.Valid.append hf hsep)

/-- **Below a folder the titles alone decide** whether the output is printed. -/
theorem dumpNewsThreads_below_iff (order : IterOrder Str (List DocFeatures)) {f : Str}
    (threads : UMap Str (List DocFeatures)) (hne : f ≠ []) (hf : ValidUtf8 f)
    (hbelow : ∀ e ∈ threads.entries, ∀ d ∈ e.2,
      ValidUtf8 d.docName ∧ ∃ r, r ≠ [] ∧ d.docName = joinPath f r) :
    (∃ t, Writes (dumpNewsThreads dumpFloat order threads f) t) ↔
      ∀ e ∈ threads.entries, ValidUtf8 e.1 := by
  obtain ⟨len, hlen, hsub⟩ := prefixLen_joinPath hne
  have hnames : ∀ e ∈ threads.entries, ∀ d ∈ e.2,
      len < d.docName.length ∧ ValidUtf8 (d.docName.drop len) := by
    intro e he d hd
    obtain ⟨hvalid, r, hr, hname⟩ := hbelow e he d hd
    have hsubstr := hsub r
    rw [← hname, substr] at hsubstr
    split_ifs at hsubstr with hle
    · have hdrop := Except.ok.inj hsubstr
      refine ⟨?_, ?_⟩
      · by_contra hge
        exact hr (by rw [← hdrop, List.drop_eq_nil_of_le (by omega)])
      · rw [hdrop]
        exact validUtf8_of_joinPath hf (hname ▸ hvalid)
  have hprints := dumpNewsThreads_prints dumpFloat order hlen
    fun e he d hd => (hnames e he d hd).1
  constructor
  · rintro ⟨t, ht⟩
    by_contra hbad
    exact ht.not_throws (hprints.throws fun h => hbad fun e he => (h e he).1)
  · intro h
    exact ⟨_, hprints.writes fun e he => ⟨h e he, fun d hd => (hnames e he d hd).2⟩⟩

end Dump

/-! ### Two threads -/

/-- A document with a name. -/
def sampleArticle (name : Str) : DocFeatures := { DocFeatures.new with docName := name }

/-- Two threads of one article each; the first has the title `title`. -/
def sampleThreads (title : Str) : UMap Str (List DocFeatures) :=
  (AList.insert "Fine".toList [sampleArticle "in/b.html".toList] ∅ : UMap Str _).insert title
    [sampleArticle "in/a.html".toList]

/-- The title is the letter `é`, in two bytes. -/
theorem dumpNewsThreads_accented :
    Writes (dumpNewsThreads (fun _ => []) .stored (sampleThreads ['Ã', '©']) "in".toList)
      (threadsText (fun _ => []) (fun d => d.docName.drop 3)
        (IterOrder.stored.run (sampleThreads ['Ã', '©']))) := by
  refine (dumpNewsThreads_writes_iff (fun _ => []) .stored _ rfl ?_).mpr ?_
  · decide +kernel
  · decide +kernel

/-- **A single byte of one title is enough**: the thread `Fine` is not printed either. -/
theorem dumpNewsThreads_strayByte :
    (∀ e ∈ (sampleThreads ['ÿ']).entries, ∀ d ∈ e.2,
      ValidUtf8 d.docName ∧ 3 < d.docName.length) ∧
    ¬ Writes (dumpNewsThreads (fun _ => []) .stored (sampleThreads ['ÿ']) "in".toList)
      (threadsText (fun _ => []) (fun d => d.docName.drop 3)
        (IterOrder.stored.run (sampleThreads ['ÿ']))) := by
  have hnames : ∀ e ∈ (sampleThreads ['ÿ']).entries, ∀ d ∈ e.2,
      ValidUtf8 d.docName ∧ 3 < d.docName.length := by decide +kernel
  have hlen : prefixLen "in".toList = .ok 3 := rfl
  have hprints := dumpNewsThreads_prints (fun _ => []) .stored hlen
    fun e he d hd => (hnames e he d hd).2
  refine ⟨hnames, ?_⟩
  intro h
  exact h.not_throws (hprints.throws (by decide +kernel))

end TgnewsDump
