import Tgnews.HtmlProofs

/-! # Language recognition (`langrec.hpp`)

    Each document gets the meta `lang` and `lang_score`, from the site lists when
    they are used and know the site, else from the language identifier.
    `RecognizeLanguage` then moves the Russian and English documents out of the
    vector it was given; what it leaves there are default documents
    (`recognizeLanguage_left`). -/

namespace TgnewsLangrec

open CxxContainers CxxText TgnewsHtml

/-- What the identifier says about a text. -/
structure LangResult where
  language : Str
  probability : ℚ

/-- The recogniser's surroundings: the texts of `meta/site_<lang>_lang.txt` and
    the language identifier as a function of the text. -/
structure LangEnv where
  siteFile : Str → Str
  findLanguage : Str → LangResult

/-- The lines `std::getline` reads. -/
def getLines (file : Str) : List Str := splitEnded '\n' file

/-- `GetUrl2Lang`: the first list that has a site keeps it. -/
def getUrl2Lang (env : LangEnv) : UMap Str Str :=
  ["ru".toList, "en".toList, "other".toList].foldl (fun url2lang langName =>
    (getLines (env.siteFile langName)).foldl (fun url2lang url =>
      emplace url2lang url langName) url2lang) ∅

/-- `RecogTask` on one document. -/
def recogDoc (env : LangEnv) (useLists : Bool) (doc : HTMLDocument) : HTMLDocument :=
  let it := (getUrl2Lang env).lookup (doc.getMeta "og:site_name".toList)
  if it.isSome && useLists then
    (doc.setMeta "lang".toList (it.getD [])).setMeta "lang_score".toList "1".toList
  else
    let r := env.findLanguage doc.text
    (doc.setMeta "lang".toList r.language).setMeta "lang_score".toList
      (toStringF r.probability)

/-- A document whose meta says Russian or English. -/
def isRuEn (doc : HTMLDocument) : Bool :=
  doc.getMeta "lang".toList = "ru".toList || doc.getMeta "lang".toList = "en".toList

/-- The second loop of `RecognizeLanguage`: the documents moved out, and the vector
    that is left. -/
def moveOutRuEn : List HTMLDocument → List HTMLDocument × List HTMLDocument :=
  moveOutIf isRuEn HTMLDocument.moveOut id

/-- `RecognizeLanguage`: the returned documents, and what `*documents` holds
    afterwards. -/
def recognizeLanguage (env : LangEnv) (useLists : Bool) (documents : List HTMLDocument) :
    List HTMLDocument × List HTMLDocument :=
  moveOutRuEn (documents.map (recogDoc env useLists))

/-! ## One document -/

/-- The language decided for a document: the list that has its site when lists
    are used, else the identifier's answer for its text. -/
def decidedLang (env : LangEnv) (useLists : Bool) (doc : HTMLDocument) : Str :=
  match (getUrl2Lang env).lookup (doc.getMeta "og:site_name".toList) with
  | some lang => if useLists then lang else (env.findLanguage doc.text).language
  | none => (env.findLanguage doc.text).language

/-- **Recognition sets two keys**: the language decided, over whatever the page
    supplied, and its score. -/
theorem recogDoc_eq (env : LangEnv) (useLists : Bool) (doc : HTMLDocument) :
    ∃ score, recogDoc env useLists doc
      = (doc.setMeta "lang".toList (decidedLang env useLists doc)).setMeta
          "lang_score".toList score := by
  rw [recogDoc, decidedLang]
  cases hit : (getUrl2Lang env).lookup (doc.getMeta "og:site_name".toList) with
  | none => exact ⟨_, if_neg (by simp)⟩
  | some lang =>
      cases useLists with
      | true => exact ⟨_, if_pos (by simp)⟩
      | false => exact ⟨_, if_neg (by simp)⟩

/-- The decided language is under its key, whatever the page has put there. -/
theorem lookup_lang_recogDoc (env : LangEnv) (useLists : Bool) (doc : HTMLDocument) :
    (recogDoc env useLists doc).metaMap.lookup "lang".toList
      = some (decidedLang env useLists doc) := by
  obtain ⟨score, h⟩ := recogDoc_eq env useLists doc
  rw [h, HTMLDocument.setMeta, HTMLDocument.setMeta, AList.lookup_insert_ne (by decide),
    AList.lookup_insert]

theorem lang_recogDoc (env : LangEnv) (useLists : Bool) (doc : HTMLDocument) :
    (recogDoc env useLists doc).getMeta "lang".toList = decidedLang env useLists doc := by
  rw [HTMLDocument.getMeta, lookup_lang_recogDoc]
  rfl

/-- Recognition touches only `lang` and `lang_score`. -/
theorem lookup_recogDoc (env : LangEnv) (useLists : Bool) (doc : HTMLDocument) {key : Str}
    (h1 : key ≠ "lang".toList) (h2 : key ≠ "lang_score".toList) :
    (recogDoc env useLists doc).metaMap.lookup key = doc.metaMap.lookup key := by
  obtain ⟨score, h⟩ := recogDoc_eq env useLists doc
  rw [h, HTMLDocument.setMeta, HTMLDocument.setMeta, AList.lookup_insert_ne h2,
    AList.lookup_insert_ne h1]

/-- So every other meta reads as before. -/
theorem getMeta_recogDoc (env : LangEnv) (useLists : Bool) (doc : HTMLDocument) {key : Str}
    (h1 : key ≠ "lang".toList) (h2 : key ≠ "lang_score".toList) :
    (recogDoc env useLists doc).getMeta key = doc.getMeta key := by
  rw [HTMLDocument.getMeta, lookup_recogDoc env useLists doc h1 h2, HTMLDocument.getMeta]

@[simp] theorem text_recogDoc (env : LangEnv) (useLists : Bool) (doc : HTMLDocument) :
    (recogDoc env useLists doc).text = doc.text := by
  obtain ⟨score, h⟩ := recogDoc_eq env useLists doc
  rw [h, text_setMeta, text_setMeta]

@[simp] theorem relatedLinks_recogDoc (env : LangEnv) (useLists : Bool) (doc : HTMLDocument) :
    (recogDoc env useLists doc).relatedLinks = doc.relatedLinks := by
  obtain ⟨score, h⟩ := recogDoc_eq env useLists doc
  rw [h]
  rfl

/-! ## The three lists -/

/-- The sites of one list are entered under its language, unless they have one. -/
theorem lookup_foldl_emplace (urls : List Str) (lang : Str) (m : UMap Str Str) (site : Str) :
    (urls.foldl (fun m url => emplace m url lang) m).lookup site
      = (m.lookup site).or (if site ∈ urls then some lang else none) := by
  induction urls generalizing m with
  | nil => simp
  | cons url urls ih =>
      rw [List.foldl_cons, ih, lookup_emplace]
      by_cases hsite : site = url
      · rw [if_pos hsite, if_pos (List.mem_cons.mpr (Or.inl hsite)), hsite, Option.or_assoc,
          Option.some_or]
      · rw [if_neg hsite]
        simp only [List.mem_cons, hsite, false_or]

/-- The three lists of sites. -/
structure SiteLists where
  ru : List Str
  en : List Str
  other : List Str

/-- The first of the three lists that has a site. -/
def SiteLists.langOf (lists : SiteLists) (site : Str) : Option Str :=
  if site ∈ lists.ru then some "ru".toList
  else if site ∈ lists.en then some "en".toList
  else if site ∈ lists.other then some "other".toList
  else none

/-- The files hold the lists, one site a line. -/
structure LangEnv.Holds (env : LangEnv) (lists : SiteLists) : Prop where
  ru : EndedParts '\n' (env.siteFile "ru".toList) lists.ru
  en : EndedParts '\n' (env.siteFile "en".toList) lists.en
  other : EndedParts '\n' (env.siteFile "other".toList) lists.other

/-- Whatever the files, they hold three lists. -/
theorem exists_holds (env : LangEnv) : ∃ lists, env.Holds lists :=
  ⟨⟨_, _, _⟩, endedParts_splitEnded _ _, endedParts_splitEnded _ _, endedParts_splitEnded _ _⟩

/-- **The first list that has a site decides.** -/
theorem lookup_getUrl2Lang {env : LangEnv} {lists : SiteLists} (h : env.Holds lists)
    (site : Str) : (getUrl2Lang env).lookup site = lists.langOf site := by
  have hru : getLines (env.siteFile "ru".toList) = lists.ru := splitEnded_eq_iff.mpr h.ru
  have hen : getLines (env.siteFile "en".toList) = lists.en := splitEnded_eq_iff.mpr h.en
  have hother : getLines (env.siteFile "other".toList) = lists.other :=
    splitEnded_eq_iff.mpr h.other
  rw [getUrl2Lang, List.foldl_cons, List.foldl_cons, List.foldl_cons, List.foldl_nil,
    lookup_foldl_emplace, lookup_foldl_emplace, lookup_foldl_emplace, hru, hen, hother,
    AList.lookup_empty, Option.none_or, SiteLists.langOf]
  -- the lists as they are read, a site that is in one of them being skipped in the next
  by_cases h1 : site ∈ lists.ru
  · simp only [h1, if_pos, Option.some_or]
  · by_cases h2 : site ∈ lists.en
    · simp only [h1, h2, if_pos, if_false, Option.none_or, Option.some_or]
    · simp only [h1, h2, if_false, Option.none_or]

/-! ## The whole vector -/

/-- The documents `RecognizeLanguage` returns. -/
theorem recognizeLanguage_result (env : LangEnv) (useLists : Bool)
    (docs : List HTMLDocument) :
    (recognizeLanguage env useLists docs).1
      = (docs.map (recogDoc env useLists)).filter isRuEn := by
  rw [recognizeLanguage, moveOutRuEn, moveOutIf_fst]
  -- a default document swapped with another one is that one
  exact List.map_id _

/-- The vector `RecognizeLanguage` leaves behind. -/
theorem recognizeLanguage_left (env : LangEnv) (useLists : Bool)
    (docs : List HTMLDocument) :
    (recognizeLanguage env useLists docs).2
      = docs.map fun doc =>
          if isRuEn (recogDoc env useLists doc) then HTMLDocument.empty
          else recogDoc env useLists doc := by
  rw [recognizeLanguage, moveOutRuEn, moveOutIf_snd, List.map_map]
  rfl

/-- What recognition is for: the first list that has the site, when lists are used and
    one has it, else the identifier's answer for the text. -/
def recognizedLang (lists : SiteLists) (findLanguage : Str → LangResult) (useLists : Bool)
    (doc : HTMLDocument) : Str :=
  match (if useLists then lists.langOf (doc.getMeta "og:site_name".toList) else none) with
  | some lang => lang
  | none => (findLanguage doc.text).language

/-- With the lists at hand, the decided language is the one recognition is for. -/
theorem decidedLang_eq_recognizedLang {env : LangEnv} {lists : SiteLists}
    (h : env.Holds lists) (useLists : Bool) (doc : HTMLDocument) :
    decidedLang env useLists doc = recognizedLang lists env.findLanguage useLists doc := by
  rw [decidedLang, recognizedLang, lookup_getUrl2Lang h]
  cases useLists with
  | true => rw [if_pos rfl]; rfl
  | false =>
      rw [if_neg Bool.false_ne_true]
      cases lists.langOf (doc.getMeta "og:site_name".toList) <;> rfl

/-- `after` is `before` with a language: text, links and every other meta are the same. -/
structure Labelled (lang : Str) (before after : HTMLDocument) : Prop where
  text : after.text = before.text
  relatedLinks : after.relatedLinks = before.relatedLinks
  lang : after.metaMap.lookup "lang".toList = some lang
  others : ∀ key, key ≠ "lang".toList → key ≠ "lang_score".toList →
    after.metaMap.lookup key = before.metaMap.lookup key

/-- One of the two languages the program handles. -/
def handled (lang : Str) : Bool := lang = "ru".toList || lang = "en".toList

/-- A document is taken out exactly when its language is handled. -/
theorem isRuEn_recogDoc {env : LangEnv} {lists : SiteLists} (h : env.Holds lists)
    (useLists : Bool) (doc : HTMLDocument) :
    isRuEn (recogDoc env useLists doc)
      = handled (recognizedLang lists env.findLanguage useLists doc) := by
  rw [isRuEn, lang_recogDoc, decidedLang_eq_recognizedLang h, handled]

/-- **Documents are conserved**, whatever three lists the files hold.  Each is labelled
    with the language decided for it; those decided Russian or English are returned, in
    order, and leave the default document behind; the others stay where they are. -/
theorem recognizeLanguage_conserves (env : LangEnv) (lists : SiteLists)
    (hlists : env.Holds lists) (useLists : Bool) (docs : List HTMLDocument) :
    (∀ doc, Labelled (recognizedLang lists env.findLanguage useLists doc) doc
        (recogDoc env useLists doc)) ∧
      (recognizeLanguage env useLists docs).1
        = (docs.filter fun doc => handled (recognizedLang lists env.findLanguage useLists
            doc)).map (recogDoc env useLists) ∧
      (recognizeLanguage env useLists docs).2
        = docs.map fun doc =>
          if handled (recognizedLang lists env.findLanguage useLists doc) then
            HTMLDocument.empty
          else recogDoc env useLists doc := by
  refine ⟨?_, ?_, ?_⟩
  · intro doc
    constructor
    · exact text_recogDoc env useLists doc
    · exact relatedLinks_recogDoc env useLists doc
    · rw [lookup_lang_recogDoc, decidedLang_eq_recognizedLang hlists]
    · intro key h1 h2
      exact lookup_recogDoc env useLists doc h1 h2
  · rw [recognizeLanguage_result, List.filter_map]
    simp only [Function.comp_def, isRuEn_recogDoc hlists]
  · rw [recognizeLanguage_left]
    simp only [isRuEn_recogDoc hlists]

/-- Files with a site in two lists and with a last line that is not ended. -/
def sampleEnv : LangEnv where
  siteFile lang :=
    if lang = "ru".toList then "lenta.ru\n".toList
    else if lang = "en".toList then "lenta.ru\nbbc.com".toList
    else []
  findLanguage _ := ⟨"de".toList, 1⟩

def sampleLists : SiteLists where
  ru := ["lenta.ru".toList]
  en := ["lenta.ru".toList, "bbc.com".toList]
  other := []

theorem sampleEnv_holds : sampleEnv.Holds sampleLists where
  ru := .cons (w := "lenta.ru".toList) (by decide) .nil
  en := .cons (w := "lenta.ru".toList) (by decide) (.last (by decide) (by decide))
  other := .nil

/-- The page of the listed site is taken, and the page of no site stays. -/
def samplePages : List HTMLDocument :=
  [HTMLDocument.empty.setMeta "og:site_name".toList "lenta.ru".toList, HTMLDocument.empty]

theorem recognizeLanguage_conserves_lenta :
    (recognizeLanguage sampleEnv true samplePages).1
      = (samplePages.take 1).map (recogDoc sampleEnv true) :=
  (recognizeLanguage_conserves sampleEnv sampleLists sampleEnv_holds true samplePages).2.1

end TgnewsLangrec
