import Tgnews.CommonProofs

/-! # News categories (`news_categories.hpp`)

    `GetCategories` groups the news by language, hands each group to the topic
    model of its language as one batch, and files a document under every category
    whose topic weighs more than 0.3 in it.  BigARTM is a parameter: an `ARTM` is
    its dictionary and what `Transform` answers to a batch.

    The route:

    * `Filed` relates the shared map to the list it holds under each category;
    * `addTopics_spec` is the loop over the topics of one document, and
      `addCategories_spec` the loop over the documents of one language;
    * `lookup_groupByLang` says which groups exist: the lookups by language go
      through if and only if both languages occur (`getCategories_eq`,
      `getCategories_missing`);
    * `filedDocs_eq_above` says which documents a language files under a category, and
      `count_filedDocs_le` bounds how often. -/

namespace TgnewsNewsCategories

open CxxContainers CxxText TgnewsCommon

/-! ## BigARTM -/

/-- `artm::Item`. -/
structure Item where
  title : Str
  tokenId : List Nat
  tokenWeight : List Nat
  deriving DecidableEq

/-- `artm::Batch`. -/
structure Batch where
  id : Str
  token : List Str
  classId : List Str
  item : List Item

/-- `artm::ThetaMatrix`. -/
structure ThetaMatrix where
  topicName : List Str
  numTopics : Nat
  itemTitle : List Str
  itemWeights : List (List ℚ)

/-- `ARTM`: the language, the dictionary (tokens with their classes) and the
    answer of `Transform` to a batch. -/
structure ARTM where
  lang : Str
  dict : List (Str × Str)
  transform : Batch → ThetaMatrix

/-! ## Filing documents -/

/-- The item of one document: the tokens of its text, then those of its title. -/
def buildItem (order : IterOrder Nat Nat) (doc : DocFeatures) : Except Fault Item :=
  ["text".toList, "title".toList].foldlM (fun item classId => do
    let lemma2count ← mapAt doc.lemmas.counts classId
    return { item with
      tokenId := item.tokenId ++ (order.run lemma2count).map Prod.fst
      tokenWeight := item.tokenWeight ++ (order.run lemma2count).map Prod.snd })
    { title := doc.docName, tokenId := [], tokenWeight := [] }

/-- The body of the loop over the topics of a document. -/
def addTopic (theta : ThetaMatrix) (documents : List DocFeatures) (docIdx : Nat)
    (cat2doc : UMap Str (List DocFeatures)) (catIdx : Nat) :
    Except Fault (UMap Str (List DocFeatures)) := do
  let column ← elemAt theta.itemWeights docIdx
  let weight ← elemAt column catIdx
  if 3 / 10 < weight then
    let topic ← elemAt theta.topicName catIdx
    let docs ← mapAt cat2doc topic
    let doc ← vectorAt documents docIdx
    return cat2doc.insert topic (docs ++ [doc])
  else return cat2doc

/-- The loop over the topics of one document; it stops one topic short. -/
def addTopics (theta : ThetaMatrix) (documents : List DocFeatures)
    (cat2doc : UMap Str (List DocFeatures)) (docIdx : Nat) :
    Except Fault (UMap Str (List DocFeatures)) :=
  (List.range (theta.numTopics - 1)).foldlM (addTopic theta documents docIdx) cat2doc

/-- `AddCategories`. -/
def addCategories (order : IterOrder Nat Nat) (artm : ARTM) (documents : List DocFeatures)
    (cat2doc : UMap Str (List DocFeatures)) : Except Fault (UMap Str (List DocFeatures)) := do
  let items ← documents.mapM (buildItem order)
  let theta := artm.transform {
    id := artm.lang
    token := artm.dict.map Prod.fst
    classId := artm.dict.map Prod.snd
    item := items }
  (List.range theta.itemTitle.length).foldlM (addTopics theta documents) cat2doc

/-- The seven categories. -/
def categories : List Str :=
  ["Society".toList, "Economy".toList, "Technology".toList, "Entertainment".toList,
    "Science".toList, "Sports".toList, "Other".toList]

/-- `lang2docs`. -/
def groupByLang (documents : List DocFeatures) : UMap Str (List DocFeatures) :=
  documents.foldl (fun lang2docs doc => update lang2docs doc.lang [] (· ++ [doc])) ∅

/-- `lang2model`; `load` constructs the topic model of a language. -/
def lang2model (load : Str → ARTM) : UMap Str ARTM :=
  (AList.insert "ru".toList (load "ru".toList) ∅).insert "en".toList (load "en".toList)

/-- The body of the loop over the languages. -/
def addLang (order : IterOrder Nat Nat) (load : Str → ARTM)
    (lang2docs cat2doc : UMap Str (List DocFeatures)) (lang : Str) :
    Except Fault (UMap Str (List DocFeatures)) := do
  let model ← mapAt (lang2model load) lang
  let docs ← mapAt lang2docs lang
  addCategories order model docs cat2doc

/-- `GetCategories`. -/
def getCategories (order : IterOrder Nat Nat) (load : Str → ARTM)
    (documents : List DocFeatures) : Except Fault (UMap Str (List DocFeatures)) :=
  let lang2docs := groupByLang documents
  let cat2doc := emplaceAll ∅ (categories.map fun cat => (cat, []))
  ["ru".toList, "en".toList].foldlM (addLang order load lang2docs) cat2doc

/-! ## The batch -/

/-- The counters of a class; the structure guarantees that both classes are there. -/
def lemmasOf (doc : DocFeatures) (classId : Str) : UMap Nat Nat :=
  (doc.lemmas.counts.lookup classId).getD ∅

/-- The item of a document, as a value. -/
def itemOf (order : IterOrder Nat Nat) (doc : DocFeatures) : Item where
  title := doc.docName
  tokenId := (order.run (lemmasOf doc "text".toList)).map Prod.fst
    ++ (order.run (lemmasOf doc "title".toList)).map Prod.fst
  tokenWeight := (order.run (lemmasOf doc "text".toList)).map Prod.snd
    ++ (order.run (lemmasOf doc "title".toList)).map Prod.snd

/-- The numbers of an item with their weights. -/
def Item.pairs (item : Item) : List (Nat × Nat) := item.tokenId.zip item.tokenWeight

/-- The weight of a number, zero if it is absent. -/
def Item.weight (item : Item) (i : Nat) : Nat := (item.pairs.lookup i).getD 0

theorem pairs_itemOf (order : IterOrder Nat Nat) (doc : DocFeatures) :
    (itemOf order doc).pairs
      = order.run (lemmasOf doc "text".toList) ++ order.run (lemmasOf doc "title".toList) := by
  rw [Item.pairs, itemOf, ← List.map_append, ← List.map_append, List.zip_map']
  exact List.map_id _

/-- The lookups by class never fail. -/
theorem buildItem_eq (order : IterOrder Nat Nat) (doc : DocFeatures) :
    buildItem order doc = .ok (itemOf order doc) := by
  obtain ⟨mt, ht⟩ := exists_lookup_of_mem doc.lemmas.text
  obtain ⟨mh, hh⟩ := exists_lookup_of_mem doc.lemmas.title
  rw [buildItem, itemOf, lemmasOf, lemmasOf, ht, hh]
  simp only [List.foldlM_cons, List.foldlM_nil, mapAt_of_lookup ht, mapAt_of_lookup hh]
  rfl

/-- The answer of the topic model to the batch of a list of documents. -/
def thetaOf (order : IterOrder Nat Nat) (artm : ARTM) (docs : List DocFeatures) : ThetaMatrix :=
  artm.transform {
    id := artm.lang
    token := artm.dict.map Prod.fst
    classId := artm.dict.map Prod.snd
    item := docs.map (itemOf order) }

theorem addCategories_eq (order : IterOrder Nat Nat) (artm : ARTM) (docs : List DocFeatures)
    (m : UMap Str (List DocFeatures)) :
    addCategories order artm docs m
      = (List.range (thetaOf order artm docs).itemTitle.length).foldlM
          (addTopics (thetaOf order artm docs) docs) m := by
  rw [addCategories, mapM_eq_ok (fun doc _ => buildItem_eq order doc)]
  rfl

/-! ## What the assumptions on `Transform` say -/

/-- One column per item, with a weight for every topic; the last topic is the
    background, the others have names among the categories. -/
structure ThetaMatrix.Fits (theta : ThetaMatrix) (items : Nat) (topics : List Str)
    (background : Str) : Prop where
  topicName : theta.topicName = topics ++ [background]
  numTopics : theta.numTopics = topics.length + 1
  itemTitle : theta.itemTitle.length = items
  itemWeights : theta.itemWeights.length = items
  column : ∀ col ∈ theta.itemWeights, col.length = topics.length + 1

/-- `Transform` answers every batch with a matrix of its items over some topics
    among the categories and a background topic. -/
def ARTM.NamesCategories (artm : ARTM) : Prop :=
  ∀ batch, ∃ topics background,
    (artm.transform batch).Fits batch.item.length topics background
      ∧ ∀ c ∈ topics, c ∈ categories

/-! ## One document -/

/-- The map holds `L c` under each category `c`, and no other key. -/
structure Filed (m : UMap Str (List DocFeatures)) (L : Str → List DocFeatures) : Prop where
  keys : ∀ c, c ∈ m ↔ c ∈ categories
  lists : ∀ c ∈ categories, m.lookup c = some (L c)

/-- How often a category is hit by topics with their weights. -/
def hits (pairs : List (Str × ℚ)) (c : Str) : Nat :=
  pairs.countP fun p => p.1 = c && 3 / 10 < p.2

theorem filed_insert {m : UMap Str (List DocFeatures)} {L : Str → List DocFeatures}
    (h : Filed m L) {c : Str} (hc : c ∈ categories) (d : DocFeatures) :
    Filed (m.insert c (L c ++ [d])) fun c' => if c' = c then L c ++ [d] else L c' := by
  refine ⟨?_, ?_⟩
  · intro c'
    rw [AList.mem_insert, h.keys]
    constructor
    · rintro (rfl | h')
      · exact hc
      · exact h'
    · exact Or.inr
  · intro c' hc'
    by_cases heq : c' = c
    · subst heq
      rw [AList.lookup_insert, if_pos rfl]
    · rw [AList.lookup_insert_ne heq, if_neg heq]
      exact h.lists c' hc'

/-- One topic of one document. -/
theorem addTopic_spec {theta : ThetaMatrix} {docs : List DocFeatures} {j k : Nat}
    {doc : DocFeatures} {column : List ℚ} {topic : Str} {weight : ℚ}
    (hdoc : docs[j]? = some doc) (hcol : theta.itemWeights[j]? = some column)
    (hweight : column[k]? = some weight) (htopic : theta.topicName[k]? = some topic)
    (hcat : topic ∈ categories) {m : UMap Str (List DocFeatures)} {L : Str → List DocFeatures}
    (h : Filed m L) :
    ∃ m', addTopic theta docs j m k = .ok m'
      ∧ Filed m' fun c => L c ++ List.replicate (hits [(topic, weight)] c) doc := by
  rw [addTopic, elemAt_of_getElem? hcol]
  show ∃ m', (elemAt column k >>= fun weight => _) = Except.ok m' ∧ _
  rw [elemAt_of_getElem? hweight]
  by_cases hw : 3 / 10 < weight
  · refine ⟨m.insert topic (L topic ++ [doc]), ?_, ?_⟩
    · show (if 3 / 10 < weight then _ else _) = _
      rw [if_pos hw, elemAt_of_getElem? htopic]
      show (mapAt m topic >>= fun docs => _) = _
      rw [mapAt_of_lookup (h.lists topic hcat), vectorAt_of_getElem? hdoc]
      rfl
    · have hins := filed_insert h hcat doc
      refine ⟨hins.keys, ?_⟩
      intro c hc
      rw [hins.lists c hc, hits, List.countP_singleton]
      by_cases heq : c = topic
      · subst heq
        simp [hw]
      · simp [heq, Ne.symm heq]
  · refine ⟨m, ?_, ?_⟩
    · show (if 3 / 10 < weight then _ else _) = _
      rw [if_neg hw]
      rfl
    · simpa [hits, hw] using h

/-- **The topics of one document.**  The loop goes through, and the document is
    filed under a category as often as its topics hit it. -/
theorem addTopics_spec {theta : ThetaMatrix} {docs : List DocFeatures} {n : Nat}
    {topics : List Str} {background : Str} (hfit : theta.Fits n topics background)
    (hcat : ∀ c ∈ topics, c ∈ categories) {j : Nat} {doc : DocFeatures} {column : List ℚ}
    (hdoc : docs[j]? = some doc) (hcol : theta.itemWeights[j]? = some column)
    {m : UMap Str (List DocFeatures)} {L : Str → List DocFeatures} (h : Filed m L) :
    ∃ m', addTopics theta docs m j = .ok m'
      ∧ Filed m' fun c => L c ++ List.replicate (hits (topics.zip column) c) doc := by
  have hlen : column.length = topics.length + 1 := hfit.column column (List.mem_of_getElem? hcol)
  -- after `k` turns the loop has seen the first `k` pairs
  obtain ⟨m', hrun, hm'⟩ := foldlM_range (n := topics.length)
    (f := addTopic theta docs j) (b := m)
    (I := fun k m => Filed m fun c =>
      L c ++ List.replicate (hits ((topics.zip column).take k) c) doc)
    (by
      intro k hk m hm
      have hkc : k < column.length := by omega
      have htopic : theta.topicName[k]? = some (topics.get ⟨k, hk⟩) := by
        rw [hfit.topicName, List.getElem?_append_left hk]
        exact List.getElem?_eq_getElem hk
      obtain ⟨m', hrun, hm'⟩ := addTopic_spec hdoc hcol (List.getElem?_eq_getElem hkc) htopic
        (hcat _ (List.get_mem _ _)) hm
      refine ⟨m', hrun, ?_⟩
      rw [take_succ_zip (List.getElem?_eq_getElem hk) (List.getElem?_eq_getElem hkc)]
      simp only [hits, List.countP_append, List.replicate_add, ← List.append_assoc]
      exact hm')
    (by simpa [hits] using h)
  refine ⟨m', ?_, ?_⟩
  · rw [addTopics, hfit.numTopics]
    exact hrun
  · rw [List.take_of_length_le (by simp)] at hm'
    exact hm'

/-! ## The documents of one language -/

/-- What a language adds under a category. -/
def filedDocs (topics : List Str) (docs : List DocFeatures) (columns : List (List ℚ)) (c : Str) :
    List DocFeatures :=
  (docs.zip columns).flatMap fun p => List.replicate (hits (topics.zip p.2) c) p.1

/-- **The documents of one language.**  Column `j` is about document `j` of the
    group, so each document is filed by its own weights, in the order given. -/
theorem addCategories_spec {order : IterOrder Nat Nat} {artm : ARTM} {docs : List DocFeatures}
    {topics : List Str} {background : Str}
    (hfit : (thetaOf order artm docs).Fits docs.length topics background)
    (hcat : ∀ c ∈ topics, c ∈ categories) {m : UMap Str (List DocFeatures)}
    {L : Str → List DocFeatures} (h : Filed m L) :
    ∃ m', addCategories order artm docs m = .ok m'
      ∧ Filed m' fun c =>
          L c ++ filedDocs topics docs (thetaOf order artm docs).itemWeights c := by
  rw [addCategories_eq, hfit.itemTitle]
  have hlen := hfit.itemWeights
  obtain ⟨m', hrun, hm'⟩ := foldlM_range (n := docs.length)
    (f := addTopics (thetaOf order artm docs) docs) (b := m)
    (I := fun j m => Filed m fun c =>
      L c ++ ((docs.zip (thetaOf order artm docs).itemWeights).take j).flatMap fun p =>
        List.replicate (hits (topics.zip p.2) c) p.1)
    (by
      intro j hj m hm
      have hjc : j < (thetaOf order artm docs).itemWeights.length := by omega
      obtain ⟨m', hrun, hm'⟩ := addTopics_spec hfit hcat (List.getElem?_eq_getElem hj)
        (List.getElem?_eq_getElem hjc) hm
      refine ⟨m', hrun, ?_⟩
      rw [take_succ_zip (List.getElem?_eq_getElem hj) (List.getElem?_eq_getElem hjc)]
      simp only [List.flatMap_append, List.flatMap_cons, List.flatMap_nil, List.append_nil,
        ← List.append_assoc]
      exact hm')
    (by simpa using h)
  refine ⟨m', hrun, ?_⟩
  rw [List.take_of_length_le (by simp)] at hm'
  exact hm'

/-! ## Grouping by language -/

/-- The documents of a language, in the order given. -/
def inLang (docs : List DocFeatures) (lang : Str) : List DocFeatures :=
  docs.filter fun d => d.lang = lang

/-- **A group exists exactly when its language occurs**, and holds its documents. -/
theorem lookup_groupByLang (docs : List DocFeatures) (lang : Str) :
    (groupByLang docs).lookup lang
      = if inLang docs lang = [] then none else some (inLang docs lang) := by
  induction docs using List.reverseRecOn with
  | nil => rfl
  | append_singleton docs d ih =>
      rw [groupByLang, List.foldl_append]
      show (update (groupByLang docs) d.lang [] (· ++ [d])).lookup lang = _
      rw [lookup_update, inLang, List.filter_append]
      by_cases hd : lang = d.lang
      · subst hd
        have hget : ((groupByLang docs).lookup d.lang).getD [] = inLang docs d.lang := by
          rw [ih]
          by_cases hnil : inLang docs d.lang = []
          · rw [if_pos hnil, hnil]
            rfl
          · rw [if_neg hnil]
            rfl
        rw [if_pos rfl, hget, List.filter_cons_of_pos (by simp), List.filter_nil,
          if_neg (List.append_ne_nil_of_right_ne_nil _ (List.cons_ne_nil _ _))]
        rfl
      · rw [if_neg hd, ih, List.filter_cons_of_neg (by simpa using Ne.symm hd), List.filter_nil,
          List.append_nil]
        rfl

/-- The map before the first document is filed. -/
theorem filed_start :
    Filed (emplaceAll ∅ (categories.map fun cat => (cat, []))) fun _ => [] := by
  refine ⟨?_, by decide⟩
  intro c
  rw [← AList.lookup_isSome, lookup_emplaceAll, AList.lookup_empty, Option.none_or,
    Option.isSome_map, List.find?_isSome]
  simp

/-- The two rounds of `GetCategories`. -/
theorem getCategories_eq (order : IterOrder Nat Nat) (load : Str → ARTM)
    (docs : List DocFeatures) :
    getCategories order load docs
      = (addLang order load (groupByLang docs)
          (emplaceAll ∅ (categories.map fun cat => (cat, []))) "ru".toList
        >>= fun m => addLang order load (groupByLang docs) m "en".toList) := by
  rw [getCategories, List.foldlM_cons]
  congr 1
  funext m
  rw [List.foldlM_cons]
  cases addLang order load (groupByLang docs) m "en".toList <;> rfl

/-- A round whose group exists. -/
theorem addLang_present (order : IterOrder Nat Nat) (load : Str → ARTM) {lang : Str}
    (hlang : lang = "ru".toList ∨ lang = "en".toList) {docs : List DocFeatures}
    (h : inLang docs lang ≠ []) (m : UMap Str (List DocFeatures)) :
    addLang order load (groupByLang docs) m lang
      = addCategories order (load lang) (inLang docs lang) m := by
  have hmodel : mapAt (lang2model load) lang = .ok (load lang) := by
    rcases hlang with rfl | rfl <;> rfl
  rw [addLang, hmodel]
  show (mapAt (groupByLang docs) lang >>= fun docs => _) = _
  rw [mapAt, lookup_groupByLang, if_neg h]
  rfl

/-- A round whose group is missing throws. -/
theorem addLang_missing (order : IterOrder Nat Nat) (load : Str → ARTM) {lang : Str}
    (hlang : lang = "ru".toList ∨ lang = "en".toList) {docs : List DocFeatures}
    (h : inLang docs lang = []) (m : UMap Str (List DocFeatures)) :
    addLang order load (groupByLang docs) m lang = .error .outOfRange := by
  have hmodel : mapAt (lang2model load) lang = .ok (load lang) := by
    rcases hlang with rfl | rfl <;> rfl
  rw [addLang, hmodel]
  show (mapAt (groupByLang docs) lang >>= fun docs => _) = _
  rw [mapAt, lookup_groupByLang, if_pos h]
  rfl

/-- **A missing language is out of range**: `GetCategories` does not return. -/
theorem getCategories_missing (order : IterOrder Nat Nat) (load : Str → ARTM)
    {docs : List DocFeatures}
    (h : inLang docs "ru".toList = [] ∨ inLang docs "en".toList = [])
    (m : UMap Str (List DocFeatures)) : getCategories order load docs ≠ .ok m := by
  rw [getCategories_eq]
  by_cases hru : inLang docs "ru".toList = []
  · rw [addLang_missing order load (Or.inl rfl) hru]
    exact fun hrun => nomatch hrun
  · -- the first round may end as it likes: the second one throws
    cases addLang order load (groupByLang docs)
        (emplaceAll ∅ (categories.map fun cat => (cat, []))) "ru".toList with
    | error e => exact fun hrun => nomatch hrun
    | ok m₁ =>
        show addLang order load (groupByLang docs) m₁ "en".toList ≠ _
        rw [addLang_missing order load (Or.inr rfl) (h.resolve_left hru)]
        exact fun hrun => nomatch hrun

theorem inLang_ne_nil {docs : List DocFeatures} {lang : Str} :
    inLang docs lang ≠ [] ↔ ∃ d ∈ docs, d.lang = lang := by
  rw [inLang, ne_eq, List.filter_eq_nil_iff]
  simp

/-- **Both rounds go through** when both languages occur: the Russian documents are
    filed first, then the English ones. -/
theorem getCategories_filed {order : IterOrder Nat Nat} {load : Str → ARTM}
    {docs : List DocFeatures} (hru : ∃ d ∈ docs, d.lang = "ru".toList)
    (hen : ∃ d ∈ docs, d.lang = "en".toList) {tru ten : List Str} {bru ben : Str}
    (hfru : (thetaOf order (load "ru".toList) (inLang docs "ru".toList)).Fits
      (inLang docs "ru".toList).length tru bru)
    (hfen : (thetaOf order (load "en".toList) (inLang docs "en".toList)).Fits
      (inLang docs "en".toList).length ten ben)
    (hcru : ∀ c ∈ tru, c ∈ categories) (hcen : ∀ c ∈ ten, c ∈ categories) :
    ∃ m, getCategories order load docs = .ok m ∧ Filed m fun c =>
      filedDocs tru (inLang docs "ru".toList)
          (thetaOf order (load "ru".toList) (inLang docs "ru".toList)).itemWeights c
        ++ filedDocs ten (inLang docs "en".toList)
          (thetaOf order (load "en".toList) (inLang docs "en".toList)).itemWeights c := by
  obtain ⟨m₁, hrun₁, hm₁⟩ := addCategories_spec hfru hcru filed_start
  obtain ⟨m₂, hrun₂, hm₂⟩ := addCategories_spec hfen hcen hm₁
  refine ⟨m₂, ?_, hm₂⟩
  rw [getCategories_eq, addLang_present order load (Or.inl rfl) (inLang_ne_nil.mpr hru), hrun₁]
  show addLang order load (groupByLang docs) m₁ "en".toList = _
  rw [addLang_present order load (Or.inr rfl) (inLang_ne_nil.mpr hen), hrun₂]

/-- What is assumed of the answer to every batch holds of the answer to the batch of a
    list of documents. -/
theorem exists_thetaOf (order : IterOrder Nat Nat) {artm : ARTM} {P : List Str → Str → Prop}
    (h : ∀ batch, ∃ topics background,
      (artm.transform batch).Fits batch.item.length topics background ∧ P topics background)
    (docs : List DocFeatures) :
    ∃ topics background, (thetaOf order artm docs).Fits docs.length topics background
      ∧ P topics background := by
  obtain ⟨topics, background, hfit, hP⟩ := h {
    id := artm.lang
    token := artm.dict.map Prod.fst
    classId := artm.dict.map Prod.snd
    item := docs.map (itemOf order) }
  rw [List.length_map] at hfit
  exact ⟨topics, background, hfit, hP⟩

/-- **Exactly both languages.**  Whatever the mix, `GetCategories` returns with the
    seven categories as keys if and only if a Russian and an English document are
    among its input. -/
theorem getCategories_returns_iff (order : IterOrder Nat Nat) (load : Str → ARTM)
    (hload : ∀ lang, (load lang).NamesCategories) (docs : List DocFeatures) :
    (∃ m, getCategories order load docs = .ok m ∧ ∀ c, c ∈ m ↔ c ∈ categories)
      ↔ (∃ d ∈ docs, d.lang = "ru".toList) ∧ ∃ d ∈ docs, d.lang = "en".toList := by
  constructor
  · rintro ⟨m, hrun, -⟩
    refine ⟨inLang_ne_nil.mp ?_, inLang_ne_nil.mp ?_⟩
    · exact fun hnil => getCategories_missing order load (Or.inl hnil) m hrun
    · exact fun hnil => getCategories_missing order load (Or.inr hnil) m hrun
  · rintro ⟨hru, hen⟩
    obtain ⟨tru, bru, hfru, hcru⟩ :=
      exists_thetaOf order (hload "ru".toList) (inLang docs "ru".toList)
    obtain ⟨ten, ben, hfen, hcen⟩ :=
      exists_thetaOf order (hload "en".toList) (inLang docs "en".toList)
    obtain ⟨m, hrun, hm⟩ := getCategories_filed hru hen hfru hfen hcru hcen
    exact ⟨m, hrun, hm.keys⟩

/-- A topic model that gives every item the same column. -/
def sampleARTM (lang : Str) : ARTM where
  lang := lang
  dict := []
  transform batch := {
    topicName := categories ++ ["background".toList]
    numTopics := 8
    itemTitle := batch.item.map Item.title
    itemWeights := batch.item.map fun _ => [1 / 2, 2 / 5, 1 / 10, 0, 0, 0, 0, 0] }

/-- A news document that only has a name and a language. -/
def sampleNews (lang name : Str) : DocFeatures :=
  { DocFeatures.new with lang := lang, docName := name, isNews := true }

theorem sampleARTM_fits (lang : Str) (batch : Batch) :
    ((sampleARTM lang).transform batch).Fits batch.item.length categories
      "background".toList := by
  refine ⟨rfl, rfl, List.length_map _, List.length_map _, ?_⟩
  intro column hcol
  obtain ⟨item, -, rfl⟩ := List.mem_map.mp hcol
  rfl

theorem sampleARTM_namesCategories (lang : Str) : (sampleARTM lang).NamesCategories :=
  fun batch => ⟨categories, "background".toList, sampleARTM_fits lang batch, fun _ hc => hc⟩

/-- One document in each language is enough. -/
theorem getCategories_returns_mixed :
    ∃ m, getCategories .stored sampleARTM
        [sampleNews "en".toList "a.html".toList, sampleNews "ru".toList "b.html".toList] = .ok m
      ∧ ∀ c, c ∈ m ↔ c ∈ categories :=
  (getCategories_returns_iff .stored sampleARTM sampleARTM_namesCategories _).mpr
    ⟨⟨sampleNews "ru".toList "b.html".toList, List.mem_cons_of_mem _ List.mem_cons_self, rfl⟩,
      ⟨sampleNews "en".toList "a.html".toList, List.mem_cons_self, rfl⟩⟩

/-- A corpus in one language ends the process. -/
theorem getCategories_onlyRussian :
    (∀ lang, (sampleARTM lang).NamesCategories)
    ∧ (∀ d ∈ [sampleNews "ru".toList "a.html".toList],
        d.lang = "ru".toList ∨ d.lang = "en".toList)
    ∧ ¬ ∃ m, getCategories .stored sampleARTM [sampleNews "ru".toList "a.html".toList] = .ok m
        ∧ ∀ c ∈ categories, c ∈ m := by
  refine ⟨sampleARTM_namesCategories, ?_, ?_⟩
  · intro d hd
    rw [List.mem_singleton.mp hd]
    exact Or.inl rfl
  · rintro ⟨m, hrun, -⟩
    exact getCategories_missing .stored sampleARTM (Or.inr rfl) m hrun

/-! ## Which documents, and how often -/

/-- The weight a column gives to a topic. -/
def ThetaMatrix.weight (theta : ThetaMatrix) (column : List ℚ) (topic : Str) : ℚ :=
  column.getD (theta.topicName.idxOf topic) 0

/-- The documents whose column gives a topic more than 0.3, in order; document `j`
    has column `j`. -/
def ThetaMatrix.above (theta : ThetaMatrix) (docs : List DocFeatures) (topic : Str) :
    List DocFeatures :=
  ((docs.zip theta.itemWeights).filter fun p => 3 / 10 < theta.weight p.2 topic).map Prod.fst

/-- `Transform` answers every batch over the seven categories, in some order, and
    one background topic with a name of its own. -/
def ARTM.OverCategories (artm : ARTM) : Prop :=
  ∀ batch, ∃ topics background,
    (artm.transform batch).Fits batch.item.length topics background
      ∧ topics.Perm categories ∧ background ∉ topics

/-- The columns `Transform` answers with are non-negative and sum to at most one. -/
def ARTM.Stochastic (artm : ARTM) : Prop :=
  ∀ batch, ∀ column ∈ (artm.transform batch).itemWeights,
    (∀ w ∈ column, 0 ≤ w) ∧ column.sum ≤ 1

theorem hits_of_notMem {topics : List Str} {c : Str} (h : c ∉ topics) (column : List ℚ) :
    hits (topics.zip column) c = 0 := by
  rw [hits, List.countP_eq_zero]
  rintro ⟨t, w⟩ hp
  have ht : t ∈ topics := (List.of_mem_zip hp).1
  have hne : t ≠ c := fun heq => h (heq ▸ ht)
  simp [hne]

/-- Distinct topics hit a category at most once, by the weight at its place. -/
theorem hits_of_nodup {topics : List Str} (hnodup : topics.Nodup) {c : Str} (hc : c ∈ topics)
    {column : List ℚ} (hlen : topics.length ≤ column.length) :
    hits (topics.zip column) c
      = if 3 / 10 < column.getD (topics.idxOf c) 0 then 1 else 0 := by
  induction topics generalizing column with
  | nil => exact nomatch hc
  | cons t topics ih =>
      cases column with
      | nil => exact absurd hlen (by simp)
      | cons w column =>
          obtain ⟨ht, hrest⟩ := List.nodup_cons.mp hnodup
          rw [List.zip_cons_cons, hits, List.countP_cons]
          show hits (topics.zip column) c + _ = _
          by_cases heq : t = c
          · subst heq
            rw [hits_of_notMem ht, List.idxOf_cons_self, Nat.zero_add]
            simp
          · have hmem : c ∈ topics := (List.mem_cons.mp hc).resolve_left (Ne.symm heq)
            rw [ih hrest hmem (by simpa using hlen), List.idxOf_cons_ne _ heq]
            simp [heq]

/-- Replicating by hits is filtering by weight, pair by pair. -/
theorem flatMap_hits_eq_filter {theta : ThetaMatrix} {n : Nat} {topics : List Str}
    {background : Str} (hfit : theta.Fits n topics background) (hnodup : topics.Nodup)
    {c : Str} (hc : c ∈ topics) {pairs : List (DocFeatures × List ℚ)}
    (hpairs : ∀ p ∈ pairs, p.2 ∈ theta.itemWeights) :
    (pairs.flatMap fun p => List.replicate (hits (topics.zip p.2) c) p.1)
      = (pairs.filter fun p => 3 / 10 < theta.weight p.2 c).map Prod.fst := by
  -- the background topic stands last, so it does not shift the place of a category
  have hidx : theta.topicName.idxOf c = topics.idxOf c := by
    rw [hfit.topicName, List.idxOf_append_of_mem hc]
  induction pairs with
  | nil => rfl
  | cons p pairs ih =>
      have hcol := hfit.column p.2 (hpairs p List.mem_cons_self)
      rw [List.flatMap_cons, ih (fun q hq => hpairs q (List.mem_cons_of_mem _ hq)),
        hits_of_nodup hnodup hc (by omega), ← hidx]
      by_cases hw : 3 / 10 < theta.weight p.2 c
      · rw [List.filter_cons_of_pos (by simpa using hw)]
        show List.replicate (if 3 / 10 < theta.weight p.2 c then 1 else 0) p.1 ++ _ = _
        rw [if_pos hw]
        rfl
      · rw [List.filter_cons_of_neg (by simpa using hw)]
        show List.replicate (if 3 / 10 < theta.weight p.2 c then 1 else 0) p.1 ++ _ = _
        rw [if_neg hw]
        rfl

/-- What is filed for a language is what its columns put above the threshold. -/
theorem filedDocs_eq_above {theta : ThetaMatrix} {n : Nat} {topics : List Str}
    {background : Str} (hfit : theta.Fits n topics background) (hnodup : topics.Nodup)
    {c : Str} (hc : c ∈ topics) (docs : List DocFeatures) :
    filedDocs topics docs theta.itemWeights c = theta.above docs c :=
  flatMap_hits_eq_filter hfit hnodup hc fun _ hp => (List.of_mem_zip hp).2

theorem above_sublist (theta : ThetaMatrix) {docs : List DocFeatures}
    (hlen : docs.length ≤ theta.itemWeights.length) (c : Str) :
    (theta.above docs c).Sublist docs := by
  have h := (List.filter_sublist (p := fun p => decide (3 / 10 < theta.weight p.2 c))
    (l := docs.zip theta.itemWeights)).map Prod.fst
  rw [List.map_fst_zip hlen] at h
  exact h

/-- Four weights above 0.3 sum to more than one. -/
theorem countP_above_le {column : List ℚ} (hnonneg : ∀ w ∈ column, 0 ≤ w) :
    (column.countP fun w => 3 / 10 < w) * (3 / 10 : ℚ) ≤ column.sum := by
  induction column with
  | nil => simp
  | cons w column ih =>
      have hrest := ih fun v hv => hnonneg v (List.mem_cons_of_mem _ hv)
      have hw := hnonneg w List.mem_cons_self
      rw [List.countP_cons, List.sum_cons]
      by_cases h : 3 / 10 < w
      · rw [if_pos (by simpa using h)]
        push_cast
        linarith
      · rw [if_neg (by simpa using h)]
        push_cast
        linarith

/-- A single topic hits at most one of several distinct categories. -/
theorem sum_hits_single_le {cs : List Str} (hcs : cs.Nodup) (p : Str × ℚ) :
    (cs.map (hits [p])).sum ≤ if 3 / 10 < p.2 then 1 else 0 := by
  induction cs with
  | nil => simp
  | cons c cs ih =>
      obtain ⟨hc, hrest⟩ := List.nodup_cons.mp hcs
      have hcons : hits [p] c = if p.1 = c ∧ 3 / 10 < p.2 then 1 else 0 := by
        rw [hits, List.countP_singleton]
        simp
      rw [List.map_cons, List.sum_cons, hcons]
      by_cases hhit : p.1 = c ∧ 3 / 10 < p.2
      · have hzero : (cs.map (hits [p])).sum = 0 := by
          rw [List.sum_eq_zero]
          intro n hn
          obtain ⟨c', hc', rfl⟩ := List.mem_map.mp hn
          have hne : p.1 ≠ c' := fun heq => hc (hhit.1 ▸ heq ▸ hc')
          rw [hits, List.countP_singleton, if_neg (by simp [hne])]
        rw [if_pos hhit, if_pos hhit.2, hzero]
      · rw [if_neg hhit, Nat.zero_add]
        exact ih hrest

/-- The categories together are hit at most once per weight above 0.3. -/
theorem sum_hits_le {cs : List Str} (hcs : cs.Nodup) (pairs : List (Str × ℚ)) :
    (cs.map (hits pairs)).sum ≤ (pairs.map Prod.snd).countP fun w => 3 / 10 < w := by
  induction pairs with
  | nil =>
      rw [List.sum_eq_zero]
      · exact Nat.zero_le _
      · intro n hn
        obtain ⟨c, -, rfl⟩ := List.mem_map.mp hn
        rfl
  | cons p pairs ih =>
      have hsplit : (cs.map (hits (p :: pairs))).sum
          = (cs.map (hits pairs)).sum + (cs.map (hits [p])).sum := by
        rw [← List.sum_map_add]
        congr 1
        refine List.map_congr_left ?_
        intro c _
        rw [hits, List.countP_cons, hits, hits, List.countP_singleton]
      have hone := sum_hits_single_le hcs p
      rw [hsplit, List.map_cons, List.countP_cons]
      simp only [decide_eq_true_eq]
      omega

/-- The categories hit by a non-negative column with sum at most one: at most three. -/
theorem sum_hits_le_three {cs topics : List Str} (hcs : cs.Nodup) {column : List ℚ}
    (hlen : column.length = topics.length + 1) (hnonneg : ∀ w ∈ column, 0 ≤ w)
    (hsum : column.sum ≤ 1) : (cs.map (hits (topics.zip column))).sum ≤ 3 := by
  have hle := sum_hits_le hcs (topics.zip column)
  have hsub : ((topics.zip column).map Prod.snd).countP (fun w => 3 / 10 < w)
      ≤ column.countP fun w => 3 / 10 < w := by
    have htake : (topics.zip column).map Prod.snd = column.take topics.length := by
      rw [List.zip_eq_zip_take_min, List.map_snd_zip]
      · rw [show min topics.length column.length = topics.length by omega]
      · rw [List.length_take, List.length_take]
        omega
    rw [htake]
    exact (List.take_sublist _ _).countP_le
  have hfour : ¬ 4 ≤ column.countP fun w => 3 / 10 < w := by
    intro hge
    have hbound := countP_above_le hnonneg
    have hcast : (4 : ℚ) ≤ (column.countP fun w => 3 / 10 < w : ℕ) := by exact_mod_cast hge
    linarith
  omega

/-- One document with its column adds at most three to the categories together. -/
theorem sum_count_replicate_le {cs topics : List Str} (hcs : cs.Nodup) {column : List ℚ}
    (hlen : column.length = topics.length + 1) (hnonneg : ∀ w ∈ column, 0 ≤ w)
    (hsum : column.sum ≤ 1) (doc d : DocFeatures) :
    (cs.map fun c => (List.replicate (hits (topics.zip column) c) doc).count d).sum
      ≤ 3 * [doc].count d := by
  by_cases hd : doc = d
  · subst hd
    have hthree := sum_hits_le_three hcs hlen hnonneg hsum
    simpa using hthree
  · have hzero : ∀ n ∈ cs.map fun c =>
        (List.replicate (hits (topics.zip column) c) doc).count d, n = 0 := by
      intro n hn
      obtain ⟨c, -, rfl⟩ := List.mem_map.mp hn
      rw [List.count_replicate, if_neg (by simpa using hd)]
    rw [List.sum_eq_zero hzero]
    exact Nat.zero_le _

/-- **At most three categories.**  The lists a language adds to several categories
    hold a document at most three times as often as the language's input does. -/
theorem count_filedDocs_le {theta : ThetaMatrix} {topics cs : List Str} (hcs : cs.Nodup)
    {docs : List DocFeatures} {background : Str}
    (hfit : theta.Fits docs.length topics background)
    (hstoch : ∀ column ∈ theta.itemWeights, (∀ w ∈ column, 0 ≤ w) ∧ column.sum ≤ 1)
    (d : DocFeatures) :
    (cs.map fun c => (filedDocs topics docs theta.itemWeights c).count d).sum
      ≤ 3 * docs.count d := by
  have key : ∀ pairs : List (DocFeatures × List ℚ), (∀ p ∈ pairs, p.2 ∈ theta.itemWeights) →
      (cs.map fun c => (pairs.flatMap fun p =>
        List.replicate (hits (topics.zip p.2) c) p.1).count d).sum
        ≤ 3 * (pairs.map Prod.fst).count d := by
    intro pairs hpairs
    induction pairs with
    | nil => simp
    | cons p pairs ih =>
        have hrest := ih fun q hq => hpairs q (List.mem_cons_of_mem _ hq)
        obtain ⟨hnonneg, hsum⟩ := hstoch p.2 (hpairs p List.mem_cons_self)
        have hone := sum_count_replicate_le hcs
          (hfit.column p.2 (hpairs p List.mem_cons_self)) hnonneg hsum p.1 d
        rw [List.map_cons, List.count_cons]
        rw [List.count_singleton] at hone
        simp only [List.flatMap_cons, List.count_append, List.sum_map_add]
        omega
  have h := key (docs.zip theta.itemWeights) fun p hp => (List.of_mem_zip hp).2
  rw [List.map_fst_zip (by rw [hfit.itemWeights])] at h
  exact h

/-- The list of a category: the Russian documents above the threshold, then the
    English ones, each in input order. -/
def categoryDocs (order : IterOrder Nat Nat) (load : Str → ARTM) (docs : List DocFeatures)
    (c : Str) : List DocFeatures :=
  (thetaOf order (load "ru".toList) (inLang docs "ru".toList)).above
      (inLang docs "ru".toList) c
    ++ (thetaOf order (load "en".toList) (inLang docs "en".toList)).above
      (inLang docs "en".toList) c

/-- The two groups are disjoint parts of the input. -/
theorem groups_subperm (docs : List DocFeatures) :
    (inLang docs "ru".toList ++ inLang docs "en".toList).Subperm docs := by
  have hsub : (inLang docs "en".toList).Sublist
      (docs.filter fun d => !decide (d.lang = "ru".toList)) := by
    refine List.monotone_filter_right docs ?_
    intro d hd
    have hen : d.lang = "en".toList := of_decide_eq_true hd
    rw [hen]
    decide
  exact (hsub.append_left _).subperm.trans (List.filter_append_perm _ docs).subperm

theorem categories_nodup : categories.Nodup := by decide

theorem length_filter_mem_le (cs : List Str) (L : Str → List DocFeatures) (d : DocFeatures) :
    (cs.filter fun c => d ∈ L c).length ≤ (cs.map fun c => (L c).count d).sum := by
  induction cs with
  | nil => exact Nat.le_refl _
  | cons c cs ih =>
      rw [List.map_cons, List.sum_cons]
      by_cases hd : d ∈ L c
      · have hpos : 0 < (L c).count d := List.count_pos_iff.mpr hd
        rw [List.filter_cons_of_pos (by simpa using hd), List.length_cons]
        omega
      · rw [List.filter_cons_of_neg (by simpa using hd)]
        omega

section OverCategories

variable (order : IterOrder Nat Nat) {artm : ARTM}

/-- The documents of one language, when its topics are the categories. -/
theorem exists_above (h : artm.OverCategories) (docs : List DocFeatures) :
    ∃ topics background, (thetaOf order artm docs).Fits docs.length topics background
      ∧ (∀ c ∈ topics, c ∈ categories)
      ∧ ∀ c ∈ categories, filedDocs topics docs (thetaOf order artm docs).itemWeights c
          = (thetaOf order artm docs).above docs c := by
  obtain ⟨topics, background, hfit, hperm, -⟩ := exists_thetaOf order h docs
  refine ⟨topics, background, hfit, fun c hc => hperm.mem_iff.mp hc, ?_⟩
  intro c hc
  exact filedDocs_eq_above hfit (hperm.nodup_iff.mpr categories_nodup) (hperm.mem_iff.mpr hc) docs

/-- A language lists each of its documents at most three times over all categories. -/
theorem sum_count_above_le (h : artm.OverCategories) (hstoch : artm.Stochastic)
    (docs : List DocFeatures) (d : DocFeatures) :
    (categories.map fun c => ((thetaOf order artm docs).above docs c).count d).sum
      ≤ 3 * docs.count d := by
  obtain ⟨topics, background, hfit, -, habove⟩ := exists_above order h docs
  have hcount := count_filedDocs_le categories_nodup hfit (hstoch _) d
  have heq : (categories.map fun c =>
        (filedDocs topics docs (thetaOf order artm docs).itemWeights c).count d)
      = categories.map fun c => ((thetaOf order artm docs).above docs c).count d := by
    refine List.map_congr_left ?_
    intro c hc
    rw [habove c hc]
  rw [heq] at hcount
  exact hcount

end OverCategories

/-- A category lists no document more often than it was given. -/
theorem categoryDocs_subperm (order : IterOrder Nat Nat) {load : Str → ARTM}
    (hload : ∀ lang, (load lang).OverCategories) (docs : List DocFeatures) (c : Str) :
    (categoryDocs order load docs c).Subperm docs := by
  have hpart : ∀ lang, ((thetaOf order (load lang) (inLang docs lang)).above
      (inLang docs lang) c).Sublist (inLang docs lang) := by
    intro lang
    obtain ⟨topics, background, hfit, -⟩ :=
      exists_thetaOf order (hload lang) (inLang docs lang)
    exact above_sublist _ (by rw [hfit.itemWeights]) c
  exact ((hpart "ru".toList).append (hpart "en".toList)).subperm.trans (groups_subperm docs)

/-- The categories together list a document at most three times as often as it was
    given. -/
theorem sum_count_categoryDocs_le (order : IterOrder Nat Nat) {load : Str → ARTM}
    (hload : ∀ lang, (load lang).OverCategories) (hstoch : ∀ lang, (load lang).Stochastic)
    (docs : List DocFeatures) (d : DocFeatures) :
    (categories.map fun c => (categoryDocs order load docs c).count d).sum
      ≤ 3 * docs.count d := by
  have hru := sum_count_above_le order (hload "ru".toList) (hstoch "ru".toList)
    (inLang docs "ru".toList) d
  have hen := sum_count_above_le order (hload "en".toList) (hstoch "en".toList)
    (inLang docs "en".toList) d
  have hgroups := (groups_subperm docs).count_le d
  rw [List.count_append] at hgroups
  simp only [categoryDocs, List.count_append, List.sum_map_add]
  omega

/-- Each category holds its list when both languages occur. -/
theorem getCategories_categoryDocs (order : IterOrder Nat Nat) {load : Str → ARTM}
    (hload : ∀ lang, (load lang).OverCategories) {docs : List DocFeatures}
    (hru : ∃ d ∈ docs, d.lang = "ru".toList) (hen : ∃ d ∈ docs, d.lang = "en".toList) :
    ∃ m, getCategories order load docs = .ok m ∧ (∀ c, c ∈ m ↔ c ∈ categories)
      ∧ ∀ c ∈ categories, m.lookup c = some (categoryDocs order load docs c) := by
  obtain ⟨tru, bru, hfru, hcru, hru_eq⟩ :=
    exists_above order (hload "ru".toList) (inLang docs "ru".toList)
  obtain ⟨ten, ben, hfen, hcen, hen_eq⟩ :=
    exists_above order (hload "en".toList) (inLang docs "en".toList)
  obtain ⟨m, hrun, hm⟩ := getCategories_filed hru hen hfru hfen hcru hcen
  refine ⟨m, hrun, hm.keys, ?_⟩
  intro c hc
  rw [hm.lists c hc, hru_eq c hc, hen_eq c hc]
  rfl

/-- **Which documents a category gets.**  When both languages occur, the list of
    each category is the Russian, then the English documents whose own weight for it
    is above 0.3; no document is listed more often than it was given; the background
    topic is no key; and with columns that are non-negative and sum to at most one, a
    document is listed at most three times per occurrence in the input. -/
theorem getCategories_lists (order : IterOrder Nat Nat) (load : Str → ARTM)
    (hload : ∀ lang, (load lang).OverCategories) (docs : List DocFeatures)
    (hru : ∃ d ∈ docs, d.lang = "ru".toList) (hen : ∃ d ∈ docs, d.lang = "en".toList) :
    (∃ m, getCategories order load docs = .ok m ∧ (∀ c, c ∈ m ↔ c ∈ categories)
      ∧ ∀ c ∈ categories, m.lookup c = some (categoryDocs order load docs c))
    ∧ (∀ c ∈ categories, (categoryDocs order load docs c).Subperm docs
        ∧ (docs.Nodup → (categoryDocs order load docs c).Nodup))
    ∧ ((∀ lang, (load lang).Stochastic) → ∀ d,
        (categories.map fun c => (categoryDocs order load docs c).count d).sum
            ≤ 3 * docs.count d
        ∧ (docs.Nodup →
            (categories.filter fun c => d ∈ categoryDocs order load docs c).length ≤ 3)) := by
  refine ⟨?_, ?_, ?_⟩
  · exact getCategories_categoryDocs order hload hru hen
  · intro c _
    have hsub := categoryDocs_subperm order hload docs c
    refine ⟨hsub, ?_⟩
    intro hnodup
    rw [List.nodup_iff_count_le_one]
    intro d
    exact (hsub.count_le d).trans (List.nodup_iff_count_le_one.mp hnodup d)
  · intro hstoch d
    have hcount := sum_count_categoryDocs_le order hload hstoch docs d
    refine ⟨hcount, ?_⟩
    intro hnodup
    have hone := List.nodup_iff_count_le_one.mp hnodup d
    have hmem := length_filter_mem_le categories (categoryDocs order load docs) d
    omega

theorem sampleARTM_overCategories (lang : Str) : (sampleARTM lang).OverCategories := fun batch =>
  ⟨categories, "background".toList, sampleARTM_fits lang batch, List.Perm.refl _, by decide⟩

/-- A document in each language. -/
def twoNews : List DocFeatures :=
  [sampleNews "en".toList "a.html".toList, sampleNews "ru".toList "b.html".toList]

theorem twoNews_languages :
    (∃ d ∈ twoNews, d.lang = "ru".toList) ∧ ∃ d ∈ twoNews, d.lang = "en".toList :=
  ⟨⟨sampleNews "ru".toList "b.html".toList, List.mem_cons_of_mem _ List.mem_cons_self, rfl⟩,
    ⟨sampleNews "en".toList "a.html".toList, List.mem_cons_self, rfl⟩⟩

/-- Two documents with the same column: both are filed under the first two
    categories, the Russian one first, and neither under the third. -/
theorem getCategories_lists_mixed :
    ∃ m, getCategories .stored sampleARTM
        [sampleNews "en".toList "a.html".toList, sampleNews "ru".toList "b.html".toList] = .ok m
      ∧ m.lookup "Economy".toList = some
          [sampleNews "ru".toList "b.html".toList, sampleNews "en".toList "a.html".toList]
      ∧ m.lookup "Technology".toList = some []
      ∧ (categories.filter fun c => sampleNews "ru".toList "b.html".toList
          ∈ categoryDocs .stored sampleARTM [sampleNews "en".toList "a.html".toList,
            sampleNews "ru".toList "b.html".toList] c).length ≤ 3 := by
  have hstoch : ∀ lang, (sampleARTM lang).Stochastic := by
    intro lang batch column hcol
    obtain ⟨item, -, rfl⟩ := List.mem_map.mp hcol
    exact ⟨by decide +kernel, by decide +kernel⟩
  obtain ⟨⟨m, hrun, -, hm⟩, -, hfew⟩ := getCategories_lists .stored sampleARTM
    sampleARTM_overCategories twoNews twoNews_languages.1 twoNews_languages.2
  refine ⟨m, hrun, ?_, ?_, (hfew hstoch _).2 (by decide +kernel)⟩
  · rw [hm _ (by decide)]
    decide +kernel
  · rw [hm _ (by decide)]
    decide +kernel

/-! ## Which documents are listed at all -/

/-- Some category lists a document. -/
def Listed (m : UMap Str (List DocFeatures)) (d : DocFeatures) : Prop :=
  ∃ c ∈ categories, ∃ l, m.lookup c = some l ∧ d ∈ l

/-- The topic model of its language gives the document more than 0.3 for one of the
    seven categories: column `j` is that of document `j` of the language. -/
def Weighty (order : IterOrder Nat Nat) (load : Str → ARTM) (docs : List DocFeatures)
    (lang : Str) (d : DocFeatures) : Prop :=
  ∃ column, (d, column) ∈ (inLang docs lang).zip
      (thetaOf order (load lang) (inLang docs lang)).itemWeights ∧
    ∃ c ∈ categories,
      3 / 10 < (thetaOf order (load lang) (inLang docs lang)).weight column c

theorem mem_above {theta : ThetaMatrix} {docs : List DocFeatures} {c : Str} {d : DocFeatures} :
    d ∈ theta.above docs c ↔
      ∃ column, (d, column) ∈ docs.zip theta.itemWeights ∧ 3 / 10 < theta.weight column c := by
  rw [ThetaMatrix.above, List.mem_map]
  constructor
  · rintro ⟨⟨e, column⟩, hmem, rfl⟩
    obtain ⟨hzip, hw⟩ := List.mem_filter.mp hmem
    exact ⟨column, hzip, of_decide_eq_true hw⟩
  · rintro ⟨column, hzip, hw⟩
    exact ⟨(d, column), List.mem_filter.mpr ⟨hzip, decide_eq_true hw⟩, rfl⟩

theorem weighty_iff {order : IterOrder Nat Nat} {load : Str → ARTM} {docs : List DocFeatures}
    {lang : Str} {d : DocFeatures} :
    Weighty order load docs lang d ↔ ∃ c ∈ categories,
      d ∈ (thetaOf order (load lang) (inLang docs lang)).above (inLang docs lang) c := by
  simp only [Weighty, mem_above]
  constructor
  · rintro ⟨column, hzip, c, hc, hw⟩
    exact ⟨c, hc, column, hzip, hw⟩
  · rintro ⟨c, hc, column, hzip, hw⟩
    exact ⟨column, hzip, c, hc, hw⟩

/-- **Exactly the documents above the threshold are listed.**  There is no catch-all: a
    document appears in one of the seven lists if and only if its own column gives one
    of the categories more than 0.3. -/
theorem getCategories_listed_iff (order : IterOrder Nat Nat) (load : Str → ARTM)
    (hload : ∀ lang, (load lang).OverCategories) (docs : List DocFeatures)
    (hru : ∃ d ∈ docs, d.lang = "ru".toList) (hen : ∃ d ∈ docs, d.lang = "en".toList) :
    ∃ m, getCategories order load docs = .ok m ∧ ∀ d, Listed m d ↔
      Weighty order load docs "ru".toList d ∨ Weighty order load docs "en".toList d := by
  obtain ⟨m, hrun, -, hm⟩ := getCategories_categoryDocs order hload hru hen
  refine ⟨m, hrun, ?_⟩
  intro d
  rw [weighty_iff, weighty_iff]
  constructor
  · rintro ⟨c, hc, l, hl, hd⟩
    rw [hm c hc] at hl
    obtain rfl := Option.some.inj hl
    rcases List.mem_append.mp hd with h | h
    · exact Or.inl ⟨c, hc, h⟩
    · exact Or.inr ⟨c, hc, h⟩
  · rintro (⟨c, hc, h⟩ | ⟨c, hc, h⟩)
    · exact ⟨c, hc, _, hm c hc, List.mem_append_left _ h⟩
    · exact ⟨c, hc, _, hm c hc, List.mem_append_right _ h⟩

theorem getCategories_listed_mixed :
    ∃ m, getCategories .stored sampleARTM twoNews = .ok m ∧
      ∀ d, Listed m d ↔ Weighty .stored sampleARTM twoNews "ru".toList d
        ∨ Weighty .stored sampleARTM twoNews "en".toList d :=
  getCategories_listed_iff .stored sampleARTM sampleARTM_overCategories twoNews
    twoNews_languages.1 twoNews_languages.2

/-- A topic model that weighs the seven categories and the background alike. -/
def evenARTM (lang : Str) : ARTM where
  lang := lang
  dict := []
  transform batch := {
    topicName := categories ++ ["background".toList]
    numTopics := 8
    itemTitle := batch.item.map Item.title
    itemWeights := batch.item.map fun _ => List.replicate 8 (1 / 8) }

theorem evenARTM_fits (lang : Str) (batch : Batch) :
    ((evenARTM lang).transform batch).Fits batch.item.length categories "background".toList := by
  refine ⟨rfl, rfl, List.length_map _, List.length_map _, ?_⟩
  intro column hcol
  obtain ⟨item, -, rfl⟩ := List.mem_map.mp hcol
  rfl

/-- With even columns no document of the input is listed. -/
theorem getCategories_even :
    (∀ lang, (evenARTM lang).OverCategories) ∧
      (∀ lang batch, ∀ column ∈ ((evenARTM lang).transform batch).itemWeights,
        (∀ w ∈ column, 0 ≤ w) ∧ column.sum = 1) ∧
      (∃ d ∈ twoNews, d.lang = "ru".toList) ∧ (∃ d ∈ twoNews, d.lang = "en".toList) ∧
      ∃ m, getCategories .stored evenARTM twoNews = .ok m ∧ ¬ ∀ d ∈ twoNews, Listed m d := by
  have hload : ∀ lang, (evenARTM lang).OverCategories := fun lang batch =>
    ⟨categories, "background".toList, evenARTM_fits lang batch, List.Perm.refl _, by decide⟩
  refine ⟨hload, ?_, twoNews_languages.1, twoNews_languages.2, ?_⟩
  · intro lang batch column hcol
    obtain ⟨item, -, rfl⟩ := List.mem_map.mp hcol
    exact ⟨by decide +kernel, by decide +kernel⟩
  · obtain ⟨m, hrun, -, hm⟩ := getCategories_categoryDocs .stored hload twoNews_languages.1
      twoNews_languages.2
    refine ⟨m, hrun, ?_⟩
    intro hall
    obtain ⟨c, hc, l, hl, hd⟩ := hall _ List.mem_cons_self
    have hnone : ∀ c ∈ categories, categoryDocs .stored evenARTM twoNews c = [] := by
      decide +kernel
    rw [hm c hc, hnone c hc] at hl
    obtain rfl := Option.some.inj hl
    cases hd

end TgnewsNewsCategories
