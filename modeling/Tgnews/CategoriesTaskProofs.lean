import Tgnews.TasksProofs

/-! # The task `categories` (`tgnews.cpp`)

    `categories` files the news of both languages under the seven categories and prints
    one object for each category.  The route:

    * `perm_run_of_lookup` — a map that holds `L c` under the keys `c` of a list is walked
      as that list, in some order;
    * `categoriesTask_prints` — when both languages are among the news, what the task prints,
      and `categoriesTask_missing` — it prints nothing when one of them is not;
    * `categories_within_news` — so the articles of `categories` are articles of `news`. -/

namespace TgnewsCategoriesTask

open CxxContainers CxxText TgnewsCommon TgnewsHtml TgnewsLangrec TgnewsIo TgnewsSerializer
open TgnewsDump TgnewsFeatures TgnewsNewsDet TgnewsNewsCategories TgnewsTasks

variable {K V M R S : Type}

/-! ## Walking a map -/

/-- A map with known keys and values is walked as the list of its keys, in some order. -/
theorem perm_run_of_lookup [DecidableEq K] (order : IterOrder K V) {m : UMap K V} {keys : List K}
    (hnodup : keys.Nodup) (L : K → V) (hkeys : ∀ k, k ∈ m ↔ k ∈ keys)
    (hlookup : ∀ k ∈ keys, m.lookup k = some (L k)) :
    (order.run m).Perm (keys.map fun k => (k, L k)) := by
  have hentries : m.entries.Perm (keys.map fun k => (⟨k, L k⟩ : Σ _ : K, V)) := by
    refine (List.perm_ext_iff_of_nodup m.nodupKeys.nodup ?_).mpr ?_
    · refine List.Nodup.map ?_ hnodup
      intro k k' h
      exact congrArg Sigma.fst h
    · rintro ⟨k, v⟩
      constructor
      · intro h
        have hv := AList.mem_lookup_iff.mpr h
        have hk : k ∈ keys := (hkeys k).mp (AList.lookup_isSome.mp (by rw [hv]; rfl))
        rw [hlookup k hk] at hv
        exact List.mem_map.mpr ⟨k, hk, by rw [Option.some.inj hv]⟩
      · intro h
        obtain ⟨k', hk', heq⟩ := List.mem_map.mp h
        rw [← heq]
        exact AList.mem_lookup_iff.mp (hlookup k' hk')
  have h := (order.perm m).trans (hentries.map fun e => (e.1, e.2))
  rw [List.map_map] at h
  exact h

/-! ## What is printed -/

/-- The name of a category as it is printed. -/
def printedName (cat : Str) : Str := cat.map Char.toLower

/-- The object of a category. -/
def catJson (rel : DocFeatures → Str) (cat : Str × List DocFeatures) : Json :=
  .obj [("articles".toList, .ofNames (cat.2.map rel)),
    ("category".toList, .str (printedName cat.1))]

@[simp] theorem articles_catJson (rel : DocFeatures → Str) (cat : Str × List DocFeatures) :
    (catJson rel cat).articles = cat.2.map rel :=
  strings_ofNames _

/-- The result of `DumpNewsCat` on documents below the folder. -/
theorem newsCatResult_eq (order : IterOrder Str (List DocFeatures)) {f : Str} {len : Nat}
    {cats : UMap Str (List DocFeatures)} {rel : DocFeatures → Str}
    (hlen : prefixLen f = .ok len)
    (h : ∀ e ∈ cats.entries, ∀ d ∈ e.2, substr d.docName len = .ok (rel d)) :
    newsCatResult order cats f = .ok (.arr ((order.run cats).map (catJson rel))) := by
  rw [newsCatResult, hlen]
  show ((order.run cats).mapM _ >>= fun elems => Except.ok (Json.arr elems)) = _
  rw [mapM_eq_ok (g := catJson rel)]
  · rfl
  · refine order.forall_run.mpr fun e he => ?_
    show (stripNames len e.2 >>= fun paths => _) = _
    rw [stripNames_eq (h e he)]
    rfl

/-- The name of a category is ASCII, so the names of its articles decide. -/
theorem allUtf8_catJson (rel : DocFeatures → Str) {cat : Str × List DocFeatures}
    (hcat : cat.1 ∈ categories) :
    AllUtf8 (catJson rel cat) ↔ ∀ d ∈ cat.2, ValidUtf8 (rel d) := by
  have harticles : ValidUtf8 "articles".toList := by decide +kernel
  have hcategory : ValidUtf8 "category".toList := by decide +kernel
  have hnames : ∀ c ∈ categories, ValidUtf8 (printedName c) := by decide +kernel
  rw [catJson, AllUtf8, FieldsUtf8, FieldsUtf8, FieldsUtf8, allUtf8_ofNames, AllUtf8,
    List.forall_mem_map]
  simp only [harticles, hcategory, hnames cat.1 hcat, true_and, and_true]

/-- The objects of all categories. -/
theorem allUtf8_catJsons (rel : DocFeatures → Str) {L : Str → List DocFeatures}
    {cats : List (Str × List DocFeatures)} (hperm : cats.Perm (categories.map fun c => (c, L c))) :
    AllUtf8 (.arr (cats.map (catJson rel))) ↔ ∀ c ∈ categories, ∀ d ∈ L c, ValidUtf8 (rel d) := by
  have hmem : ∀ cat, cat ∈ cats ↔ ∃ c ∈ categories, (c, L c) = cat := fun cat => by
    rw [hperm.mem_iff, List.mem_map]
  have hiff : ∀ c ∈ categories,
      (AllUtf8 (catJson rel (c, L c)) ↔ ∀ d ∈ L c, ValidUtf8 (rel d)) :=
    fun _ hc => allUtf8_catJson rel hc
  rw [AllUtf8, elemsUtf8_iff, List.forall_mem_map]
  constructor
  · intro h c hc
    exact (hiff c hc).mp (h _ ((hmem _).mpr ⟨c, hc, rfl⟩))
  · intro h cat hcat
    obtain ⟨c, hc, rfl⟩ := (hmem cat).mp hcat
    exact (hiff c hc).mpr (h c hc)

/-! ## The task -/

section Task

variable (env : Env M R S)

/-- A language occurs among the news. -/
def Occurs (f : Str) (rs : List Str) (lang : Str) : Prop :=
  ∃ r ∈ newsNames env f rs, langOf env (joinPath f r) = lang

/-- A language occurs when one of the news is in it. -/
theorem occurs_iff (f : Str) (rs : List Str) (lang : Str) :
    Occurs env f rs lang ↔ ∃ d ∈ newsDocs env f rs, d.lang = lang := by
  rw [Occurs, newsDocs]
  simp only [List.mem_map, exists_exists_and_eq_and, lang_verdict, lang_recogFile]

/-- The name of a news document is its path, so it is known by its relative name. -/
theorem eq_of_mem_newsDocs {f : Str} {len : Nat}
    (hstrip : ∀ r, substr (joinPath f r) len = .ok r) {rs : List Str} {d : DocFeatures}
    (hd : d ∈ newsDocs env f rs) :
    d = verdict env (recogFile env (joinPath f (d.docName.drop len))) := by
  obtain ⟨r, -, rfl⟩ := List.mem_map.mp hd
  rw [docName_verdict, path_recogFile, drop_of_substr (hstrip r)]

theorem nodup_newsDocs {f : Str} (hf : f ≠ []) {rs : List Str} (hrs : rs.Nodup) :
    (newsDocs env f rs).Nodup := by
  obtain ⟨len, -, hstrip⟩ := prefixLen_joinPath hf
  refine List.Nodup.of_map (fun d => d.docName.drop len) ?_
  rw [map_drop_newsDocs hstrip]
  exact hrs.filter _

/-- **`GetCategories` on the news** returns when both languages are among them. -/
theorem getCategories_newsDocs (hload : ∀ lang, (env.topics lang).OverCategories)
    {f : Str} {rs : List Str} (hru : Occurs env f rs "ru".toList)
    (hen : Occurs env f rs "en".toList) :
    ∃ m, getCategories env.tokenOrder env.topics (newsDocs env f rs) = .ok m
      ∧ (env.docsOrder.run m).Perm (categories.map fun c =>
          (c, categoryDocs env.tokenOrder env.topics (newsDocs env f rs) c)) := by
  obtain ⟨m, hrun, hkeys, hlists⟩ := getCategories_categoryDocs env.tokenOrder hload
    ((occurs_iff env f rs _).mp hru) ((occurs_iff env f rs _).mp hen)
  exact ⟨m, hrun, perm_run_of_lookup env.docsOrder categories_nodup _ hkeys hlists⟩

/-- It does not when one of them is missing. -/
theorem getCategories_newsDocs_missing {f : Str} {rs : List Str}
    (h : ¬ (Occurs env f rs "ru".toList ∧ Occurs env f rs "en".toList))
    (m : UMap Str (List DocFeatures)) :
    getCategories env.tokenOrder env.topics (newsDocs env f rs) ≠ .ok m := by
  refine getCategories_missing env.tokenOrder env.topics ?_ m
  rw [occurs_iff, occurs_iff, ← inLang_ne_nil, ← inLang_ne_nil] at h
  tauto

/-- **What the task prints** when both languages are among the news, exactly when the names
    it lists are valid. -/
theorem categoriesTask_prints (hload : ∀ lang, (env.topics lang).OverCategories) {f : Str}
    {len : Nat} (hlen : prefixLen f = .ok len) (hstrip : ∀ r, substr (joinPath f r) len = .ok r)
    {rs : List Str} (hru : Occurs env f rs "ru".toList) (hen : Occurs env f rs "en".toList) :
    ∃ cats : List (Str × List DocFeatures),
      cats.Perm (categories.map fun c =>
        (c, categoryDocs env.tokenOrder env.topics (newsDocs env f rs) c))
      ∧ Prints (∀ c ∈ categories,
          ∀ d ∈ categoryDocs env.tokenOrder env.topics (newsDocs env f rs) c,
            ValidUtf8 (d.docName.drop len))
        (categoriesTask env f (rs.map (joinPath f)))
        (jsonLine env.dumpFloat (.arr (cats.map (catJson fun d => d.docName.drop len)))) := by
  obtain ⟨m, hrun, hperm⟩ := getCategories_newsDocs env hload hru hen
  refine ⟨env.docsOrder.run m, hperm, ?_⟩
  have hnames : ∀ e ∈ m.entries, ∀ d ∈ e.2, substr d.docName len = .ok (d.docName.drop len) := by
    intro e he d hd
    have hcat := hperm.mem_iff.mp
      ((env.docsOrder.perm m).mem_iff.mpr (List.mem_map_of_mem (f := fun e => (e.1, e.2)) he))
    obtain ⟨c, -, heq⟩ := List.mem_map.mp hcat
    obtain ⟨-, hdocs⟩ := Prod.mk.inj heq
    rw [← hdocs] at hd
    exact substr_newsDocs hstrip
      ((categoryDocs_subperm env.tokenOrder hload _ c).subset hd)
  rw [categoriesTask, newsOf_joinPath, lift_ok_bind, hrun, lift_ok_bind]
  exact (print_of_result env.dumpFloat (newsCatResult_eq env.docsOrder hlen hnames)).congr
    (allUtf8_catJsons _ hperm).symm rfl

/-- It prints nothing when one of them is missing. -/
theorem categoriesTask_missing {f : Str} {rs : List Str}
    (h : ¬ (Occurs env f rs "ru".toList ∧ Occurs env f rs "en".toList)) :
    ∃ e, categoriesTask env f (rs.map (joinPath f)) = throw e := by
  rw [categoriesTask, newsOf_joinPath, lift_ok_bind]
  cases hrun : getCategories env.tokenOrder env.topics (newsDocs env f rs) with
  | ok m => exact absurd hrun (getCategories_newsDocs_missing env h m)
  | error e => exact ⟨e, rfl⟩

/-- An article is listed under at most three categories. -/
theorem length_listing_le (hload : ∀ lang, (env.topics lang).OverCategories)
    (hstoch : ∀ lang, (env.topics lang).Stochastic) {f : Str} (hf : f ≠ []) {len : Nat}
    (hstrip : ∀ r, substr (joinPath f r) len = .ok r) {rs : List Str} (hrs : rs.Nodup) (r : Str) :
    (categories.filter fun c => r ∈ (categoryDocs env.tokenOrder env.topics
      (newsDocs env f rs) c).map fun d => d.docName.drop len).length ≤ 3 := by
  obtain ⟨d, hd⟩ : ∃ d, d = verdict env (recogFile env (joinPath f r)) := ⟨_, rfl⟩
  have hmem : ∀ c, r ∈ (categoryDocs env.tokenOrder env.topics (newsDocs env f rs) c).map
      (fun d => d.docName.drop len) →
        d ∈ categoryDocs env.tokenOrder env.topics (newsDocs env f rs) c := by
    intro c hr
    obtain ⟨d', hd', hname⟩ := List.mem_map.mp hr
    have hsame := eq_of_mem_newsDocs env hstrip
      ((categoryDocs_subperm env.tokenOrder hload (newsDocs env f rs) c).subset hd')
    rw [hname, ← hd] at hsame
    rw [← hsame]
    exact hd'
  have hcount := sum_count_categoryDocs_le env.tokenOrder hload hstoch (newsDocs env f rs) d
  have hone := List.nodup_iff_count_le_one.mp (nodup_newsDocs env hf hrs) d
  have hlisted := length_filter_mem_le categories
    (categoryDocs env.tokenOrder env.topics (newsDocs env f rs)) d
  calc _ ≤ (categories.filter fun c =>
          d ∈ categoryDocs env.tokenOrder env.topics (newsDocs env f rs) c).length := by
        refine (List.monotone_filter_right categories fun c hc => ?_).length_le
        exact decide_eq_true (hmem c (of_decide_eq_true hc))
    _ ≤ 3 := by omega

end Task

/-- **Categories list news, at most three times each.**  The task prints exactly when
    both languages are among the news and the names listed are valid UTF-8.  It prints one
    object for each of the seven categories then; a category lists no article twice, every
    article it lists is the name of a file that is news, and none is listed under more than
    three categories. -/
theorem categories_within_news (env : Env M R S)
    (hload : ∀ lang, (env.topics lang).OverCategories)
    (hstoch : ∀ lang, (env.topics lang).Stochastic) {f : Str} (hf : f ≠ []) {rs : List Str}
    (hrs : rs.Nodup) :
    ((∃ t, Writes (categoriesTask env f (rs.map (joinPath f))) t) ↔
      (Occurs env f rs "ru".toList ∧ Occurs env f rs "en".toList)
        ∧ ∀ c ∈ categories,
          ∀ d ∈ categoryDocs env.tokenOrder env.topics (newsDocs env f rs) c,
            ValidUtf8 (d.docName.drop (joinPath f []).length))
    ∧ ∀ t, Writes (categoriesTask env f (rs.map (joinPath f))) t →
        ∃ j, t = jsonLine env.dumpFloat j
          ∧ (j.elems.map fun c => c.index "category".toList).Perm
              (categories.map fun c => .str (printedName c))
          ∧ (∀ c ∈ j.elems, c.articles.Nodup ∧ c.articles ⊆ newsNames env f rs)
          ∧ ∀ r, (j.elems.filter fun c => r ∈ c.articles).length ≤ 3 := by
  obtain ⟨len, hlen, hstrip⟩ := prefixLen_joinPath hf
  obtain rfl : len = (joinPath f []).length := len_of_substr (hstrip [])
  have hboth : ∀ {t}, Writes (categoriesTask env f (rs.map (joinPath f))) t →
      Occurs env f rs "ru".toList ∧ Occurs env f rs "en".toList := by
    intro t ht
    by_contra hmissing
    obtain ⟨e, he⟩ := categoriesTask_missing env hmissing
    rw [he] at ht
    cases ht []
  refine ⟨⟨?_, ?_⟩, ?_⟩
  · rintro ⟨t, ht⟩
    obtain ⟨hru, hen⟩ := hboth ht
    obtain ⟨cats, -, hprints⟩ := categoriesTask_prints env hload hlen hstrip hru hen
    refine ⟨⟨hru, hen⟩, ?_⟩
    by_contra hbad
    exact ht.not_throws (hprints.throws hbad)
  · rintro ⟨⟨hru, hen⟩, hvalid⟩
    obtain ⟨cats, -, hprints⟩ := categoriesTask_prints env hload hlen hstrip hru hen
    exact ⟨_, hprints.writes hvalid⟩
  · intro t ht
    obtain ⟨hru, hen⟩ := hboth ht
    obtain ⟨cats, hperm, hprints⟩ := categoriesTask_prints env hload hlen hstrip hru hen
    have hvalid : ∀ c ∈ categories,
        ∀ d ∈ categoryDocs env.tokenOrder env.topics (newsDocs env f rs) c,
          ValidUtf8 (d.docName.drop (joinPath f []).length) := by
      by_contra hbad
      exact ht.not_throws (hprints.throws hbad)
    refine ⟨_, ht.unique (hprints.writes hvalid), ?_, ?_, ?_⟩
    · have h := hperm.map fun cat => (Json.str (printedName cat.1))
      rw [List.map_map] at h
      show ((cats.map _).map _).Perm _
      rw [List.map_map]
      exact h
    · intro c hc
      obtain ⟨cat, hcat, rfl⟩ := List.mem_map.mp hc
      obtain ⟨name, -, rfl⟩ := List.mem_map.mp (hperm.mem_iff.mp hcat)
      have hsub := categoryDocs_subperm env.tokenOrder hload (newsDocs env f rs) name
      obtain ⟨docs, hdocs, hle⟩ := hsub
      have hnames := hle.map fun d => d.docName.drop (joinPath f []).length
      rw [map_drop_newsDocs hstrip] at hnames
      have hlisted := hdocs.map fun d => d.docName.drop (joinPath f []).length
      rw [articles_catJson]
      exact ⟨hlisted.nodup_iff.mp (hnames.nodup (hrs.filter _)), fun r hr =>
        hnames.subset (hlisted.mem_iff.mpr hr)⟩
    · intro r
      have h := (hperm.filter fun cat =>
        decide (r ∈ cat.2.map fun d => d.docName.drop (joinPath f []).length)).length_eq
      rw [List.filter_map, List.length_map] at h
      show ((cats.map _).filter _).length ≤ 3
      rw [List.filter_map, List.length_map]
      simp only [Function.comp_def, articles_catJson] at h ⊢
      rw [h]
      exact length_listing_le env hload hstoch hf hstrip hrs r

/-! ## A folder with a page in each language -/

/-- Every page names its path as its site. -/
def sitePage (path : Str) : Node :=
  .element "html".toList [] [
    .element "meta".toList [("property".toList, "og:site_name".toList),
      ("content".toList, path)] []]

/-- The first page is on the list of Russian sites, every other text is English, and both
    models take what they are given for news. -/
def mixedEnv : Env Unit Str (List Word) :=
  { sampleEnv "en".toList id with
    dom := sitePage
    lang := {
      siteFile := fun lang => if lang = "ru".toList then "in/a.html\n".toList else []
      findLanguage := fun _ => ⟨"en".toList, 1⟩ }
    scores := { ru := fun _ => 1 / 2, en := fun _ => 1 / 2 } }

theorem sampleARTM_stochastic (lang : Str) : (sampleARTM lang).Stochastic := by
  intro batch column hcol
  obtain ⟨item, -, rfl⟩ := List.mem_map.mp hcol
  exact ⟨by decide +kernel, by decide +kernel⟩

theorem occurs_mixedEnv :
    Occurs mixedEnv "in".toList ["a.html".toList, "b.html".toList] "ru".toList
      ∧ Occurs mixedEnv "in".toList ["a.html".toList, "b.html".toList] "en".toList :=
  ⟨⟨"a.html".toList, by decide +kernel, by decide +kernel⟩,
    ⟨"b.html".toList, by decide +kernel, by decide +kernel⟩⟩

/-- Two pages, one in each language: every category is printed. -/
theorem categories_within_news_mixed :
    ∃ j, Writes (categoriesTask mixedEnv "in".toList
          (["a.html".toList, "b.html".toList].map (joinPath "in".toList)))
        (jsonLine (fun _ => []) j)
      ∧ (j.elems.map fun c => c.index "category".toList).Perm
          (categories.map fun c => .str (printedName c))
      ∧ ∀ c ∈ j.elems, c.articles ⊆ newsNames mixedEnv "in".toList
          ["a.html".toList, "b.html".toList] := by
  obtain ⟨hiff, hall⟩ := categories_within_news mixedEnv sampleARTM_overCategories
    sampleARTM_stochastic (show "in".toList ≠ [] by decide)
    (show ["a.html".toList, "b.html".toList].Nodup by decide)
  obtain ⟨t, ht⟩ := hiff.mpr ⟨occurs_mixedEnv, by decide +kernel⟩
  obtain ⟨j, rfl, hperm, hlists, -⟩ := hall t ht
  exact ⟨j, ht, hperm, fun c hc => (hlists c hc).2⟩

end TgnewsCategoriesTask
