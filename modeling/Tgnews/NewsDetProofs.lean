import Tgnews.CommonProofs
import Tgnews.CxxRegexProofs

/-! # News detection (`news_det.hpp`)

    A document is news when its address says so, else when the model of its
    language gives it more than 0.3.  The two models are taken as functions of the
    feature vector (`Scores`).

    `DetectNews` moves the news out of the vector it was given.  A moved-from
    `DocFeatures` keeps its two scalar fields; its strings and maps are left valid
    but unspecified, so what a move leaves behind is a parameter (`MovedFrom`), as
    the iteration order of a hash map is, and the vector left is one of
    `LeftFeatures`. -/

namespace TgnewsNewsDet

open CxxContainers CxxText CxxRegex TgnewsCommon

/-- `Infer` of the two models. -/
structure Scores where
  ru : List ℚ → ℚ
  en : List ℚ → ℚ

/-- What the move constructor leaves of its argument. -/
structure MovedFrom where
  run : DocFeatures → LeftFeatures
  isNews : ∀ d, (run d).isNews = d.isNews
  isNewsScore : ∀ d, (run d).isNewsScore = d.isNewsScore

/-- Strings and maps emptied, as the usual library does. -/
def MovedFrom.emptied : MovedFrom where
  run d := {
    bows := ∅, lemmas := ∅, title := [], docName := [], lang := [], url := []
    isNews := d.isNews, isNewsScore := d.isNewsScore }
  isNews _ := rfl
  isNewsScore _ := rfl

/-- `GenerateNewsDetFeatures`. -/
def generateNewsDetFeatures (features : DocFeatures) : Except Fault (List ℚ) :=
  features.get "text:feats".toList

/-- `https*://[^/]*`. -/
def hostPattern : List Piece :=
  literal "http" ++ [.many (· = 's')] ++ literal "://" ++ [.many (· ≠ '/')]

/-- The address rule: `(news|novosti)` is found once scheme and host are removed. -/
def urlRule (url : Str) : Bool :=
  regexSearch (regexReplace url hostPattern []) [literal "news", literal "novosti"]

/-- `DetectNewsTask` on one document; a document in another language keeps its flag. -/
def detectDoc (scores : Scores) (doc : DocFeatures) : Except Fault DocFeatures :=
  if urlRule doc.url then
    .ok { doc with isNewsScore := 1, isNews := true }
  else if doc.lang = "ru".toList then do
    let features ← generateNewsDetFeatures doc
    let score := scores.ru features
    return { doc with isNewsScore := score, isNews := 3 / 10 < score }
  else if doc.lang = "en".toList then do
    let features ← generateNewsDetFeatures doc
    let score := scores.en features
    return { doc with isNewsScore := score, isNews := 3 / 10 < score }
  else .ok doc

/-- `DetectNewsTask` on a range of the documents. -/
def detectNewsTask (scores : Scores) (documents : List DocFeatures) (start stop : Nat) :
    Except Fault (List DocFeatures) :=
  (List.range' start (stop - start)).foldlM (fun documents i => do
    let doc ← vectorAt documents i
    let doc ← detectDoc scores doc
    return documents.set i doc) documents

/-- The second loop of `DetectNews`: the news, and the vector that is left. -/
def moveOutNews (moved : MovedFrom) : List DocFeatures → List DocFeatures × List LeftFeatures :=
  moveOutIf (·.isNews) (fun doc => (doc, moved.run doc)) DocFeatures.left

/-- `DetectNews`: the news, and what `*documents` holds afterwards. -/
def detectNews (scores : Scores) (moved : MovedFrom) (documents : List DocFeatures) :
    Except Fault (List DocFeatures × List LeftFeatures) := do
  let documents ← documents.mapM (detectDoc scores)
  return moveOutNews moved documents

/-! ## One document -/

/-- The model of a language. -/
def Scores.forLang (scores : Scores) (lang : Str) : Option (List ℚ → ℚ) :=
  if lang = "ru".toList then some scores.ru
  else if lang = "en".toList then some scores.en
  else none

/-- Whether an address and a feature vector make a document of a language news. -/
def flagged (scores : Scores) (lang url : Str) (vec : List ℚ) : Bool :=
  urlRule url || match scores.forLang lang with
    | some score => 3 / 10 < score vec
    | none => false

/-- The score a document of a language gets: one by its address, else the model's;
    none in another language. -/
def newsScore (scores : Scores) (lang url : Str) (vec : List ℚ) : Option ℚ :=
  if urlRule url then some 1 else (scores.forLang lang).map fun score => score vec

/-- A document after detection. -/
def detected (scores : Scores) (vec : List ℚ) (doc : DocFeatures) : DocFeatures :=
  { doc with
    isNews := flagged scores doc.lang doc.url vec
    isNewsScore := (newsScore scores doc.lang doc.url vec).getD doc.isNewsScore }

/-- **Detection touches two fields.**  It can only fail to read the bag of features,
    and it does not read the bag of a document in another language. -/
theorem detectDoc_eq (scores : Scores) {doc : DocFeatures} {vec : List ℚ}
    (hnew : ¬ (doc.lang = "ru".toList ∨ doc.lang = "en".toList) → doc.isNews = false)
    (hvec : doc.lang = "ru".toList ∨ doc.lang = "en".toList →
      generateNewsDetFeatures doc = .ok vec) :
    detectDoc scores doc = .ok (detected scores vec doc) := by
  rw [detectDoc, detected, flagged, newsScore, Scores.forLang]
  by_cases hurl : urlRule doc.url = true
  · rw [if_pos hurl, if_pos hurl, hurl]
    rfl
  · rw [if_neg hurl, if_neg hurl, Bool.eq_false_of_not_eq_true hurl]
    by_cases hru : doc.lang = "ru".toList
    · rw [if_pos hru, if_pos hru, hvec (Or.inl hru)]
      rfl
    · rw [if_neg hru, if_neg hru]
      by_cases hen : doc.lang = "en".toList
      · rw [if_pos hen, if_pos hen, hvec (Or.inr hen)]
        rfl
      · -- another language: the flag stays what the constructor made it
        rw [if_neg hen, if_neg hen]
        show Except.ok doc = Except.ok { doc with isNews := false }
        rw [← hnew (not_or.mpr ⟨hru, hen⟩)]

/-! ## The whole vector -/

/-- `DetectNews` once the outcome for each document is known. -/
theorem detectNews_eq {scores : Scores} {moved : MovedFrom} {docs ds : List DocFeatures}
    (h : docs.mapM (detectDoc scores) = .ok ds) :
    detectNews scores moved docs
      = .ok (ds.filter (·.isNews),
          ds.map fun d => if d.isNews then moved.run d else d.left) := by
  rw [detectNews, h]
  have hfst : (moveOutNews moved ds).1 = ds.filter (·.isNews) :=
    (moveOutIf_fst _ _ _ ds).trans (List.map_id _)
  have hsnd : (moveOutNews moved ds).2
      = ds.map fun d => if d.isNews then moved.run d else d.left :=
    moveOutIf_snd _ _ _ ds
  show Except.ok (moveOutNews moved ds) = _
  rw [← hfst, ← hsnd]

/-! ## The host is not read -/

/-- `http`, any number of `s`, `://`. -/
def scheme (k : Nat) : Str := "http".toList ++ (List.replicate k 's' ++ "://".toList)

/-- **The first match ends at the slash behind the authority.** -/
theorem matchLen_host (k : Nat) {h r : Str} (hh : '/' ∉ h) (hr : ∀ c ∈ r.head?, c = '/') :
    matchLen hostPattern (scheme k ++ (h ++ r)) = some ((scheme k).length + h.length) := by
  have hauth : ∀ c ∈ h, decide (c ≠ '/') = true := by
    intro c hc
    exact decide_eq_true fun heq => hh (heq ▸ hc)
  have hslash : ∀ c ∈ r.head?, decide (c ≠ '/') = false := by
    intro c hc
    exact decide_eq_false (not_not.mpr (hr c hc))
  have hmatch := matchLen_literal_run "http" "://" (a := 's') k (by simp) hauth hslash
  rw [scheme, List.append_assoc ("http".toList), List.append_assoc (List.replicate k 's'),
    hostPattern]
  refine hmatch.trans ?_
  rw [List.length_append, List.length_append, List.length_replicate, Nat.add_assoc, Nat.add_assoc]

/-- Scheme and host are removed, and the rest is searched as if nothing stood before. -/
theorem urlRule_host (k : Nat) {h r : Str} (hh : '/' ∉ h) (hr : ∀ c ∈ r.head?, c = '/') :
    urlRule (scheme k ++ (h ++ r)) = urlRule r := by
  have hrest : regexReplace (scheme k ++ (h ++ r)) hostPattern []
      = regexReplace r hostPattern [] := by
    obtain ⟨c, s, hs⟩ := List.exists_cons_of_ne_nil (show scheme k ++ (h ++ r) ≠ [] from nofun)
    obtain ⟨m, hm⟩ : ∃ m, (scheme k).length + h.length = m + 1 :=
      ⟨(scheme k).length + h.length - 1, by rw [scheme]; simp; omega⟩
    have hmatch := matchLen_host k hh hr
    have hdrop : s.drop m = r := by
      rw [← List.drop_succ_cons (a := c), ← hs, ← hm, ← List.append_assoc, ← List.length_append,
        List.drop_left]
    rw [hs, hm] at hmatch
    rw [regexReplace, hs, replaceFrom_match hmatch, replaceFrom_skip, hdrop, List.nil_append]
    rfl
  rw [urlRule, hrest, urlRule]

/-- Of the address, detection reads what the rule says of it. -/
theorem detectDoc_url (scores : Scores) (doc : DocFeatures) {u v : Str}
    (h : urlRule u = urlRule v) :
    (detectDoc scores { doc with url := u }).map (fun d => (d.isNews, d.isNewsScore))
      = (detectDoc scores { doc with url := v }).map (fun d => (d.isNews, d.isNewsScore)) := by
  have hget : ∀ w, generateNewsDetFeatures { doc with url := w } = generateNewsDetFeatures doc :=
    fun _ => rfl
  simp only [detectDoc, h, hget]
  by_cases hv : urlRule v = true
  · rw [if_pos hv, if_pos hv]
    rfl
  · rw [if_neg hv, if_neg hv]
    by_cases hru : doc.lang = "ru".toList
    · rw [if_pos hru, if_pos hru]
      cases generateNewsDetFeatures doc <;> rfl
    · rw [if_neg hru, if_neg hru]
      by_cases hen : doc.lang = "en".toList
      · rw [if_pos hen, if_pos hen]
        cases generateNewsDetFeatures doc <;> rfl
      · rw [if_neg hen, if_neg hen]
        rfl

/-- **The host is not read.**  Two addresses that differ in the host only get the same
    flag and the same score, whatever the two hosts spell and the rest embeds. -/
theorem detectDoc_host (scores : Scores) (doc : DocFeatures) (k : Nat) {h₁ h₂ r : Str}
    (hh₁ : '/' ∉ h₁) (hh₂ : '/' ∉ h₂) (hr : r = [] ∨ ∃ t, r = '/' :: t) :
    (detectDoc scores { doc with url := scheme k ++ (h₁ ++ r) }).map
        (fun d => (d.isNews, d.isNewsScore))
      = (detectDoc scores { doc with url := scheme k ++ (h₂ ++ r) }).map
        (fun d => (d.isNews, d.isNewsScore)) := by
  have hhead : ∀ c ∈ r.head?, c = '/' := by
    rcases hr with rfl | ⟨t, rfl⟩
    · intro c hc
      cases hc
    · intro c hc
      exact (Option.some.inj hc).symm
  exact detectDoc_url scores doc ((urlRule_host k hh₁ hhead).trans (urlRule_host k hh₂ hhead).symm)

theorem detectDoc_host_news :
    scheme 1 ++ ("news.ru".toList ++ "/r?u=http://novosti.ru/2020".toList)
        = "https://news.ru/r?u=http://novosti.ru/2020".toList ∧
      (detectDoc ⟨fun _ => 0, fun _ => 0⟩
          { DocFeatures.new with
            lang := "fr".toList
            url := scheme 1 ++ ("news.ru".toList ++ "/r?u=http://novosti.ru/2020".toList) }).map
          (fun d => (d.isNews, d.isNewsScore))
        = (detectDoc ⟨fun _ => 0, fun _ => 0⟩
          { DocFeatures.new with
            lang := "fr".toList
            url := scheme 1 ++ ("t.me".toList ++ "/r?u=http://novosti.ru/2020".toList) }).map
          (fun d => (d.isNews, d.isNewsScore)) :=
  ⟨by decide, detectDoc_host _ { DocFeatures.new with lang := "fr".toList } 1 (by decide)
    (by decide) (Or.inr ⟨_, rfl⟩)⟩

end TgnewsNewsDet
