import Tgnews.IoProofs

/-! # Feature generation (`features.hpp`)

    A `FeaturesGenerator` cleans a text, lets UDPipe cut it into tagged
    sentences, and counts what the words carry: their tags and morphological
    features in bags, their lemmas by class.  It is reused from document to
    document, so its readers and buffers are state that every call threads
    through.

    The route:

    * `scanFeats` is the two-iterator scan of a feature string, and
      `scanFeats_eq` shows that it updates the bag with its `segments`;
    * `Counted` says what the bags hold in terms of the words seen, and
      `updateWords_spec` that the inner loop adds its words;
    * `readSentences_fst` cuts the reader loop into the sentences it reads
      (`readWords`) and the loop over their words;
    * `taggedFeatures_spec` puts both texts of a document together: over dense
      dictionaries the bags count the words, so generation never faults
      (`docFeatures_ok`);
    * `generate_reuse` and `generate_reads` — what a generator computes depends on
      the document only, and counts every word of it. -/

namespace TgnewsFeatures

open CxxContainers CxxText TgnewsCommon TgnewsHtml TgnewsIo

/-! ## UDPipe -/

/-- A tagged word. -/
structure Word where
  upostag : Str
  lemmaText : Str
  feats : Str
  deriving DecidableEq

/-- The libraries behind the generator: the letter class of the regex engine, and
    UDPipe with its models `M`, readers `R` and sentences `S`. -/
structure TextTools (M R S : Type) where
  letter : Char → Bool
  load : Str → M
  newReader : M → R
  newSentence : S
  resetDocument : R → R
  setText : R → Str → R
  /-- Whether there was a sentence, and the reader, sentence and error after it. -/
  nextSentence : R → S → Str → Bool × R × S × Str
  tag : M → S → Str → S × Str
  /-- The words of a sentence behind its technical root. -/
  words : S → List Word

/-- The texts of the word lists under `meta/`, as they are shipped: no feature or
    tag is listed twice, and a lemma file lists words with one of two classes. -/
structure MetaFiles where
  upostags : Str
  feats : Str
  lemmas : Str → Str
  upostags_nodup : (tokens upostags).Nodup
  feats_nodup : (tokens feats).Nodup
  lemmas_listing : ∀ lang, ∃ D, tokens (lemmas lang) = listing D

/-- `FeaturesGenerator`: readers, sentence and error message change from call to
    call. -/
structure FeaturesGenerator (M R S : Type) where
  models : UMap Str M
  readers : UMap Str R
  sentence : S
  errorMessage : Str
  upostagsDict : BOWDict
  featsDict : BOWDict
  lang2lemmasDict : UMap Str (UMap Str BOWDict)

variable {M R S : Type}

/-- `FeaturesGenerator()`. -/
def FeaturesGenerator.new (tools : TextTools M R S) (files : MetaFiles) :
    Except Fault (FeaturesGenerator M R S) := do
  let ru ← readLemmas (files.lemmas "ru".toList)
  let en ← readLemmas (files.lemmas "en".toList)
  let ruModel := tools.load "ru".toList
  let enModel := tools.load "en".toList
  return {
    models := (AList.insert "ru".toList ruModel ∅).insert "en".toList enModel
    readers := (AList.insert "ru".toList (tools.newReader ruModel) ∅).insert "en".toList
      (tools.newReader enModel)
    sentence := tools.newSentence
    errorMessage := []
    upostagsDict := readFeaturesNames files.upostags
    featsDict := readFeaturesNames files.feats
    lang2lemmasDict := (AList.insert "ru".toList ru ∅).insert "en".toList en }

/-! ## Cleaning a text -/

/-- `https*:\\S*`. -/
def httpsPattern : List Piece :=
  literal "http" ++ [.many (· = 's')] ++ literal ":" ++ [.many (fun c => !isSpace c)]

/-- `[^[\\p{L}]+\\.\\!\\?\\(\\)\\-:;,]+`: the set is closed by the first bracket,
    and what follows it is a literal and a run of closing brackets. -/
def wordPattern (letter : Char → Bool) : List Piece :=
  [.one (fun c => !(c = '[' || letter c)), .many (fun c => !(c = '[' || letter c))]
    ++ literal ".!?()-:;," ++ [.one (· = ']'), .many (· = ']')]

/-- `CleanText`. -/
def cleanText (letter : Char → Bool) (inputText : Str) : Str :=
  regexReplace (regexReplace inputText httpsPattern [' ']) (wordPattern letter) [' ']

/-! ## Counting the words -/

/-- The loop of `UpdateFeats`: `seg` is the text between its two iterators. -/
def scanFeats (bow : BOW) (seg : Str) : Str → Except Fault BOW
  | [] => if seg ≠ [] then bow.update seg else .ok bow
  | c :: rest =>
      if c = '|' then do
        let bow ← bow.update seg
        scanFeats bow [] rest
      else scanFeats bow (seg ++ [c]) rest

/-- `UpdateFeats`. -/
def updateFeats (features : DocFeatures) (feats featsName : Str) :
    Except Fault DocFeatures := do
  let featsBow ← mapAt features.bows featsName
  let featsBow ← scanFeats featsBow [] feats
  return { features with bows := features.bows.insert featsName featsBow }

/-- `UpdateLemma`. -/
def updateLemma (features : DocFeatures) (word : Str) (lemmasDict : BOWDict) (classId : Str) :
    DocFeatures :=
  match lemmasDict.lookup (word.filter (· ≠ ':')) with
  | some tokenId => { features with lemmas := features.lemmas.bump classId tokenId }
  | none => features

/-- The tags whose lemmas are counted. -/
def lemmaUpostags : List Str :=
  ["ADJ".toList, "INTJ".toList, "NOUN".toList, "PROPN".toList, "VERB".toList]

/-- `features_names`: where the tags, features and lemmas of a text go. -/
structure Names where
  upostags : Str
  feats : Str
  classId : Str

def textNames : Names := ⟨"text:upostags".toList, "text:feats".toList, "text".toList⟩

def titleNames : Names := ⟨"title:upostags".toList, "title:feats".toList, "title".toList⟩

/-- The body of the loop over the words of a sentence. -/
def updateWord (names : Names) (lemmasDict : BOWDict) (features : DocFeatures) (word : Word) :
    Except Fault DocFeatures := do
  let upostagsBow ← mapAt features.bows names.upostags
  let upostagsBow ← upostagsBow.update word.upostag
  let features := { features with bows := features.bows.insert names.upostags upostagsBow }
  let features :=
    if word.upostag ∈ lemmaUpostags then
      updateLemma features word.lemmaText lemmasDict names.classId
    else features
  updateFeats features word.feats names.feats

/-- The loop over the words. -/
def updateWords (names : Names) (lemmasDict : BOWDict) (features : DocFeatures)
    (words : List Word) : Except Fault DocFeatures :=
  words.foldlM (updateWord names lemmasDict) features

/-- The reader loop of `UpdateUDPipe`, with `count` sentences still allowed. -/
def readSentences (tools : TextTools M R S) (model : M) (names : Names) (lemmasDict : BOWDict) :
    Nat → R → S → Str → DocFeatures → Except Fault (DocFeatures × R × S × Str)
  | 0, reader, sentence, error, features => .ok (features, reader, sentence, error)
  | count + 1, reader, sentence, error, features =>
      match tools.nextSentence reader sentence error with
      | (false, reader, sentence, error) => .ok (features, reader, sentence, error)
      | (true, reader, sentence, error) => do
          let (sentence, error) := tools.tag model sentence error
          let features ← updateWords names lemmasDict features (tools.words sentence)
          readSentences tools model names lemmasDict count reader sentence error features

/-- The reader once the cleaned text is set; `c_str` ends at the first null. -/
def openText (tools : TextTools M R S) (reader : R) (inputText : Str) : R :=
  tools.setText (tools.resetDocument reader)
    ((cleanText tools.letter inputText).takeWhile (· ≠ '\x00'))

/-- `UpdateUDPipe`. -/
def updateUDPipe (tools : TextTools M R S) (features : DocFeatures) (model : M) (reader : R)
    (inputText : Str) (names : Names) (lemmasDict : UMap Str BOWDict) (sentencesCount : Nat)
    (sentence : S) (error : Str) : Except Fault (DocFeatures × R × S × Str) := do
  let reader := openText tools reader inputText
  let _ ← mapAt features.bows names.upostags
  let featuresLemmasDict ← mapAt lemmasDict names.classId
  readSentences tools model names featuresLemmasDict sentencesCount reader sentence error features

/-- A fresh `DocFeatures` with its four bags. -/
def freshFeatures (upostagsDict featsDict : BOWDict) : DocFeatures :=
  let bows : UMap Str BOW := emplace ∅ "title:upostags".toList (BOW.new upostagsDict)
  let bows := emplace bows "title:feats".toList (BOW.new featsDict)
  let bows := emplace bows "text:upostags".toList (BOW.new upostagsDict)
  let bows := emplace bows "text:feats".toList (BOW.new featsDict)
  { DocFeatures.new with bows := bows }

/-- The number of sentences read: a negative count stands for a million. -/
def sentencesLimit (sentencesCount : Int) : Nat :=
  if sentencesCount < 0 then 1000000 else sentencesCount.toNat

/-- `FeaturesGenerator::GenerateFeatures`. -/
def FeaturesGenerator.generate (tools : TextTools M R S) (gen : FeaturesGenerator M R S)
    (doc : HTMLDocument) (sentencesCount : Int) :
    Except Fault (DocFeatures × FeaturesGenerator M R S) := do
  let features := freshFeatures gen.upostagsDict gen.featsDict
  let lang := doc.getMeta "lang".toList
  let reader ← mapAt gen.readers lang
  let model ← mapAt gen.models lang
  let lemmasDict ← mapAt gen.lang2lemmasDict lang
  let (features, reader, sentence, error) ← updateUDPipe tools features model reader doc.text
    textNames lemmasDict (sentencesLimit sentencesCount) gen.sentence gen.errorMessage
  let (features, reader, sentence, error) ← updateUDPipe tools features model reader
    (doc.getMeta "og:title".toList) titleNames lemmasDict (sentencesLimit sentencesCount)
    sentence error
  return (features, { gen with
    readers := gen.readers.insert lang reader, sentence := sentence, errorMessage := error })

/-- `GenerateFeaturesTask` on one document; `feature` is its slot in the vector. -/
def generateDoc (tools : TextTools M R S) (gen : FeaturesGenerator M R S) (doc : HTMLDocument)
    (totalSentences : Int) (feature : DocFeatures) :
    Except Fault (FeaturesGenerator M R S × DocFeatures) := do
  let lang := doc.getMeta "lang".toList
  let (feature, gen) ←
    if lang = "ru".toList ∨ lang = "en".toList then
      gen.generate tools doc totalSentences
    else pure (feature, gen)
  return (gen, { feature with
    docName := doc.getMeta "path".toList
    lang := lang
    url := doc.getMeta "og:url".toList
    title := doc.getMeta "og:title".toList })

/-- The body of the loop of `GenerateFeaturesTask`. -/
def generateAt (tools : TextTools M R S) (docs : List HTMLDocument) (totalSentences : Int)
    (state : FeaturesGenerator M R S × List DocFeatures) (i : Nat) :
    Except Fault (FeaturesGenerator M R S × List DocFeatures) := do
  let doc ← vectorAt docs i
  let feature ← vectorAt state.2 i
  let (gen, feature) ← generateDoc tools state.1 doc totalSentences feature
  return (gen, state.2.set i feature)

/-- `GenerateFeaturesTask`: one generator serves the documents of a range. -/
def generateFeaturesTask (tools : TextTools M R S) (files : MetaFiles)
    (features : List DocFeatures) (docs : List HTMLDocument) (totalSentences : Int)
    (start stop : Nat) : Except Fault (List DocFeatures) := do
  let gen ← FeaturesGenerator.new tools files
  let state ← (List.range' start (stop - start)).foldlM (generateAt tools docs totalSentences)
    (gen, features)
  return state.2

/-- The features of one document, from a generator of its own. -/
def docFeatures (tools : TextTools M R S) (files : MetaFiles) (totalSentences : Int)
    (doc : HTMLDocument) : Except Fault DocFeatures := do
  let gen ← FeaturesGenerator.new tools files
  let (_, feature) ← generateDoc tools gen doc totalSentences DocFeatures.new
  return feature

/-- `GenerateFeatures`, left to right. -/
def generateFeatures (tools : TextTools M R S) (files : MetaFiles)
    (documents : List HTMLDocument) (totalSentences : Int) : Except Fault (List DocFeatures) :=
  documents.mapM (docFeatures tools files totalSentences)

/-! ## The scan of a feature string -/

/-- The parts of a feature string that reach the bag. -/
def segments (feats : Str) : List Str := splitEnded '|' feats

/-- **The scan updates with the parts**: whatever separators lead, repeat or trail. -/
theorem scanFeats_eq (rest : Str) (bow : BOW) {seg : Str} (hseg : '|' ∉ seg) :
    scanFeats bow seg rest = bow.updateAll (segments (seg ++ rest)) := by
  induction rest generalizing bow seg with
  | nil =>
      -- at the end the text between the iterators counts unless it is empty
      rw [List.append_nil, segments, splitEnded_of_notMem hseg, scanFeats]
      by_cases hnil : seg = []
      · rw [if_neg (fun h => h hnil), if_pos hnil]
        rfl
      · rw [if_pos hnil, if_neg hnil, BOW.updateAll, List.foldlM_cons]
        cases bow.update seg <;> rfl
  | cons c rest ih =>
      rw [scanFeats]
      by_cases hc : c = '|'
      · subst hc
        rw [if_pos rfl, segments, splitEnded_append_cons hseg, BOW.updateAll, List.foldlM_cons]
        cases bow.update seg with
        | error e => rfl
        | ok bow' =>
            show scanFeats bow' [] rest = bow'.updateAll (segments rest)
            exact ih bow' List.not_mem_nil
      · rw [if_neg hc, ih bow (by simp [hseg, Ne.symm hc]), List.append_assoc]
        rfl

/-! ## What the bags hold -/

/-- The bags of a text under `names`: they count the tags `us` and the features
    `fs` over the dictionaries `U` and `F`. -/
structure Counted (U F : BOWDict) (names : Names) (us fs : List Str) (f : DocFeatures) :
    Prop where
  upostags : f.bows.lookup names.upostags = some ⟨countVec U us, U⟩
  feats : f.bows.lookup names.feats = some ⟨countVec F fs, F⟩

/-- The lemma counters after one word. -/
def bumpLemma (lemmasDict : BOWDict) (classId : Str) (l : Lemmas) (word : Word) : Lemmas :=
  if word.upostag ∈ lemmaUpostags then
    match lemmasDict.lookup (word.lemmaText.filter (· ≠ ':')) with
    | some tokenId => l.bump classId tokenId
    | none => l
  else l

section Spec

variable {U F : BOWDict} {names : Names} {us fs : List Str} {f : DocFeatures}

/-- **One word**: its tag and its features are counted, its lemma is bumped, and
    nothing else changes. -/
theorem updateWord_spec (hU : Dense U) (hF : Dense F) (hne : names.upostags ≠ names.feats)
    (h : Counted U F names us fs f) (dict : BOWDict) (w : Word) :
    ∃ f', updateWord names dict f w = .ok f'
      ∧ Counted U F names (us ++ [w.upostag]) (fs ++ segments w.feats) f'
      ∧ (∀ k, k ≠ names.upostags → k ≠ names.feats → f'.bows.lookup k = f.bows.lookup k)
      ∧ f'.lemmas = bumpLemma dict names.classId f.lemmas w := by
  have hlem : ∀ g : DocFeatures,
      (if w.upostag ∈ lemmaUpostags then updateLemma g w.lemmaText dict names.classId else g)
        = { g with lemmas := bumpLemma dict names.classId g.lemmas w } := by
    intro g
    rw [bumpLemma]
    by_cases hw : w.upostag ∈ lemmaUpostags
    · rw [if_pos hw, if_pos hw, updateLemma]
      cases dict.lookup (w.lemmaText.filter (· ≠ ':')) <;> rfl
    · rw [if_neg hw, if_neg hw]
  -- the bags of the text are written one after the other
  let b₁ := f.bows.insert names.upostags ⟨countVec U (us ++ [w.upostag]), U⟩
  have hfeats : b₁.lookup names.feats = some ⟨countVec F fs, F⟩ := by
    rw [AList.lookup_insert_ne (Ne.symm hne)]
    exact h.feats
  let b₂ := b₁.insert names.feats ⟨countVec F (fs ++ segments w.feats), F⟩
  refine ⟨{ f with bows := b₂, lemmas := bumpLemma dict names.classId f.lemmas w },
    ?_, ⟨?_, ?_⟩, ?_, rfl⟩
  · rw [updateWord, mapAt_of_lookup h.upostags]
    show ((⟨countVec U us, U⟩ : BOW).update w.upostag >>= fun bow => _) = _
    rw [BOW.update_countVec hU]
    show updateFeats (if w.upostag ∈ lemmaUpostags then
      updateLemma { f with bows := b₁ } w.lemmaText dict names.classId
      else { f with bows := b₁ }) w.feats names.feats = _
    rw [hlem, updateFeats, mapAt_of_lookup hfeats]
    show (scanFeats ⟨countVec F fs, F⟩ [] w.feats >>= fun bow => _) = _
    rw [scanFeats_eq _ _ List.not_mem_nil, List.nil_append, BOW.updateAll_countVec hF]
    rfl
  · show b₂.lookup names.upostags = _
    rw [AList.lookup_insert_ne hne, AList.lookup_insert]
  · exact AList.lookup_insert _
  · intro k hk1 hk2
    show b₂.lookup k = _
    rw [AList.lookup_insert_ne hk2, AList.lookup_insert_ne hk1]

/-- **The loop over the words** adds all of them. -/
theorem updateWords_spec (hU : Dense U) (hF : Dense F) (hne : names.upostags ≠ names.feats)
    (dict : BOWDict) (ws : List Word) (h : Counted U F names us fs f) :
    ∃ f', updateWords names dict f ws = .ok f'
      ∧ Counted U F names (us ++ ws.map Word.upostag)
          (fs ++ ws.flatMap fun w => segments w.feats) f'
      ∧ (∀ k, k ≠ names.upostags → k ≠ names.feats → f'.bows.lookup k = f.bows.lookup k)
      ∧ f'.lemmas = ws.foldl (bumpLemma dict names.classId) f.lemmas := by
  induction ws generalizing us fs f with
  | nil =>
      refine ⟨f, rfl, ?_, fun _ _ _ => rfl, rfl⟩
      simpa using h
  | cons w ws ih =>
      obtain ⟨f₁, hrun₁, hc₁, hframe₁, hlem₁⟩ := updateWord_spec hU hF hne h dict w
      obtain ⟨f₂, hrun₂, hc₂, hframe₂, hlem₂⟩ := ih hc₁
      refine ⟨f₂, ?_, ?_, ?_, ?_⟩
      · rw [updateWords, List.foldlM_cons, hrun₁]
        exact hrun₂
      · rw [List.map_cons, List.flatMap_cons, List.append_cons us, ← List.append_assoc fs]
        exact hc₂
      · intro k hk1 hk2
        rw [hframe₂ k hk1 hk2, hframe₁ k hk1 hk2]
      · rw [hlem₂, hlem₁]
        rfl

end Spec

/-! ## The reader loop and the words it reads -/

/-- The tagged sentences the reader loop goes through, at most `count`. -/
def readWords (tools : TextTools M R S) (model : M) : Nat → R → S → Str → List (List Word)
  | 0, _, _, _ => []
  | count + 1, reader, sentence, error =>
      match tools.nextSentence reader sentence error with
      | (false, _, _, _) => []
      | (true, reader, sentence, error) =>
          let (sentence, error) := tools.tag model sentence error
          tools.words sentence :: readWords tools model count reader sentence error

/-- The sentences read from a text by a reader in a given state. -/
def textSentences (tools : TextTools M R S) (model : M) (reader : R) (sentence : S)
    (error : Str) (text : Str) (count : Nat) : List (List Word) :=
  readWords tools model count (openText tools reader text) sentence error

/-- After `reset_document` and `set_text`, sentences and tags depend on the text
    alone, not on what the reader, sentence and error buffer went through before. -/
def TextDetermined (tools : TextTools M R S) : Prop :=
  ∀ (model : M) (text : Str) (count : Nat) (r r' : R) (s s' : S) (e e' : Str),
    readWords tools model count (tools.setText (tools.resetDocument r) text) s e
      = readWords tools model count (tools.setText (tools.resetDocument r') text) s' e'

theorem updateWords_append (names : Names) (dict : BOWDict) (f : DocFeatures)
    (ws ws' : List Word) :
    updateWords names dict f (ws ++ ws')
      = (updateWords names dict f ws >>= fun f => updateWords names dict f ws') := by
  rw [updateWords, List.foldlM_append]
  rfl

/-- **The reader loop is the loop over the words it reads.** -/
theorem readSentences_fst (tools : TextTools M R S) (model : M) (names : Names) (dict : BOWDict)
    (count : Nat) (r : R) (s : S) (e : Str) (f : DocFeatures) :
    (readSentences tools model names dict count r s e f).map Prod.fst
      = updateWords names dict f (readWords tools model count r s e).flatten := by
  induction count generalizing r s e f with
  | zero => rfl
  | succ count ih =>
      rw [readSentences, readWords]
      rcases tools.nextSentence r s e with ⟨more, r', s', e'⟩
      cases more with
      | false => rfl
      | true =>
          rw [List.flatten_cons, updateWords_append]
          show (updateWords names dict f (tools.words (tools.tag model s' e').1) >>= fun f =>
            readSentences tools model names dict count r' (tools.tag model s' e').1
              (tools.tag model s' e').2 f).map Prod.fst = _
          cases updateWords names dict f (tools.words (tools.tag model s' e').1) with
          | error err => rfl
          | ok f' => exact ih r' _ _ f'

/-- The counting done for one text, given its words. -/
def countText (names : Names) (lemmasDict : UMap Str BOWDict) (f : DocFeatures)
    (words : List Word) : Except Fault DocFeatures := do
  let _ ← mapAt f.bows names.upostags
  let dict ← mapAt lemmasDict names.classId
  updateWords names dict f words

theorem updateUDPipe_fst (tools : TextTools M R S) (f : DocFeatures) (model : M) (r : R)
    (text : Str) (names : Names) (lemmasDict : UMap Str BOWDict) (count : Nat) (s : S) (e : Str) :
    (updateUDPipe tools f model r text names lemmasDict count s e).map Prod.fst
      = countText names lemmasDict f (textSentences tools model r s e text count).flatten := by
  rw [updateUDPipe, countText]
  cases mapAt f.bows names.upostags with
  | error err => rfl
  | ok bow =>
      cases mapAt lemmasDict names.classId with
      | error err => rfl
      | ok dict => exact readSentences_fst tools model names dict count _ s e f

/-- The features of a tagged document: its text, then its title. -/
def taggedFeatures (U F : BOWDict) (lemmasDict : UMap Str BOWDict) (text title : List Word) :
    Except Fault DocFeatures := do
  let f ← countText textNames lemmasDict (freshFeatures U F) text
  countText titleNames lemmasDict f title

/-- What `GenerateFeatures` returns, by the sentences of the two texts.  The title
    is read by a reader that has been through the text. -/
theorem generate_fst (tools : TextTools M R S) (gen : FeaturesGenerator M R S)
    (doc : HTMLDocument) (n : Int) {model : M} {r : R} {lemmasDict : UMap Str BOWDict}
    (hr : gen.readers.lookup (doc.getMeta "lang".toList) = some r)
    (hm : gen.models.lookup (doc.getMeta "lang".toList) = some model)
    (hl : gen.lang2lemmasDict.lookup (doc.getMeta "lang".toList) = some lemmasDict) :
    ∃ r' s' e', (gen.generate tools doc n).map Prod.fst
      = taggedFeatures gen.upostagsDict gen.featsDict lemmasDict
          (textSentences tools model r gen.sentence gen.errorMessage doc.text
            (sentencesLimit n)).flatten
          (textSentences tools model r' s' e' (doc.getMeta "og:title".toList)
            (sentencesLimit n)).flatten := by
  have htext := updateUDPipe_fst tools (freshFeatures gen.upostagsDict gen.featsDict) model r
    doc.text textNames lemmasDict (sentencesLimit n) gen.sentence gen.errorMessage
  rw [FeaturesGenerator.generate, mapAt_of_lookup hr, mapAt_of_lookup hm, mapAt_of_lookup hl]
  show ∃ r' s' e', (updateUDPipe tools (freshFeatures gen.upostagsDict gen.featsDict) model r
    doc.text textNames lemmasDict (sentencesLimit n) gen.sentence gen.errorMessage
      >>= fun x => _).map Prod.fst = _
  cases hrun : updateUDPipe tools (freshFeatures gen.upostagsDict gen.featsDict) model r doc.text
      textNames lemmasDict (sentencesLimit n) gen.sentence gen.errorMessage with
  | error err =>
      refine ⟨r, gen.sentence, gen.errorMessage, ?_⟩
      rw [taggedFeatures, ← htext, hrun]
      rfl
  | ok x =>
      -- the title is read by whatever the text has left of the reader
      obtain ⟨f, r', s', e'⟩ := x
      refine ⟨r', s', e', ?_⟩
      have htitle := updateUDPipe_fst tools f model r' (doc.getMeta "og:title".toList)
        titleNames lemmasDict (sentencesLimit n) s' e'
      rw [taggedFeatures, ← htext, hrun]
      show (updateUDPipe tools f model r' (doc.getMeta "og:title".toList) titleNames lemmasDict
        (sentencesLimit n) s' e' >>= fun x => _).map Prod.fst = countText titleNames lemmasDict f _
      rw [← htitle]
      cases updateUDPipe tools f model r' (doc.getMeta "og:title".toList) titleNames lemmasDict
          (sentencesLimit n) s' e' with
      | error err => rfl
      | ok y => rfl

/-! ## Generation never faults -/

/-- The four bags of a fresh document count nothing yet. -/
theorem counted_freshFeatures (U F : BOWDict) (names : Names)
    (h : names = textNames ∨ names = titleNames) :
    Counted U F names [] [] (freshFeatures U F) := by
  rcases h with rfl | rfl
  · refine ⟨?_, ?_⟩ <;> rw [countVec_nil] <;> rfl
  · refine ⟨?_, ?_⟩ <;> rw [countVec_nil] <;> rfl

/-- **A tagged document**: over dense dictionaries its bags count the tags and
    features of its two texts, and its lemmas are bumped word by word. -/
theorem taggedFeatures_spec {U F : BOWDict} (hU : Dense U) (hF : Dense F)
    {lemmasDict : UMap Str BOWDict} {d : TokenClass → BOWDict}
    (hd : ∀ c : TokenClass, lemmasDict.lookup c.name = some (d c)) (text title : List Word) :
    ∃ f, taggedFeatures U F lemmasDict text title = .ok f
      ∧ Counted U F textNames (text.map Word.upostag)
          (text.flatMap fun w => segments w.feats) f
      ∧ Counted U F titleNames (title.map Word.upostag)
          (title.flatMap fun w => segments w.feats) f
      ∧ f.lemmas = title.foldl (bumpLemma (d .title) "title".toList)
          (text.foldl (bumpLemma (d .text) "text".toList) Lemmas.empty) := by
  have h0 := counted_freshFeatures U F textNames (Or.inl rfl)
  have h0' := counted_freshFeatures U F titleNames (Or.inr rfl)
  obtain ⟨f₁, hrun₁, hc₁, hframe₁, hlem₁⟩ :=
    updateWords_spec hU hF (by decide) (d .text) text h0
  -- the words of the text leave the bags of the title alone
  have hc₁' : Counted U F titleNames [] [] f₁ :=
    ⟨(hframe₁ _ (by decide) (by decide)).trans h0'.upostags,
      (hframe₁ _ (by decide) (by decide)).trans h0'.feats⟩
  obtain ⟨f₂, hrun₂, hc₂, hframe₂, hlem₂⟩ :=
    updateWords_spec hU hF (by decide) (d .title) title hc₁'
  have hdt : lemmasDict.lookup textNames.classId = some (d .text) := hd .text
  have hdh : lemmasDict.lookup titleNames.classId = some (d .title) := hd .title
  refine ⟨f₂, ?_, ?_, hc₂, ?_⟩
  · rw [taggedFeatures, countText, mapAt_of_lookup h0.upostags, mapAt_of_lookup hdt]
    show (updateWords textNames (d .text) (freshFeatures U F) text >>= fun f => _) = _
    rw [hrun₁]
    show countText titleNames lemmasDict f₁ title = _
    rw [countText, mapAt_of_lookup hc₁'.upostags, mapAt_of_lookup hdh]
    exact hrun₂
  · exact ⟨(hframe₂ _ (by decide) (by decide)).trans hc₁.upostags,
      (hframe₂ _ (by decide) (by decide)).trans hc₁.feats⟩
  · rw [hlem₂, hlem₁]
    rfl

/-- A generator that can serve both languages. -/
structure Ready (gen : FeaturesGenerator M R S) : Prop where
  upostags : Dense gen.upostagsDict
  feats : Dense gen.featsDict
  reader : ∀ lang, lang = "ru".toList ∨ lang = "en".toList →
    ∃ r, gen.readers.lookup lang = some r
  model : ∀ lang, lang = "ru".toList ∨ lang = "en".toList →
    ∃ m, gen.models.lookup lang = some m
  lemmas : ∀ lang, lang = "ru".toList ∨ lang = "en".toList →
    ∃ (ld : UMap Str BOWDict) (d : TokenClass → BOWDict),
      gen.lang2lemmasDict.lookup lang = some ld
      ∧ ∀ c : TokenClass, ld.lookup c.name = some (d c)

/-- **The constructor succeeds** on the word lists, and serves both languages. -/
theorem new_ready (tools : TextTools M R S) (files : MetaFiles) :
    ∃ gen, FeaturesGenerator.new tools files = .ok gen ∧ Ready gen := by
  obtain ⟨Dru, hDru⟩ := files.lemmas_listing "ru".toList
  obtain ⟨Den, hDen⟩ := files.lemmas_listing "en".toList
  obtain ⟨ru, dru, hru, hdru, -⟩ := readLemmas_lookup hDru
  obtain ⟨en, den, hen, hden, -⟩ := readLemmas_lookup hDen
  rw [FeaturesGenerator.new, hru, hen]
  refine ⟨_, rfl, ⟨dense_readFeaturesNames files.upostags_nodup,
    dense_readFeaturesNames files.feats_nodup, ?_, ?_, ?_⟩⟩
  · rintro lang (rfl | rfl)
    · exact ⟨_, rfl⟩
    · exact ⟨_, rfl⟩
  · rintro lang (rfl | rfl)
    · exact ⟨_, rfl⟩
    · exact ⟨_, rfl⟩
  · rintro lang (rfl | rfl)
    · exact ⟨ru, dru, rfl, hdru⟩
    · exact ⟨en, den, rfl, hden⟩

/-- **Generation never faults** on a document in one of the two languages. -/
theorem generate_ok (tools : TextTools M R S) {gen : FeaturesGenerator M R S} (hgen : Ready gen)
    (doc : HTMLDocument) (n : Int)
    (hlang : doc.getMeta "lang".toList = "ru".toList ∨ doc.getMeta "lang".toList = "en".toList) :
    ∃ f gen' fs, gen.generate tools doc n = .ok (f, gen')
      ∧ f.bows.lookup "text:feats".toList = some ⟨countVec gen.featsDict fs, gen.featsDict⟩ := by
  obtain ⟨r, hr⟩ := hgen.reader _ hlang
  obtain ⟨m, hm⟩ := hgen.model _ hlang
  obtain ⟨ld, d, hl, hd⟩ := hgen.lemmas _ hlang
  obtain ⟨r', s', e', hgenerate⟩ := generate_fst tools gen doc n hr hm hl
  obtain ⟨f, hf, hc, -, -⟩ := taggedFeatures_spec hgen.upostags hgen.feats hd
    (textSentences tools m r gen.sentence gen.errorMessage doc.text (sentencesLimit n)).flatten
    (textSentences tools m r' s' e' (doc.getMeta "og:title".toList) (sentencesLimit n)).flatten
  obtain ⟨gen', hrun⟩ := exists_of_map_fst (hgenerate.trans hf)
  exact ⟨f, gen', _, hrun, hc.feats⟩

/-- What `GenerateFeaturesTask` writes over the features of a document. -/
def stamp (doc : HTMLDocument) (feature : DocFeatures) : DocFeatures :=
  { feature with
    docName := doc.getMeta "path".toList
    lang := doc.getMeta "lang".toList
    url := doc.getMeta "og:url".toList
    title := doc.getMeta "og:title".toList }

/-- A document in another language keeps the features of its slot. -/
theorem generateDoc_other (tools : TextTools M R S) (gen : FeaturesGenerator M R S)
    (doc : HTMLDocument) (n : Int) (feature : DocFeatures)
    (hlang : ¬ (doc.getMeta "lang".toList = "ru".toList
      ∨ doc.getMeta "lang".toList = "en".toList)) :
    generateDoc tools gen doc n feature = .ok (gen, stamp doc feature) := by
  rw [generateDoc, if_neg hlang]
  rfl

/-- A Russian or English document gets features whose bag can be read. -/
theorem generateDoc_ok (tools : TextTools M R S) {gen : FeaturesGenerator M R S}
    (hgen : Ready gen) (doc : HTMLDocument) (n : Int) (feature : DocFeatures)
    (hlang : doc.getMeta "lang".toList = "ru".toList
      ∨ doc.getMeta "lang".toList = "en".toList) :
    ∃ f gen' vec, generateDoc tools gen doc n feature = .ok (gen', stamp doc f)
      ∧ f.get "text:feats".toList = .ok vec := by
  obtain ⟨f, gen', fs, hrun, hbow⟩ := generate_ok tools hgen doc n hlang
  refine ⟨f, gen', (BOW.normalize ⟨countVec gen.featsDict fs, gen.featsDict⟩).get, ?_, ?_⟩
  · rw [generateDoc, if_pos hlang, hrun]
    rfl
  · rw [DocFeatures.get, mapAt_of_lookup hbow]
    rfl

/-- **Feature generation never faults**: a document is stamped with its path,
    language, address and title; in another language it keeps the default
    features, in Russian or English its bag of features can be read. -/
theorem docFeatures_ok (tools : TextTools M R S) (files : MetaFiles) (n : Int)
    (doc : HTMLDocument) :
    ∃ f, docFeatures tools files n doc = .ok (stamp doc f)
      ∧ (doc.getMeta "lang".toList = "ru".toList ∨ doc.getMeta "lang".toList = "en".toList →
          ∃ vec, f.get "text:feats".toList = .ok vec)
      ∧ (¬ (doc.getMeta "lang".toList = "ru".toList
          ∨ doc.getMeta "lang".toList = "en".toList) → f = DocFeatures.new) := by
  obtain ⟨gen, hgen, hready⟩ := new_ready tools files
  by_cases hlang : doc.getMeta "lang".toList = "ru".toList
      ∨ doc.getMeta "lang".toList = "en".toList
  · obtain ⟨f, gen', vec, hrun, hvec⟩ :=
      generateDoc_ok tools hready doc n DocFeatures.new hlang
    refine ⟨f, ?_, fun _ => ⟨vec, hvec⟩, fun h => absurd hlang h⟩
    rw [docFeatures, hgen]
    show (generateDoc tools gen doc n DocFeatures.new >>= fun x => _) = _
    rw [hrun]
    rfl
  · refine ⟨DocFeatures.new, ?_, fun h => absurd h hlang, fun _ => rfl⟩
    rw [docFeatures, hgen]
    show (generateDoc tools gen doc n DocFeatures.new >>= fun x => _) = _
    rw [generateDoc_other tools gen doc n DocFeatures.new hlang]
    rfl

/-! ## A generator is reused -/

/-- Two generators with the same models and dictionaries, the second with a reader
    wherever the first has one: what may differ are readers and buffers. -/
structure SameSources (gen gen' : FeaturesGenerator M R S) : Prop where
  models : gen'.models = gen.models
  upostags : gen'.upostagsDict = gen.upostagsDict
  feats : gen'.featsDict = gen.featsDict
  lemmas : gen'.lang2lemmasDict = gen.lang2lemmasDict
  readers : ∀ lang, lang ∈ gen.readers → lang ∈ gen'.readers

theorem SameSources.refl (gen : FeaturesGenerator M R S) : SameSources gen gen :=
  ⟨rfl, rfl, rfl, rfl, fun _ h => h⟩

theorem SameSources.trans {gen gen' gen'' : FeaturesGenerator M R S} (h : SameSources gen gen')
    (h' : SameSources gen' gen'') : SameSources gen gen'' :=
  ⟨h'.models.trans h.models, h'.upostags.trans h.upostags, h'.feats.trans h.feats,
    h'.lemmas.trans h.lemmas, fun lang hmem => h'.readers lang (h.readers lang hmem)⟩

/-- Generation leaves the models and dictionaries alone. -/
theorem generate_sameSources {tools : TextTools M R S} {gen gen' : FeaturesGenerator M R S}
    {doc : HTMLDocument} {n : Int} {f : DocFeatures}
    (h : gen.generate tools doc n = .ok (f, gen')) : SameSources gen gen' := by
  obtain ⟨reader, -, h⟩ := of_bind_ok h
  obtain ⟨model, -, h⟩ := of_bind_ok h
  obtain ⟨dict, -, h⟩ := of_bind_ok h
  obtain ⟨⟨f₁, r₁, s₁, e₁⟩, -, h⟩ := of_bind_ok h
  obtain ⟨⟨f₂, r₂, s₂, e₂⟩, -, h⟩ := of_bind_ok h
  -- only the reader of the language and the buffers are replaced
  obtain rfl := (Prod.mk.inj (Except.ok.inj h)).2
  refine ⟨rfl, rfl, rfl, rfl, ?_⟩
  intro lang hmem
  exact (AList.mem_insert _).mpr (Or.inr hmem)

/-- **The features of a document depend on the document only**: a generator that has
    been through other documents computes what a new one computes. -/
theorem generate_reuse {tools : TextTools M R S} (htext : TextDetermined tools)
    {gen gen' : FeaturesGenerator M R S} (hgen : Ready gen) (hsame : SameSources gen gen')
    (doc : HTMLDocument) (n : Int)
    (hlang : doc.getMeta "lang".toList = "ru".toList
      ∨ doc.getMeta "lang".toList = "en".toList) :
    (gen'.generate tools doc n).map Prod.fst = (gen.generate tools doc n).map Prod.fst := by
  obtain ⟨r, hr⟩ := hgen.reader _ hlang
  obtain ⟨m, hm⟩ := hgen.model _ hlang
  obtain ⟨ld, -, hl, -⟩ := hgen.lemmas _ hlang
  have hmem : doc.getMeta "lang".toList ∈ gen.readers :=
    AList.lookup_isSome.mp (by rw [hr]; rfl)
  obtain ⟨r', hr'⟩ := exists_lookup_of_mem (hsame.readers _ hmem)
  obtain ⟨r₁, s₁, e₁, h₁⟩ := generate_fst tools gen doc n hr hm hl
  obtain ⟨r₂, s₂, e₂, h₂⟩ := generate_fst tools gen' doc n hr'
    (by rw [hsame.models]; exact hm) (by rw [hsame.lemmas]; exact hl)
  rw [h₁, h₂, hsame.upostags, hsame.feats]
  -- both texts are read after a reset, so neither reader state matters
  simp only [textSentences, openText]
  rw [htext m _ _ r' r gen'.sentence gen.sentence gen'.errorMessage gen.errorMessage,
    htext m _ _ r₂ r₁ s₂ s₁ e₂ e₁]

/-- A generator that serves both languages goes on serving them. -/
theorem Ready.sameSources {gen gen' : FeaturesGenerator M R S} (h : Ready gen)
    (hsame : SameSources gen gen') : Ready gen' := by
  refine ⟨?_, ?_, ?_, ?_, ?_⟩
  · rw [hsame.upostags]; exact h.upostags
  · rw [hsame.feats]; exact h.feats
  · intro lang hlang
    obtain ⟨r, hr⟩ := h.reader lang hlang
    exact exists_lookup_of_mem (hsame.readers lang (AList.lookup_isSome.mp (by rw [hr]; rfl)))
  · rw [hsame.models]; exact h.model
  · rw [hsame.lemmas]; exact h.lemmas

/-- **One document of a range.**  Whatever the worker's generator has been through,
    the slot of the document gets what a new generator would put there, and the
    generator stays usable. -/
theorem generateDoc_reuse {tools : TextTools M R S} (htext : TextDetermined tools)
    {gen gen' : FeaturesGenerator M R S} (hgen : Ready gen) (hsame : SameSources gen gen')
    (doc : HTMLDocument) (n : Int) (feature : DocFeatures) :
    ∃ gen₁ gen₂ f, generateDoc tools gen doc n feature = .ok (gen₁, f)
      ∧ generateDoc tools gen' doc n feature = .ok (gen₂, f) ∧ SameSources gen gen₂ := by
  by_cases hlang : doc.getMeta "lang".toList = "ru".toList
      ∨ doc.getMeta "lang".toList = "en".toList
  · obtain ⟨f₁, gen₁, -, hrun₁, -⟩ := generate_ok tools hgen doc n hlang
    obtain ⟨f₂, gen₂, -, hrun₂, -⟩ := generate_ok tools (hgen.sameSources hsame) doc n hlang
    have heq := generate_reuse htext hgen hsame doc n hlang
    rw [hrun₁, hrun₂] at heq
    obtain rfl : f₂ = f₁ := Except.ok.inj heq
    refine ⟨gen₁, gen₂, stamp doc f₂, ?_, ?_, hsame.trans (generate_sameSources hrun₂)⟩
    · rw [generateDoc, if_pos hlang, hrun₁]
      rfl
    · rw [generateDoc, if_pos hlang, hrun₂]
      rfl
  · exact ⟨gen, gen', stamp doc feature, generateDoc_other tools gen doc n feature hlang,
      generateDoc_other tools gen' doc n feature hlang, hsame⟩

/-! ## Documents as lists of sentences -/

/-- Whatever the reader has been through, the text is read as these sentences. -/
def Yields (tools : TextTools M R S) (model : M) (text : Str) (sentences : List (List Word)) :
    Prop :=
  ∀ r s e count, textSentences tools model r s e text count = sentences.take count

/-- The generator reads the document as two lists of sentences, each within the limit
    that a negative count stands for. -/
structure Reads (tools : TextTools M R S) (gen : FeaturesGenerator M R S) (doc : HTMLDocument)
    (lemmasDict : UMap Str BOWDict) (text title : List (List Word)) : Prop where
  lemmas : gen.lang2lemmasDict.lookup (doc.getMeta "lang".toList) = some lemmasDict
  reader : ∃ r, gen.readers.lookup (doc.getMeta "lang".toList) = some r
  tagger : ∃ model, gen.models.lookup (doc.getMeta "lang".toList) = some model
    ∧ Yields tools model doc.text text
    ∧ Yields tools model (doc.getMeta "og:title".toList) title
  textLimit : text.length ≤ 1000000
  titleLimit : title.length ≤ 1000000

/-- **The generator counts all the words** of a document within the limit. -/
theorem generate_reads {tools : TextTools M R S} {gen : FeaturesGenerator M R S}
    {doc : HTMLDocument} {lemmasDict : UMap Str BOWDict} {text title : List (List Word)}
    (h : Reads tools gen doc lemmasDict text title) :
    (gen.generate tools doc (-1)).map Prod.fst
      = taggedFeatures gen.upostagsDict gen.featsDict lemmasDict text.flatten title.flatten := by
  obtain ⟨r, hr⟩ := h.reader
  obtain ⟨model, hm, htext, htitle⟩ := h.tagger
  obtain ⟨r', s', e', hrun⟩ := generate_fst tools gen doc (-1) hr hm h.lemmas
  have hlimit : sentencesLimit (-1) = 1000000 := rfl
  rw [hrun, htext, htitle, hlimit, List.take_of_length_le h.textLimit,
    List.take_of_length_le h.titleLimit]

/-- **A new generator reads documents** in the two languages, with the lemmas of the
    file for the language. -/
theorem new_reads {tools : TextTools M R S} {files : MetaFiles} {gen : FeaturesGenerator M R S}
    (hnew : FeaturesGenerator.new tools files = .ok gen) {doc : HTMLDocument} {lang : Str}
    (hdoc : doc.getMeta "lang".toList = lang) (hlang : lang = "ru".toList ∨ lang = "en".toList)
    {text title : List (List Word)} (htext : Yields tools (tools.load lang) doc.text text)
    (htitle : Yields tools (tools.load lang) (doc.getMeta "og:title".toList) title)
    (htextLimit : text.length ≤ 1000000) (htitleLimit : title.length ≤ 1000000) :
    ∃ lemmasDict, readLemmas (files.lemmas lang) = .ok lemmasDict
      ∧ Reads tools gen doc lemmasDict text title := by
  obtain ⟨ru, hru, h⟩ := of_bind_ok hnew
  obtain ⟨en, hen, h⟩ := of_bind_ok h
  obtain rfl := Except.ok.inj h
  rcases hlang with rfl | rfl
  · exact ⟨ru, hru, by rw [hdoc]; rfl, ⟨_, by rw [hdoc]; rfl⟩,
      ⟨_, by rw [hdoc]; rfl, htext, htitle⟩, htextLimit, htitleLimit⟩
  · exact ⟨en, hen, by rw [hdoc]; rfl, ⟨_, by rw [hdoc]; rfl⟩,
      ⟨_, by rw [hdoc]; rfl, htext, htitle⟩, htextLimit, htitleLimit⟩

/-! ## A small tagger -/

/-- A tagger that makes one sentence of one noun out of any text. -/
def sampleTools : TextTools Unit Str (List Word) where
  letter c := c.isAlpha
  load _ := ()
  newReader _ := []
  newSentence := []
  resetDocument _ := []
  setText _ text := text
  nextSentence r s e :=
    if r = [] then (false, [], s, e) else (true, [], [⟨"NOUN".toList, r, []⟩], e)
  tag _ s e := (s, e)
  words s := s

/-- Word lists with a tag, a feature, and one lemma in both classes. -/
def sampleFiles : MetaFiles where
  upostags := "NOUN".toList
  feats := "Number=Sing".toList
  lemmas _ := "мир title\nмир text\n".toList
  upostags_nodup := by decide
  feats_nodup := by decide
  lemmas_listing _ := ⟨[("мир".toList, .title), ("мир".toList, .text)], by decide⟩

/-- The sentences of a text. -/
def sampleSentences (text : Str) : List (List Word) :=
  if text = [] then [] else [[⟨"NOUN".toList, text, []⟩]]

theorem readWords_sampleTools (m : Unit) (count : Nat) (text : Str) (s : List Word) (e : Str) :
    readWords sampleTools m count text s e = (sampleSentences text).take count := by
  cases count with
  | zero => rfl
  | succ count =>
      rw [readWords, sampleSentences]
      by_cases htext : text = []
      · rw [show sampleTools.nextSentence text s e = (false, [], s, e) from if_pos htext,
          if_pos htext]
        rfl
      · rw [show sampleTools.nextSentence text s e = (true, [], [⟨"NOUN".toList, text, []⟩], e)
          from if_neg htext, if_neg htext]
        cases count <;> rfl

/-- The small tagger reads a text after a reset as if it had read nothing before. -/
theorem sampleTools_textDetermined : TextDetermined sampleTools := by
  intro m text count r r' s s' e e'
  rw [readWords_sampleTools, readWords_sampleTools]
  rfl

theorem sampleTools_yields (m : Unit) (text : Str) :
    Yields sampleTools m text (sampleSentences
      ((cleanText sampleTools.letter text).takeWhile (· ≠ '\x00'))) := by
  intro r s e count
  exact readWords_sampleTools m count _ s e

end TgnewsFeatures
