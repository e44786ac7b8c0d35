import Tgnews.FeaturesProofs
import Tgnews.NewsDetProofs

/-! # The features the news models were trained on (`02.IsNews.ipynb`)

    The notebook splits the feature strings of all words at the bars, counts the
    known ones and divides by their number; the program scans each string with two
    iterators, counts in a bag and normalises a copy of it.  `notebookRow` is the
    notebook's computation, written from its cells.

    The two differ where a string ends in a bar or is empty: the notebook then has an
    empty item, the program none.  Vocabulary names are not empty, so no count sees
    the difference (`countP_featItems`). -/

namespace TgnewsFeatParity

open CxxContainers CxxText TgnewsCommon TgnewsIo TgnewsFeatures TgnewsNewsDet

/-! ## The notebook -/

/-- `dict(zip(names, range(len(names))))`. -/
def featMap (names : List Str) : UMap Str Nat := assignAll ∅ names.zipIdx

/-- The body of the loop of `get_vec`; `none` is an index error. -/
def getVecStep (itemMap : UMap Str Nat) (acc : List ℚ × Nat) (item : Str) :
    Option (List ℚ × Nat) :=
  match itemMap.lookup item with
  | none => some acc
  | some i =>
      match acc.1[i]? with
      | none => none
      | some v => some (acc.1.set i (v + 1), acc.2 + 1)

/-- `get_vec`; `none` where it divides by zero. -/
def getVec (itemMap : UMap Str Nat) (items : List Str) : Option (List ℚ) :=
  let vec := List.replicate itemMap.entries.length 0
  if items = [] then some vec
  else do
    let (vec, nItems) ← items.foldlM (getVecStep itemMap) (vec, 0)
    if nItems = 0 then none else some (vec.map (· / nItems))

/-- The items of a text: `feats.split("|")` of every word with features, chained. -/
def featItems (text : List (List Word)) : List Str :=
  text.flatMap fun sent => (sent.filter (·.feats ≠ [])).flatMap fun word => word.feats.splitOn '|'

/-- A row of `X`. -/
def notebookRow (names : List Str) (text : List (List Word)) : Option (List ℚ) :=
  getVec (featMap names) (featItems text)

/-! ## Counting items -/

/-- The scan and the split differ by an empty part at most. -/
theorem countP_segments (p : Str → Bool) (hp : p [] = false) (feats : Str) :
    (segments feats).countP p = (feats.splitOn '|').countP p := by
  rw [segments, splitEnded]
  by_cases hlast : (feats.splitOn '|').getLast? = some []
  · rw [if_pos hlast]
    have hsplit := List.dropLast_concat_getLast (List.splitOn_ne_nil '|' feats)
    rw [List.getLast?_eq_some_getLast (List.splitOn_ne_nil '|' feats)] at hlast
    rw [Option.some.inj hlast] at hsplit
    rw [← hsplit, List.dropLast_concat, List.countP_append, List.countP_singleton,
      if_neg (by simp [hp])]
    omega
  · rw [if_neg hlast]

theorem featItems_cons (sent : List Word) (text : List (List Word)) :
    featItems (sent :: text)
      = ((sent.filter (·.feats ≠ [])).flatMap fun word => word.feats.splitOn '|')
        ++ featItems text :=
  List.flatMap_cons

/-- **Both sides see the same known items.** -/
theorem countP_featItems (p : Str → Bool) (hp : p [] = false) (text : List (List Word)) :
    (text.flatten.flatMap fun w => segments w.feats).countP p = (featItems text).countP p := by
  have hsent : ∀ sent : List Word, (sent.flatMap fun w => segments w.feats).countP p
      = ((sent.filter (·.feats ≠ [])).flatMap fun w => w.feats.splitOn '|').countP p := by
    intro sent
    induction sent with
    | nil => rfl
    | cons w sent ih =>
        rw [List.flatMap_cons, List.countP_append, ih]
        by_cases hw : w.feats = []
        · rw [List.filter_cons_of_neg (by simpa using hw), hw]
          show 0 + _ = _
          omega
        · rw [List.filter_cons_of_pos (by simpa using hw), List.flatMap_cons,
            List.countP_append, countP_segments p hp]
  induction text with
  | nil => rfl
  | cons sent text ih =>
      rw [List.flatten_cons, List.flatMap_append, List.countP_append, ih, hsent,
        featItems_cons, List.countP_append]

/-! ## The two computations -/

/-- The loop of `get_vec` counts, as a bag does. -/
theorem getVecLoop_countVec {dict : BOWDict} (hd : Dense dict) (items seen : List Str) :
    items.foldlM (getVecStep dict) (countVec dict seen, known dict seen)
      = some (countVec dict (seen ++ items), known dict (seen ++ items)) := by
  induction items generalizing seen with
  | nil => rw [List.append_nil]; rfl
  | cons item items ih =>
      have hstep : getVecStep dict (countVec dict seen, known dict seen) item
          = some (countVec dict (seen ++ [item]), known dict (seen ++ [item])) := by
        cases hitem : dict.lookup item with
        | none =>
            rw [getVecStep, hitem, countVec_append_unknown hitem, known, known,
              List.countP_append, List.countP_singleton, hitem]
            rfl
        | some i =>
            rw [getVecStep, hitem, countVec_append_known hitem, known, known,
              List.countP_append, List.countP_singleton, hitem]
            simp only [getElem?_countVec seen (hd item i hitem)]
            rfl
      rw [List.foldlM_cons, hstep]
      show items.foldlM (getVecStep dict) (countVec dict (seen ++ [item]), _) = _
      rw [ih, List.append_assoc]
      rfl

/-- `get_vec` over a dense dictionary. -/
theorem getVec_eq {dict : BOWDict} (hd : Dense dict) (items : List Str) :
    getVec dict items
      = if items = [] then some (List.replicate dict.entries.length 0)
        else if known dict items = 0 then none else some (freqVec dict items) := by
  have hloop := getVecLoop_countVec hd items []
  rw [countVec_nil, List.nil_append] at hloop
  rw [getVec]
  by_cases hnil : items = []
  · rw [if_pos hnil, if_pos hnil]
  · rw [if_neg hnil, if_neg hnil]
    show (items.foldlM (getVecStep dict) (List.replicate dict.entries.length 0, known dict [])
      >>= fun acc => _) = _
    rw [hloop]
    show (if known dict items = 0 then none else _) = _
    by_cases hk : known dict items = 0
    · rw [if_pos hk, if_pos hk]
    · rw [if_neg hk, if_neg hk, freqVec, if_neg hk]

/-- Without a known word every count is zero. -/
theorem countVec_of_unknown {dict : BOWDict} {words : List Str} (h : known dict words = 0) :
    countVec dict words = List.replicate dict.entries.length 0 := by
  rw [← countVec_nil, countVec, countVec]
  refine List.map_congr_left ?_
  intro i _
  have hzero : words.countP (fun w => dict.lookup w = some i) = 0 := by
    rw [List.countP_eq_zero]
    intro w hw hsome
    refine List.countP_eq_zero.mp h w hw ?_
    rw [of_decide_eq_true hsome]
    rfl
  rw [hzero]
  rfl

/-- Lists with the same counts of non-empty words have the same frequencies. -/
theorem freqVec_congr {dict : BOWDict} (hempty : dict.lookup [] = none) {ws ws' : List Str}
    (h : ∀ p : Str → Bool, p [] = false → ws.countP p = ws'.countP p) :
    known dict ws = known dict ws' ∧ countVec dict ws = countVec dict ws' := by
  refine ⟨h _ (by rw [hempty]; rfl), ?_⟩
  rw [countVec, countVec]
  refine List.map_congr_left ?_
  intro i _
  rw [h _ (by rw [hempty]; rfl)]

/-- The dictionary the program reads from a vocabulary file is the notebook's. -/
theorem readFeaturesNames_eq_featMap {names : List Str} (hwords : ∀ w ∈ names, IsWord w)
    (hdistinct : names.Nodup) :
    readFeaturesNames (List.intercalate ['\n'] names) = featMap names := by
  rw [readFeaturesNames, tokens_intercalate hwords, featMap,
    emplaceAll_eq_assignAll (by rw [List.zipIdx_map_fst]; exact hdistinct)
      (fun _ _ => AList.notMem_empty _)]

/-- The notebook splits the file of a vocabulary that is not empty into its names. -/
theorem splitOn_vocabulary {names : List Str} (hwords : ∀ w ∈ names, IsWord w)
    (hne : names ≠ []) : (List.intercalate ['\n'] names).splitOn '\n' = names := by
  refine List.splitOn_intercalate '\n' ?_ hne
  intro w hw hmem
  exact absurd ((hwords w hw).noSpace _ hmem) (by decide)

/-- The vector handed to the model, from the bag of a document. -/
theorem generateNewsDetFeatures_counted {U F : BOWDict} (hF : Dense F) {us fs : List Str}
    {f : DocFeatures} (h : Counted U F textNames us fs f) :
    generateNewsDetFeatures f = .ok (freqVec F fs) := by
  have hbag : f.bows.lookup "text:feats".toList = some ⟨countVec F fs, F⟩ := h.feats
  rw [generateNewsDetFeatures, DocFeatures.get, mapAt_of_lookup hbag]
  show Except.ok (BOW.normalize ⟨countVec F fs, F⟩).get = _
  rw [BOW.normalize_countVec hF]

/-- **Where the row is defined it is the vector of frequencies.**  Without items both
    are zero, and without a known item the row is not defined. -/
theorem freqVec_of_getVec {dict : BOWDict} (hd : Dense dict) {items : List Str} {row : List ℚ}
    (h : getVec dict items = some row) : freqVec dict items = row := by
  rw [getVec_eq hd] at h
  by_cases hnil : items = []
  · have hk : known dict items = 0 := by rw [hnil]; rfl
    rw [if_pos hnil] at h
    rw [freqVec, if_pos hk, countVec_of_unknown hk]
    exact Option.some.inj h
  · rw [if_neg hnil] at h
    by_cases hk : known dict items = 0
    · rw [if_pos hk] at h
      cases h
    · rw [if_neg hk] at h
      exact Option.some.inj h

/-- **Train and serve agree on the news features.**  For every vocabulary of distinct
    names, read by both sides from one file, and every tagged document, the vector
    handed to the model is the notebook's row wherever that is defined, and zero when
    no known feature occurs.  A generator that reads the document as these sentences
    computes these features. -/
theorem feats_parity {U : BOWDict} (hU : Dense U) {lemmasDict : UMap Str BOWDict}
    {d : TokenClass → BOWDict} (hd : ∀ c : TokenClass, lemmasDict.lookup c.name = some (d c))
    {names : List Str} (hwords : ∀ w ∈ names, IsWord w) (hdistinct : names.Nodup)
    (text title : List (List Word)) :
    ∃ f vec, taggedFeatures U (readFeaturesNames (List.intercalate ['\n'] names)) lemmasDict
        text.flatten title.flatten = .ok f
      ∧ generateNewsDetFeatures f = .ok vec
      ∧ (∀ row, notebookRow names text = some row → vec = row)
      ∧ ((∀ x ∈ featItems text, x ∉ names) → vec = List.replicate names.length 0)
      ∧ (names ≠ [] → (List.intercalate ['\n'] names).splitOn '\n' = names)
      ∧ ∀ {M R S : Type} (tools : TextTools M R S) (gen : FeaturesGenerator M R S)
          (doc : TgnewsHtml.HTMLDocument), gen.upostagsDict = U →
          gen.featsDict = readFeaturesNames (List.intercalate ['\n'] names) →
          Reads tools gen doc lemmasDict text title →
          (gen.generate tools doc (-1)).map Prod.fst = .ok f := by
  let F := readFeaturesNames (List.intercalate ['\n'] names)
  have htokens : tokens (List.intercalate ['\n'] names) = names := tokens_intercalate hwords
  have hF : Dense F := dense_readFeaturesNames (by rw [htokens]; exact hdistinct)
  have hlen : F.entries.length = names.length := by
    rw [length_readFeaturesNames (by rw [htokens]; exact hdistinct), htokens]
  have hlookup : ∀ w, F.lookup w = names.idxOf? w := fun w => by
    rw [readFeaturesNames_lookup, htokens]
  have hempty : F.lookup [] = none := by
    rw [hlookup, List.idxOf?_eq_none_iff]
    exact fun hmem => (hwords [] hmem).ne_nil rfl
  obtain ⟨f, hf, hc, -, -⟩ := taggedFeatures_spec hU hF hd text.flatten title.flatten
  -- the bag is filled from the scanned strings, the row from the split ones
  obtain ⟨hknown, hcount⟩ := freqVec_congr hempty
    (fun p hp => countP_featItems p hp text)
  have hfreq : freqVec F (text.flatten.flatMap fun w => segments w.feats)
      = freqVec F (featItems text) := by
    rw [freqVec, freqVec, hknown, hcount]
  have hvec := generateNewsDetFeatures_counted hF hc
  rw [hfreq] at hvec
  refine ⟨f, _, hf, hvec, ?_, ?_, splitOn_vocabulary hwords, ?_⟩
  · intro row hrow
    rw [notebookRow, ← readFeaturesNames_eq_featMap hwords hdistinct] at hrow
    exact freqVec_of_getVec hF hrow
  · intro hunknown
    have hk : known F (featItems text) = 0 := by
      refine List.countP_eq_zero.mpr ?_
      intro x hx hsome
      rw [hlookup, List.isSome_idxOf?] at hsome
      exact hunknown x hx hsome
    rw [freqVec, if_pos hk, countVec_of_unknown hk, hlen]
  · intro M R S tools gen doc hgU hgF hreads
    rw [generate_reads hreads, hgU, hgF]
    exact hf

/-- Two sentences with three known features and a trailing bar. -/
def sampleText : List (List Word) :=
  [[⟨"NOUN".toList, "мир".toList, "Case=Nom|Number=Sing|".toList⟩],
    [⟨"PUNCT".toList, ".".toList, []⟩, ⟨"ADJ".toList, "новый".toList, "Case=Nom".toList⟩]]

theorem feats_parity_sample :
    ∃ f, taggedFeatures (readFeaturesNames "NOUN\nADJ".toList)
        (readFeaturesNames (List.intercalate ['\n']
          ["Number=Sing".toList, "Case=Nom".toList]))
        ((AList.insert "text".toList ∅ ∅ : UMap Str BOWDict).insert "title".toList ∅)
        sampleText.flatten [] = .ok f
      ∧ generateNewsDetFeatures f = .ok [1 / 3, 2 / 3] := by
  have hU : Dense (readFeaturesNames "NOUN\nADJ".toList) := dense_readFeaturesNames (by decide)
  have hd : ∀ c : TokenClass, ((AList.insert "text".toList ∅ ∅ : UMap Str BOWDict).insert
      "title".toList ∅).lookup c.name = some ((fun _ => ∅ : TokenClass → BOWDict) c) := by
    intro c
    cases c <;> decide
  have hwords : ∀ w ∈ ["Number=Sing".toList, "Case=Nom".toList], IsWord w := by decide
  obtain ⟨f, vec, hf, hvec, hrow, -, -, -⟩ :=
    feats_parity hU hd hwords (by decide) sampleText []
  refine ⟨f, hf, ?_⟩
  rw [hvec, hrow [1 / 3, 2 / 3] (by decide +kernel)]

end TgnewsFeatParity
