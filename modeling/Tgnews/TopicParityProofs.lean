import Tgnews.FeaturesProofs
import Tgnews.NewsCategoriesProofs

/-! # The tokens the topic models were trained on (`03.GetClasses.ipynb`)

    The notebook writes each part of a document as a bag of lemmas; the program
    numbers the lemmas of both parts by one list and hands the topic model an item
    of numbers with weights.  `counter (vwTokens _)` is the notebook's bag, written
    from its cell.

    The route:

    * `count_foldl_bumpLemma` — what the counters of a class hold after the words of
      a part, and `Positive` — no counter is ever created at zero;
    * `Tallied` — a number is counted in the class its entry has and in no other,
      which keeps the two halves of an item apart;
    * `encodes_itemOf` — so the item is the notebook's bag, and `Encodes.perm` — it
      is the only one, up to the order of its pairs. -/

namespace TgnewsTopicParity

open CxxContainers CxxText TgnewsCommon TgnewsIo TgnewsFeatures
  TgnewsNewsCategories TgnewsHtml

/-! ## The notebook -/

/-- `upostags` of `vowpal_wabbit_encode`. -/
def vwUpostags : List Str :=
  ["ADJ".toList, "INTJ".toList, "NOUN".toList, "PROPN".toList, "VERB".toList]

/-- The tokens of `vowpal_wabbit_encode` before they are counted. -/
def vwTokens (sents : List (List Word)) : List Str :=
  let tokens := sents.map fun sent =>
    (sent.filter (·.upostag ∈ vwUpostags)).map Word.lemmaText
  tokens.flatten.map fun token => token.filter (· ≠ ':')

/-- `Counter(tokens)`. -/
def counter (tokens : List Str) : UMap Str Nat :=
  tokens.foldl (fun m token => update m token 0 (· + 1)) ∅

/-- A missing token of a `Counter` counts zero. -/
def counterGet (m : UMap Str Nat) (token : Str) : Nat := (m.lookup token).getD 0

/-- The part of a document that a class is about. -/
def part (text title : List (List Word)) : TokenClass → List (List Word)
  | .text => text
  | .title => title

/-- The bag of a tagged list counts its tokens. -/
theorem counterGet_counter (tokens : List Str) (w : Str) :
    counterGet (counter tokens) w = tokens.count w := by
  induction tokens using List.reverseRecOn with
  | nil => rfl
  | append_singleton tokens token ih =>
      rw [counter, List.foldl_append]
      show ((update (counter tokens) token 0 (· + 1)).lookup w).getD 0 = _
      rw [lookup_update, List.count_append, List.count_singleton, ← ih]
      by_cases hw : w = token
      · subst hw
        rw [if_pos rfl, if_pos (beq_self_eq_true w)]
        rfl
      · rw [if_neg hw, if_neg (by simpa using Ne.symm hw)]
        rfl

/-- The tokens, word by word. -/
theorem vwTokens_eq (sents : List (List Word)) :
    vwTokens sents = (sents.flatten.filter (·.upostag ∈ vwUpostags)).map
      fun word => word.lemmaText.filter (· ≠ ':') := by
  rw [vwTokens]
  simp [List.filter_flatten, List.map_flatten, Function.comp_def]

/-- How often a token is counted, read off the words of a part. -/
theorem count_vwTokens (sents : List (List Word)) (w : Str) :
    (vwTokens sents).count w = sents.flatten.countP fun word =>
      word.upostag ∈ lemmaUpostags && word.lemmaText.filter (· ≠ ':') = w := by
  rw [vwTokens_eq, List.count, List.countP_map, List.countP_filter]
  refine List.countP_congr ?_
  intro word _
  simp [vwUpostags, lemmaUpostags, and_comm]

/-! ## The counters after a part -/

/-- Whether a word is counted under the number `i`. -/
def countsAs (dict : BOWDict) (i : Nat) (word : Word) : Bool :=
  word.upostag ∈ lemmaUpostags && dict.lookup (word.lemmaText.filter (· ≠ ':')) = some i

/-- One word. -/
theorem count_bumpLemma (dict : BOWDict) (c c' : Str) (l : Lemmas) (word : Word) (i : Nat) :
    (bumpLemma dict c l word).count c' i
      = l.count c' i + if c' = c ∧ countsAs dict i word then 1 else 0 := by
  rw [bumpLemma, countsAs]
  by_cases hpos : word.upostag ∈ lemmaUpostags
  · rw [if_pos hpos]
    cases hw : dict.lookup (word.lemmaText.filter (· ≠ ':')) with
    | none => simp
    | some j =>
        show (l.bump c j).count c' i = _
        rw [Lemmas.count_bump]
        simp [hpos, eq_comm]
  · rw [if_neg hpos]
    simp [hpos]

/-- **The words of a part.**  They add to the counters of their own class only. -/
theorem count_foldl_bumpLemma (dict : BOWDict) (c c' : Str) (words : List Word) (l : Lemmas)
    (i : Nat) :
    (words.foldl (bumpLemma dict c) l).count c' i
      = l.count c' i + if c' = c then words.countP (countsAs dict i) else 0 := by
  induction words generalizing l with
  | nil => simp
  | cons word words ih =>
      rw [List.foldl_cons, ih, count_bumpLemma, List.countP_cons]
      by_cases hc : c' = c
      · rw [if_pos hc, if_pos hc]
        by_cases hw : countsAs dict i word
        · rw [if_pos ⟨hc, hw⟩, if_pos hw]
          omega
        · rw [if_neg (fun h => hw h.2), if_neg hw]
          omega
      · rw [if_neg hc, if_neg hc, if_neg (fun h => hc h.1)]

/-- A counter that exists has counted something. -/
def Positive (l : Lemmas) : Prop :=
  ∀ c m i n, l.counts.lookup c = some m → m.lookup i = some n → 0 < n

theorem positive_empty : Positive Lemmas.empty := by
  intro c m i n hm hn
  have hempty : m = ∅ := by
    rw [Lemmas.empty] at hm
    by_cases htitle : c = "title".toList
    · subst htitle
      rw [AList.lookup_insert] at hm
      exact (Option.some.inj hm).symm
    · rw [AList.lookup_insert_ne htitle] at hm
      by_cases htext : c = "text".toList
      · subst htext
        rw [AList.lookup_insert] at hm
        exact (Option.some.inj hm).symm
      · rw [AList.lookup_insert_ne htext, AList.lookup_empty] at hm
        cases hm
  rw [hempty, AList.lookup_empty] at hn
  cases hn

theorem positive_bump {l : Lemmas} (h : Positive l) (c : Str) (i : Nat) :
    Positive (l.bump c i) := by
  intro c' m i' n hm hn
  rw [Lemmas.bump, lookup_update] at hm
  by_cases hc : c' = c
  · rw [if_pos hc] at hm
    obtain rfl := Option.some.inj hm
    rw [lookup_update] at hn
    by_cases hi : i' = i
    · rw [if_pos hi] at hn
      rw [← Option.some.inj hn]
      exact Nat.succ_pos _
    · rw [if_neg hi] at hn
      cases hold : l.counts.lookup c with
      | none => rw [hold] at hn; cases hn
      | some m' => rw [hold] at hn; exact h c m' i' n hold hn
  · rw [if_neg hc] at hm
    exact h c' m i' n hm hn

theorem positive_foldl_bumpLemma (dict : BOWDict) (c : Str) (words : List Word) {l : Lemmas}
    (h : Positive l) : Positive (words.foldl (bumpLemma dict c) l) := by
  induction words generalizing l with
  | nil => exact h
  | cons word words ih =>
      refine ih ?_
      rw [bumpLemma]
      by_cases hpos : word.upostag ∈ lemmaUpostags
      · rw [if_pos hpos]
        cases dict.lookup (word.lemmaText.filter (· ≠ ':')) with
        | none => exact h
        | some j => exact positive_bump h c j
      · rw [if_neg hpos]
        exact h

/-! ## A number belongs to one class -/

/-- What the counters of a document have to be: the count of the entry with that
    number, in the class of the entry. -/
def tally (D : List (Str × TokenClass)) (text title : List (List Word)) (c : TokenClass)
    (i : Nat) : Nat :=
  match D[i]? with
  | some (w, c') =>
      if c' = c then counterGet (counter (vwTokens (part text title c))) w else 0
  | none => 0

/-- The counters of a document hold the notebook's counts. -/
structure Tallied (D : List (Str × TokenClass)) (text title : List (List Word)) (l : Lemmas) :
    Prop where
  positive : Positive l
  count : ∀ (c : TokenClass) i, l.count c.name i = tally D text title c i

/-- The words counted under a number are those of its entry. -/
theorem countP_countsAs {D : List (Str × TokenClass)} (hD : D.Nodup) {dict : BOWDict}
    {c : TokenClass} (hdict : ∀ w, dict.lookup w = D.idxOf? (w, c))
    (text title : List (List Word)) (i : Nat) :
    (part text title c).flatten.countP (countsAs dict i) = tally D text title c i := by
  have hentry : ∀ w, dict.lookup w = some i ↔ D[i]? = some (w, c) := by
    intro w
    rw [hdict]
    exact idxOf?_eq_some_of_nodup hD
  rw [tally]
  by_cases hmine : ∃ w, D[i]? = some (w, c)
  · obtain ⟨w, hw⟩ := hmine
    rw [hw]
    show _ = if c = c then _ else 0
    rw [if_pos rfl, counterGet_counter, count_vwTokens]
    refine List.countP_congr ?_
    intro word _
    simp only [countsAs, hentry, hw]
    simp [eq_comm (a := w)]
  · -- the number is another class's, or nobody's
    have hzero : (part text title c).flatten.countP (countsAs dict i) = 0 := by
      rw [List.countP_eq_zero]
      intro word _ hcount
      rw [countsAs, Bool.and_eq_true] at hcount
      exact hmine ⟨_, (hentry _).mp (of_decide_eq_true hcount.2)⟩
    rw [hzero]
    cases hi : D[i]? with
    | none => rfl
    | some e =>
        obtain ⟨w, c'⟩ := e
        show 0 = if c' = c then _ else 0
        rw [if_neg]
        rintro rfl
        exact hmine ⟨w, hi⟩

/-- **The counters of a tagged document.** -/
theorem tallied_lemmas {D : List (Str × TokenClass)} (hD : D.Nodup) {d : TokenClass → BOWDict}
    (hd : ∀ c w, (d c).lookup w = D.idxOf? (w, c)) (text title : List (List Word)) :
    Tallied D text title (title.flatten.foldl (bumpLemma (d .title) "title".toList)
      (text.flatten.foldl (bumpLemma (d .text) "text".toList) Lemmas.empty)) := by
  refine ⟨positive_foldl_bumpLemma _ _ _ (positive_foldl_bumpLemma _ _ _ positive_empty), ?_⟩
  intro c i
  rw [← countP_countsAs hD (hd c) text title i, count_foldl_bumpLemma, count_foldl_bumpLemma]
  cases c with
  | text =>
      show 0 + (if "text".toList = "text".toList then _ else 0)
        + (if "text".toList = "title".toList then _ else 0) = _
      rw [if_pos rfl, if_neg (by decide), Nat.zero_add, Nat.add_zero]
      rfl
  | title =>
      show 0 + (if "title".toList = "text".toList then _ else 0)
        + (if "title".toList = "title".toList then _ else 0) = _
      rw [if_pos rfl, if_neg (by decide), Nat.zero_add]
      rfl

/-! ## The item -/

/-- **The item is the notebook's bag**: every number once, only numbers of entries,
    and each weighs what the notebook counts for its entry in the part the entry's
    class is about. -/
structure Encodes (D : List (Str × TokenClass)) (text title : List (List Word)) (item : Item) :
    Prop where
  paired : item.tokenId.length = item.tokenWeight.length
  nodup : item.tokenId.Nodup
  bounded : ∀ i ∈ item.tokenId, i < D.length
  positive : ∀ n ∈ item.tokenWeight, 0 < n
  weight : ∀ i w c, D[i]? = some (w, c) →
    item.weight i = counterGet (counter (vwTokens (part text title c))) w

section Item

variable {D : List (Str × TokenClass)} {text title : List (List Word)} {g : DocFeatures}

/-- A pair of a half of the item. -/
theorem mem_run_lemmasOf (h : Tallied D text title g.lemmas) (order : IterOrder Nat Nat)
    (c : TokenClass) {i n : Nat} :
    (i, n) ∈ order.run (lemmasOf g c.name) ↔ 0 < n ∧ tally D text title c i = n := by
  rw [IterOrder.mem_run, ← h.count, lemmasOf, Lemmas.count]
  cases hm : g.lemmas.counts.lookup c.name with
  | none =>
      show (∅ : UMap Nat Nat).lookup i = some n ↔ 0 < n ∧ ((∅ : UMap Nat Nat).lookup i).getD 0 = n
      rw [AList.lookup_empty]
      constructor
      · intro hnone
        cases hnone
      · rintro ⟨hn, rfl⟩
        exact absurd hn (Nat.lt_irrefl 0)
  | some m =>
      show m.lookup i = some n ↔ 0 < n ∧ (m.lookup i).getD 0 = n
      constructor
      · intro hi
        exact ⟨h.positive _ _ _ _ hm hi, by rw [hi]; rfl⟩
      · rintro ⟨hn, rfl⟩
        cases hi : m.lookup i with
        | none => rw [hi] at hn; exact absurd hn (Nat.lt_irrefl 0)
        | some n => rfl

/-- A number with a tally is an entry of that class. -/
theorem exists_entry_of_tally {c : TokenClass} {i : Nat} (h : 0 < tally D text title c i) :
    ∃ w, D[i]? = some (w, c) := by
  rw [tally] at h
  cases hi : D[i]? with
  | none => rw [hi] at h; exact absurd h (Nat.lt_irrefl 0)
  | some e =>
      obtain ⟨w, c'⟩ := e
      rw [hi] at h
      by_cases hc : c' = c
      · exact ⟨w, by rw [hc]⟩
      · simp [hc] at h

/-- A pair of the item. -/
theorem mem_pairs_itemOf (h : Tallied D text title g.lemmas) (order : IterOrder Nat Nat)
    {i n : Nat} :
    (i, n) ∈ (itemOf order g).pairs ↔ 0 < n ∧ ∃ c, tally D text title c i = n := by
  rw [pairs_itemOf, List.mem_append]
  constructor
  · rintro (hmem | hmem)
    · obtain ⟨hn, ht⟩ := (mem_run_lemmasOf h order .text).mp hmem
      exact ⟨hn, .text, ht⟩
    · obtain ⟨hn, ht⟩ := (mem_run_lemmasOf h order .title).mp hmem
      exact ⟨hn, .title, ht⟩
  · rintro ⟨hn, c, ht⟩
    cases c with
    | text => exact Or.inl ((mem_run_lemmasOf h order .text).mpr ⟨hn, ht⟩)
    | title => exact Or.inr ((mem_run_lemmasOf h order .title).mpr ⟨hn, ht⟩)

/-- **No number stands twice**: one in both halves would be an entry of both
    classes. -/
theorem nodup_itemOf (h : Tallied D text title g.lemmas) (order : IterOrder Nat Nat) :
    ((itemOf order g).pairs.map Prod.fst).Nodup := by
  rw [pairs_itemOf, List.map_append]
  refine List.nodup_append'.mpr ⟨order.nodup_run _, order.nodup_run _, ?_⟩
  intro i ht hh
  obtain ⟨⟨_, n⟩, hn, rfl⟩ := List.mem_map.mp ht
  obtain ⟨⟨_, n'⟩, hn', rfl⟩ := List.mem_map.mp hh
  obtain ⟨hpos, rfl⟩ := (mem_run_lemmasOf h order .text).mp hn
  obtain ⟨hpos', rfl⟩ := (mem_run_lemmasOf h order .title).mp hn'
  obtain ⟨w, hw⟩ := exists_entry_of_tally hpos
  obtain ⟨w', hw'⟩ := exists_entry_of_tally hpos'
  cases (Prod.mk.inj (Option.some.inj (hw.symm.trans hw'))).2

/-- The weight of an entry is its tally. -/
theorem weight_itemOf (h : Tallied D text title g.lemmas) (order : IterOrder Nat Nat) {i : Nat}
    {w : Str} {c : TokenClass} (hi : D[i]? = some (w, c)) :
    (itemOf order g).weight i = tally D text title c i := by
  have hlookup : ∀ n, (itemOf order g).pairs.lookup i = some n
      ↔ 0 < n ∧ ∃ c, tally D text title c i = n := fun n =>
    (lookup_eq_some_of_nodup (nodup_itemOf h order)).trans (mem_pairs_itemOf h order)
  rw [Item.weight]
  cases hsome : (itemOf order g).pairs.lookup i with
  | none =>
      -- a number without a pair has no tally
      by_contra hne
      have hpos : 0 < tally D text title c i := Nat.pos_of_ne_zero (Ne.symm hne)
      cases hsome.symm.trans ((hlookup _).mpr ⟨hpos, c, rfl⟩)
  | some n =>
      -- a pair belongs to some class, and the entry has only one
      obtain ⟨hpos, c', rfl⟩ := (hlookup n).mp hsome
      obtain ⟨w', hw'⟩ := exists_entry_of_tally hpos
      obtain rfl := (Prod.mk.inj (Option.some.inj (hi.symm.trans hw'))).2
      rfl

/-- **The item encodes the document.** -/
theorem encodes_itemOf (h : Tallied D text title g.lemmas) (order : IterOrder Nat Nat) :
    Encodes D text title (itemOf order g) := by
  have hpaired : (itemOf order g).tokenId.length = (itemOf order g).tokenWeight.length := by
    simp [itemOf]
  have hfst : (itemOf order g).pairs.map Prod.fst = (itemOf order g).tokenId :=
    List.map_fst_zip (Nat.le_of_eq hpaired)
  have hsnd : (itemOf order g).pairs.map Prod.snd = (itemOf order g).tokenWeight :=
    List.map_snd_zip (Nat.le_of_eq hpaired.symm)
  refine ⟨hpaired, ?_, ?_, ?_, ?_⟩
  · rw [← hfst]
    exact nodup_itemOf h order
  · intro i hi
    rw [← hfst] at hi
    obtain ⟨⟨_, n⟩, hn, rfl⟩ := List.mem_map.mp hi
    obtain ⟨hpos, c, rfl⟩ := (mem_pairs_itemOf h order).mp hn
    obtain ⟨w, hw⟩ := exists_entry_of_tally hpos
    exact (List.getElem?_eq_some_iff.mp hw).1
  · intro n hn
    rw [← hsnd] at hn
    obtain ⟨⟨i, _⟩, hi, rfl⟩ := List.mem_map.mp hn
    exact ((mem_pairs_itemOf h order).mp hi).1
  · intro i w c hi
    rw [weight_itemOf h order hi, tally, hi]
    exact if_pos rfl

theorem Encodes.nodup_fst {item : Item} (h : Encodes D text title item) :
    (item.pairs.map Prod.fst).Nodup := by
  have hfst : item.pairs.map Prod.fst = item.tokenId :=
    List.map_fst_zip (Nat.le_of_eq h.paired)
  rw [hfst]
  exact h.nodup

/-- The pairs of an item that encodes a document. -/
theorem Encodes.mem_pairs {item : Item} (h : Encodes D text title item) {i n : Nat} :
    (i, n) ∈ item.pairs ↔ 0 < n ∧ i < D.length ∧ item.weight i = n := by
  have hlookup := fun n => lookup_eq_some_of_nodup h.nodup_fst (k := i) (v := n)
  constructor
  · intro hmem
    obtain ⟨hi, hn⟩ := List.of_mem_zip hmem
    refine ⟨h.positive n hn, h.bounded i hi, ?_⟩
    rw [Item.weight, (hlookup n).mpr hmem]
    rfl
  · rintro ⟨hn, -, rfl⟩
    rw [← hlookup, Item.weight]
    cases hsome : item.pairs.lookup i with
    | none => rw [Item.weight, hsome] at hn; exact absurd hn (Nat.lt_irrefl 0)
    | some n => rfl

/-- The notebook's counts do not see the order of sentences or words. -/
theorem counterGet_perm {sents sents' : List (List Word)}
    (h : sents.flatten.Perm sents'.flatten) (w : Str) :
    counterGet (counter (vwTokens sents)) w = counterGet (counter (vwTokens sents')) w := by
  rw [counterGet_counter, counterGet_counter, count_vwTokens, count_vwTokens]
  exact h.countP_eq _

/-- **One item up to the order of its pairs**: documents with the same words, in
    whatever order, are encoded alike. -/
theorem Encodes.perm {text' title' : List (List Word)} {item item' : Item}
    (h : Encodes D text title item) (h' : Encodes D text' title' item')
    (htext : text'.flatten.Perm text.flatten) (htitle : title'.flatten.Perm title.flatten) :
    item'.pairs.Perm item.pairs := by
  have hweight : ∀ i, i < D.length → item'.weight i = item.weight i := by
    intro i hi
    obtain ⟨⟨w, c⟩, hentry⟩ : ∃ e, D[i]? = some e := ⟨_, List.getElem?_eq_getElem hi⟩
    rw [h.weight i w c hentry, h'.weight i w c hentry]
    cases c with
    | text => exact counterGet_perm htext w
    | title => exact counterGet_perm htitle w
  refine (List.perm_ext_iff_of_nodup h'.nodup_fst.of_map h.nodup_fst.of_map).mpr ?_
  rintro ⟨i, n⟩
  rw [h.mem_pairs, h'.mem_pairs]
  constructor
  · rintro ⟨hn, hi, rfl⟩
    exact ⟨hn, hi, (hweight i hi).symm⟩
  · rintro ⟨hn, hi, rfl⟩
    exact ⟨hn, hi, hweight i hi⟩

end Item

/-! ## From the document to the item -/

variable {M R S : Type} {tools : TextTools M R S}

/-- The item of a document that a generator reads. -/
theorem exists_encodes {gen : FeaturesGenerator M R S} (hgen : Ready gen) {doc : HTMLDocument}
    {D : List (Str × TokenClass)} (hD : D.Nodup) {file : Str} (hfile : tokens file = listing D)
    {lemmasDict : UMap Str BOWDict} (hread : readLemmas file = .ok lemmasDict)
    {text title : List (List Word)} (h : Reads tools gen doc lemmasDict text title) :
    ∃ f gen', gen.generate tools doc (-1) = .ok (f, gen')
      ∧ ∀ (order : IterOrder Nat Nat) (g : DocFeatures), g.lemmas = f.lemmas →
          ∃ item, buildItem order g = .ok item ∧ Encodes D text title item := by
  obtain ⟨m, d, hm, hmd, hd⟩ := readLemmas_lookup hfile
  obtain rfl : m = lemmasDict := Except.ok.inj (hm.symm.trans hread)
  obtain ⟨f, hf, -, -, hlemmas⟩ :=
    taggedFeatures_spec hgen.upostags hgen.feats hmd text.flatten title.flatten
  obtain ⟨gen', hrun⟩ := exists_of_map_fst ((generate_reads h).trans hf)
  refine ⟨f, gen', hrun, ?_⟩
  intro order g hg
  refine ⟨_, buildItem_eq order g, encodes_itemOf ?_ order⟩
  rw [hg, hlemmas]
  exact tallied_lemmas hD hd text title

/-- **Train and serve agree on the topic inputs.**  For every dictionary of distinct
    entries, read from a file that lists it, and every document within the limit, the
    item built for the topic model encodes the document as the notebook does; and it
    does not depend on the order of sentences or words, nor on the order in which the
    program happens to go through its counters. -/
theorem topic_parity {D : List (Str × TokenClass)} (hD : D.Nodup) {file : Str}
    (hfile : tokens file = listing D) {lemmasDict : UMap Str BOWDict}
    (hread : readLemmas file = .ok lemmasDict) {gen : FeaturesGenerator M R S}
    (hgen : Ready gen) {doc : HTMLDocument} {text title : List (List Word)}
    (h : Reads tools gen doc lemmasDict text title) :
    ∃ f gen', gen.generate tools doc (-1) = .ok (f, gen')
      ∧ ∀ (order : IterOrder Nat Nat) (g : DocFeatures), g.lemmas = f.lemmas →
          ∃ item, buildItem order g = .ok item ∧ Encodes D text title item
            ∧ ∀ (gen₂ gen₂' : FeaturesGenerator M R S) (doc₂ : HTMLDocument)
                (text₂ title₂ : List (List Word)) (f₂ g₂ : DocFeatures)
                (order₂ : IterOrder Nat Nat) (item₂ : Item),
                Ready gen₂ → Reads tools gen₂ doc₂ lemmasDict text₂ title₂ →
                text₂.flatten.Perm text.flatten → title₂.flatten.Perm title.flatten →
                gen₂.generate tools doc₂ (-1) = .ok (f₂, gen₂') → g₂.lemmas = f₂.lemmas →
                buildItem order₂ g₂ = .ok item₂ → item₂.pairs.Perm item.pairs := by
  obtain ⟨f, gen', hrun, hitem⟩ := exists_encodes hgen hD hfile hread h
  refine ⟨f, gen', hrun, ?_⟩
  intro order g hg
  obtain ⟨item, hbuild, henc⟩ := hitem order g hg
  refine ⟨item, hbuild, henc, ?_⟩
  intro gen₂ gen₂' doc₂ text₂ title₂ f₂ g₂ order₂ item₂ hgen₂ h₂ htext htitle hrun₂ hg₂ hbuild₂
  obtain ⟨f₃, gen₃, hrun₃, hitem₃⟩ := exists_encodes hgen₂ hD hfile hread h₂
  obtain rfl : f₃ = f₂ := (Prod.mk.inj (Except.ok.inj (hrun₃.symm.trans hrun₂))).1
  obtain ⟨item₃, hbuild₃, henc₃⟩ := hitem₃ order₂ g₂ hg₂
  obtain rfl : item₃ = item₂ := Except.ok.inj (hbuild₃.symm.trans hbuild₂)
  exact henc.perm henc₃ htext htitle

/-- A Russian document of one word, without a title. -/
def sampleDoc : HTMLDocument :=
  { HTMLDocument.empty with text := "мир".toList }.setMeta "lang".toList "ru".toList

/-- The word is counted under its number in the text, not under the one it has as a
    title word. -/
theorem topic_parity_word :
    ∃ gen lemmasDict f gen' item, FeaturesGenerator.new sampleTools sampleFiles = .ok gen
      ∧ readLemmas (sampleFiles.lemmas "ru".toList) = .ok lemmasDict
      ∧ gen.generate sampleTools sampleDoc (-1) = .ok (f, gen')
      ∧ buildItem .stored f = .ok item ∧ item.weight 0 = 0 ∧ item.weight 1 = 1 := by
  obtain ⟨gen, hnew, hready⟩ := new_ready sampleTools sampleFiles
  have hlang : sampleDoc.getMeta "lang".toList = "ru".toList := rfl
  obtain ⟨lemmasDict, hread, hreads⟩ := new_reads hnew hlang (Or.inl rfl)
    (sampleTools_yields () _) (sampleTools_yields () _) (by decide) (by decide)
  obtain ⟨f, gen', hrun, hitem⟩ := topic_parity
    (D := [("мир".toList, .title), ("мир".toList, .text)]) (by decide) (by decide)
    hread hready hreads
  obtain ⟨item, hbuild, henc, -⟩ := hitem .stored f rfl
  refine ⟨gen, lemmasDict, f, gen', item, hnew, hread, hrun, hbuild, ?_, ?_⟩
  · rw [henc.weight 0 "мир".toList .title rfl]
    decide
  · rw [henc.weight 1 "мир".toList .text rfl]
    decide

end TgnewsTopicParity
