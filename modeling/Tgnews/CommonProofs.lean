import Tgnews.CxxTextProofs

/-! # Bags of words and document features (`common.h`)

    A `BOW` counts the known words it is shown; a `DocFeatures` is what the
    program knows about a document after feature generation.  Doubles are read as
    exact rationals and the float counters of `lemmas_` as exact integers.

    The central fact about bags is `BOW.updateAll_countVec`: over a dense dictionary,
    no sequence of updates faults and the bag holds the number of occurrences of
    each word (`countVec`). -/

namespace TgnewsCommon

open CxxContainers CxxText

/-- The number of worker threads a stage aims at. -/
def kNumThreads : Nat := 8

/-- A dictionary from words to positions in a bag. -/
abbrev BOWDict := UMap Str Nat

/-- A bag of words over a shared dictionary. -/
structure BOW where
  bag : List ℚ
  dict : BOWDict
  deriving DecidableEq

/-- `BOW(dict)`: all counters at zero. -/
def BOW.new (dict : BOWDict) : BOW where
  bag := List.replicate dict.entries.length 0
  dict := dict

/-- `BOW::Update`: count a known word; an index past the bag is `out_of_range`. -/
def BOW.update (b : BOW) (word : Str) : Except Fault BOW :=
  match b.dict.lookup word with
  | none => .ok b
  | some i =>
      match b.bag[i]? with
      | none => .error .outOfRange
      | some v => .ok { b with bag := b.bag.set i (v + 1) }

/-- `BOW::Get`. -/
def BOW.get (b : BOW) : List ℚ := b.bag

/-- `BOW::Normalize`: divide by the total, unless nothing was counted. -/
def BOW.normalize (b : BOW) : BOW :=
  let denumerator := b.bag.sum
  if 0 < denumerator then { b with bag := b.bag.map (· / denumerator) } else b

/-- A sequence of updates. -/
def BOW.updateAll (b : BOW) (words : List Str) : Except Fault BOW :=
  words.foldlM BOW.update b

/-! ## What a bag holds -/

/-- Every index of the dictionary is a position of a bag built over it. -/
def Dense (dict : BOWDict) : Prop :=
  ∀ w i, dict.lookup w = some i → i < dict.entries.length

/-- The indices of the dictionary are `0 .. size-1`, each used once. -/
def Numbered (dict : BOWDict) : Prop :=
  (dict.entries.map Sigma.snd).Perm (List.range dict.entries.length)

/-- A dictionary that is numbered in order has no gaps. -/
theorem Numbered.dense {dict : BOWDict} (h : Numbered dict) : Dense dict := by
  intro w i hi
  have hmem := List.mem_map_of_mem (f := Sigma.snd) (AList.mem_lookup_iff.mp hi)
  exact List.mem_range.mp (h.mem_iff.mp hmem)

/-- The number of occurrences of each known word, by position. -/
def countVec (dict : BOWDict) (words : List Str) : List ℚ :=
  (List.range dict.entries.length).map fun i =>
    (words.countP (fun w => dict.lookup w = some i) : ℚ)

/-- The number of known words. -/
def known (dict : BOWDict) (words : List Str) : Nat :=
  words.countP fun w => (dict.lookup w).isSome

/-- The relative frequencies, or zeros when no word is known. -/
def freqVec (dict : BOWDict) (words : List Str) : List ℚ :=
  if known dict words = 0 then countVec dict words
  else (countVec dict words).map (· / known dict words)

@[simp] theorem length_countVec (dict : BOWDict) (words : List Str) :
    (countVec dict words).length = dict.entries.length := by
  rw [countVec, List.length_map, List.length_range]

/-- An entry counts the words with its number. -/
theorem getElem?_countVec {dict : BOWDict} {i : Nat} (words : List Str)
    (hi : i < dict.entries.length) :
    (countVec dict words)[i]?
      = some (words.countP (fun w => dict.lookup w = some i) : ℚ) := by
  rw [countVec, List.getElem?_map, List.getElem?_range hi]
  rfl

theorem countVec_nil (dict : BOWDict) :
    countVec dict [] = List.replicate dict.entries.length 0 := by
  rw [countVec, List.eq_replicate_iff]
  refine ⟨by rw [List.length_map, List.length_range], ?_⟩
  intro b hb
  obtain ⟨i, -, rfl⟩ := List.mem_map.mp hb
  rfl

/-- An unknown word leaves the counts alone. -/
theorem countVec_append_unknown {dict : BOWDict} {words : List Str} {w : Str}
    (hw : dict.lookup w = none) : countVec dict (words ++ [w]) = countVec dict words := by
  rw [countVec, countVec]
  refine List.map_congr_left ?_
  intro i _
  rw [List.countP_append, List.countP_singleton, if_neg (by rw [hw]; simp), Nat.add_zero]

/-- A known word adds one at its position. -/
theorem countVec_append_known {dict : BOWDict} {words : List Str} {w : Str} {i : Nat}
    (hw : dict.lookup w = some i) :
    countVec dict (words ++ [w])
      = (countVec dict words).set i
          ((words.countP (fun w => dict.lookup w = some i) : ℚ) + 1) := by
  refine List.ext_getElem? ?_
  intro j
  by_cases hj : j < dict.entries.length
  · rw [getElem?_countVec _ hj, List.countP_append, List.countP_singleton]
    by_cases hij : i = j
    · subst hij
      rw [List.getElem?_set_self (by rw [length_countVec]; exact hj),
        if_pos (by rw [hw]; simp)]
      push_cast
      rfl
    · rw [List.getElem?_set_ne hij, getElem?_countVec _ hj,
        if_neg (by rw [hw]; simpa using hij), Nat.add_zero]
  · have hlen : (countVec dict (words ++ [w])).length ≤ j := by
      rw [length_countVec]; omega
    rw [List.getElem?_eq_none hlen, List.getElem?_eq_none]
    rw [List.length_set, length_countVec]; omega

/-- One update of a bag of counts. -/
theorem BOW.update_countVec {dict : BOWDict} (hd : Dense dict) (words : List Str) (w : Str) :
    BOW.update ⟨countVec dict words, dict⟩ w
      = .ok ⟨countVec dict (words ++ [w]), dict⟩ := by
  cases hw : dict.lookup w with
  | none => rw [BOW.update, hw, countVec_append_unknown hw]
  | some i =>
      rw [BOW.update, hw, countVec_append_known hw]
      simp only [getElem?_countVec words (hd w i hw)]

/-- **A bag counts.**  Over a dense dictionary updates never fault, and the bag
    holds the number of occurrences of each word. -/
theorem BOW.updateAll_countVec {dict : BOWDict} (hd : Dense dict) (ws seen : List Str) :
    BOW.updateAll ⟨countVec dict seen, dict⟩ ws = .ok ⟨countVec dict (seen ++ ws), dict⟩ := by
  induction ws generalizing seen with
  | nil => rw [List.append_nil]; rfl
  | cons w ws ih =>
      rw [BOW.updateAll, List.foldlM_cons, BOW.update_countVec hd]
      show BOW.updateAll ⟨countVec dict (seen ++ [w]), dict⟩ ws = _
      rw [ih, List.append_assoc]
      rfl

/-- No sequence of updates of a new bag over a dense dictionary faults. -/
theorem BOW.updateAll_new {dict : BOWDict} (hd : Dense dict) (ws : List Str) :
    (BOW.new dict).updateAll ws = .ok ⟨countVec dict ws, dict⟩ := by
  have hnew : BOW.new dict = ⟨countVec dict [], dict⟩ := by rw [countVec_nil]; rfl
  rw [hnew, BOW.updateAll_countVec hd, List.nil_append]

/-- The counts of a bag add up to the number of known words. -/
theorem sum_countVec {dict : BOWDict} (hd : Dense dict) (words : List Str) :
    (countVec dict words).sum = known dict words := by
  induction words using List.reverseRecOn with
  | nil =>
      rw [countVec_nil, List.sum_replicate]
      simp [known]
  | append_singleton words w ih =>
      cases hw : dict.lookup w with
      | none =>
          rw [countVec_append_unknown hw, ih, known, known, List.countP_append,
            List.countP_singleton, hw]
          rfl
      | some i =>
          have hi := hd w i hw
          have hlen : i < (countVec dict words).length := by rw [length_countVec]; exact hi
          have hget := List.getElem?_eq_some_iff.mp (getElem?_countVec words hi)
          -- one count grows by one, the others stay
          have hset := List.sum_set' (countVec dict words) i
            ((words.countP (fun w => dict.lookup w = some i) : ℚ) + 1)
          rw [dif_pos hlen, ih, hget.2] at hset
          rw [countVec_append_known hw, hset, known, known, List.countP_append,
            List.countP_singleton, hw]
          push_cast
          simp

/-- Normalising a bag of counts gives the frequencies. -/
theorem BOW.normalize_countVec {dict : BOWDict} (hd : Dense dict) (words : List Str) :
    (BOW.normalize ⟨countVec dict words, dict⟩).get = freqVec dict words := by
  have hsum := sum_countVec hd words
  rw [BOW.normalize, freqVec, BOW.get]
  simp only [hsum]
  by_cases hk : known dict words = 0
  · rw [if_neg (by rw [hk]; simp), if_pos hk]
  · rw [if_pos (by exact_mod_cast Nat.pos_of_ne_zero hk), if_neg hk]

/-! ## Document features -/

/-- The `lemmas_` of a document: counters by class and token id.  The constructor
    of `DocFeatures` creates both classes and nothing ever removes one, so the
    two entries are part of the type. -/
structure Lemmas where
  counts : UMap Str (UMap Nat Nat)
  text : "text".toList ∈ counts
  title : "title".toList ∈ counts
  deriving DecidableEq

/-- `lemmas_["text"] = {}; lemmas_["title"] = {}`. -/
def Lemmas.empty : Lemmas where
  counts := (AList.insert "text".toList ∅ ∅ : UMap Str (UMap Nat Nat)).insert "title".toList ∅
  text := by decide
  title := by decide

/-- `++lemmas_[class_id][token_id]`. -/
def Lemmas.bump (l : Lemmas) (classId : Str) (tokenId : Nat) : Lemmas where
  counts := update l.counts classId ∅ fun m => update m tokenId 0 (· + 1)
  text := mem_update.mpr (Or.inr l.text)
  title := mem_update.mpr (Or.inr l.title)

/-- The features of one document. -/
structure DocFeatures where
  bows : UMap Str BOW
  lemmas : Lemmas
  title : Str
  docName : Str
  lang : Str
  url : Str
  isNews : Bool
  isNewsScore : ℚ
  deriving DecidableEq

/-- `DocFeatures()`. -/
def DocFeatures.new : DocFeatures where
  bows := ∅
  lemmas := Lemmas.empty
  title := []
  docName := []
  lang := []
  url := []
  isNews := false
  isNewsScore := 0

/-- A `DocFeatures` in a vector that others were moved out of.  A move leaves strings
    and maps valid but unspecified, so the classes of its lemmas are not promised. -/
structure LeftFeatures where
  bows : UMap Str BOW
  lemmas : UMap Str (UMap Nat Nat)
  title : Str
  docName : Str
  lang : Str
  url : Str
  isNews : Bool
  isNewsScore : ℚ
  deriving DecidableEq

/-- A document that was not moved. -/
def DocFeatures.left (d : DocFeatures) : LeftFeatures where
  bows := d.bows
  lemmas := d.lemmas.counts
  title := d.title
  docName := d.docName
  lang := d.lang
  url := d.url
  isNews := d.isNews
  isNewsScore := d.isNewsScore

/-- `DocFeatures::Get`: the bag is copied before it is normalised. -/
def DocFeatures.get (d : DocFeatures) (featureName : Str) : Except Fault (List ℚ) :=
  (mapAt d.bows featureName).map fun bow => bow.normalize.get

/-- `DocFeatures::Concat`: the bags are normalised in place, so the features
    change too. -/
def DocFeatures.concat (d : DocFeatures) (featuresNames : List Str) :
    Except Fault (DocFeatures × List ℚ) :=
  featuresNames.foldlM (fun (d, result) name => do
    let bow ← mapAt d.bows name
    let bow := bow.normalize
    return ({ d with bows := d.bows.insert name bow },
      result ++ bow.get.map (· / (featuresNames.length : ℚ)))) (d, [])

/-- The counter of a token in a class, zero when there is none. -/
def Lemmas.count (l : Lemmas) (classId : Str) (tokenId : Nat) : Nat :=
  (((l.counts.lookup classId).getD ∅).lookup tokenId).getD 0

theorem Lemmas.count_bump (l : Lemmas) (c c' : Str) (i i' : Nat) :
    (l.bump c i).count c' i' = l.count c' i' + if c' = c ∧ i' = i then 1 else 0 := by
  rw [Lemmas.count, Lemmas.bump, lookup_update]
  by_cases hc : c' = c
  · subst hc
    rw [if_pos rfl, Option.getD_some, lookup_update]
    by_cases hi : i' = i
    · subst hi
      rw [if_pos rfl, if_pos ⟨rfl, rfl⟩]
      rfl
    · rw [if_neg hi, if_neg (fun h => hi h.2)]
      rfl
  · rw [if_neg hc, if_neg (fun h => hc h.1)]
    rfl

end TgnewsCommon
