import Tgnews.CommonProofs
import Tgnews.HtmlProofs

/-! # Reading the word lists and writing the results (`io.hpp`)

    `ReadFeaturesNames` and `ReadLemmas` number the words of a file by their
    position; `ReadLemmas` shares one numbering between the two classes
    (`readLemmas_lookup`), and a name that stands twice in a file leaves a gap in the
    numbering.  The `Dump` functions build a JSON value, their `result`, before they
    stream it to the output (`DumpProofs`); an object keeps its fields sorted by key, as
    `std::map` does. -/

namespace TgnewsIo

open CxxContainers CxxText TgnewsCommon TgnewsHtml

/-! ## Word lists -/

/-- `ReadFeaturesNames` on the text of the file. -/
def readFeaturesNames (file : Str) : BOWDict :=
  emplaceAll ∅ (tokens file).zipIdx

/-- The first pair with a given word is the first position of the word. -/
theorem find?_zipIdx (ws : List Str) (w : Str) (n : Nat) :
    ((ws.zipIdx n).find? fun p => p.1 = w).map Prod.snd = (ws.idxOf? w).map (· + n) := by
  induction ws generalizing n with
  | nil => rfl
  | cons v ws ih =>
      rw [List.zipIdx_cons, map_add_idxOf?_cons]
      by_cases hv : v = w
      · rw [List.find?_cons_of_pos (by simpa using hv), if_pos hv]
        rfl
      · rw [List.find?_cons_of_neg (by simpa using hv), if_neg hv, ih]

/-- **A word is numbered by its first position in the file.** -/
theorem readFeaturesNames_lookup (file w : Str) :
    (readFeaturesNames file).lookup w = (tokens file).idxOf? w := by
  rw [readFeaturesNames, lookup_emplaceAll, AList.lookup_empty, Option.none_or, find?_zipIdx]
  simp

/-- Distinct words make as many entries. -/
theorem length_readFeaturesNames {file : Str} (h : (tokens file).Nodup) :
    (readFeaturesNames file).entries.length = (tokens file).length := by
  have hfst : (tokens file).zipIdx.map Prod.fst = tokens file := List.zipIdx_map_fst _ _
  rw [readFeaturesNames,
    emplaceAll_eq_assignAll (by rw [hfst]; exact h) (fun p _ => AList.notMem_empty _),
    length_entries_assignAll, hfst, List.dedup_eq_self.mpr h]

/-- **Distinct words are numbered densely.** -/
theorem dense_readFeaturesNames {file : Str} (h : (tokens file).Nodup) :
    Dense (readFeaturesNames file) := by
  intro w i hi
  rw [readFeaturesNames_lookup] at hi
  rw [length_readFeaturesNames h]
  exact (List.findIdx?_eq_some_iff_getElem.mp hi).1

/-! ### Files with repeated names

    The counter goes on at a name that was seen before and the map does not grow, so
    a name that is new after such a one gets an index past the size of the map. -/

/-- Every repeated name comes after the last new one. -/
def NewNamesFirst (names : List Str) : Prop :=
  ∃ new again, names = new ++ again ∧ new.Nodup ∧ ∀ w ∈ again, w ∈ new

/-- The names of the dictionary are those of the file. -/
theorem keys_readFeaturesNames (file : Str) :
    (readFeaturesNames file).keys.Perm (tokens file).dedup := by
  refine (List.perm_ext_iff_of_nodup (AList.keys_nodup _) (List.nodup_dedup _)).mpr ?_
  intro w
  rw [← AList.mem_keys, ← AList.lookup_isSome, readFeaturesNames_lookup, List.isSome_idxOf?,
    List.mem_dedup]

theorem size_readFeaturesNames (file : Str) :
    (readFeaturesNames file).entries.length = (tokens file).dedup.length := by
  rw [← (keys_readFeaturesNames file).length_eq, AList.keys, List.keys, List.length_map]

/-- **In range means new names first**: the names at the first `size` positions are all
    there are, so they are distinct. -/
theorem newNamesFirst_of_dense {file : Str} (h : Dense (readFeaturesNames file)) :
    NewNamesFirst (tokens file) := by
  have hsize := size_readFeaturesNames file
  have hle : (tokens file).dedup.length ≤ (tokens file).length :=
    (List.dedup_sublist _).length_le
  have hfirst : ∀ w ∈ tokens file, w ∈ (tokens file).take (tokens file).dedup.length := by
    intro w hw
    obtain ⟨i, hi⟩ := Option.isSome_iff_exists.mp (List.isSome_idxOf?.mpr hw)
    obtain ⟨hlt, heq, -⟩ := List.idxOf?_eq_some_iff.mp hi
    have hdense := h w i (by rw [readFeaturesNames_lookup, hi])
    rw [hsize] at hdense
    exact List.mem_take_iff_getElem.mpr ⟨i, by omega, heq⟩
  refine ⟨(tokens file).take (tokens file).dedup.length, (tokens file).drop _,
    (List.take_append_drop _ _).symm, ?_, fun w hw => hfirst w (List.mem_of_mem_drop hw)⟩
  have hsub : (tokens file).dedup.Subperm
      ((tokens file).take (tokens file).dedup.length).dedup := by
    refine List.subperm_of_subset (List.nodup_dedup _) ?_
    intro w hw
    exact List.mem_dedup.mpr (hfirst w (List.mem_dedup.mp hw))
  have hlen := hsub.length_le
  refine List.dedup_eq_self.mp ((List.dedup_sublist _).eq_of_length_le ?_)
  rw [List.length_take]
  omega

/-- With new names first no index is past the size of the map. -/
theorem dense_of_newNamesFirst {file : Str} (h : NewNamesFirst (tokens file)) :
    Dense (readFeaturesNames file) := by
  obtain ⟨new, again, hfile, hnew, hagain⟩ := h
  have hmem : ∀ w, w ∈ tokens file ↔ w ∈ new := by
    intro w
    rw [hfile, List.mem_append]
    exact ⟨fun hw => hw.elim id (hagain w), Or.inl⟩
  have hsize : (readFeaturesNames file).entries.length = new.length := by
    refine (size_readFeaturesNames file).trans (List.Perm.length_eq ?_)
    refine (List.perm_ext_iff_of_nodup (List.nodup_dedup _) hnew).mpr fun w => ?_
    rw [List.mem_dedup, hmem]
  intro w i hi
  rw [readFeaturesNames_lookup] at hi
  have hw := (hmem w).mp (List.isSome_idxOf?.mp (by rw [hi]; rfl))
  obtain ⟨hlt, -, hfirst⟩ := List.idxOf?_eq_some_iff.mp hi
  obtain ⟨j, hj, hjw⟩ := List.getElem_of_mem hw
  rw [hsize]
  -- the first position of the name is not after the one among the new names
  by_contra hge
  refine hfirst j (by omega) ?_
  rw [List.getElem_of_eq hfile, List.getElem_append_left hj, hjw]

/-- A file gives no two names one index, so indices in range are all of the range. -/
theorem numbered_of_dense {file : Str} (h : Dense (readFeaturesNames file)) :
    Numbered (readFeaturesNames file) := by
  have hat : ∀ e ∈ (readFeaturesNames file).entries, (tokens file)[e.2]? = some e.1 := by
    intro e he
    have hi := AList.mem_lookup_iff.mpr he
    rw [readFeaturesNames_lookup] at hi
    obtain ⟨hlt, heq, -⟩ := List.idxOf?_eq_some_iff.mp hi
    rw [List.getElem?_eq_getElem hlt, heq]
  have hnodup : ((readFeaturesNames file).entries.map Sigma.snd).Nodup := by
    refine List.Nodup.map_on ?_ (readFeaturesNames file).nodupKeys.nodup
    rintro ⟨w, i⟩ he ⟨w', i'⟩ he' (rfl : i = i')
    have hw : w = w' := Option.some.inj ((hat ⟨w, i⟩ he).symm.trans (hat ⟨w', i⟩ he'))
    rw [hw]
  refine (List.subperm_of_subset hnodup ?_).perm_of_length_le ?_
  · intro i hi
    obtain ⟨e, he, rfl⟩ := List.mem_map.mp hi
    exact List.mem_range.mpr (h e.1 e.2 (AList.mem_lookup_iff.mpr he))
  · rw [List.length_range, List.length_map]

/-- **A file is numbered densely, and no update of a bag over it faults, exactly when
    its new names come first.** -/
theorem readFeaturesNames_numbered_iff (file : Str) :
    (Numbered (readFeaturesNames file) ∧
      ∀ words, ∃ bow, (BOW.new (readFeaturesNames file)).updateAll words = .ok bow) ↔
    NewNamesFirst (tokens file) := by
  constructor
  · rintro ⟨hnum, -⟩
    exact newNamesFirst_of_dense hnum.dense
  · intro h
    have hdense := dense_of_newNamesFirst h
    exact ⟨numbered_of_dense hdense, fun words => ⟨_, BOW.updateAll_new hdense words⟩⟩

/-- The name `b` has index 2 and the bag has two places. -/
theorem readFeaturesNames_repeated :
    ¬ (Numbered (readFeaturesNames "a a b".toList) ∧
      ∀ words, ∃ bow,
        (BOW.new (readFeaturesNames "a a b".toList)).updateAll words = .ok bow) := by
  rintro ⟨-, h⟩
  obtain ⟨bow, hbow⟩ := h ["b".toList]
  have hfault : (BOW.new (readFeaturesNames "a a b".toList)).updateAll ["b".toList]
      = .error .outOfRange := by decide +kernel
  rw [hfault] at hbow
  cases hbow

/-- The two classes of lemmas. -/
inductive TokenClass where
  | text
  | title
  deriving DecidableEq, Repr

/-- The name of a class in a lemma file and in `lemmas_`. -/
def TokenClass.name : TokenClass → Str
  | .text => "text".toList
  | .title => "title".toList

theorem TokenClass.name_inj {c c' : TokenClass} (h : c.name = c'.name) : c = c' := by
  cases c <;> cases c' <;> first | rfl | exact absurd h (by decide)

/-- The loop of `ReadLemmas`: a class that is neither `text` nor `title` has no
    dictionary, and its null pointer is dereferenced. -/
def readPairs : Nat → List Str → UMap Str BOWDict → Except Fault (UMap Str BOWDict)
  | featurePos, word :: classId :: rest, textLemmas =>
      match textLemmas.lookup classId with
      | none => .error .nullDeref
      | some dict =>
          readPairs (featurePos + 1) rest
            (textLemmas.insert classId (emplace dict word featurePos))
  | _, _, textLemmas => .ok textLemmas

/-- `ReadLemmas` on the text of the file. -/
def readLemmas (file : Str) : Except Fault (UMap Str BOWDict) :=
  readPairs 0 (tokens file)
    ((AList.insert "text".toList ∅ ∅ : UMap Str BOWDict).insert "title".toList ∅)

/-- The words of a lemma file that lists `D`. -/
def listing (D : List (Str × TokenClass)) : List Str :=
  D.flatMap fun e => [e.1, e.2.name]

/-- The position of the first `(w, c)` in a list that starts at position `pos`. -/
def firstAt (D : List (Str × TokenClass)) (pos : Nat) (w : Str) (c : TokenClass) : Option Nat :=
  (D.idxOf? (w, c)).map (· + pos)

theorem firstAt_cons (e : Str × TokenClass) (D : List (Str × TokenClass)) (pos : Nat)
    (w : Str) (c : TokenClass) :
    firstAt (e :: D) pos w c = if e = (w, c) then some pos else firstAt D (pos + 1) w c :=
  map_add_idxOf?_cons e (w, c) D pos

/-- **Reading a listing.**  Each class gets the positions of its own words, with
    what the dictionaries held before taking precedence. -/
theorem readPairs_listing (D : List (Str × TokenClass)) (pos : Nat) (m : UMap Str BOWDict)
    (d : TokenClass → BOWDict) (hm : ∀ c : TokenClass, m.lookup c.name = some (d c)) :
    ∃ (m' : UMap Str BOWDict) (d' : TokenClass → BOWDict),
      readPairs pos (listing D) m = .ok m'
      ∧ (∀ c : TokenClass, m'.lookup c.name = some (d' c))
      ∧ ∀ c w, (d' c).lookup w = ((d c).lookup w).or (firstAt D pos w c) := by
  induction D generalizing pos m d with
  | nil => exact ⟨m, d, rfl, hm, fun c w => by simp [firstAt]⟩
  | cons e D ih =>
      obtain ⟨w₀, c₀⟩ := e
      -- the first pair changes the dictionary of its own class only
      let d₁ : TokenClass → BOWDict := fun c =>
        if c = c₀ then emplace (d c₀) w₀ pos else d c
      have hm₁ : ∀ c : TokenClass,
          (m.insert c₀.name (emplace (d c₀) w₀ pos)).lookup c.name = some (d₁ c) := by
        intro c
        by_cases hc : c = c₀
        · subst hc
          rw [AList.lookup_insert]
          simp [d₁]
        · rw [AList.lookup_insert_ne (fun h => hc (TokenClass.name_inj h)), hm c]
          simp [d₁, hc]
      obtain ⟨m', d', hread, hm', hd'⟩ := ih (pos + 1) _ d₁ hm₁
      refine ⟨m', d', ?_, hm', ?_⟩
      · show readPairs pos (w₀ :: c₀.name :: listing D) m = .ok m'
        rw [readPairs, hm c₀]
        exact hread
      · intro c w
        rw [hd', firstAt_cons]
        by_cases hc : c = c₀
        · subst hc
          rw [show d₁ c = emplace (d c) w₀ pos from if_pos rfl, lookup_emplace]
          by_cases hw : w = w₀
          · subst hw
            rw [if_pos rfl, if_pos rfl]
            cases (d c).lookup w <;> rfl
          · rw [if_neg hw, if_neg (fun h => hw (Prod.mk.inj h).1.symm)]
        · rw [show d₁ c = d c from if_neg hc,
            if_neg (fun h => hc (Prod.mk.inj h).2.symm)]

/-- **`ReadLemmas` on a file that lists `D`** succeeds, and each class maps a word
    to the position of its first occurrence in that class. -/
theorem readLemmas_lookup {file : Str} {D : List (Str × TokenClass)}
    (hfile : tokens file = listing D) :
    ∃ (m : UMap Str BOWDict) (d : TokenClass → BOWDict), readLemmas file = .ok m
      ∧ (∀ c : TokenClass, m.lookup c.name = some (d c))
      ∧ ∀ c w, (d c).lookup w = D.idxOf? (w, c) := by
  rw [readLemmas, hfile]
  obtain ⟨m, d, hread, hm, hd⟩ := readPairs_listing D 0
    ((AList.insert "text".toList ∅ ∅ : UMap Str BOWDict).insert "title".toList ∅)
    (fun _ => ∅) (by intro c; cases c <;> decide)
  refine ⟨m, d, hread, hm, ?_⟩
  intro c w
  rw [hd c w, AList.lookup_empty, firstAt]
  simp

/-- In a list without repetitions an element is found where it is and nowhere else. -/
theorem idxOf?_eq_some_of_nodup {α : Type} [BEq α] [LawfulBEq α] {l : List α} (hl : l.Nodup)
    {i : Nat} {a : α} : l.idxOf? a = some i ↔ l[i]? = some a := by
  rw [List.idxOf?_eq_some_iff, List.getElem?_eq_some_iff]
  constructor
  · rintro ⟨hlt, hget, -⟩
    exact ⟨hlt, hget⟩
  · rintro ⟨hlt, hget⟩
    refine ⟨hlt, hget, ?_⟩
    intro j hj heq
    have hji : j = i := (List.Nodup.getElem_inj_iff hl).mp (heq.trans hget.symm)
    omega

/-- **A number is given to one word only**: what a dictionary maps to `v` it mapped
    to `v` before, or it is the first word of the pair that was read at `v`. -/
theorem readPairs_value {words : List Str} {pos : Nat} {m m' : UMap Str BOWDict}
    (h : readPairs pos words m = .ok m') {classId w : Str} {dict' : BOWDict} {v : Nat}
    (hdict' : m'.lookup classId = some dict') (hv : dict'.lookup w = some v) :
    (∃ dict, m.lookup classId = some dict ∧ dict.lookup w = some v)
      ∨ ∃ k, v = pos + k ∧ words[2 * k]? = some w := by
  fun_induction readPairs pos words m with
  | case1 pos word cls rest m hnone => exact nomatch h
  | case2 pos word cls rest m dict hdict ih =>
      rcases ih h with ⟨dict₁, hdict₁, hv₁⟩ | ⟨k, hk, hw⟩
      · -- held after the first pair: then before it, or it is that pair's word
        by_cases hc : classId = cls
        · subst hc
          rw [AList.lookup_insert] at hdict₁
          obtain rfl := Option.some.inj hdict₁
          rw [lookup_emplace] at hv₁
          by_cases hword : w = word
          · subst hword
            rw [if_pos rfl] at hv₁
            cases hold : dict.lookup w with
            | some v₀ =>
                rw [hold] at hv₁
                exact Or.inl ⟨dict, hdict, hold.trans hv₁⟩
            | none =>
                rw [hold] at hv₁
                exact Or.inr ⟨0, (Option.some.inj hv₁).symm, rfl⟩
          · rw [if_neg hword] at hv₁
            exact Or.inl ⟨dict, hdict, hv₁⟩
        · rw [AList.lookup_insert_ne hc] at hdict₁
          exact Or.inl ⟨dict₁, hdict₁, hv₁⟩
      · refine Or.inr ⟨k + 1, by omega, ?_⟩
        rw [show 2 * (k + 1) = 2 * k + 1 + 1 by omega, List.getElem?_cons_succ,
          List.getElem?_cons_succ]
        exact hw
  | case3 pos words m hshort =>
      obtain rfl := Except.ok.inj h
      exact Or.inl ⟨dict', hdict', hv⟩

/-! ## JSON values -/

/-- `basic_json`, with its three types of numbers; the fields of an object are sorted by
    key, and a floating-point number is finite. -/
inductive Json where
  | null
  | bool (b : Bool)
  | str (s : Str)
  | int (i : Int64)
  | uint (n : UInt64)
  | num (q : ℚ)
  | arr (elems : List Json)
  | obj (fields : List (Str × Json))

/-- `operator[]` of a `std::map`, and an assignment to what it returns: the keys stay
    sorted. -/
def assignField {α : Type} (k : Str) (v : α) : List (Str × α) → List (Str × α)
  | [] => [(k, v)]
  | (k', v') :: rest =>
      if k = k' then (k, v) :: rest
      else if k < k' then (k, v) :: (k', v') :: rest
      else (k', v') :: assignField k v rest

/-- `j[k]` read: the field, or null. -/
def Json.index (j : Json) (k : Str) : Json :=
  match j with
  | .obj fields => (fields.lookup k).getD .null
  | _ => .null

/-- `j[k] = v`: a null value becomes an object first. -/
def Json.assign (j : Json) (k : Str) (v : Json) : Json :=
  match j with
  | .obj fields => .obj (assignField k v fields)
  | .null => .obj [(k, v)]
  | j => j

/-- `j.emplace_back(v)`: a null value becomes an array first. -/
def Json.push (j : Json) (v : Json) : Json :=
  match j with
  | .arr elems => .arr (elems ++ [v])
  | .null => .arr [v]
  | j => j

/-- An array of strings. -/
def Json.ofNames (names : List Str) : Json := .arr (names.map .str)

/-- The strings of an array. -/
def Json.strings : Json → List Str
  | .arr elems => elems.filterMap fun
      | .str s => some s
      | _ => none
  | _ => []

/-- The article names of an object with a field `articles`. -/
def Json.articles (j : Json) : List Str := (j.index "articles".toList).strings

/-- The elements of an array. -/
def Json.elems : Json → List Json
  | .arr elems => elems
  | _ => []

@[simp] theorem strings_ofNames (names : List Str) : (Json.ofNames names).strings = names := by
  rw [Json.ofNames, Json.strings, List.filterMap_map]
  exact List.filterMap_some

/-! ## The results of the dump functions -/

/-- The length of the prefix every dump strips: the folder, and a slash unless it
    ends in one.  The last character of an empty folder does not exist. -/
def prefixLen (pathPrefix : Str) : Except Fault Nat :=
  match pathPrefix.getLast? with
  | none => .error .pastTheEnd
  | some c => .ok (pathPrefix.length + if c ≠ '/' then 1 else 0)

/-- The stripped names of a list of documents. -/
def stripNames (len : Nat) (docs : List DocFeatures) : Except Fault (List Str) :=
  docs.mapM fun doc => substr doc.docName len

/-- The body of the loop of `DumpLanguage`. -/
def addArticle (len : Nat) (lang2json : UMap Str Json) (doc : HTMLDocument) :
    Except Fault (UMap Str Json) :=
  let lang := doc.getMeta "lang".toList
  if lang = "ru".toList || lang = "en".toList then do
    let name ← substr (doc.getMeta "path".toList) len
    return update lang2json lang .null fun j =>
      j.assign "articles".toList ((j.index "articles".toList).push (.str name))
  else return lang2json

/-- The `result` of `DumpLanguage`. -/
def languageResult (docs : List HTMLDocument) (pathPrefix : Str) : Except Fault Json := do
  let len ← prefixLen pathPrefix
  let ru := Json.null.assign "lang_code".toList (.str "ru".toList)
  let en := Json.null.assign "lang_code".toList (.str "en".toList)
  let lang2json : UMap Str Json := (AList.insert "ru".toList ru ∅).insert "en".toList en
  let lang2json ← docs.foldlM (addArticle len) lang2json
  return .arr [(lang2json.lookup "ru".toList).getD .null,
    (lang2json.lookup "en".toList).getD .null]

/-- The `result` of `DumpNewsDet`. -/
def newsDetResult (docs : List DocFeatures) (pathPrefix : Str) : Except Fault Json := do
  let len ← prefixLen pathPrefix
  let paths ← stripNames len (docs.filter (·.isNews))
  return .obj [("articles".toList, .ofNames paths)]

/-- The `result` of `DumpNewsCat`, the categories in some iteration order. -/
def newsCatResult (order : IterOrder Str (List DocFeatures))
    (cats2docs : UMap Str (List DocFeatures)) (pathPrefix : Str) : Except Fault Json := do
  let len ← prefixLen pathPrefix
  let cats ← (order.run cats2docs).mapM fun (cat, docs) => do
    let paths ← stripNames len docs
    return Json.obj [("articles".toList, .ofNames paths),
      ("category".toList, .str (cat.map Char.toLower))]
  return .arr cats

/-- The `result` of `DumpNewsThreads`, the threads in some iteration order. -/
def newsThreadsResult (order : IterOrder Str (List DocFeatures))
    (threads2docs : UMap Str (List DocFeatures)) (pathPrefix : Str) : Except Fault Json := do
  let len ← prefixLen pathPrefix
  let threads ← (order.run threads2docs).mapM fun (title, docs) => do
    let paths ← stripNames len docs
    return Json.obj [("articles".toList, .ofNames paths), ("title".toList, .str title)]
  return .arr threads

/-- The `result` of `DumpNewsDetTest`: null when no document is Russian. -/
def newsDetTestResult (docs : List DocFeatures) (pathPrefix : Str) : Except Fault Json := do
  let _ ← prefixLen pathPrefix
  return docs.foldl (fun result doc =>
    if doc.lang = "ru".toList then result.assign doc.docName (.num doc.isNewsScore)
    else result) .null

/-! ## Stripping the folder -/

/-- The path of the file `r` below the folder `f`. -/
def joinPath (f r : Str) : Str :=
  f ++ (if f.getLast? = some '/' then [] else ['/']) ++ r

/-- **Stripping gives the relative name back**, for any folder that has a name. -/
theorem prefixLen_joinPath {f : Str} (hf : f ≠ []) :
    ∃ len, prefixLen f = .ok len ∧ ∀ r, substr (joinPath f r) len = .ok r := by
  obtain ⟨c, hc⟩ : ∃ c, f.getLast? = some c := ⟨_, List.getLast?_eq_some_getLast hf⟩
  have hlen : ∀ (sep : Str),
      prefixLen f = .ok (f ++ sep).length →
      (if f.getLast? = some '/' then [] else ['/']) = sep →
      ∃ len, prefixLen f = .ok len ∧ ∀ r, substr (joinPath f r) len = .ok r := by
    intro sep hl hsep
    refine ⟨_, hl, ?_⟩
    intro r
    rw [joinPath, hsep]
    exact substr_append (f ++ sep) r
  by_cases hs : c = '/'
  · refine hlen [] ?_ (by rw [hc, hs]; rfl)
    rw [prefixLen, hc, hs, List.append_nil]
    rfl
  · refine hlen ['/'] ?_ (if_neg (by rw [hc]; simpa using hs))
    rw [prefixLen, hc, List.length_append]
    simp [hs]

/-- Stripping the names of documents that lie below the folder. -/
theorem stripNames_eq {len : Nat} {docs : List DocFeatures} {rel : DocFeatures → Str}
    (h : ∀ d ∈ docs, substr d.docName len = .ok (rel d)) :
    stripNames len docs = .ok (docs.map rel) :=
  mapM_eq_ok h

/-- The result of `DumpNewsDet` on documents below the folder. -/
theorem newsDetResult_eq {f : Str} {len : Nat} {docs : List DocFeatures} {rel : DocFeatures → Str}
    (hlen : prefixLen f = .ok len)
    (h : ∀ d ∈ docs, substr d.docName len = .ok (rel d)) :
    newsDetResult docs f
      = .ok (.obj [("articles".toList, .ofNames ((docs.filter (·.isNews)).map rel))]) := by
  rw [newsDetResult, hlen]
  show (stripNames len (docs.filter (·.isNews)) >>= fun paths => _) = _
  rw [stripNames_eq fun d hd => h d (List.mem_of_mem_filter hd)]
  rfl

/-- The object of a thread. -/
def threadJson (rel : DocFeatures → Str) (thread : Str × List DocFeatures) : Json :=
  .obj [("articles".toList, .ofNames (thread.2.map rel)), ("title".toList, .str thread.1)]

@[simp] theorem articles_threadJson (rel : DocFeatures → Str) (thread : Str × List DocFeatures) :
    (threadJson rel thread).articles = thread.2.map rel :=
  strings_ofNames _

/-- The result of `DumpNewsThreads` on documents below the folder. -/
theorem newsThreadsResult_eq (order : IterOrder Str (List DocFeatures)) {f : Str} {len : Nat}
    {threads : UMap Str (List DocFeatures)} {rel : DocFeatures → Str}
    (hlen : prefixLen f = .ok len)
    (h : ∀ e ∈ threads.entries, ∀ d ∈ e.2, substr d.docName len = .ok (rel d)) :
    newsThreadsResult order threads f = .ok (.arr ((order.run threads).map (threadJson rel))) := by
  rw [newsThreadsResult, hlen]
  show ((order.run threads).mapM _ >>= fun elems => Except.ok (Json.arr elems)) = _
  rw [mapM_eq_ok (g := threadJson rel)]
  · rfl
  · refine order.forall_run.mpr fun e he => ?_
    show (stripNames len e.2 >>= fun paths => _) = _
    rw [stripNames_eq (h e he)]
    rfl

/-! ## The result of `DumpLanguage` -/

/-- The object of a language: no field `articles` without articles. -/
def langJson (lang : Str) (names : List Str) : Json :=
  if names = [] then .obj [("lang_code".toList, .str lang)]
  else .obj [("articles".toList, .ofNames names), ("lang_code".toList, .str lang)]

@[simp] theorem langCode_langJson (lang : Str) (names : List Str) :
    (langJson lang names).index "lang_code".toList = .str lang := by
  rw [langJson]
  by_cases h : names = []
  · rw [if_pos h]
    rfl
  · rw [if_neg h]
    rfl

/-- One more article. -/
theorem assign_langJson (lang : Str) (names : List Str) (name : Str) :
    (langJson lang names).assign "articles".toList
        (((langJson lang names).index "articles".toList).push (.str name))
      = langJson lang (names ++ [name]) := by
  rw [langJson, langJson, if_neg (show ¬ names ++ [name] = [] by simp)]
  by_cases h : names = []
  · rw [if_pos h, h]
    show Json.obj (assignField "articles".toList _ [("lang_code".toList, _)]) = _
    rw [assignField, if_neg (by decide), if_pos (by decide)]
    rfl
  · rw [if_neg h]
    show Json.obj (assignField "articles".toList (.arr (names.map .str ++ [.str name]))
      [("articles".toList, _), ("lang_code".toList, _)]) = _
    rw [assignField, if_pos rfl, Json.ofNames, List.map_append]
    rfl

/-- The names of the documents in a language. -/
def namesIn (rel : HTMLDocument → Str) (lang : Str) (docs : List HTMLDocument) : List Str :=
  (docs.filter fun d => d.getMeta "lang".toList = lang).map rel

theorem namesIn_cons (rel : HTMLDocument → Str) (lang : Str) (d : HTMLDocument)
    (docs : List HTMLDocument) :
    namesIn rel lang (d :: docs) = namesIn rel lang [d] ++ namesIn rel lang docs := by
  rw [namesIn, namesIn, namesIn, ← List.map_append, ← List.filter_append]
  rfl

/-- Both languages hold their names. -/
def Listed (m : UMap Str Json) (names : Str → List Str) : Prop :=
  ∀ lang, lang = "ru".toList ∨ lang = "en".toList →
    m.lookup lang = some (langJson lang (names lang))

/-- A document `DumpLanguage` lists. -/
def RuOrEn (d : HTMLDocument) : Prop :=
  d.getMeta "lang".toList = "ru".toList ∨ d.getMeta "lang".toList = "en".toList

/-- One turn of the loop of `DumpLanguage`. -/
theorem addArticle_spec {len : Nat} {rel : HTMLDocument → Str} {d : HTMLDocument}
    (h : RuOrEn d → substr (d.getMeta "path".toList) len = .ok (rel d))
    {names : Str → List Str} {m : UMap Str Json} (hm : Listed m names) :
    ∃ m', addArticle len m d = .ok m'
      ∧ Listed m' fun lang => names lang ++ namesIn rel lang [d] := by
  by_cases hd : RuOrEn d
  · rw [addArticle, if_pos (by simpa [RuOrEn] using hd), h hd]
    refine ⟨_, rfl, ?_⟩
    intro lang hlang
    show _ = some (langJson lang (names lang ++ namesIn rel lang [d]))
    rw [lookup_update, namesIn]
    by_cases heq : lang = d.getMeta "lang".toList
    · rw [if_pos heq, ← heq, hm lang hlang, Option.getD_some, assign_langJson,
        List.filter_cons_of_pos (by simpa using heq.symm)]
      rfl
    · rw [if_neg heq, List.filter_cons_of_neg (by simpa using Ne.symm heq), hm lang hlang]
      simp
  · rw [addArticle, if_neg (by simpa [RuOrEn] using hd)]
    refine ⟨m, rfl, ?_⟩
    intro lang hlang
    have hne : d.getMeta "lang".toList ≠ lang := by
      rintro rfl
      exact hd hlang
    show _ = some (langJson lang (names lang ++ namesIn rel lang [d]))
    rw [hm lang hlang, namesIn, List.filter_cons_of_neg (by simpa using hne)]
    simp

/-- The loop of `DumpLanguage`. -/
theorem addArticles_spec {len : Nat} {rel : HTMLDocument → Str} {docs : List HTMLDocument}
    (h : ∀ d ∈ docs, RuOrEn d → substr (d.getMeta "path".toList) len = .ok (rel d))
    {names : Str → List Str} {m : UMap Str Json} (hm : Listed m names) :
    ∃ m', docs.foldlM (addArticle len) m = .ok m'
      ∧ Listed m' fun lang => names lang ++ namesIn rel lang docs := by
  induction docs generalizing m names with
  | nil => exact ⟨m, rfl, by simpa [namesIn] using hm⟩
  | cons d docs ih =>
      obtain ⟨m₁, hrun₁, hm₁⟩ := addArticle_spec (h d List.mem_cons_self) hm
      obtain ⟨m₂, hrun₂, hm₂⟩ := ih (fun e he => h e (List.mem_cons_of_mem _ he)) hm₁
      refine ⟨m₂, ?_, ?_⟩
      · rw [List.foldlM_cons, hrun₁]
        exact hrun₂
      · intro lang hlang
        show _ = some (langJson lang (names lang ++ namesIn rel lang (d :: docs)))
        rw [hm₂ lang hlang, namesIn_cons, ← List.append_assoc]

/-- The result of `DumpLanguage` on documents of which the listed ones lie below the
    folder. -/
theorem languageResult_eq {f : Str} {len : Nat} {docs : List HTMLDocument}
    {rel : HTMLDocument → Str} (hlen : prefixLen f = .ok len)
    (h : ∀ d ∈ docs, RuOrEn d → substr (d.getMeta "path".toList) len = .ok (rel d)) :
    languageResult docs f
      = .ok (.arr [langJson "ru".toList (namesIn rel "ru".toList docs),
          langJson "en".toList (namesIn rel "en".toList docs)]) := by
  have hstart : Listed ((AList.insert "ru".toList (langJson "ru".toList []) ∅).insert
      "en".toList (langJson "en".toList [])) fun _ => [] := by
    rintro lang (rfl | rfl) <;> rfl
  obtain ⟨m', hrun, hm'⟩ := addArticles_spec h hstart
  rw [languageResult, hlen]
  show (docs.foldlM (addArticle len) ((AList.insert "ru".toList (langJson "ru".toList [])
    ∅).insert "en".toList (langJson "en".toList [])) >>= fun lang2json => _) = _
  rw [hrun]
  show Except.ok (Json.arr [(m'.lookup "ru".toList).getD .null,
    (m'.lookup "en".toList).getD .null]) = _
  rw [hm' _ (Or.inl rfl), hm' _ (Or.inr rfl)]
  rfl

end TgnewsIo
