import Tgnews.IoProofs

/-! # From a topic-model dictionary to a lemma file (`dict2list.py`)

    BigARTM writes its dictionary as comma-separated text without quoting;
    `dict2list.py` splits the lines at commas and writes `token class` lines;
    `ReadLemmas` numbers those.  A token that itself has a comma is split, with one
    exception the script makes by hand, so the numbers agree with the dictionary
    exactly when every token is `readable`.

    The route:

    * `convert_line` — what the script makes of the line of one entry;
    * `tokens_dict2list_readable` — readable tokens come out as a listing, which
      `readLemmas_lookup` reads;
    * `exists_wrong_word` — at the first token that is not readable the file has
      another word in its place, so nothing maps the token to its number
      (`readPairs_value`). -/

namespace TgnewsDictionary

open CxxContainers CxxText TgnewsCommon TgnewsIo

/-! ## The writer -/

/-- The class of a token in the dictionary. -/
def classIdOf : TokenClass → Str
  | .text => "text_tokens".toList
  | .title => "title_tokens".toList

/-- Nothing in the text ends a line, neither for C++ nor for Python. -/
def IsLine (s : Str) : Prop := '\n' ∉ s ∧ '\r' ∉ s

instance (s : Str) : Decidable (IsLine s) := inferInstanceAs (Decidable (_ ∧ _))

/-- An entry of the dictionary, its numbers as they are printed.  A token is a
    non-empty text without white space. -/
structure Entry where
  token : Str
  cls : TokenClass
  value : Str
  tf : Str
  df : Str
  token_ne : token ≠ []
  token_noSpace : ∀ c ∈ token, pyIsSpace c = false
  value_line : IsLine value
  tf_line : IsLine tf
  df_line : IsLine df

/-- The line of an entry: `token, class_id, value, tf, df`. -/
def entryLine (e : Entry) : Str :=
  e.token ++ ',' :: (' ' :: classIdOf e.cls ++ ',' :: (' ' :: e.value
    ++ ',' :: (' ' :: e.tf ++ ',' :: (' ' :: e.df))))

/-- `save_text`: two header lines, then the entries. -/
def saveText (header₁ header₂ : Str) (entries : List Entry) : Str :=
  header₁ ++ '\n' :: (header₂ ++ '\n' :: entries.flatMap fun e => entryLine e ++ ['\n'])

/-! ## The converter -/

/-- What `read` gives of a file opened with `'r'`: every end of a line, `"\r\n"` and `"\r"`
    too, is `"\n"`. -/
def universalNewlines : Str → Str
  | [] => []
  | '\r' :: '\n' :: s => '\n' :: universalNewlines s
  | '\r' :: s => '\n' :: universalNewlines s
  | c :: s => c :: universalNewlines s

/-- `s.split("_")[0]`. -/
def headPart (s : Str) : Str := (s.splitOn '_').headD []

/-- The word the script repairs lines for. -/
def repaired : Str := "позвонить".toList

/-- What the script makes of the first three fields of a line; `none` skips it. -/
def convert : List Str → Option (Str × Str)
  | [d₀, d₁, d₂] =>
      let x := strip d₀
      let t := headPart (strip d₁)
      let x := if x = [] then "krakakpopka".toList else x
      if t = repaired then
        some (strip (List.intercalate [','] [d₀, d₁]), headPart (strip d₂))
      else some (x, t)
  | _ => none

/-- The line written for a line read. -/
def convertLine (line : Str) : Str :=
  match convert ((line.splitOn ',').take 3) with
  | some (x, t) => x ++ ' ' :: (t ++ ['\n'])
  | none => []

/-- `dict2list.py`. -/
def dict2list (file : Str) : Str :=
  (((universalNewlines file).splitOn '\n').drop 2).flatMap convertLine

/-! ## One entry -/

/-- The tokens the script gets right: without a comma, or with one comma and the
    repaired word behind it, up to an underscore. -/
def readable (token : Str) : Bool :=
  match token.splitOn ',' with
  | [_] => true
  | [_, b] => headPart b = repaired
  | _ => false

theorem splitOn_entryLine (e : Entry) :
    ∃ v rest, (entryLine e).splitOn ','
      = e.token.splitOn ',' ++ (' ' :: classIdOf e.cls) :: v :: rest := by
  have hcls : ',' ∉ ' ' :: classIdOf e.cls := by cases e.cls <;> decide
  rw [entryLine, List.splitOn_append_cons_self,
    List.splitOn_append_cons_self_of_not_mem hcls]
  cases hrest : (' ' :: e.value ++ ',' :: (' ' :: e.tf ++ ',' :: (' ' :: e.df))).splitOn ',' with
  | nil => exact absurd hrest (List.splitOn_ne_nil _ _)
  | cons v rest => exact ⟨v, rest, rfl⟩

theorem headPart_class (c : TokenClass) :
    headPart (strip (' ' :: classIdOf c)) = c.name := by
  cases c <;> decide

/-- A part of a token is stripped of nothing. -/
theorem strip_part {e : Entry} {w : Str} (h : ∀ c ∈ w, c ∈ e.token) : strip w = w :=
  strip_eq_self fun c hc => e.token_noSpace c (h c hc)

/-- A part of a token that is not empty is a word. -/
theorem isWord_part {e : Entry} {w : Str} (hne : w ≠ []) (h : ∀ c ∈ w, c ∈ e.token) :
    IsWord w :=
  ⟨hne, fun c hc => isSpace_of_pyIsSpace (e.token_noSpace c (h c hc))⟩

/-- A token without a comma. -/
theorem convert_plain {e : Entry} (v : Str) :
    convert [e.token, ' ' :: classIdOf e.cls, v] = some (e.token, e.cls.name) := by
  have hne : e.cls.name ≠ repaired := by cases e.cls <;> decide
  rw [convert, headPart_class, strip_part fun _ h => h, if_neg hne, if_neg e.token_ne]

/-- A token with a comma whose second part is not the repaired word: another word
    takes its place. -/
theorem convert_split {e : Entry} {a b : Str} {more : List Str} (d₂ : Str)
    (htoken : e.token = List.intercalate [','] (a :: b :: more))
    (hb : headPart b ≠ repaired) :
    ∃ x t, convert [a, b, d₂] = some (x, t) ∧ IsWord x ∧ x ≠ e.token := by
  rw [List.intercalate_cons_cons, List.append_assoc] at htoken
  have ha : ∀ c ∈ a, c ∈ e.token := fun c hc => htoken ▸ List.mem_append_left _ hc
  have hbs : ∀ c ∈ b, c ∈ e.token := by
    intro c hc
    rw [htoken]
    refine List.mem_append_right _ (List.mem_append_right _ ?_)
    cases more with
    | nil => rw [List.intercalate_singleton]; exact hc
    | cons c' more =>
        rw [List.intercalate_cons_cons]
        exact List.mem_append_left _ (List.mem_append_left _ hc)
  rw [convert, strip_part ha, strip_part hbs, if_neg hb]
  refine ⟨_, _, rfl, ?_, ?_⟩
  · by_cases hnil : a = []
    · rw [if_pos hnil]
      decide
    · rw [if_neg hnil]
      exact isWord_part hnil ha
  · by_cases hnil : a = []
    · rw [if_pos hnil]
      intro heq
      have hcomma : ',' ∈ "krakakpopka".toList := by
        rw [heq, htoken]
        exact List.mem_append_right _ (List.mem_append_left _ List.mem_cons_self)
      exact absurd hcomma (by decide)
    · rw [if_neg hnil]
      intro heq
      have hlen := congrArg List.length (heq.trans htoken)
      rw [List.length_append, List.length_append, List.length_singleton] at hlen
      omega

/-- A token whose second part is the repaired word: the first two parts are joined. -/
theorem convert_repair {e : Entry} {a b : Str} (d₂ : Str)
    (hsub : ∀ c ∈ List.intercalate [','] [a, b], c ∈ e.token) (hb : headPart b = repaired) :
    convert [a, b, d₂] = some (List.intercalate [','] [a, b], headPart (strip d₂)) := by
  have hbs : ∀ c ∈ b, c ∈ e.token := fun c hc => hsub c (by
    rw [List.intercalate_cons_cons, List.intercalate_singleton]
    exact List.mem_append_right _ hc)
  rw [convert, strip_part hbs, if_pos hb, strip_part hsub]

/-- A token with two commas or more, repaired word or not, loses what is behind the
    second. -/
theorem convert_repair_more {e : Entry} {a b c : Str} {more : List Str}
    (hwhole : List.intercalate [','] (a :: b :: c :: more) = e.token)
    (hb : headPart b = repaired) :
    ∃ x t, convert [a, b, c] = some (x, t) ∧ IsWord x ∧ x ≠ e.token := by
  have htoken : e.token = List.intercalate [','] [a, b]
      ++ ([','] ++ List.intercalate [','] (c :: more)) := by
    rw [← hwhole, List.intercalate_cons_cons, List.intercalate_cons_cons,
      List.intercalate_cons_cons, List.intercalate_singleton, List.append_assoc,
      List.append_assoc, List.append_assoc, List.append_assoc]
  have hsub : ∀ x ∈ List.intercalate [','] [a, b], x ∈ e.token := fun x hx =>
    htoken ▸ List.mem_append_left _ hx
  refine ⟨_, _, convert_repair c hsub hb, isWord_part ?_ hsub, ?_⟩
  · rw [List.intercalate_cons_cons]
    simp
  · intro heq
    have hlen := congrArg List.length (heq.trans htoken)
    rw [List.length_append, List.length_append, List.length_singleton] at hlen
    omega

/-- **What the script makes of an entry**: a word, which is the token, with its class
    behind it, exactly when the token is readable. -/
theorem convert_line (e : Entry) :
    ∃ x t, convert (((entryLine e).splitOn ',').take 3) = some (x, t) ∧ IsWord x
      ∧ (readable e.token → x = e.token ∧ t = e.cls.name)
      ∧ (¬ readable e.token → x ≠ e.token) := by
  obtain ⟨v, rest, hline⟩ := splitOn_entryLine e
  have hwhole : List.intercalate [','] (e.token.splitOn ',') = e.token :=
    List.intercalate_splitOn ','
  have hword : IsWord e.token := isWord_part e.token_ne fun _ h => h
  rw [hline, readable]
  -- the cases are the number of commas in the token
  match hparts : e.token.splitOn ',' with
  | [] => exact absurd hparts (List.splitOn_ne_nil _ _)
  | [a] =>
      rw [hparts, List.intercalate_singleton] at hwhole
      refine ⟨e.token, e.cls.name, ?_, hword, fun _ => ⟨rfl, rfl⟩, fun h => absurd rfl h⟩
      rw [hwhole]
      exact convert_plain v
  | [a, b] =>
      rw [hparts] at hwhole
      by_cases hb : headPart b = repaired
      · refine ⟨e.token, e.cls.name, ?_, hword, fun _ => ⟨rfl, rfl⟩,
          fun h => absurd (decide_eq_true hb) h⟩
        have hconv := convert_repair (e := e) (' ' :: classIdOf e.cls)
          (fun c hc => hwhole ▸ hc) hb
        rw [headPart_class, hwhole] at hconv
        exact hconv
      · obtain ⟨x, t, hconv, hx, hne⟩ :=
          convert_split (' ' :: classIdOf e.cls) hwhole.symm hb
        exact ⟨x, t, hconv, hx, fun h => absurd (of_decide_eq_true h) hb, fun _ => hne⟩
  | a :: b :: c :: more =>
      rw [hparts] at hwhole
      have hwrong : ∃ x t, convert [a, b, c] = some (x, t) ∧ IsWord x ∧ x ≠ e.token := by
        by_cases hb : headPart b = repaired
        · exact convert_repair_more hwhole hb
        · exact convert_split c hwhole.symm hb
      obtain ⟨x, t, hconv, hx, hne⟩ := hwrong
      exact ⟨x, t, hconv, hx, fun h => Bool.noConfusion h, fun _ => hne⟩

/-! ## The whole file -/

/-- A text without a carriage return is read as it is. -/
theorem universalNewlines_eq_self {s : Str} (h : '\r' ∉ s) : universalNewlines s = s := by
  induction s with
  | nil => rfl
  | cons c s ih =>
      obtain ⟨hc, hs⟩ := not_or.mp (mt List.mem_cons.mpr h)
      rw [universalNewlines.eq_4, ih hs]
      · rintro _ rfl _
        exact hc rfl
      · rintro rfl
        exact hc rfl

/-- The line of an entry is one line. -/
theorem isLine_entryLine (e : Entry) : IsLine (entryLine e) := by
  have hspace : ∀ c, pyIsSpace c = true → c ∉ e.token := fun c hc h =>
    absurd (hc.symm.trans (e.token_noSpace c h)) Bool.noConfusion
  have hcls : IsLine (classIdOf e.cls) := by cases e.cls <;> decide
  obtain ⟨hvalue, hvalue'⟩ := e.value_line
  obtain ⟨htf, htf'⟩ := e.tf_line
  obtain ⟨hdf, hdf'⟩ := e.df_line
  constructor
  · simp [entryLine, hspace _ (show pyIsSpace '\n' = true by decide), hcls.1, hvalue, htf, hdf]
  · simp [entryLine, hspace _ (show pyIsSpace '\r' = true by decide), hcls.2, hvalue', htf',
      hdf']

/-- The lines of the entries, and the empty one behind the last newline. -/
theorem splitOn_entryLines (entries : List Entry) :
    (entries.flatMap fun e => entryLine e ++ ['\n']).splitOn '\n'
      = entries.map entryLine ++ [[]] := by
  induction entries with
  | nil => rfl
  | cons e entries ih =>
      rw [List.flatMap_cons, List.append_assoc, List.singleton_append,
        List.splitOn_append_cons_self_of_not_mem (isLine_entryLine e).1, ih]
      rfl

theorem return_notMem_saveText {header₁ header₂ : Str} (h₁ : IsLine header₁)
    (h₂ : IsLine header₂) (entries : List Entry) : '\r' ∉ saveText header₁ header₂ entries := by
  have hlines : '\r' ∉ entries.flatMap fun e => entryLine e ++ ['\n'] := by
    intro h
    obtain ⟨e, -, he⟩ := List.mem_flatMap.mp h
    rcases List.mem_append.mp he with he | he
    · exact (isLine_entryLine e).2 he
    · exact absurd he (by decide)
  simp [saveText, h₁.2, h₂.2, hlines]

/-- The script writes one line per entry. -/
theorem dict2list_saveText {header₁ header₂ : Str} (h₁ : IsLine header₁) (h₂ : IsLine header₂)
    (entries : List Entry) :
    dict2list (saveText header₁ header₂ entries)
      = entries.flatMap fun e => convertLine (entryLine e) := by
  rw [dict2list, universalNewlines_eq_self (return_notMem_saveText h₁ h₂ entries), saveText,
    List.splitOn_append_cons_self_of_not_mem h₁.1,
    List.splitOn_append_cons_self_of_not_mem h₂.1, splitOn_entryLines]
  show (entries.map entryLine ++ [[]]).flatMap convertLine = _
  rw [List.flatMap_append, List.flatMap_map]
  exact List.append_nil _

/-- The words written for an entry that is readable. -/
theorem tokens_convertLine {e : Entry} (h : readable e.token) (rest : Str) :
    tokens (convertLine (entryLine e) ++ rest) = e.token :: e.cls.name :: tokens rest := by
  obtain ⟨x, t, hconv, hword, hgood, -⟩ := convert_line e
  obtain ⟨rfl, rfl⟩ := hgood h
  have hcls : IsWord e.cls.name := by cases e.cls <;> decide
  rw [convertLine, hconv]
  show tokens ((e.token ++ ' ' :: (e.cls.name ++ ['\n'])) ++ rest) = _
  rw [List.append_assoc, List.cons_append, List.append_assoc, List.singleton_append,
    tokens_word hword (by decide), tokens_word hcls (by decide)]

/-- **Readable tokens come out as a listing.** -/
theorem tokens_dict2list_readable {entries : List Entry} (h : ∀ e ∈ entries, readable e.token) :
    tokens (entries.flatMap fun e => convertLine (entryLine e))
      = listing (entries.map fun e => (e.token, e.cls)) := by
  induction entries with
  | nil => rfl
  | cons e entries ih =>
      rw [List.flatMap_cons, tokens_convertLine (h e List.mem_cons_self),
        ih fun e' he' => h e' (List.mem_cons_of_mem _ he')]
      rfl

/-- **A wrong word.**  If some token is not readable, then at the place of one of the
    tokens the file has another word. -/
theorem exists_wrong_word {entries : List Entry} (h : ¬ ∀ e ∈ entries, readable e.token) :
    ∃ i e x, entries[i]? = some e
      ∧ (tokens (entries.flatMap fun e => convertLine (entryLine e)))[2 * i]? = some x
      ∧ x ≠ e.token := by
  induction entries with
  | nil => exact absurd (fun e he => nomatch he) h
  | cons e entries ih =>
      by_cases he : readable e.token
      · have hrest : ¬ ∀ e' ∈ entries, readable e'.token := by
          intro hall
          refine h fun e' he' => ?_
          rcases List.mem_cons.mp he' with rfl | hmem
          · exact he
          · exact hall e' hmem
        obtain ⟨i, e', x, hi, hx, hne⟩ := ih hrest
        refine ⟨i + 1, e', x, hi, ?_, hne⟩
        rw [List.flatMap_cons, tokens_convertLine he,
          show 2 * (i + 1) = 2 * i + 1 + 1 by omega]
        exact hx
      · -- the first token that is not readable: nothing before it has shifted
        obtain ⟨x, t, hconv, hword, -, hbad⟩ := convert_line e
        refine ⟨0, e, x, rfl, ?_, hbad he⟩
        rw [List.flatMap_cons, convertLine, hconv]
        show (tokens ((x ++ ' ' :: (t ++ ['\n'])) ++ _))[0]? = some x
        rw [List.append_assoc, List.cons_append, tokens_word hword (by decide)]
        rfl

/-- **Exactly the readable tokens.**  Writing a dictionary, converting it and reading
    the result succeeds and gives every token, under its class, its own index if and
    only if every token has no comma, or one comma followed by the word the script
    repairs. -/
theorem dictionary_indices_iff {header₁ header₂ : Str} (h₁ : IsLine header₁)
    (h₂ : IsLine header₂) {entries : List Entry}
    (hdistinct : (entries.map fun e => (e.token, e.cls)).Nodup) :
    (∃ m, readLemmas (dict2list (saveText header₁ header₂ entries)) = .ok m
      ∧ ∀ i e, entries[i]? = some e →
          ∃ dict, m.lookup e.cls.name = some dict ∧ dict.lookup e.token = some i)
      ↔ ∀ e ∈ entries, readable e.token := by
  rw [dict2list_saveText h₁ h₂]
  constructor
  · rintro ⟨m, hread, hm⟩
    by_contra hbad
    obtain ⟨i, e, x, hi, hx, hne⟩ := exists_wrong_word hbad
    obtain ⟨dict, hdict, hlookup⟩ := hm i e hi
    rcases readPairs_value hread hdict hlookup with ⟨dict₀, hdict₀, hold⟩ | ⟨k, hk, hw⟩
    · -- the dictionaries start empty
      have hempty : dict₀ = ∅ := by
        cases hcls : e.cls with
        | text => rw [hcls] at hdict₀; exact (Option.some.inj hdict₀).symm
        | title => rw [hcls] at hdict₀; exact (Option.some.inj hdict₀).symm
      rw [hempty, AList.lookup_empty] at hold
      exact nomatch hold
    · rw [show k = i by omega] at hw
      exact hne (Option.some.inj (hx.symm.trans hw))
  · intro hall
    obtain ⟨m, d, hread, hm, hd⟩ := readLemmas_lookup (tokens_dict2list_readable hall)
    refine ⟨m, hread, ?_⟩
    intro i e hi
    refine ⟨d e.cls, hm e.cls, ?_⟩
    rw [hd]
    refine (idxOf?_eq_some_of_nodup hdistinct).mpr ?_
    rw [List.getElem?_map, hi]
    rfl

/-- An entry with the numbers a fresh dictionary has. -/
def sampleEntry (token : Str) (cls : TokenClass) (hne : token ≠ [])
    (hspace : token.all fun c => !pyIsSpace c) : Entry where
  token := token
  cls := cls
  value := "0.0".toList
  tf := "1.0".toList
  df := "1.0".toList
  token_ne := hne
  token_noSpace := fun c hc => by simpa using List.all_eq_true.mp hspace c hc
  value_line := by decide
  tf_line := by decide
  df_line := by decide

def sampleHeader : Str := "name: d num_items: 2".toList

/-- One word in both classes. -/
theorem dictionary_indices_two :
    ∃ m, readLemmas (dict2list (saveText sampleHeader sampleHeader
        [sampleEntry "мир".toList .title (by decide) (by decide),
          sampleEntry "мир".toList .text (by decide) (by decide)])) = .ok m
      ∧ ∀ i e, [sampleEntry "мир".toList .title (by decide) (by decide),
          sampleEntry "мир".toList .text (by decide) (by decide)][i]? = some e →
          ∃ dict, m.lookup e.cls.name = some dict ∧ dict.lookup e.token = some i :=
  (dictionary_indices_iff (by decide) (by decide) (by decide)).mpr (by decide)

/-- A decimal number with a comma reads as a word with an unknown class. -/
theorem readLemmas_commaToken :
    readLemmas (dict2list (saveText sampleHeader sampleHeader
      [sampleEntry "10,5".toList .text (by decide) (by decide)])) = .error .nullDeref := by
  decide

end TgnewsDictionary
