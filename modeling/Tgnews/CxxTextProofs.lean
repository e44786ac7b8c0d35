import Tgnews.CxxContainersProofs

/-! # Strings, word extraction and regular expressions

    What a C++ (and a Python) program does to text, over lists of characters:
    `substr` with its range check, the words a stream yields through `>>`,
    `split` and `strip`, `std::to_string` of a number, and the leftmost-greedy
    matcher behind `regex_replace` and `regex_search` for patterns that are a
    sequence of character classes, each plain or starred.

    `List.splitOn` is Python's `split` on one character and `List.intercalate`
    its `join`; both come from the library with their lemmas. -/

namespace CxxText

open CxxContainers

/-- A string, character by character. -/
abbrev Str := List Char

instance : LawfulBEq Str := inferInstance

/-- `s.substr(pos)`. -/
def substr (s : Str) (pos : Nat) : Except Fault Str :=
  if pos ≤ s.length then .ok (s.drop pos) else .error .outOfRange

theorem substr_append (p r : Str) : substr (p ++ r) p.length = .ok r := by
  rw [substr, if_pos (by rw [List.length_append]; omega), List.drop_left]

/-! ## Words of a stream -/

/-- `isspace` in the "C" locale. -/
def isSpace (c : Char) : Bool :=
  c = ' ' || ('\t' ≤ c && c ≤ '\r')

/-- The words that successive `input >> word` extract, up to the end of the file. -/
def tokens (s : Str) : List Str :=
  (s.splitOnP isSpace).filter (· ≠ [])

/-- A word the stream extracts in one piece. -/
structure IsWord (w : Str) : Prop where
  ne_nil : w ≠ []
  noSpace : ∀ c ∈ w, isSpace c = false

instance (w : Str) : Decidable (IsWord w) :=
  decidable_of_iff (w ≠ [] ∧ w.all (fun c => !isSpace c))
    ⟨fun h => ⟨h.1, fun c hc => by simpa using List.all_eq_true.mp h.2 c hc⟩,
      fun h => ⟨h.ne_nil, List.all_eq_true.mpr fun c hc => by simp [h.noSpace c hc]⟩⟩

/-- A white-space character separates what is before it from what is after it. -/
theorem tokens_append_cons (w rest : Str) {c : Char} (hc : isSpace c)
    (hw : ∀ c ∈ w, isSpace c = false) :
    tokens (w ++ c :: rest) = (if w = [] then [] else [w]) ++ tokens rest := by
  rw [tokens, List.splitOnP_append_cons_of_forall_mem hw c hc, tokens]
  by_cases hnil : w = []
  · rw [if_pos hnil, List.filter_cons_of_neg (by simp [hnil])]; rfl
  · rw [if_neg hnil, List.filter_cons_of_pos (by simp [hnil])]; rfl

/-- Extraction reads one word up to the white space behind it. -/
theorem tokens_word {w : Str} (hw : IsWord w) {c : Char} (hc : isSpace c) (rest : Str) :
    tokens (w ++ c :: rest) = w :: tokens rest := by
  rw [tokens_append_cons w rest hc hw.noSpace, if_neg hw.ne_nil]; rfl

/-- Extraction reads one word up to the end of the file. -/
theorem tokens_last {w : Str} (hw : IsWord w) : tokens w = [w] := by
  rw [tokens, List.splitOnP_eq_singleton hw.noSpace,
    List.filter_cons_of_pos (by simp [hw.ne_nil])]
  rfl

/-- Words on a line each are read back, whether or not a newline ends the file. -/
theorem tokens_intercalate {ws : List Str} (h : ∀ w ∈ ws, IsWord w) :
    tokens (List.intercalate ['\n'] ws) = ws := by
  induction ws with
  | nil => rfl
  | cons w ws ih =>
      cases ws with
      | nil =>
          rw [List.intercalate_singleton]
          exact tokens_last (h w List.mem_cons_self)
      | cons v ws =>
          rw [List.intercalate_cons_cons, List.append_assoc]
          show tokens (w ++ '\n' :: List.intercalate ['\n'] (v :: ws)) = w :: v :: ws
          rw [tokens_word (h w List.mem_cons_self) (by decide),
            ih (fun x hx => h x (List.mem_cons_of_mem _ hx))]

/-! ## Words of joined texts -/

theorem tokens_space_cons {c : Char} (hc : isSpace c) (s : Str) : tokens (c :: s) = tokens s :=
  (tokens_append_cons [] s hc (by simp)).trans (by simp)

/-- White space between two texts keeps their words apart. -/
theorem tokens_append_space {c : Char} (hc : isSpace c) (u v : Str) :
    tokens (u ++ c :: v) = tokens u ++ tokens v := by
  rw [tokens, List.splitOnP_append_cons u v hc, List.filter_append, tokens, tokens]

/-- Two texts meet at white space, or one of them is empty. -/
def Apart (u v : Str) : Prop := ∀ c ∈ u.getLast?, ∀ d ∈ v.head?, isSpace c ∨ isSpace d

theorem tokens_append_of_apart {u v : Str} (h : Apart u v) :
    tokens (u ++ v) = tokens u ++ tokens v := by
  rcases u.eq_nil_or_concat' with rfl | ⟨u, c, rfl⟩
  · rfl
  · cases v with
    | nil => rw [List.append_nil]; exact (List.append_nil _).symm
    | cons d v =>
        rcases h c (by simp) d rfl with hc | hd
        · rw [List.append_assoc, List.singleton_append, tokens_append_space hc,
            tokens_append_space hc]
          exact congrArg (· ++ _) (List.append_nil _).symm
        · rw [tokens_append_space hd, tokens_space_cons hd]

/-- A character put before a text is a word of its own, unless it makes one longer. -/
theorem length_tokens_cons {c : Char} (hc : isSpace c = false) (s : Str) :
    (tokens (c :: s)).length
      = (tokens s).length + if s.head?.any (!isSpace ·) then 0 else 1 := by
  cases s with
  | nil =>
      rw [tokens_last ⟨by simp, by simpa using hc⟩]
      rfl
  | cons d s =>
      by_cases hd : isSpace d = true
      · rw [if_neg (by simp [hd]), tokens_space_cons hd]
        show (tokens ([c] ++ d :: s)).length = _
        rw [tokens_word ⟨by simp, by simpa using hc⟩ hd, List.length_cons]
      · obtain ⟨w, ws, hs⟩ := List.exists_cons_of_ne_nil (List.splitOnP_ne_nil isSpace s)
        rw [if_pos (by simp [hd]), tokens, tokens, List.splitOnP_cons_eq_if_modifyHead,
          List.splitOnP_cons_eq_if_modifyHead, if_neg (by rw [hc]; decide), if_neg hd, hs]
        simp

/-- **A glued seam costs one word.** -/
theorem length_tokens_glued {c d : Char} (hc : isSpace c = false) (hd : isSpace d = false)
    (u v : Str) :
    (tokens (u ++ [c] ++ d :: v)).length + 1
      = (tokens (u ++ [c])).length + (tokens (d :: v)).length := by
  induction u with
  | nil =>
      show (tokens (c :: d :: v)).length + 1 = (tokens [c]).length + _
      rw [length_tokens_cons hc, if_pos (by simp [hd]), length_tokens_cons hc, if_neg (by simp)]
      have hnil : (tokens []).length = 0 := rfl
      omega
  | cons e u ih =>
      rw [List.cons_append, List.cons_append]
      by_cases he : isSpace e = true
      · rw [tokens_space_cons he, tokens_space_cons he, ih]
      · -- both texts go on with the same character
        have hhead : (u ++ [c] ++ d :: v).head? = (u ++ [c]).head? := by
          rw [List.head?_append_of_ne_nil _ (by simp)]
        have he' := Bool.eq_false_of_not_eq_true he
        rw [length_tokens_cons he', length_tokens_cons he', hhead]
        omega

theorem length_tokens_append_lt {u v : Str} (h : ¬ Apart u v) :
    (tokens (u ++ v)).length < (tokens u).length + (tokens v).length := by
  simp only [Apart, not_forall, not_or] at h
  obtain ⟨c, hu, d, hv, hc, hd⟩ := h
  obtain ⟨u, rfl⟩ := List.getLast?_eq_some_iff.mp hu
  obtain ⟨v, rfl⟩ := List.head?_eq_some_iff.mp hv
  have hglued := length_tokens_glued (Bool.eq_false_of_not_eq_true hc)
    (Bool.eq_false_of_not_eq_true hd) u v
  omega

theorem length_tokens_append_le (u v : Str) :
    (tokens (u ++ v)).length ≤ (tokens u).length + (tokens v).length := by
  by_cases h : Apart u v
  · rw [tokens_append_of_apart h, List.length_append]
  · exact (length_tokens_append_lt h).le

/-- Joined texts have at most the words they had apart. -/
theorem length_tokens_flatten_le (texts : List Str) :
    (tokens texts.flatten).length ≤ (texts.flatMap tokens).length := by
  induction texts with
  | nil => exact le_refl _
  | cons u texts ih =>
      rw [List.flatten_cons, List.flatMap_cons, List.length_append]
      have hle := length_tokens_append_le u texts.flatten
      omega

/-- The first character of joined texts is that of the first text that has one. -/
theorem head?_flatten (texts : List Str) :
    texts.flatten.head? = (texts.filter (· ≠ [])).head?.bind List.head? := by
  induction texts with
  | nil => rfl
  | cons u texts ih =>
      by_cases hu : u = []
      · rw [List.flatten_cons, hu, List.nil_append, ih, List.filter_cons_of_neg (by simp)]
      · rw [List.flatten_cons, List.head?_append_of_ne_nil _ hu,
          List.filter_cons_of_pos (by simpa using hu)]
        rfl

/-- **Joining texts keeps their words exactly when they meet at white space**, each text
    that has characters with the next one that has some. -/
theorem tokens_flatten_iff (texts : List Str) :
    tokens texts.flatten = texts.flatMap tokens ↔
      (texts.filter (· ≠ [])).IsChain Apart := by
  induction texts with
  | nil => simp [tokens]
  | cons u texts ih =>
      rw [List.flatten_cons, List.flatMap_cons]
      by_cases hu : u = []
      · rw [List.filter_cons_of_neg (by simpa using hu), ← ih, hu, List.nil_append]
        rfl
      · -- the text meets what comes next where it meets all that follows
        have hseam : Apart u texts.flatten ↔
            ∀ v ∈ (texts.filter (· ≠ [])).head?, Apart u v := by
          rw [Apart, head?_flatten]
          simp only [Apart, Option.mem_def, Option.bind_eq_some_iff]
          exact ⟨fun h v hv c hc d hd => h c hc d ⟨v, hv, hd⟩,
            fun h c hc d ⟨v, hv, hd⟩ => h v hv c hc d hd⟩
        rw [List.filter_cons_of_pos (by simpa using hu), List.isChain_cons, ← hseam, ← ih]
        constructor
        · intro h
          have hlen := congrArg List.length h
          rw [List.length_append] at hlen
          have hle := length_tokens_flatten_le texts
          have hapart : Apart u texts.flatten := by
            by_contra hglued
            have hlt := length_tokens_append_lt hglued
            omega
          rw [tokens_append_of_apart hapart] at h
          exact ⟨hapart, List.append_cancel_left h⟩
        · rintro ⟨hapart, hrest⟩
          rw [tokens_append_of_apart hapart, hrest]

/-! ## Separated parts -/

/-- The parts between separators, without the empty one behind a separator that
    ends the text: what a loop over `std::getline` reads. -/
def splitEnded (sep : Char) (s : Str) : List Str :=
  if (s.splitOn sep).getLast? = some [] then (s.splitOn sep).dropLast else s.splitOn sep

theorem splitEnded_of_notMem {sep : Char} {w : Str} (h : sep ∉ w) :
    splitEnded sep w = if w = [] then [] else [w] := by
  rw [splitEnded, List.splitOn_eq_singleton h]
  by_cases hw : w = []
  · rw [if_pos (by rw [hw]; rfl), if_pos hw]
    rfl
  · rw [if_neg (by simpa using hw), if_neg hw]

/-- A part that a separator ends is split, and then the rest. -/
theorem splitEnded_append (sep : Char) (w rest : Str) :
    splitEnded sep (w ++ sep :: rest) = w.splitOn sep ++ splitEnded sep rest := by
  have hne : rest.splitOn sep ≠ [] := List.splitOn_ne_nil _ _
  rw [splitEnded, List.splitOn_append_cons_self, splitEnded, List.getLast?_append_of_ne_nil _ hne,
    List.dropLast_append_of_ne_nil hne]
  by_cases hl : (rest.splitOn sep).getLast? = some []
  · rw [if_pos hl, if_pos hl]
  · rw [if_neg hl, if_neg hl]

theorem splitEnded_append_cons {sep : Char} {w : Str} (h : sep ∉ w) (rest : Str) :
    splitEnded sep (w ++ sep :: rest) = w :: splitEnded sep rest := by
  rw [splitEnded_append, List.splitOn_eq_singleton h]
  rfl

/-- The text consists of the parts, each with a separator behind it; behind the last one,
    if it is not empty, the separator may be missing. -/
inductive EndedParts (sep : Char) : Str → List Str → Prop where
  | nil : EndedParts sep [] []
  | last {w : Str} : sep ∉ w → w ≠ [] → EndedParts sep w [w]
  | cons {w rest : Str} {ws : List Str} : sep ∉ w → EndedParts sep rest ws →
      EndedParts sep (w ++ sep :: rest) (w :: ws)

/-- Every text consists of the parts that are read. -/
theorem endedParts_splitEnded (sep : Char) (s : Str) : EndedParts sep s (splitEnded sep s) := by
  by_cases hsep : sep ∈ s
  · obtain ⟨w, rest, rfl, hw⟩ := List.eq_append_cons_of_mem hsep
    rw [splitEnded_append_cons hw]
    exact .cons hw (endedParts_splitEnded sep rest)
  · rw [splitEnded_of_notMem hsep]
    by_cases hs : s = []
    · rw [if_pos hs, hs]
      exact .nil
    · rw [if_neg hs]
      exact .last hsep hs
termination_by s.length
decreasing_by
  rw [‹s = _›, List.length_append, List.length_cons]
  omega

/-- **What is read are the parts the text consists of.** -/
theorem splitEnded_eq_iff {sep : Char} {s : Str} {ws : List Str} :
    splitEnded sep s = ws ↔ EndedParts sep s ws := by
  constructor
  · rintro rfl
    exact endedParts_splitEnded sep s
  · intro h
    induction h with
    | nil => rfl
    | last hsep hw => rw [splitEnded_of_notMem hsep, if_neg hw]
    | cons hsep _ ih => rw [splitEnded_append_cons hsep, ih]

/-- There is one part more than there are separators. -/
theorem length_splitOn (sep : Char) (s : Str) : (s.splitOn sep).length = s.count sep + 1 := by
  induction s with
  | nil => rfl
  | cons c s ih =>
      obtain ⟨w, ws, hs⟩ := List.exists_cons_of_ne_nil (List.splitOn_ne_nil sep s)
      rw [List.splitOn_cons_eq_if_modifyHead]
      by_cases hc : c = sep
      · rw [if_pos (by simpa using hc), List.length_cons, ih, hc, List.count_cons_self]
      · rw [if_neg (by simpa using hc), List.length_modifyHead, ih, List.count_cons_of_ne hc]

theorem length_splitOn_eq_one {sep : Char} {s : Str} : (s.splitOn sep).length = 1 ↔ sep ∉ s := by
  rw [length_splitOn, ← List.count_eq_zero]
  omega

/-- Splitting joined parts splits each of them. -/
theorem splitOn_intercalate_flatMap (sep : Char) {ws : List Str} (hne : ws ≠ []) :
    (List.intercalate [sep] ws).splitOn sep = ws.flatMap (·.splitOn sep) := by
  induction ws with
  | nil => exact absurd rfl hne
  | cons w ws ih =>
      cases ws with
      | nil => simp
      | cons v ws =>
          rw [List.intercalate_cons_cons, List.append_assoc, List.singleton_append,
            List.splitOn_append_cons_self, ih (List.cons_ne_nil v ws)]
          rfl

/-- Lines written one after the other, each split at the separators in it. -/
theorem splitEnded_lines (sep : Char) (lines : List Str) :
    splitEnded sep (lines.flatMap (· ++ [sep])) = lines.flatMap (·.splitOn sep) := by
  induction lines with
  | nil => rfl
  | cons w lines ih =>
      rw [List.flatMap_cons, List.append_assoc, List.singleton_append, splitEnded_append, ih,
        List.flatMap_cons]

/-- Parts that are as many as before are the same. -/
theorem splitOn_flatMap_of_length {sep : Char} {ws : List Str}
    (h : (ws.flatMap (·.splitOn sep)).length = ws.length) :
    ∀ w ∈ ws, sep ∉ w := by
  induction ws with
  | nil => intro w hw; cases hw
  | cons v ws ih =>
      have hle : ∀ us : List Str, us.length ≤ (us.flatMap (·.splitOn sep)).length := by
        intro us
        induction us with
        | nil => exact le_refl _
        | cons u us ihu =>
            rw [List.flatMap_cons, List.length_append, length_splitOn, List.length_cons]
            omega
      have hws := hle ws
      rw [List.flatMap_cons, List.length_append, List.length_cons, length_splitOn] at h
      intro w hw
      rcases List.mem_cons.mp hw with rfl | hw
      · exact List.count_eq_zero.mp (by omega)
      · exact ih (by omega) w hw

/-- Parts each followed by a separator are the joined parts and one separator more. -/
theorem flatMap_append_sep {sep : Char} {ws : List Str} (hne : ws ≠ []) :
    ws.flatMap (· ++ [sep]) = List.intercalate [sep] ws ++ [sep] := by
  induction ws with
  | nil => exact absurd rfl hne
  | cons w ws ih =>
      cases ws with
      | nil => simp
      | cons v ws =>
          rw [List.flatMap_cons, ih (List.cons_ne_nil v ws), List.intercalate_cons_cons,
            List.append_assoc, List.append_assoc, List.append_assoc]

theorem mem_intercalate {c sep : Char} (hc : c ≠ sep) {ws : List Str} :
    c ∈ List.intercalate [sep] ws ↔ ∃ w ∈ ws, c ∈ w := by
  by_cases hne : ws = []
  · rw [hne]
    simp
  · have hmem : c ∈ List.intercalate [sep] ws ++ [sep] ↔ c ∈ ws.flatMap (· ++ [sep]) := by
      rw [flatMap_append_sep hne]
    simpa [hc] using hmem

/-! ## Python's `strip` -/

/-- The characters for which Python's `str.isspace` holds. -/
def pyIsSpace (c : Char) : Bool :=
  isSpace c || (0x1c ≤ c.toNat && c.toNat ≤ 0x1f) || c.toNat == 0x85 || c.toNat == 0xa0
    || c.toNat == 0x1680 || (0x2000 ≤ c.toNat && c.toNat ≤ 0x200a)
    || c.toNat == 0x2028 || c.toNat == 0x2029 || c.toNat == 0x202f
    || c.toNat == 0x205f || c.toNat == 0x3000

/-- `s.strip()`. -/
def strip (s : Str) : Str :=
  ((s.dropWhile pyIsSpace).reverse.dropWhile pyIsSpace).reverse

theorem isSpace_of_pyIsSpace {c : Char} (h : pyIsSpace c = false) : isSpace c = false := by
  simp only [pyIsSpace, Bool.or_eq_false_iff] at h
  exact h.1.1.1.1.1.1.1.1.1.1

/-- Text without white space is stripped of nothing. -/
theorem strip_eq_self {s : Str} (h : ∀ c ∈ s, pyIsSpace c = false) : strip s = s := by
  have key : ∀ (t : Str), (∀ c ∈ t, pyIsSpace c = false) → t.dropWhile pyIsSpace = t := by
    intro t ht
    cases t with
    | nil => rfl
    | cons c t => rw [List.dropWhile_cons_of_neg (by rw [ht c List.mem_cons_self]; decide)]
  rw [strip, key s h, key s.reverse (fun c hc => h c (List.mem_reverse.mp hc)),
    List.reverse_reverse]

/-! ## `std::to_string` -/

/-- The nearest integer, ties to even. -/
def roundEven (q : ℚ) : Nat :=
  let n := q.floor.toNat
  let r := q - n
  if r < 1 / 2 then n else if 1 / 2 < r then n + 1 else n + n % 2

/-- `std::to_string` of a floating-point number: `"%f"`, six decimals. -/
def toStringF (q : ℚ) : Str :=
  let n := roundEven (|q| * 1000000)
  (if q < 0 then ['-'] else [])
    ++ (Nat.repr (n / 1000000)).toList ++ ['.']
    ++ ((Nat.repr (n % 1000000 + 1000000)).toList.drop 1)

/-- `std::to_string` of a `bool`. -/
def toStringB (b : Bool) : Str := if b then ['1'] else ['0']

/-! ## Regular expressions -/

/-- A piece of a pattern: one character of a class, or greedily many of them. -/
inductive Piece where
  | one (p : Char → Bool)
  | many (p : Char → Bool)

/-- The characters of a literal. -/
def literal (s : String) : List Piece :=
  s.toList.map fun c => .one (· = c)

/-- Take as many characters of the class as `k` lets go on from, longest first. -/
def manyLen (p : Char → Bool) (k : Str → Option Nat) : Str → Option Nat
  | [] => k []
  | c :: s =>
      if p c then ((manyLen p k s).map (· + 1)).or (k (c :: s)) else k (c :: s)

/-- The length of the match a backtracking engine prefers at the head of the text. -/
def matchLen : List Piece → Str → Option Nat
  | [], _ => some 0
  | .one _ :: _, [] => none
  | .one p :: re, c :: s => if p c then (matchLen re s).map (· + 1) else none
  | .many p :: re, s => manyLen p (matchLen re) s

/-- Replace every match from the left, `skip` characters of a match still to drop. -/
def replaceFrom (re : List Piece) (repl : Str) : Nat → Str → Str
  | _, [] => []
  | skip + 1, _ :: s => replaceFrom re repl skip s
  | 0, c :: s =>
      match matchLen re (c :: s) with
      | some (m + 1) => repl ++ replaceFrom re repl m s
      | _ => c :: replaceFrom re repl 0 s

/-- `regex_replace(s, re, repl)` for a pattern that matches no empty text. -/
def regexReplace (s : Str) (re : List Piece) (repl : Str) : Str :=
  replaceFrom re repl 0 s

/-- `regex_search(s, a|b|...)`: some alternative matches somewhere. -/
def regexSearch (s : Str) (alts : List (List Piece)) : Bool :=
  s.tails.any fun t => alts.any fun re => (matchLen re t).isSome

end CxxText
