import Tgnews.FeaturesProofs
import Tgnews.CxxRegexProofs

/-! # What `CleanText` removes (`features.hpp`)

    Two replacements by a blank, one after the other.  The first takes out links, the
    second was meant to take out every character outside an alphabet.  The route:

    * a link is `http`, any number of `s`, a colon, and what follows up to white space
      (`matches_https`); the first replacement reads each as one blank
      (`replace_https_eq_blankLinks`), and neither replacement can put one together;
    * the second pattern describes a run outside letters and `[`, the nine marks it
      names as one literal, and closing brackets (`Stretch`): the set ends at the first
      bracket.  The literal begins with a mark it has nowhere else, so a match that
      begins inside the chosen one ends inside it (`swallows_word`), and the characters
      taken out are those of the stretches. -/

namespace TgnewsCleanText

open CxxContainers CxxText CxxRegex TgnewsFeatures

/-! ## Links -/

/-- How a link begins. -/
def linkHead (k : Nat) : Str := "http".toList ++ (List.replicate k 's' ++ [':'])

theorem eq_replicate_of_matches {a : Char} {r : Str} (hr : ∀ c ∈ r, decide (c = a) = true) :
    r = List.replicate r.length a :=
  List.eq_replicate_iff.mpr ⟨rfl, fun c hc => of_decide_eq_true (hr c hc)⟩

/-- A link runs from its head to the white space behind it. -/
theorem matches_https {w : Str} :
    Matches httpsPattern w ↔ ∃ k v, w = linkHead k ++ v ∧ ∀ c ∈ v, (!isSpace c) = true := by
  rw [httpsPattern, List.append_assoc, List.append_assoc, matches_literal_append]
  constructor
  · rintro ⟨t, rfl, r, u, rfl, hr, hu⟩
    obtain ⟨v, rfl, q, e, rfl, hq, rfl⟩ := matches_literal_append.mp hu
    refine ⟨r.length, q, ?_, hq⟩
    rw [linkHead, ← eq_replicate_of_matches hr, List.append_nil, List.append_assoc,
      List.append_assoc]
    rfl
  · rintro ⟨k, v, rfl, hv⟩
    refine ⟨List.replicate k 's' ++ (':' :: v), by simp [linkHead], List.replicate k 's',
      ':' :: v, rfl, by simp, ?_⟩
    exact matches_literal_append.mpr ⟨v, rfl, v, [], by simp, hv, rfl⟩

theorem blank_notMem_linkHead (k : Nat) : ' ' ∉ linkHead k := by
  simp [linkHead]

theorem linkHead_ne_nil (k : Nat) : linkHead k ≠ [] := by
  simp [linkHead]

theorem not_matches_https_nil : ¬ Matches httpsPattern [] := by
  rw [matches_https]
  rintro ⟨k, v, hw, -⟩
  exact linkHead_ne_nil k (List.append_eq_nil_iff.mp hw.symm).1

/-- Where a link begins, the first replacement finds one. -/
theorem not_noMatch_https (k : Nat) (b : Str) : ¬ NoMatch httpsPattern (linkHead k ++ b) :=
  fun h => not_matches_of_noMatch not_matches_https_nil h
    (matches_https.mpr ⟨k, [], by rw [List.append_nil], by simp⟩)

/-- Neither replacement leaves or makes a link. -/
theorem not_infix_cleanText (letter : Char → Bool) (s : Str) (k : Nat) :
    ¬ linkHead k <:+: cleanText letter s := by
  intro h
  obtain ⟨a, b, hs, -⟩ :=
    infix_of_replaceFrom (linkHead_ne_nil k) (blank_notMem_linkHead k) h
  have hinner : linkHead k <:+: replaceFrom httpsPattern [' '] 0 s :=
    ⟨a, b, by rw [List.append_assoc, ← hs]; rfl⟩
  obtain ⟨a, b, -, hno⟩ :=
    infix_of_replaceFrom (linkHead_ne_nil k) (blank_notMem_linkHead k) hinner
  exact not_noMatch_https k b hno

/-- **Every link is removed and none is made.**  No `http`, any number of `s` and a
    colon is left, and replacing links once more changes nothing. -/
theorem cleanText_no_link (letter : Char → Bool) (s : Str) :
    (∀ a k b, cleanText letter s
        ≠ a ++ ("http".toList ++ (List.replicate k 's' ++ ':' :: b))) ∧
      regexReplace (cleanText letter s) httpsPattern [' '] = cleanText letter s := by
  constructor
  · intro a k b h
    refine not_infix_cleanText letter s k ⟨a, b, ?_⟩
    rw [h, linkHead]
    simp
  · refine replaceFrom_eq_self fun t ht m hm => ?_
    obtain ⟨w, y, rfl, -, hw⟩ := matchLen_sound hm
    obtain ⟨k, v, rfl, -⟩ := matches_https.mp hw
    refine not_infix_cleanText letter s k (List.IsInfix.trans ?_ ht.isInfix)
    exact ⟨[], v ++ y, by simp⟩

/-! ## Links read as blanks -/

/-- Whether a link begins here. -/
def startsLink : Str → Bool
  | 'h' :: 't' :: 't' :: 'p' :: t => (t.dropWhile (· = 's')).head? = some ':'
  | _ => false

/-- The text with each link, up to the white space behind it, read as one blank. -/
def blankFrom : Bool → Str → Str
  | _, [] => []
  | inLink, c :: t =>
      if inLink && !isSpace c then blankFrom true t
      else if startsLink (c :: t) then ' ' :: blankFrom true t
      else c :: blankFrom false t

def blankLinks (s : Str) : Str := blankFrom false s

/-- The head of a link, with any number of `s`. -/
theorem startsLink_iff {s : Str} : startsLink s = true ↔ ∃ k b, s = linkHead k ++ b := by
  constructor
  · intro h
    unfold startsLink at h
    split at h
    · rename_i t
      obtain ⟨b, hb⟩ := List.head?_eq_some_iff.mp (of_decide_eq_true h)
      have hrun : t.takeWhile (· = 's') = List.replicate (t.takeWhile (· = 's')).length 's' :=
        eq_replicate_of_matches fun c hc => List.mem_takeWhile_imp (p := (· = 's')) hc
      refine ⟨(t.takeWhile (· = 's')).length, b, ?_⟩
      have ht : t = t.takeWhile (· = 's') ++ ':' :: b := by
        rw [← hb, List.takeWhile_append_dropWhile]
      rw [linkHead, ← hrun]
      simpa using ht
    · cases h
  · rintro ⟨k, b, rfl⟩
    show decide (((List.replicate k 's' ++ [':'] ++ b).dropWhile (· = 's')).head? = some ':') = true
    rw [List.append_assoc, List.dropWhile_append_of_pos (by simp)]
    rfl

/-- What begins a link is not white space. -/
theorem notSpace_linkHead (k : Nat) : ∀ c ∈ linkHead k, (!isSpace c) = true := by
  intro c hc
  rw [linkHead, List.mem_append, List.mem_append] at hc
  rcases hc with hc | hc | hc
  · exact List.all_eq_true.mp (show "http".toList.all (!isSpace ·) = true by decide) c hc
  · rw [(List.mem_replicate.mp hc).2]
    decide
  · rw [List.mem_singleton.mp hc]
    decide

/-- **A link ends at white space.** -/
theorem matchLen_https {s : Str} (h : startsLink s = true) :
    matchLen httpsPattern s = some (s.takeWhile (!isSpace ·)).length := by
  obtain ⟨k, b, rfl⟩ := startsLink_iff.mp h
  have hhead : ∀ c ∈ (b.dropWhile (!isSpace ·)).head?, (!isSpace c) = false := by
    intro c hc
    have hnot := List.head?_dropWhile_not (!isSpace ·) b
    rw [hc] at hnot
    exact hnot
  have hrun : ∀ c ∈ b.takeWhile (!isSpace ·), (!isSpace c) = true :=
    fun c hc => List.mem_takeWhile_imp (p := (!isSpace ·)) hc
  have hmatch := matchLen_literal_run "http" ":" (a := 's') k (by simp) hrun hhead
  rw [List.takeWhile_append_dropWhile] at hmatch
  rw [List.takeWhile_append_of_pos (notSpace_linkHead k), linkHead, List.append_assoc,
    List.append_assoc, httpsPattern]
  refine hmatch.trans ?_
  simp only [List.length_append, List.length_replicate, List.length_singleton]
  rw [Nat.add_assoc, Nat.add_assoc]
  rfl

/-- Where no link starts the pattern has no match. -/
theorem noMatch_https {s : Str} (h : startsLink s = false) : NoMatch httpsPattern s := by
  intro m hm
  obtain ⟨w, y, rfl, -, hw⟩ := matchLen_sound hm
  obtain ⟨k, v, rfl, -⟩ := matches_https.mp hw
  rw [startsLink_iff.mpr ⟨k, v ++ y, by rw [List.append_assoc]⟩] at h
  cases h

theorem notSpace_of_startsLink {c : Char} {t : Str} (h : startsLink (c :: t) = true) :
    (!isSpace c) = true := by
  obtain ⟨k, b, hs⟩ := startsLink_iff.mp h
  rw [(List.cons.inj (hs.trans (show linkHead k ++ b = 'h' :: _ from rfl))).1]
  decide

/-- Inside a link, the text up to white space is dropped. -/
theorem blankFrom_true (s : Str) :
    blankFrom true s = blankFrom false (s.dropWhile (!isSpace ·)) := by
  induction s with
  | nil => rfl
  | cons c s ih =>
      by_cases hc : (!isSpace c) = true
      · rw [List.dropWhile_cons_of_pos (p := (!isSpace ·)) hc, ← ih, blankFrom, Bool.true_and,
          if_pos hc]
      · have hlink : ¬ startsLink (c :: s) = true := fun h => hc (notSpace_of_startsLink h)
        rw [List.dropWhile_cons_of_neg (p := (!isSpace ·)) hc, blankFrom, blankFrom,
          Bool.true_and, Bool.false_and, if_neg hc, if_neg Bool.false_ne_true, if_neg hlink]

theorem drop_length_takeWhile (p : Char → Bool) (t : Str) :
    t.drop (t.takeWhile p).length = t.dropWhile p := by
  have h : (t.takeWhile p ++ t.dropWhile p).drop (t.takeWhile p).length = t.dropWhile p :=
    List.drop_left
  rw [List.takeWhile_append_dropWhile] at h
  exact h

/-- **The first replacement reads each link as one blank.** -/
theorem replace_https_eq_blankLinks (s : Str) :
    regexReplace s httpsPattern [' '] = blankLinks s := by
  have key : ∀ (s : Str) (k : Nat),
      replaceFrom httpsPattern [' '] k s = blankFrom false (s.drop k) := by
    intro s
    induction s with
    | nil => intro k; rw [replaceFrom_skip, List.drop_nil]; rfl
    | cons c t ih =>
        intro k
        cases k with
        | succ k => rw [List.drop_succ_cons, ← ih, replaceFrom]
        | zero =>
            rw [List.drop_zero, blankFrom, Bool.false_and, if_neg Bool.false_ne_true]
            by_cases hlink : startsLink (c :: t) = true
            · have hm := matchLen_https hlink
              rw [List.takeWhile_cons_of_pos (p := (!isSpace ·)) (notSpace_of_startsLink hlink),
                List.length_cons] at hm
              rw [if_pos hlink, replaceFrom_match hm, ih, drop_length_takeWhile, ← blankFrom_true]
              rfl
            · rw [if_neg hlink,
                replaceFrom_noMatch (noMatch_https (Bool.eq_false_of_not_eq_true hlink)), ih,
                List.drop_zero]
  exact key s 0

/-! ## What the second pattern describes -/

/-- The characters of the set: neither a letter nor an opening bracket. -/
def outside (letter : Char → Bool) (c : Char) : Bool := !(c = '[' || letter c)

/-- The marks behind the set, one literal, and its closing brackets. -/
def marks (k : Nat) : Str := ".!?()-:;,".toList ++ List.replicate (k + 1) ']'

theorem marks_eq (k : Nat) : marks k = ".!?()-:;,".toList ++ List.replicate (k + 1) ']' := rfl

/-- A run outside the letters, then the nine marks, then closing brackets. -/
def Stretch (letter : Char → Bool) (w : Str) : Prop :=
  ∃ r k, w = r ++ marks k ∧ r ≠ [] ∧ ∀ c ∈ r, outside letter c

/-- The character between `x` and `y` lies in a stretch. -/
def InStretch (letter : Char → Bool) (x : Str) (c : Char) (y : Str) : Prop :=
  ∃ x₁ x₂ y₁ y₂, x = x₁ ++ x₂ ∧ y = y₁ ++ y₂ ∧ Stretch letter (x₂ ++ c :: y₁)

/-- The part of the pattern behind the set. -/
def marksPattern : List Piece := literal ".!?()-:;," ++ [.one (· = ']'), .many (· = ']')]

theorem wordPattern_eq (letter : Char → Bool) :
    wordPattern letter = .one (outside letter) :: .many (outside letter) :: marksPattern := rfl

/-- The marks match only as they stand, but for the brackets at their end. -/
theorem matches_marks {w : Str} : Matches marksPattern w ↔ ∃ k, w = marks k := by
  rw [marksPattern, matches_literal_append]
  constructor
  · rintro ⟨v, rfl, hv⟩
    obtain ⟨r, e, rfl, hne, hr, rfl⟩ := matches_plus.mp hv
    obtain ⟨k, hk⟩ := Nat.exists_eq_succ_of_ne_zero (mt List.length_eq_zero_iff.mp hne)
    have hrun := eq_replicate_of_matches hr
    rw [hk] at hrun
    exact ⟨k, by rw [marks_eq, List.append_nil, hrun]⟩
  · rintro ⟨k, rfl⟩
    refine ⟨List.replicate (k + 1) ']', rfl, matches_plus.mpr ?_⟩
    exact ⟨List.replicate (k + 1) ']', [], by simp, by simp, by simp, rfl⟩

/-- The pattern of a word matches the stretches. -/
theorem matches_word {letter : Char → Bool} {w : Str} :
    Matches (wordPattern letter) w ↔ Stretch letter w := by
  rw [wordPattern_eq, matches_plus]
  constructor
  · rintro ⟨r, v, rfl, hne, hr, hv⟩
    obtain ⟨k, rfl⟩ := matches_marks.mp hv
    exact ⟨r, k, rfl, hne, hr⟩
  · rintro ⟨r, k, rfl, hne, hr⟩
    exact ⟨r, marks k, rfl, hne, hr, matches_marks.mpr ⟨k, rfl⟩⟩

/-- And covers the characters in one. -/
theorem covered_word {letter : Char → Bool} {x : Str} {c : Char} {y : Str} :
    Covered (wordPattern letter) x c y ↔ InStretch letter x c y := by
  rw [Covered, InStretch]
  simp only [matches_word]

theorem not_matches_word_nil (letter : Char → Bool) : ¬ Matches (wordPattern letter) [] := by
  rw [matches_word]
  rintro ⟨r, k, hw, hne, -⟩
  exact hne (List.append_eq_nil_iff.mp hw.symm).1

/-! ## A stretch swallows the stretches that begin in it -/

theorem length_marks (k : Nat) : (marks k).length = 10 + k := by
  have hlen : ".!?()-:;,".toList.length = 9 := by decide
  rw [marks_eq, List.length_append, List.length_replicate, hlen]
  omega

/-- The brackets behind the marks are all taken. -/
theorem matchLen_marks (k : Nat) (y : Str) :
    ∃ j, matchLen marksPattern (marks k ++ y) = some j ∧ 10 + k ≤ j := by
  obtain ⟨r', t', j, -, hlen, -, hj, hn⟩ := manyLen_longest (p := (· = ']')) (k := matchLen [])
    (r := List.replicate k ']') (t := y) (by simp) rfl
  rw [List.length_replicate] at hlen
  refine ⟨9 + (r'.length + j + 1), ?_, by omega⟩
  have hlen : ".!?()-:;,".toList.length = 9 := by decide
  have hbrackets : matchLen [.one (· = ']'), .many (· = ']')] (']' :: (List.replicate k ']' ++ y))
      = some (r'.length + j + 1) := by
    show (manyLen (· = ']') (matchLen []) (List.replicate k ']' ++ y)).map (· + 1) = _
    rw [hn]
    rfl
  rw [marksPattern, marks_eq, List.append_assoc, matchLen_literal_append, List.replicate_succ,
    List.cons_append, hbrackets, hlen, Option.map_some]

/-- The marks begin with a full stop and have no other. -/
theorem marks_cons (k : Nat) : ∃ t, marks k = '.' :: t ∧ '.' ∉ t :=
  ⟨"!?()-:;,".toList ++ List.replicate (k + 1) ']', rfl, by simp⟩

/-- Marks found behind the beginning of others are found behind their end. -/
theorem marks_no_overlap {a t y : Str} {k j : Nat} (ha : a ≠ []) (h : marks k ++ y = a ++ t)
    (ht : matchLen marksPattern t = some j) : 10 + k ≤ a.length := by
  obtain ⟨w, y', rfl, -, hw⟩ := matchLen_sound ht
  obtain ⟨i, rfl⟩ := matches_marks.mp hw
  obtain ⟨u, hu, -⟩ := marks_cons i
  rw [hu] at h
  rcases append_cons_eq_append h.symm with ⟨b, rfl, -⟩ | ⟨b, hb, -⟩
  · rw [List.length_append, length_marks]
    omega
  · -- a full stop would stand among the marks behind the first
    obtain ⟨v, hv, hdot⟩ := marks_cons k
    obtain ⟨e, a, rfl⟩ := List.exists_cons_of_ne_nil ha
    rw [hv] at hb
    refine absurd ?_ hdot
    rw [(List.cons.inj hb).2]
    simp

section Letters

variable {letter : Char → Bool}

/-- Every character of a stretch is outside the letters. -/
theorem Stretch.outside (hletter : ∀ c ∈ ".!?()-:;,]".toList, letter c = false) {w : Str}
    (h : Stretch letter w) : ∀ c ∈ w, outside letter c := by
  obtain ⟨r, k, rfl, -, hr⟩ := h
  intro c hc
  rcases List.mem_append.mp hc with hc | hc
  · exact hr c hc
  · have hmem : c ∈ ".!?()-:;,]".toList := by
      rw [marks_eq, List.mem_append, List.mem_replicate] at hc
      rcases hc with hc | ⟨-, rfl⟩
      · exact List.mem_append_left ['\x5d'] hc
      · decide
    have hbracket : c ≠ '[' := fun h => absurd (h ▸ hmem) (by decide)
    simp [TgnewsCleanText.outside, hletter c hmem, hbracket]

/-- The match chosen at the head of a stretch does not end before the stretch.  Its run
    is the longest one, so its marks are not before those of the stretch; if they are
    behind them, they are behind all of them. -/
theorem matchLen_word_ge {p y : Str} {k n : Nat} (hne : p ≠ [])
    (hp : ∀ c ∈ p, outside letter c)
    (h : matchLen (wordPattern letter) (p ++ (marks k ++ y)) = some n) :
    p.length + (10 + k) ≤ n := by
  obtain ⟨c, q, rfl⟩ := List.exists_cons_of_ne_nil hne
  obtain ⟨hc, hq⟩ := List.forall_mem_cons.mp hp
  obtain ⟨j₀, hj₀, hle₀⟩ := matchLen_marks k y
  obtain ⟨r', t', j, hsplit, hlong, -, hj, hchosen⟩ :=
    manyLen_longest hq (t := marks k ++ y) (k := matchLen marksPattern) (by rw [hj₀]; rfl)
  have hn : n = r'.length + j + 1 := by
    rw [wordPattern_eq, List.cons_append, matchLen, if_pos hc, matchLen, hchosen] at h
    exact (Option.some.inj h).symm
  obtain ⟨a, rfl, ha⟩ : ∃ a, r' = q ++ a ∧ marks k ++ y = a ++ t' := by
    obtain ⟨a, rfl⟩ := List.prefix_of_prefix_length_le ⟨marks k ++ y, rfl⟩ ⟨t', hsplit.symm⟩ hlong
    rw [List.append_assoc] at hsplit
    exact ⟨a, rfl, List.append_cancel_left hsplit⟩
  rw [List.length_append] at hn
  rw [List.length_cons]
  by_cases hnil : a = []
  · -- the same marks: all brackets behind them are taken
    rw [hnil, List.nil_append] at ha
    rw [← ha, hj₀] at hj
    have hjj := Option.some.inj hj
    omega
  · have hfar := marks_no_overlap hnil ha hj
    omega

/-- **A match that begins inside the chosen one ends inside it.** -/
theorem swallows_word (hletter : ∀ c ∈ ".!?()-:;,]".toList, letter c = false) :
    Swallows (wordPattern letter) := by
  intro s n hn x w y hs hx hw
  obtain ⟨w', y', hs', rfl, hw'⟩ := matchLen_sound hn
  obtain ⟨r, k, rfl, hne, hr⟩ := matches_word.mp hw
  -- `x` is a part of the chosen match, so one run goes from its head to the marks
  have hrun : ∀ c ∈ x ++ r, outside letter c := by
    intro c hc
    rcases List.mem_append.mp hc with hc | hc
    · have hpre : x <+: w' := List.prefix_of_prefix_length_le
        ⟨r ++ marks k ++ y, by rw [hs, List.append_assoc x]⟩ ⟨y', hs'.symm⟩ hx.le
      exact (matches_word.mp hw').outside hletter c (hpre.subset hc)
    · exact hr c hc
  have hsplit : s = (x ++ r) ++ (marks k ++ y) := by
    rw [hs, List.append_assoc, List.append_assoc, List.append_assoc]
  rw [hsplit] at hn
  have hend := matchLen_word_ge (List.append_ne_nil_of_right_ne_nil x hne) hrun hn
  rw [List.length_append, length_marks]
  rw [List.length_append] at hend
  omega

/-! ## The alphabet -/

/-- The characters that were to be kept: word characters, white space, `+` and the marks. -/
def intended (word : Char → Bool) (c : Char) : Bool :=
  word c || isSpace c || "+.!?()-:;,".toList.contains c

/-- **The result stays in the alphabet exactly when every other character is in a link
    or, links read as blanks, in a stretch.** -/
theorem cleanText_intended_iff (hletter : ∀ c ∈ ".!?()-:;,]".toList, letter c = false)
    (word : Char → Bool) (s : Str) :
    (∀ c ∈ cleanText letter s, intended word c) ↔
      ∀ x c y, blankLinks s = x ++ c :: y → ¬ intended word c → InStretch letter x c y := by
  rw [cleanText, replace_https_eq_blankLinks, regexReplace]
  constructor
  · intro h x c y hs hc
    have hkept : c ∈ replaceFrom (wordPattern letter) [' '] 0 (blankLinks s) ∨
        Covered (wordPattern letter) x c y := mem_replaceFrom_or_covered hs
    rcases hkept with hmem | hcov
    · exact absurd (h c hmem) hc
    · exact covered_word.mp hcov
  · intro h c hc
    rcases mem_replaceFrom (not_matches_word_nil letter) (swallows_word hletter) hc
      with rfl | ⟨x, y, hs, hcov⟩
    · simp [intended, isSpace]
    · by_contra hbad
      exact hcov (covered_word.mpr (h x c y hs hbad))

end Letters

/-- Word characters of plain English text. -/
def wordChar (c : Char) : Bool := c.isAlphanum || c = '_'

/-- No mark and no closing bracket is a letter. -/
theorem isAlpha_marks : ∀ c ∈ ".!?()-:;,]".toList, c.isAlpha = false := by
  intro c hc
  have hall : ".!?()-:;,]".toList.all (fun c => !c.isAlpha) = true := by decide
  simpa using List.all_eq_true.mp hall c hc

theorem cleanText_stretch :
    (cleanText Char.isAlpha "50%.!?()-:;,]".toList).all (intended wordChar) = true :=
  List.all_eq_true.mpr <| (cleanText_intended_iff isAlpha_marks wordChar _).mpr fun x c y hs _ =>
    ⟨[], x, y, [], rfl, (List.append_nil y).symm, "50%".toList, 0, by rw [← hs]; decide,
      by decide, fun c hc => List.all_eq_true.mp
        (show "50%".toList.all (outside Char.isAlpha) = true by decide) c hc⟩

/-- A per cent sign is kept. -/
theorem cleanText_percent :
    ¬ ∀ c ∈ cleanText Char.isAlpha "50%".toList, intended wordChar c := by
  intro h
  have hkept : '%' ∈ cleanText Char.isAlpha "50%".toList := by decide
  exact absurd (h '%' hkept) (by decide)

end TgnewsCleanText
