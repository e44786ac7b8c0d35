import Tgnews.HtmlProofs

/-! # What the passes over a page read (`html_parse.hpp`)

    `ParseLinks` and `ParseText` against what they are for, over every tree:

    * the links of a page are meant to be those inside its `related` elements
      (`relatedHrefs`).  The second query starts from the document again, so a page
      with such an element gives all its links (`parseLinks_eq`), and the two agree
      when no link is astray (`strayLink`);
    * the words of a page are meant to be those of its paragraphs.  The paragraphs are
      joined with nothing between them, so they agree when each ends in white space or
      the next begins with it. -/

namespace TgnewsPage

open CxxContainers CxxText TgnewsHtml

/-! ## Links -/

/-- The `href` of an element, if it is not empty. -/
def hrefOf (element : Node) : List Str :=
  let href := getRawAttribute element "href".toList
  if 0 < href.length then [href] else []

mutual

/-- The links of a subtree that lie inside a `related` element, in document order;
    `inside` says whether the subtree itself does. -/
def hrefs (inside : Bool) : Node → List Str
  | .text _ => []
  | .element tag attrs cs =>
      (if inside && tag = "a".toList then hrefOf (.element tag attrs cs) else [])
        ++ hrefsList (inside || tag = "related".toList) cs

def hrefsList (inside : Bool) : List Node → List Str
  | [] => []
  | n :: ns => hrefs inside n ++ hrefsList inside ns

end

mutual

/-- Whether a subtree has a link outside its `related` elements. -/
def stray : Node → Bool
  | .text _ => false
  | .element tag attrs cs =>
      (tag = "a".toList && hrefOf (.element tag attrs cs) ≠ [])
        || (tag ≠ "related".toList && strayList cs)

def strayList : List Node → Bool
  | [] => false
  | n :: ns => stray n || strayList ns

end

/-- What `ParseLinks` is for: the links inside some `related` element of the page. -/
def relatedHrefs (root : Node) : List Str :=
  match root with
  | .text _ => []
  | .element _ _ cs => hrefsList false cs

/-- Whether the page has a link outside its `related` elements. -/
def strayLink (root : Node) : Bool :=
  match root with
  | .text _ => false
  | .element _ _ cs => strayList cs

mutual

/-- Inside a `related` element every link counts. -/
theorem hrefs_true : ∀ n : Node, hrefs true n = (n.withTag "a".toList).flatMap hrefOf
  | .text _ => rfl
  | .element tag attrs cs => by
      rw [hrefs, Node.withTag, List.flatMap_append, Bool.true_and, Bool.true_or,
        hrefsList_true cs]
      by_cases ha : tag = "a".toList
      · rw [if_pos (decide_eq_true ha), if_pos ha, List.flatMap_singleton]
      · rw [if_neg (by simpa using ha), if_neg ha, List.flatMap_nil]

theorem hrefsList_true : ∀ ns : List Node,
    hrefsList true ns = (withTagList "a".toList ns).flatMap hrefOf
  | [] => rfl
  | n :: ns => by
      rw [hrefsList, withTagList, List.flatMap_append, hrefs_true n, hrefsList_true ns]

end

mutual

/-- Outside, no link counts unless there is a `related` element. -/
theorem hrefs_false : ∀ n : Node, n.withTag "related".toList = [] → hrefs false n = []
  | .text _, _ => rfl
  | .element tag attrs cs, h => by
      rw [Node.withTag, List.append_eq_nil_iff] at h
      have htag : tag ≠ "related".toList := fun heq => by simp [heq] at h
      rw [hrefs, Bool.false_and, if_neg Bool.false_ne_true, Bool.false_or,
        decide_eq_false htag, hrefsList_false cs h.2]
      rfl

theorem hrefsList_false : ∀ ns : List Node,
    withTagList "related".toList ns = [] → hrefsList false ns = []
  | [], _ => rfl
  | n :: ns, h => by
      rw [withTagList, List.append_eq_nil_iff] at h
      rw [hrefsList, hrefs_false n h.1, hrefsList_false ns h.2]
      rfl

end

mutual

/-- The links inside `related` elements are some of all links. -/
theorem hrefs_sublist : ∀ n : Node, (hrefs false n).Sublist (hrefs true n)
  | .text _ => List.Sublist.refl _
  | .element tag attrs cs => by
      rw [hrefs, hrefs, Bool.true_and, Bool.true_or, Bool.false_and, Bool.false_or,
        if_neg Bool.false_ne_true]
      refine List.Sublist.append (List.nil_sublist _) ?_
      cases decide (tag = "related".toList) with
      | true => exact List.Sublist.refl _
      | false => exact hrefsList_sublist cs

theorem hrefsList_sublist : ∀ ns : List Node,
    (hrefsList false ns).Sublist (hrefsList true ns)
  | [] => List.Sublist.refl _
  | n :: ns => by
      rw [hrefsList, hrefsList]
      exact (hrefs_sublist n).append (hrefsList_sublist ns)

end

/-- Two pairs of lists, one part of the other, agree joined only if they agree each. -/
theorem append_eq_append_iff_of_sublist {α : Type} {l₁ l₂ r₁ r₂ : List α}
    (hl : l₁.Sublist l₂) (hr : r₁.Sublist r₂) : l₁ ++ r₁ = l₂ ++ r₂ ↔ l₁ = l₂ ∧ r₁ = r₂ := by
  constructor
  · intro h
    have hlen := congrArg List.length h
    rw [List.length_append, List.length_append] at hlen
    have h1 := hl.length_le
    have h2 := hr.length_le
    exact ⟨hl.eq_of_length (by omega), hr.eq_of_length (by omega)⟩
  · rintro ⟨rfl, rfl⟩
    rfl

mutual

/-- All links are inside `related` elements exactly when none is astray. -/
theorem hrefs_eq_iff : ∀ n : Node, hrefs false n = hrefs true n ↔ stray n = false
  | .text _ => by simp [hrefs, stray]
  | .element tag attrs cs => by
      rw [hrefs, hrefs, stray, Bool.true_and, Bool.true_or, Bool.false_and, Bool.false_or,
        if_neg Bool.false_ne_true, Bool.or_eq_false_iff]
      by_cases hrel : tag = "related".toList
      · have ha : tag ≠ "a".toList := fun h => absurd (hrel.symm.trans h) (by decide)
        rw [decide_eq_true hrel, decide_eq_false ha, decide_eq_false (not_not.mpr hrel)]
        exact ⟨fun _ => ⟨rfl, rfl⟩, fun _ => rfl⟩
      · rw [decide_eq_false hrel, decide_eq_true hrel, Bool.true_and,
          append_eq_append_iff_of_sublist (List.nil_sublist _) (hrefsList_sublist cs),
          hrefsList_eq_iff cs]
        refine and_congr_left' ?_
        by_cases ha : tag = "a".toList
        · rw [decide_eq_true ha, if_pos rfl, Bool.true_and, decide_eq_false_iff_not, not_not,
            eq_comm]
        · rw [decide_eq_false ha, if_neg Bool.false_ne_true, Bool.false_and]
          exact ⟨fun _ => rfl, fun _ => rfl⟩

theorem hrefsList_eq_iff : ∀ ns : List Node,
    hrefsList false ns = hrefsList true ns ↔ strayList ns = false
  | [] => by simp [hrefsList, strayList]
  | n :: ns => by
      rw [hrefsList, hrefsList, strayList, Bool.or_eq_false_iff,
        append_eq_append_iff_of_sublist (hrefs_sublist n) (hrefsList_sublist ns),
        hrefs_eq_iff n, hrefsList_eq_iff ns]

end

/-- `ParseLinks` as it is: a page with a `related` element gives all its links. -/
theorem parseLinks_eq (root : Node) :
    parseLinks root = if elementsByTagName root "related".toList = [] then []
      else (elementsByTagName root "a".toList).flatMap hrefOf := by
  have hfold : ∀ (es : List Node) (links : List Str),
      es.foldl (fun links element =>
        let href := getRawAttribute element "href".toList
        if 0 < href.length then links ++ [href] else links) links
      = links ++ es.flatMap hrefOf := by
    intro es
    induction es with
    | nil => intro links; simp
    | cons e es ih =>
        intro links
        rw [List.foldl_cons, ih, List.flatMap_cons, ← List.append_assoc, hrefOf]
        congr 1
        by_cases h : 0 < (getRawAttribute e "href".toList).length
        · rw [if_pos h, if_pos h]
        · rw [if_neg h, if_neg h, List.append_nil]
  rw [parseLinks, hfold, List.nil_append]
  by_cases h : elementsByTagName root "related".toList = []
  · rw [if_neg (by rw [h]; exact Nat.lt_irrefl 0), if_pos h]
  · rw [if_pos (List.length_pos_iff.mpr h), if_neg h]

/-- Without a `related` element no link is meant. -/
theorem relatedHrefs_nil {root : Node} (h : elementsByTagName root "related".toList = []) :
    relatedHrefs root = [] := by
  cases root with
  | text data => rfl
  | element tag attrs cs => exact hrefsList_false cs h

/-- All links of a page are meant exactly when none is astray. -/
theorem flatMap_hrefOf_eq_iff (root : Node) :
    (elementsByTagName root "a".toList).flatMap hrefOf = relatedHrefs root ↔
      strayLink root = false := by
  cases root with
  | text data => exact ⟨fun _ => rfl, fun _ => rfl⟩
  | element tag attrs cs =>
      show (withTagList "a".toList cs).flatMap hrefOf = hrefsList false cs ↔ _
      rw [← hrefsList_true, eq_comm]
      exact hrefsList_eq_iff cs

/-- **The links are those inside `related` elements exactly when the page has no such
    element or no link outside them.** -/
theorem parseLinks_eq_relatedHrefs_iff (root : Node) :
    parseLinks root = relatedHrefs root ↔
      elementsByTagName root "related".toList = [] ∨ strayLink root = false := by
  rw [parseLinks_eq]
  by_cases hrel : elementsByTagName root "related".toList = []
  · rw [if_pos hrel, relatedHrefs_nil hrel]
    exact ⟨fun _ => Or.inl hrel, fun _ => rfl⟩
  · rw [if_neg hrel, flatMap_hrefOf_eq_iff, or_iff_right hrel]

/-- A page with a link in its text and one in its `related` block. -/
def mixedPage : Node :=
  .element [] [] [
    .element "p".toList [] [.element "a".toList [("href".toList, "/about".toList)] []],
    .element "related".toList [] [.element "a".toList [("href".toList, "/next".toList)] []]]

theorem parseLinks_mixedPage : parseLinks mixedPage ≠ relatedHrefs mixedPage := by
  decide

/-! ## Words -/

/-- The texts of the paragraphs of a page. -/
def paragraphs (root : Node) : List Str :=
  (elementsByTagName root "p".toList).map Node.textContent

theorem parseText_eq (root : Node) : parseText root = (paragraphs root).flatten := by
  rw [parseText, paragraphs, List.foldl_append_eq_append, List.nil_append]

/-- **The words of a page are those of its paragraphs exactly when they meet at white
    space**, each paragraph that has a text with the next one that has one. -/
theorem tokens_parseText_iff (root : Node) :
    tokens (parseText root) = (paragraphs root).flatMap tokens ↔
      ((paragraphs root).filter (· ≠ [])).IsChain Apart := by
  rw [parseText_eq, tokens_flatten_iff]

/-- Two paragraphs, the first ending in a full stop. -/
def twoParagraphs : Node :=
  .element [] [] [
    .element "p".toList [] [.text "at the Station.".toList],
    .element "p".toList [] [.text "It rains".toList]]

/-- The word `Station.It` is of no paragraph. -/
theorem tokens_twoParagraphs :
    tokens (parseText twoParagraphs) ≠ (paragraphs twoParagraphs).flatMap tokens := by
  decide

end TgnewsPage
