import Tgnews.CxxTextProofs

/-! # HTML documents (`html_parse.hpp`)

    A parsed page is a tree of elements and text; `HTMLDocument` keeps what the
    three `Parse` passes read off it: the `meta` properties, the text of the
    paragraphs and the links.

    Moving a document swaps it with a fresh one, so what is left behind is the
    default document: `HTMLDocument.moveOut`.  A lookup in the `meta` map never
    faults; a missing key reads as the empty string. -/

namespace TgnewsHtml

open CxxContainers CxxText

/-! ## The tree -/

/-- A node of the parsed page. -/
inductive Node where
  | text (data : Str)
  | element (tag : Str) (attrs : List (Str × Str)) (children : List Node)

mutual

/-- The elements with tag `t` in a subtree, in document order, its root included. -/
def Node.withTag (t : Str) : Node → List Node
  | .text _ => []
  | .element tag attrs cs =>
      (if tag = t then [.element tag attrs cs] else []) ++ withTagList t cs

/-- The elements with tag `t` in a list of subtrees. -/
def withTagList (t : Str) : List Node → List Node
  | [] => []
  | n :: ns => n.withTag t ++ withTagList t ns

end

mutual

/-- The text of a subtree, in document order. -/
def Node.textContent : Node → Str
  | .text data => data
  | .element _ _ cs => textContentList cs

/-- The text of a list of subtrees. -/
def textContentList : List Node → Str
  | [] => []
  | n :: ns => n.textContent ++ textContentList ns

end

/-- `lxb_dom_elements_by_tag_name(root, t)`: the descendants of `root` with tag
    `t`, in document order. -/
def elementsByTagName (root : Node) (t : Str) : List Node :=
  match root with
  | .text _ => []
  | .element _ _ cs => withTagList t cs

/-- `GetRawAttribute`: an absent attribute reads as the empty string. -/
def getRawAttribute (node : Node) (name : Str) : Str :=
  match node with
  | .text _ => []
  | .element _ attrs _ => (attrs.lookup name).getD []

/-! ## Documents -/

/-- What the program keeps of a page. -/
structure HTMLDocument where
  metaMap : UMap Str Str
  text : Str
  relatedLinks : List Str
  deriving DecidableEq

/-- `HTMLDocument()`. -/
def HTMLDocument.empty : HTMLDocument where
  metaMap := ∅
  text := []
  relatedLinks := []

/-- `GetMeta`. -/
def HTMLDocument.getMeta (doc : HTMLDocument) (key : Str) : Str :=
  (doc.metaMap.lookup key).getD []

/-- `SetMeta`. -/
def HTMLDocument.setMeta (doc : HTMLDocument) (key value : Str) : HTMLDocument :=
  { doc with metaMap := doc.metaMap.insert key value }

/-- `GetMetaKeys`. -/
def HTMLDocument.getMetaKeys (doc : HTMLDocument) : List Str := doc.metaMap.keys

/-- `Swap`: every field of the two documents changes sides. -/
def swap (first second : HTMLDocument) : HTMLDocument × HTMLDocument :=
  ({ metaMap := second.metaMap, text := second.text, relatedLinks := second.relatedLinks },
   { metaMap := first.metaMap, text := first.text, relatedLinks := first.relatedLinks })

/-- The move constructor: a default document swapped with `other`; the new
    document and what is left of `other`. -/
def HTMLDocument.moveOut (other : HTMLDocument) : HTMLDocument × HTMLDocument :=
  swap HTMLDocument.empty other

/-- `ParseMeta`: a later `meta` element overwrites an earlier one. -/
def parseMeta (root : Node) : UMap Str Str :=
  (elementsByTagName root "meta".toList).foldl (fun m element =>
    let property := getRawAttribute element "property".toList
    if 0 < property.length then
      m.insert property (getRawAttribute element "content".toList)
    else m) ∅

/-- `ParseText`. -/
def parseText (root : Node) : Str :=
  (elementsByTagName root "p".toList).foldl (fun text element =>
    text ++ element.textContent) []

/-- `ParseLinks`: the second query starts from the document again. -/
def parseLinks (root : Node) : List Str :=
  if 0 < (elementsByTagName root "related".toList).length then
    (elementsByTagName root "a".toList).foldl (fun links element =>
      let href := getRawAttribute element "href".toList
      if 0 < href.length then links ++ [href] else links) []
  else []

/-- `HTMLDocument(file_path)` for a file that parses to `root`: the path is set
    last, over whatever the page supplied. -/
def HTMLDocument.ofFile (filePath : Str) (root : Node) : HTMLDocument where
  metaMap := (parseMeta root).insert "path".toList filePath
  text := parseText root
  relatedLinks := parseLinks root

/-! ## Reading and writing meta -/

@[simp] theorem getMeta_empty (key : Str) : HTMLDocument.empty.getMeta key = [] := rfl

theorem getMeta_setMeta (doc : HTMLDocument) (key key' value : Str) :
    (doc.setMeta key value).getMeta key' = if key' = key then value else doc.getMeta key' := by
  rw [HTMLDocument.getMeta, HTMLDocument.setMeta]
  by_cases h : key' = key
  · subst h
    rw [if_pos rfl, AList.lookup_insert]
    rfl
  · rw [if_neg h, AList.lookup_insert_ne h]
    rfl

@[simp] theorem text_setMeta (doc : HTMLDocument) (key value : Str) :
    (doc.setMeta key value).text = doc.text := rfl

/-- The path of a loaded document is the path it was loaded from. -/
@[simp] theorem path_ofFile (filePath : Str) (root : Node) :
    (HTMLDocument.ofFile filePath root).getMeta "path".toList = filePath := by
  rw [HTMLDocument.getMeta, HTMLDocument.ofFile, AList.lookup_insert]
  rfl

end TgnewsHtml
