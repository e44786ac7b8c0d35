import Tgnews.LinkedTreeProofs
import Tgnews.LoadProofs
import Tgnews.PageProofs

/-! # The page as the HTML parser leaves it (`node.c`, `element.c`, `html_parse.hpp`)

    The parser links nodes with the operations of `LinkedTree`; `HTMLDocument` reads the
    page off them with walks: `lxb_dom_elements_by_tag_name`, `lxb_dom_node_text_content`
    and a search of the attributes.  `HtmlProofs` works on a tree instead.  The route:

    * `elementsByTagName_eq` and `textContent_eq` — what the walks compute is read off the
      tree in document order, and the buffer of a text is never overrun;
    * `lookup_attrsOf` — the search that ignores case finds what the tree has;
    * `Page.read_eq` — so, whatever operations made the page, the passes over the linked
      nodes read what `HTMLDocument.ofFile` reads off the tree;
    * **`loadDocs_pages`** — and the documents that the tasks start from, where the parser is
      a function to trees, are the ones that are read off the linked nodes. -/

namespace TgnewsDom

open CxxContainers CxxText LinkedTree TgnewsCommon TgnewsHtml TgnewsLoad TgnewsPage

/-! ## Nodes -/

/-- `lxb_dom_attr_t`; a value may be missing. -/
structure Attr where
  name : Str
  value : Option Str

/-- `lxb_dom_qualified_name_t`. -/
structure QualifiedName where
  pre : Str
  localName : Str

/-- `lxb_dom_element_t`: whether it is in the HTML namespace, its tag, and its attributes
    from `first_attr` on. -/
structure Element where
  html : Bool
  tagId : Nat
  qualifiedName : Option QualifiedName
  attrs : List Attr

/-- A node by its type, without its links. -/
inductive NodeData where
  | element (e : Element)
  | text (data : Str)
  | other

/-- `lexbor_str_res_map_lowercase`. -/
def lowercase (c : Char) : Char :=
  if 0x41 ≤ c.toNat ∧ c.toNat ≤ 0x5A then Char.ofNat (c.toNat + 0x20) else c

/-- `lexbor_str_data_find_uppercase`. -/
def findUppercase (s : Str) : Bool := s.any fun c => 0x41 ≤ c.toNat ∧ c.toNat ≤ 0x5A

/-- `lexbor_str_data_ncasecmp` on strings of one length. -/
def ncasecmp (first sec : Str) : Bool := first.map lowercase = sec.map lowercase

/-- The tags of a document: `lxb_tag_id_by_name`, where zero is `LXB_TAG__UNDEF`, and the
    names, which are in lower case. -/
structure Tags where
  idByName : Str → Nat
  nameById : Nat → Str
  named : ∀ name i, i ≠ 0 → findUppercase name = false →
    (idByName name = i ↔ nameById i = name)

/-! ## Reading -/

section Reading

variable {ι : Type} [DecidableEq ι] (tags : Tags) (h : Heap ι) (data : ι → NodeData)

/-- `lxb_dom_element_qualified_name_cmp` for a name without a prefix. -/
def qualifiedNameCmp (e : Element) (tagId : Nat) (lname : Str) : Bool :=
  if e.tagId ≠ tagId then false
  else if e.qualifiedName.any fun q => q.pre.length ≠ 0 then false
  else if e.html then true
  else
    match e.qualifiedName with
    | none => !findUppercase lname
    | some q => q.localName.length = lname.length && q.localName = lname

/-- `lxb_dom_elements_by_tag_name_cb`; the collection has room. -/
def byTagNameWalker (tagId : Nat) (lname : Str) (node : ι) (collection : List ι) :
    Action × List ι :=
  match data node with
  | .element e =>
      if qualifiedNameCmp e tagId lname then (.next, collection ++ [node])
      else (.next, collection)
  | _ => (.next, collection)

/-- `lxb_dom_elements_by_tag_name` for a name without a colon that is not `*`, with a bound
    on the turns of the walk. -/
def elementsByTagName (turns : Nat) (root : ι) (qualifiedName : Str) : Option (List ι) :=
  if tags.idByName qualifiedName = 0 then some []
  else walk h root (byTagNameWalker data (tags.idByName qualifiedName) qualifiedName) turns []

/-- `lxb_dom_element_attr_by_name` in an HTML document. -/
def attrByName (e : Element) (qualifiedName : Str) : Option Attr :=
  e.attrs.find? fun attr =>
    qualifiedName.length = attr.name.length &&
      if e.html then ncasecmp qualifiedName attr.name else qualifiedName = attr.name

/-- `GetRawAttribute`; without an attribute, or a value, the length is zero. -/
def getAttribute (node : ι) (name : Str) : Str :=
  match data node with
  | .element e => ((attrByName e name).bind Attr.value).getD []
  | _ => []

/-- `lxb_dom_node_text_content_size`. -/
def textSizeWalker (node : ι) (length : Nat) : Action × Nat :=
  match data node with
  | .text s => (.next, length + s.length)
  | _ => (.next, length)

/-- Where `lxb_dom_node_text_content` writes: the buffer, the place in it, and whether
    everything written so far was inside. -/
structure Writer where
  buffer : Str
  text : Nat
  inside : Bool

/-- `memcpy` to the place, which moves behind what was written. -/
def Writer.memcpy (w : Writer) (s : Str) : Writer where
  buffer := w.buffer.take w.text ++ s ++ w.buffer.drop (w.text + s.length)
  text := w.text + s.length
  inside := w.inside && w.text + s.length ≤ w.buffer.length

/-- `lxb_dom_node_text_content_concatenate`. -/
def textWalker (node : ι) (w : Writer) : Action × Writer :=
  match data node with
  | .text s => (.next, w.memcpy s)
  | _ => (.next, w)

/-- `lxb_dom_node_text_content` of an element, as the string that is made of it: one walk
    for the length, and one that fills a fresh buffer.  There is no result if a write misses
    the buffer. -/
def textContent (fresh : Nat → Str) (turns : Nat) (node : ι) : Option Str := do
  let length ← walk h node (textSizeWalker data) turns 0
  let w ← walk h node (textWalker data) turns ⟨fresh (length + 1), 0, true⟩
  if w.inside ∧ length ≤ w.text ∧ length < w.buffer.length then
    some ((w.buffer.drop (w.text - length)).take length)
  else none

/-! ### The passes of `HTMLDocument` -/

/-- `ParseMeta`. -/
def readMeta (turns : Nat) (document : ι) : Option (UMap Str Str) := do
  let collection ← elementsByTagName tags h data turns document "meta".toList
  return collection.foldl (fun m element =>
    let property := getAttribute data element "property".toList
    if 0 < property.length then m.insert property (getAttribute data element "content".toList)
    else m) ∅

/-- `ParseText`. -/
def readText (fresh : Nat → Str) (turns : Nat) (document : ι) : Option Str := do
  let collection ← elementsByTagName tags h data turns document "p".toList
  collection.foldlM (fun text element => do
    let s ← textContent h data fresh turns element
    return text ++ s) []

/-- `ParseLinks`. -/
def readLinks (turns : Nat) (document : ι) : Option (List Str) := do
  let collection ← elementsByTagName tags h data turns document "related".toList
  if 0 < collection.length then
    let collectionA ← elementsByTagName tags h data turns document "a".toList
    return collectionA.foldl (fun links element =>
      let href := getAttribute data element "href".toList
      if 0 < href.length then links ++ [href] else links) []
  else return []

/-- `HTMLDocument(file_path)`, once the page is parsed. -/
def readPage (fresh : Nat → Str) (turns : Nat) (filePath : Str) (document : ι) :
    Option HTMLDocument := do
  let metaMap ← readMeta tags h data turns document
  let text ← readText tags h data fresh turns document
  let links ← readLinks tags h data turns document
  return ⟨metaMap.insert "path".toList filePath, text, links⟩

end Reading

/-! ## The tree that the nodes stand for -/

section Trees

variable {ι : Type} (tags : Tags) (data : ι → NodeData)

/-- The name of an element, as a tag. -/
def tagOf (e : Element) : Str :=
  match e.qualifiedName with
  | none => tags.nameById e.tagId
  | some q =>
      if q.pre ≠ [] then q.pre ++ ':' :: q.localName
      else if e.html then tags.nameById e.tagId
      else q.localName

/-- The attributes; in the HTML namespace their case does not count. -/
def attrsOf (e : Element) : List (Str × Str) :=
  e.attrs.map fun a => (if e.html then a.name.map lowercase else a.name, a.value.getD [])

mutual

/-- The subtree as a page has it; comments and the like are left out. -/
def toNodes : NodeTree ι → List Node
  | .node i cs =>
      match data i with
      | .element e => [.element (tagOf tags e) (attrsOf e) (allToNodes cs)]
      | .text s => .text s :: allToNodes cs
      | .other => allToNodes cs

def allToNodes : List (NodeTree ι) → List Node
  | [] => []
  | t :: ts => toNodes t ++ allToNodes ts

end

/-- The document with what is below it. -/
def toDocument (t : NodeTree ι) : Node :=
  .element "#document".toList [] (allToNodes tags data t.children)

/-- A tag is known, and the local name of an element outside HTML is its name, but for the
    case. -/
structure Consistent (e : Element) : Prop where
  known : e.tagId ≠ 0
  local_eq : ∀ q, e.qualifiedName = some q → q.pre = [] →
    q.localName.map lowercase = tags.nameById e.tagId

/-- A name that the program looks for: it has no upper case and no colon. -/
structure Plain (name : Str) : Prop where
  lower : findUppercase name = false
  colon : ':' ∉ name

/-- Without upper case there is nothing to lower. -/
theorem map_lowercase {s : Str} (h : findUppercase s = false) : s.map lowercase = s := by
  induction s with
  | nil => rfl
  | cons c s ih =>
      rw [findUppercase, List.any_cons, Bool.or_eq_false_iff] at h
      rw [List.map_cons, ih h.2, lowercase, if_neg (of_decide_eq_false h.1)]

/-- The name of an element is the name of its tag, if it is plain. -/
theorem nameById_of_tagOf {e : Element} (he : Consistent tags e) {name : Str} (hname : Plain name)
    (h : tagOf tags e = name) : tags.nameById e.tagId = name := by
  rw [tagOf] at h
  split at h
  · exact h
  · rename_i q hq
    split_ifs at h with hpre hhtml
    · refine absurd ?_ hname.colon
      rw [← h]
      exact List.mem_append_right _ List.mem_cons_self
    · exact h
    · rw [← he.local_eq q hq (not_not.mp hpre), h, map_lowercase hname.lower]

/-- **The comparison of names** compares the names that the tree has. -/
theorem qualifiedNameCmp_iff {e : Element} (he : Consistent tags e) {name : Str}
    (hname : Plain name) (hid : tags.idByName name ≠ 0) :
    qualifiedNameCmp e (tags.idByName name) name = true ↔ tagOf tags e = name := by
  have hnamed : tags.nameById (tags.idByName name) = name :=
    (tags.named name _ hid hname.lower).mp rfl
  by_cases htag : e.tagId = tags.idByName name
  · rw [qualifiedNameCmp, if_neg (not_not.mpr htag), tagOf, htag, hnamed]
    cases hq : e.qualifiedName with
    | none =>
        rw [if_neg (by simp)]
        simp [hname.lower]
    | some q =>
        by_cases hpre : q.pre = []
        · rw [if_neg (by simp [hpre])]
          simp only [hpre, ne_eq, not_true_eq_false, if_false]
          split_ifs with hhtml
          · simp
          · rw [Bool.and_eq_true, decide_eq_true_eq, decide_eq_true_eq]
            exact ⟨And.right, fun h => ⟨congrArg List.length h, h⟩⟩
        · rw [if_pos (by simpa using hpre)]
          simp only [hpre, ne_eq, not_false_eq_true, if_true, Bool.false_eq_true, false_iff]
          intro h
          refine hname.colon ?_
          rw [← h]
          exact List.mem_append_right _ List.mem_cons_self
  · rw [qualifiedNameCmp, if_pos htag]
    refine iff_of_false Bool.false_ne_true fun h => htag ?_
    exact ((tags.named name _ he.known hname.lower).mpr
      (nameById_of_tagOf tags he hname h)).symm

/-- **The search of the attributes** finds what the tree has. -/
theorem lookup_attrsOf (e : Element) {name : Str} (hname : Plain name) :
    ((attrByName e name).bind Attr.value).getD [] = ((attrsOf e).lookup name).getD [] := by
  rw [attrByName, attrsOf]
  induction e.attrs with
  | nil => rfl
  | cons a attrs ih =>
      have hiff : (name.length = a.name.length &&
          if e.html then ncasecmp name a.name else name = a.name : Bool)
          = (name == if e.html then a.name.map lowercase else a.name) := by
        rw [Bool.eq_iff_iff, Bool.and_eq_true, decide_eq_true_eq, beq_iff_eq]
        cases e.html with
        | true =>
            rw [if_pos rfl, if_pos rfl, ncasecmp, decide_eq_true_eq, map_lowercase hname.lower]
            refine ⟨And.right, fun h => ⟨?_, h⟩⟩
            rw [h, List.length_map]
        | false =>
            rw [if_neg Bool.false_ne_true, if_neg Bool.false_ne_true, decide_eq_true_eq]
            exact ⟨And.right, fun h => ⟨congrArg List.length h, h⟩⟩
      rw [List.find?_cons, hiff, List.map_cons, List.lookup_cons]
      cases name == if e.html then a.name.map lowercase else a.name with
      | true => rfl
      | false => exact ih

/-! ### The nodes of a tree, in document order -/

/-- The text of a node itself. -/
def textOf (i : ι) : Str :=
  match data i with
  | .text s => s
  | _ => []

/-- The node is an element with that tag. -/
def tagged (name : Str) (i : ι) : Bool :=
  match data i with
  | .element e => tagOf tags e = name
  | _ => false

/-- The subtree of an element, as a node of the page. -/
def toNode (t : NodeTree ι) : Node :=
  match data t.id with
  | .element e => .element (tagOf tags e) (attrsOf e) (allToNodes tags data t.children)
  | _ => .text []

theorem withTagList_append (name : Str) (ns ns' : List Node) :
    withTagList name (ns ++ ns') = withTagList name ns ++ withTagList name ns' := by
  induction ns with
  | nil => rfl
  | cons n ns ih => rw [List.cons_append, withTagList, withTagList, ih, List.append_assoc]

theorem textContentList_append (ns ns' : List Node) :
    textContentList (ns ++ ns') = textContentList ns ++ textContentList ns' := by
  induction ns with
  | nil => rfl
  | cons n ns ih => rw [List.cons_append, textContentList, textContentList, ih, List.append_assoc]

mutual

/-- The elements with a tag are the nodes that are tagged, in the same order. -/
theorem withTagList_toNodes (name : Str) : ∀ t : NodeTree ι,
    withTagList name (toNodes tags data t)
      = (t.subtrees.filter fun s => tagged tags data name s.id).map (toNode tags data)
  | .node i cs => by
      rw [toNodes, NodeTree.subtrees, List.filter_cons, tagged, NodeTree.id]
      cases hdata : data i with
      | element e =>
          have hnode : toNode tags data (.node i cs)
              = .element (tagOf tags e) (attrsOf e) (allToNodes tags data cs) := by
            rw [toNode, NodeTree.id, hdata]
            rfl
          simp only [withTagList, Node.withTag, List.append_nil, withTagList_allToNodes name cs]
          by_cases htag : tagOf tags e = name
          · simp [htag, hnode]
          · simp [htag]
      | text s => exact withTagList_allToNodes name cs
      | other => exact withTagList_allToNodes name cs

/-- The same for the trees of several nodes. -/
theorem withTagList_allToNodes (name : Str) : ∀ ts : List (NodeTree ι),
    withTagList name (allToNodes tags data ts)
      = ((subtreesAll ts).filter fun s => tagged tags data name s.id).map (toNode tags data)
  | [] => rfl
  | t :: ts => by
      rw [allToNodes, withTagList_append, withTagList_toNodes name t,
        withTagList_allToNodes name ts, subtreesAll, List.filter_append, List.map_append]

end

mutual

/-- The text of a tree is that of its nodes, in document order. -/
theorem textContentList_toNodes : ∀ t : NodeTree ι,
    textContentList (toNodes tags data t) = t.preorder.flatMap (textOf data)
  | .node i cs => by
      rw [toNodes, NodeTree.preorder, List.flatMap_cons, textOf]
      cases hdata : data i with
      | element e =>
          simp only [textContentList, Node.textContent, List.append_nil, List.nil_append]
          exact textContentList_allToNodes cs
      | text s =>
          simp only [textContentList, Node.textContent, textContentList_allToNodes cs]
      | other => exact textContentList_allToNodes cs

theorem textContentList_allToNodes : ∀ ts : List (NodeTree ι),
    textContentList (allToNodes tags data ts) = (preorderAll ts).flatMap (textOf data)
  | [] => rfl
  | t :: ts => by
      rw [allToNodes, textContentList_append, textContentList_toNodes t,
        textContentList_allToNodes ts, preorderAll, List.flatMap_append]

end

/-- An attribute of a node of the page. -/
theorem getRawAttribute_toNode (t : NodeTree ι) {name : Str} (hname : Plain name) :
    getRawAttribute (toNode tags data t) name = getAttribute data t.id name := by
  rw [toNode, getAttribute]
  cases data t.id with
  | element e => exact (lookup_attrsOf e hname).symm
  | text s => rfl
  | other => rfl

end Trees

/-! ## The walks read the tree -/

section Walks

variable {ι : Type} (tags : Tags) {h : Heap ι} {kids : Children ι} (data : ι → NodeData)
  (hr : Represents h kids) (hdata : ∀ i e, data i = .element e → Consistent tags e)

/-- What the collecting walker has collected. -/
theorem foldl_filter (p : ι → Bool) (l acc : List ι) :
    l.foldl (fun acc i => if p i then acc ++ [i] else acc) acc = acc ++ l.filter p := by
  induction l generalizing acc with
  | nil => exact (List.append_nil acc).symm
  | cons i l ih =>
      rw [List.foldl_cons, ih, List.filter_cons]
      cases p i <;> simp

section Collection

include hdata

/-- The callback appends exactly the elements with the tag. -/
theorem byTagNameWalker_eq {name : Str} (hname : Plain name) (hid : tags.idByName name ≠ 0)
    (i : ι) (collection : List ι) :
    byTagNameWalker data (tags.idByName name) name i collection
      = (.next, if tagged tags data name i then collection ++ [i] else collection) := by
  rw [byTagNameWalker, tagged]
  cases hi : data i with
  | element e =>
      have hiff := qualifiedNameCmp_iff tags (hdata i e hi) hname hid
      by_cases htag : tagOf tags e = name
      · simp [htag, hiff.mpr htag]
      · simp [htag, mt hiff.mp htag]
  | text s => rfl
  | other => rfl

variable [DecidableEq ι]

include hr

/-- **`lxb_dom_elements_by_tag_name`** collects the elements with the tag, in document
    order. -/
theorem elementsByTagName_eq {t : NodeTree ι} (hof : t.Of kids) (hg : Grounded kids t.id)
    {name : Str} (hname : Plain name) :
    ∀ᶠ turns in Filter.atTop, elementsByTagName tags h data turns t.id name
      = some ((preorderAll t.children).filter (tagged tags data name)) := by
  by_cases hid : tags.idByName name = 0
  · refine Filter.Eventually.of_forall fun turns => ?_
    rw [elementsByTagName, if_pos hid, Option.some.injEq, eq_comm, List.filter_eq_nil_iff]
    intro i _ htag
    rw [tagged] at htag
    split at htag
    · rename_i e he
      have hknown := (hdata i e he).known
      have hnamed := nameById_of_tagOf tags (hdata i e he) hname (of_decide_eq_true htag)
      exact hknown (((tags.named name _ hknown hname.lower).mpr hnamed).symm.trans hid)
    · cases htag
  · refine (walk_eq hr (byTagNameWalker data (tags.idByName name) name) t hof hg []).mono
      fun turns hwalk => ?_
    rw [elementsByTagName, if_neg hid, hwalk,
      visitAll_eq_foldl (byTagNameWalker_eq tags data hdata hname hid), foldl_filter,
      List.nil_append]

end Collection

/-! ### The text of an element -/

/-- The buffer has its size, and `written` stands at its front, up to the place. -/
structure Writer.Holds (w : Writer) (size : Nat) (written : Str) : Prop where
  size : w.buffer.length = size
  text : w.text = written.length
  front : w.buffer.take written.length = written
  inside : w.inside = true

/-- **One `memcpy`** that still fits. -/
theorem Writer.Holds.memcpy {w : Writer} {size : Nat} {written s : Str}
    (hw : w.Holds size written) (hfits : written.length + s.length ≤ size) :
    (w.memcpy s).Holds size (written ++ s) := by
  have hbuffer : (w.memcpy s).buffer
      = (written ++ s) ++ w.buffer.drop (written.length + s.length) := by
    rw [Writer.memcpy, hw.text, hw.front]
  refine ⟨?_, ?_, ?_, ?_⟩
  · rw [hbuffer, List.length_append, List.length_append, List.length_drop, hw.size]
    omega
  · rw [Writer.memcpy, hw.text, List.length_append]
  · rw [hbuffer, List.take_left]
  · rw [Writer.memcpy, hw.inside, hw.text, hw.size, Bool.true_and, decide_eq_true hfits]

/-- The callback writes the text of the node itself. -/
theorem textWalker_holds {w : Writer} {size : Nat} {written : Str} (hw : w.Holds size written)
    {i : ι} (hfits : written.length + (textOf data i).length ≤ size) :
    (textWalker data i w).2.Holds size (written ++ textOf data i) := by
  rw [textWalker]
  rw [textOf] at hfits ⊢
  cases hi : data i with
  | text s =>
      rw [hi] at hfits
      exact hw.memcpy hfits
  | element e =>
      rw [List.append_nil]
      exact hw
  | other =>
      rw [List.append_nil]
      exact hw

/-- **The second walk** writes the texts one behind the other, inside a buffer that has room
    for all of them. -/
theorem foldl_textWalker_holds (l : List ι) {w : Writer} {size : Nat} {written : Str}
    (hw : w.Holds size written) (hfits : (written ++ l.flatMap (textOf data)).length ≤ size) :
    (l.foldl (fun w i => (textWalker data i w).2) w).Holds size
      (written ++ l.flatMap (textOf data)) := by
  induction l generalizing w written with
  | nil =>
      rw [List.flatMap_nil, List.append_nil]
      exact hw
  | cons i l ih =>
      rw [List.flatMap_cons, ← List.append_assoc] at hfits ⊢
      refine ih (textWalker_holds data hw ?_) hfits
      rw [List.length_append, List.length_append] at hfits
      omega

/-- The length that the first walk adds up. -/
theorem foldl_textSize (l : List ι) (n : Nat) :
    l.foldl (fun n i => n + (textOf data i).length) n
      = n + (l.flatMap (textOf data)).length := by
  induction l generalizing n with
  | nil => rfl
  | cons i l ih =>
      rw [List.foldl_cons, ih, List.flatMap_cons, List.length_append, Nat.add_assoc]

section Text

variable [DecidableEq ι]

include hr

/-- **`lxb_dom_node_text_content`** is the text of the tree, and it stays inside the buffer
    it took, whatever stood there. -/
theorem textContent_eq {t : NodeTree ι} (hof : t.Of kids) (hg : Grounded kids t.id)
    {fresh : Nat → Str} (hfresh : ∀ n, (fresh n).length = n) :
    ∀ᶠ turns in Filter.atTop, textContent h data fresh turns t.id
      = some (textContentList (allToNodes tags data t.children)) := by
  have hsize : ∀ i n, textSizeWalker data i n = (.next, n + (textOf data i).length) := by
    intro i n
    rw [textSizeWalker, textOf]
    cases data i <;> rfl
  have hnext : ∀ i w, textWalker data i w = (.next, (textWalker data i w).2) := by
    intro i w
    rw [textWalker]
    cases data i <;> rfl
  have hwritten := textContentList_allToNodes tags data t.children
  generalize textContentList (allToNodes tags data t.children) = written at hwritten ⊢
  have hlength := walk_eq hr (textSizeWalker data) t hof hg 0
  rw [visitAll_eq_foldl hsize, foldl_textSize, Nat.zero_add, ← hwritten] at hlength
  have hfill := walk_eq hr (textWalker data) t hof hg ⟨fresh (written.length + 1), 0, true⟩
  rw [visitAll_eq_foldl hnext] at hfill
  have hempty : Writer.Holds ⟨fresh (written.length + 1), 0, true⟩ (written.length + 1) [] :=
    ⟨hfresh _, rfl, rfl, rfl⟩
  have hholds := foldl_textWalker_holds data (preorderAll t.children) hempty
    (by rw [List.nil_append, ← hwritten]; exact Nat.le_succ _)
  rw [List.nil_append, ← hwritten] at hholds
  filter_upwards [hlength, hfill] with turns hlength hfill
  simp only [textContent, hlength, hfill, Option.bind_eq_bind, Option.bind_some]
  rw [if_pos ⟨hholds.inside, hholds.text.ge, by rw [hholds.size]; exact Nat.lt_succ_self _⟩,
    hholds.text, Nat.sub_self, List.drop_zero, hholds.front]

end Text

end Walks

/-! ## The passes read the tree -/

section Passes

variable {ι : Type} (tags : Tags) {h : Heap ι} {kids : Children ι} (data : ι → NodeData)

/-- The subtrees below the document whose root has the tag. -/
def found (t : NodeTree ι) (name : Str) : List (NodeTree ι) :=
  (subtreesAll t.children).filter fun s => tagged tags data name s.id

/-- The elements that are found, as nodes. -/
theorem map_id_found (t : NodeTree ι) (name : Str) :
    (found tags data t name).map NodeTree.id
      = (preorderAll t.children).filter (tagged tags data name) := by
  rw [← map_id_subtreesAll, List.filter_map]
  rfl

/-- And as parts of the page. -/
theorem map_toNode_found (t : NodeTree ι) (name : Str) :
    (found tags data t name).map (toNode tags data)
      = TgnewsHtml.elementsByTagName (toDocument tags data t) name :=
  (withTagList_allToNodes tags data name t.children).symm

/-- The text of an element that is found is that of what is below it. -/
theorem textContent_toNode {t s : NodeTree ι} {name : Str} (hs : s ∈ found tags data t name) :
    (toNode tags data s).textContent = textContentList (allToNodes tags data s.children) := by
  have htag := (List.mem_filter.mp hs).2
  rw [toNode]
  rw [tagged] at htag
  cases hi : data s.id with
  | element e => rfl
  | text d =>
      rw [hi] at htag
      cases htag
  | other =>
      rw [hi] at htag
      cases htag

/-- A loop over a collection that appends what each element gives. -/
theorem foldlM_append {α : Type} (f : ι → Option Str) (i : α → ι) (g : α → Str) (l : List α)
    (hf : ∀ a ∈ l, f (i a) = some (g a)) (text : Str) :
    (l.map i).foldlM (fun text e => (f e).bind fun s => some (text ++ s)) text
      = some (l.foldl (fun text a => text ++ g a) text) := by
  induction l generalizing text with
  | nil => rfl
  | cons a l ih =>
      rw [List.map_cons, List.foldlM_cons, hf a List.mem_cons_self]
      exact ih (fun b hb => hf b (List.mem_cons_of_mem _ hb)) (text ++ g a)

variable [DecidableEq ι] (hr : Represents h kids) (hg : ∀ i, Grounded kids i)
  (hdata : ∀ i e, data i = .element e → Consistent tags e)

include hr hg hdata

/-- `ParseMeta` reads the tree. -/
theorem readMeta_eq {t : NodeTree ι} (hof : t.Of kids) :
    ∀ᶠ turns in Filter.atTop, readMeta tags h data turns t.id
      = some (parseMeta (toDocument tags data t)) := by
  have hmeta : Plain "meta".toList := ⟨by decide, by decide⟩
  have hproperty : Plain "property".toList := ⟨by decide, by decide⟩
  have hcontent : Plain "content".toList := ⟨by decide, by decide⟩
  filter_upwards [elementsByTagName_eq tags data hr hdata hof (hg _) hmeta] with turns hturns
  rw [readMeta, hturns, parseMeta, ← map_toNode_found, ← map_id_found]
  simp only [Option.bind_eq_bind, Option.bind_some, List.foldl_map,
    getRawAttribute_toNode tags data _ hproperty, getRawAttribute_toNode tags data _ hcontent]
  rfl

/-- `ParseLinks` reads the tree. -/
theorem readLinks_eq {t : NodeTree ι} (hof : t.Of kids) :
    ∀ᶠ turns in Filter.atTop, readLinks tags h data turns t.id
      = some (parseLinks (toDocument tags data t)) := by
  have hrelated : Plain "related".toList := ⟨by decide, by decide⟩
  have ha : Plain "a".toList := ⟨by decide, by decide⟩
  have hhref : Plain "href".toList := ⟨by decide, by decide⟩
  filter_upwards [elementsByTagName_eq tags data hr hdata hof (hg _) hrelated,
    elementsByTagName_eq tags data hr hdata hof (hg _) ha] with turns hturns hturns'
  rw [readLinks, hturns, parseLinks, ← map_toNode_found, ← map_toNode_found, ← map_id_found]
  simp only [Option.bind_eq_bind, Option.bind_some, hturns', ← map_id_found, List.foldl_map,
    List.length_map, getRawAttribute_toNode tags data _ hhref]
  split_ifs <;> rfl

/-- `ParseText` reads the tree; `hfresh` is the size of the buffer that is had. -/
theorem readText_eq {t : NodeTree ι} (hof : t.Of kids) {fresh : Nat → Str}
    (hfresh : ∀ n, (fresh n).length = n) :
    ∀ᶠ turns in Filter.atTop, readText tags h data fresh turns t.id
      = some (parseText (toDocument tags data t)) := by
  have hall : ∀ᶠ turns in Filter.atTop, ∀ s ∈ found tags data t "p".toList,
      textContent h data fresh turns s.id
        = some (textContentList (allToNodes tags data s.children)) := by
    refine (Filter.eventually_all_finite (List.finite_toSet _)).mpr fun s hs => ?_
    have hsub := of_mem_subtreesAll t.children hof.children (List.mem_filter.mp hs).1
    exact textContent_eq tags data hr hsub (hg _) hfresh
  have hp : Plain "p".toList := ⟨by decide, by decide⟩
  filter_upwards [elementsByTagName_eq tags data hr hdata hof (hg _) hp, hall]
    with turns hturns hall
  rw [readText, hturns, parseText, ← map_toNode_found, ← map_id_found, List.foldl_map]
  refine (foldlM_append _ NodeTree.id _ _ hall []).trans (congrArg some ?_)
  refine List.foldl_ext _ _ _ fun text s hs => ?_
  rw [textContent_toNode tags data hs]

/-- **The passes** read what the tree has. -/
theorem readPage_of_represents {t : NodeTree ι} (hof : t.Of kids) {fresh : Nat → Str}
    (hfresh : ∀ n, (fresh n).length = n) (filePath : Str) :
    ∀ᶠ turns in Filter.atTop, readPage tags h data fresh turns filePath t.id
      = some (HTMLDocument.ofFile filePath (toDocument tags data t)) := by
  filter_upwards [readMeta_eq tags data hr hg hdata hof,
    readText_eq tags data hr hg hdata hof hfresh,
    readLinks_eq tags data hr hg hdata hof] with turns hmeta htext hlinks
  rw [readPage, hmeta, htext, hlinks]
  rfl

end Passes

/-! ## Pages made by any operations -/

section Runs

variable {ι : Type} [DecidableEq ι]

/-- The nodes after a sequence of `lxb_dom_node_insert_child`, `_insert_before`,
    `_insert_after` and `_remove`; at first no node has a link. -/
def nodesAfter (ops : List (Op ι)) : Heap ι :=
  ops.foldl (fun h op => op.run h) fun _ => Links.none

/-- The children after these operations. -/
def childrenAfter (ops : List (Op ι)) : Children ι := ops.foldl Op.apply fun _ => []

/-- **`lxb_dom_node_simple_walk`** in every run: the links agree with the children, every
    node has a finite tree below it, and the walk calls its walker on the nodes of that tree,
    each once and in document order, until it is told to stop. -/
theorem simpleWalk_every_run {ops : List (Op ι)} (hops : AllAllowed (fun _ => []) ops)
    (root : ι) :
    Represents (nodesAfter ops) (childrenAfter ops) ∧
      ∃ t : NodeTree ι, t.id = root ∧ t.Of (childrenAfter ops) ∧ t.preorder.Nodup ∧
        ∀ {σ : Type} (walker : ι → σ → Action × σ) (ctx : σ), ∀ᶠ turns in Filter.atTop,
          walk (nodesAfter ops) root walker turns ctx
            = some (visitAll walker (preorderAll t.children) ctx).2 := by
  obtain ⟨hr, hg⟩ := run_represents represents_none grounded_none hops
  obtain ⟨t, rfl, hof⟩ := (hg root).exists_tree
  exact ⟨hr, t, rfl, hof, nodup_preorder hr t hof (hg t.id),
    fun walker ctx => walk_eq hr walker t hof (hg t.id) ctx⟩

end Runs

/-! ## The pages that are loaded -/

/-- A page as the parser leaves it: what its nodes are, and the operations that have linked
    them, each allowed where it was made. -/
structure Page (ι : Type) [DecidableEq ι] where
  tags : Tags
  data : ι → NodeData
  ops : List (Op ι)
  document : ι
  consistent : ∀ i e, data i = .element e → Consistent tags e
  allowed : AllAllowed (fun _ => []) ops

namespace Page

variable {ι : Type} [DecidableEq ι] (p : Page ι)

/-- `HTMLDocument(file_path)` on the linked nodes. -/
def read (fresh : Nat → Str) (turns : Nat) (filePath : Str) : Option HTMLDocument :=
  readPage p.tags (nodesAfter p.ops) p.data fresh turns filePath p.document

/-- `ParseLinks` on them. -/
def links (turns : Nat) : Option (List Str) :=
  readLinks p.tags (nodesAfter p.ops) p.data turns p.document

theorem exists_tree : ∃ t : NodeTree ι, t.id = p.document ∧ t.Of (childrenAfter p.ops) := by
  obtain ⟨-, hg⟩ := run_represents represents_none grounded_none p.allowed
  exact (hg p.document).exists_tree

/-- The page as a tree. -/
noncomputable def root : Node := toDocument p.tags p.data p.exists_tree.choose

/-- It is the tree that the operations have built below the document. -/
theorem root_eq : ∃ t : NodeTree ι, t.id = p.document ∧ t.Of (childrenAfter p.ops)
    ∧ p.root = toDocument p.tags p.data t :=
  ⟨p.exists_tree.choose, p.exists_tree.choose_spec.1, p.exists_tree.choose_spec.2, rfl⟩

/-- **`HTMLDocument`** reads the tree off the linked nodes. -/
theorem read_eq {fresh : Nat → Str} (hfresh : ∀ n, (fresh n).length = n) (filePath : Str) :
    ∀ᶠ turns in Filter.atTop, p.read fresh turns filePath = some (.ofFile filePath p.root) := by
  obtain ⟨hr, hg⟩ := run_represents represents_none grounded_none p.allowed
  obtain ⟨t, hid, hof, hroot⟩ := p.root_eq
  rw [hroot]
  simp only [read, ← hid]
  exact readPage_of_represents p.tags p.data hr hg p.consistent hof hfresh filePath

/-- `ParseLinks` reads it too. -/
theorem links_eq : ∀ᶠ turns in Filter.atTop, p.links turns = some (parseLinks p.root) := by
  obtain ⟨hr, hg⟩ := run_represents represents_none grounded_none p.allowed
  obtain ⟨t, hid, hof, hroot⟩ := p.root_eq
  rw [hroot]
  simp only [links, ← hid]
  exact readLinks_eq p.tags p.data hr hg p.consistent hof

/-- **The links read off the linked nodes** are those inside `related` elements exactly when
    the page has no such element or no link outside them. -/
theorem links_related_iff :
    (∀ᶠ turns in Filter.atTop, p.links turns = some (relatedHrefs p.root)) ↔
      TgnewsHtml.elementsByTagName p.root "related".toList = [] ∨ strayLink p.root = false := by
  have hlinks : (∀ᶠ turns in Filter.atTop, p.links turns = some (relatedHrefs p.root)) ↔
      parseLinks p.root = relatedHrefs p.root := by
    constructor
    · intro h
      obtain ⟨turns, h1, h2⟩ := (p.links_eq.and h).exists
      exact Option.some.inj (h1.symm.trans h2)
    · intro h
      filter_upwards [p.links_eq] with turns hturns
      rw [hturns, h]
  rw [hlinks, parseLinks_eq]
  by_cases hrel : TgnewsHtml.elementsByTagName p.root "related".toList = []
  · rw [if_pos hrel, relatedHrefs_nil hrel]
    exact ⟨fun _ => Or.inl hrel, fun _ => rfl⟩
  · rw [if_neg hrel, flatMap_hrefOf_eq_iff, or_iff_right hrel]

end Page

/-- **The loaded documents**: with a parser that leaves a page of linked nodes for every
    content, loading files that open gives the documents that are read off these nodes. -/
theorem loadDocs_pages {ι : Type} [DecidableEq ι] (pages : Str → Page ι) (disk : Str → File)
    {files : List Str} (hopens : ∀ path ∈ files, (disk path).opens = true) {fresh : Nat → Str}
    (hfresh : ∀ n, (fresh n).length = n) :
    ∃ docs, files.mapM (openDocument (fun content => (pages content).root) disk) = .ok docs ∧
      ∀ᶠ turns in Filter.atTop,
        files.mapM (fun path => (pages (disk path).content).read fresh turns path)
          = some docs := by
  have hread : ∀ᶠ turns in Filter.atTop, ∀ path ∈ files,
      (pages (disk path).content).read fresh turns path
        = some (.ofFile path (pages (disk path).content).root) :=
    (Filter.eventually_all_finite (List.finite_toSet files)).mpr fun path _ =>
      (pages (disk path).content).read_eq hfresh path
  refine ⟨files.map fun path => .ofFile path (pages (disk path).content).root, ?_, ?_⟩
  · exact mapM_eq_ok fun path hpath => openDocument_eq _ (hopens path hpath)
  · filter_upwards [hread] with turns hturns
    exact mapM_eq_pure hturns

/-! ### A page -/

/-- A paragraph that is put before a `meta`, and a text that moves into it. -/
def sampleOps : List (Op Nat) :=
  [.insertChild 0 1, .insertBefore 1 2, .insertAfter 1 3, .remove 3, .insertChild 2 3]

def sampleTags : Tags where
  idByName name := if name = "p".toList then 1 else if name = "meta".toList then 2 else 0
  nameById i :=
    if i = 1 then "p".toList else if i = 2 then "meta".toList else "UNDEF".toList
  named name i hi hname := by
    have hundef : "UNDEF".toList ≠ name := by
      rintro rfl
      exact absurd hname (by decide)
    split_ifs <;> grind

def sampleData : Nat → NodeData
  | 1 => .element ⟨true, 2, none,
      [⟨"property".toList, some "og:title".toList⟩, ⟨"content".toList, some "A".toList⟩]⟩
  | 2 => .element ⟨true, 1, none, []⟩
  | 3 => .text "Text".toList
  | _ => .other

theorem sampleOps_allowed : AllAllowed (fun _ => []) sampleOps := by
  have hleaf : ∀ {kids : Children Nat} {i j : Nat}, kids i = [] → i ≠ j → ¬ Below kids i j :=
    not_below_of_nil
  refine ⟨⟨by simp, hleaf rfl (by decide)⟩, ⟨?_, 0, ?_, hleaf ?_ (by decide)⟩,
    ⟨?_, 0, ?_, hleaf ?_ (by decide)⟩, trivial, ⟨?_, hleaf ?_ (by decide)⟩, trivial⟩
  all_goals simp [Op.apply, Function.update_apply]

theorem sampleData_consistent (i : Nat) (e : Element) (h : sampleData i = .element e) :
    Consistent sampleTags e := by
  unfold sampleData at h
  split at h
  · obtain rfl := NodeData.element.inj h
    exact ⟨by decide, by simp⟩
  · obtain rfl := NodeData.element.inj h
    exact ⟨by decide, by simp⟩
  · cases h
  · cases h

theorem simpleWalk_every_run_sample : ∃ t : NodeTree Nat, t.id = 0 ∧
    t.Of (childrenAfter sampleOps) ∧ t.preorder.Nodup ∧
    ∀ᶠ turns in Filter.atTop,
      walk (nodesAfter sampleOps) 0 (fun i l => (.next, l ++ [i])) turns []
        = some (visitAll (fun i l => (Action.next, l ++ [i])) (preorderAll t.children) []).2 := by
  obtain ⟨-, t, hid, hof, hnodup, hwalk⟩ := simpleWalk_every_run sampleOps_allowed 0
  exact ⟨t, hid, hof, hnodup, hwalk (fun i l => (.next, l ++ [i])) []⟩

/-- The nodes as a page. -/
def samplePage : Page Nat where
  tags := sampleTags
  data := sampleData
  ops := sampleOps
  document := 0
  consistent := sampleData_consistent
  allowed := sampleOps_allowed

theorem loadDocs_pages_sample : ∃ docs,
    ["1.html".toList].mapM (openDocument (fun _ => samplePage.root)
      fun _ => ⟨[], true, by decide⟩) = .ok docs ∧
      ∀ᶠ turns in Filter.atTop,
        ["1.html".toList].mapM (fun path => samplePage.read (List.replicate · 'x') turns path)
          = some docs :=
  loadDocs_pages (fun _ => samplePage) (fun _ => ⟨[], true, by decide⟩) (fun _ _ => rfl)
    (fun _ => List.length_replicate)

end TgnewsDom
