import Tgnews.CommonProofs
import Tgnews.HtmlProofs

/-! # The debug table (`debug.hpp`)

    `MakeTsv` writes one row per document and one column per meta key that occurs
    in any of them, then the text and the links.  Columns are collected first and
    written row by row, the last row from the ends of the columns.

    `column_addRows` says what a column holds after all documents, in the order of
    the documents; `makeTsv_eq` and `cell_makeTsv` read the written table off it. -/

namespace TgnewsDebug

open CxxContainers CxxText TgnewsCommon TgnewsHtml

/-- The cells written: the header, then the rows. -/
structure Table where
  header : List Str
  rows : List (List Str)

/-- The text of the file. -/
def Table.render (t : Table) : Str :=
  (t.header :: t.rows).flatMap fun cells => List.intercalate ['\t'] cells ++ ['\n']

/-- The cell of row `i` in the first column with name `k`. -/
def Table.cell (t : Table) (i : Nat) (k : Str) : Option Str :=
  t.rows[i]?.bind fun row => row[t.header.idxOf k]?

/-- The two `erase` calls. -/
def cleanCell (s : Str) : Str := (s.filter (· ≠ '\t')).filter (· ≠ '\n')

/-- The links, each followed by a comma, without the last comma. -/
def joinLinks (links : List Str) : Str :=
  let joined := links.foldl (fun acc link => acc ++ (link ++ [','])) []
  if 0 < joined.length then joined.dropLast else joined

/-- The two `SetMeta` calls. -/
def markNews (doc : HTMLDocument) (feature : LeftFeatures) : HTMLDocument :=
  (doc.setMeta "is_news".toList (toStringB feature.isNews)).setMeta "is_news_score".toList
    (toStringF feature.isNewsScore)

/-- The keys emplaced into the set. -/
def metaKeys (documents : List HTMLDocument) : List Str :=
  documents.flatMap HTMLDocument.getMetaKeys ++ ["is_news".toList, "is_news_score".toList]

/-- `result[key].emplace_back(value)`. -/
def appendCell (result : UMap Str (List Str)) (key value : Str) : UMap Str (List Str) :=
  update result key [] (· ++ [value])

/-- The body of the loop over the documents. -/
def addRow (keys : List Str) (documents : List HTMLDocument) (features : List LeftFeatures)
    (result : UMap Str (List Str)) (i : Nat) : Except Fault (UMap Str (List Str)) := do
  let doc ← vectorAt documents i
  let feature ← vectorAt features i
  let doc := markNews doc feature
  let result := appendCell result "related_links".toList (cleanCell (joinLinks doc.relatedLinks))
  let result := appendCell result "text".toList (cleanCell doc.text)
  return keys.foldl (fun result key => appendCell result key (cleanCell (doc.getMeta key))) result

/-- A column; `result[key]` makes an empty one where there is none. -/
def column (result : UMap Str (List Str)) (key : Str) : List Str := (result.lookup key).getD []

/-- `column.back()`. -/
def columnBack (col : List Str) : Except Fault Str :=
  match col.getLast? with
  | some s => .ok s
  | none => .error .pastTheEnd

/-- The second half of `MakeTsv`: the cells streamed to the file. -/
def writeTable (keysVec : List Str) (result : UMap Str (List Str)) (total : Nat) :
    Except Fault Table := do
  let body ← (List.range (total - 1)).mapM fun i =>
    keysVec.mapM fun key => elemAt (column result key) i
  let last ← keysVec.mapM fun key => columnBack (column result key)
  return { header := keysVec, rows := body ++ [last] }

/-- The columns of the table for the keys of a set. -/
def keysVec (keys : List Str) : List Str := keys ++ ["text".toList, "related_links".toList]

/-- `MakeTsv`: what is written to the file. -/
def makeTsv (order : SetOrder Str) (documents : List HTMLDocument)
    (features : List LeftFeatures) : Except Fault Table := do
  let keys := order.run (metaKeys documents)
  let result ← (List.range documents.length).foldlM (addRow keys documents features) ∅
  writeTable (keysVec keys) result documents.length

theorem getMeta_markNews_eq (doc : HTMLDocument) (feature : LeftFeatures) (k : Str) :
    (markNews doc feature).getMeta k
      = if k = "is_news".toList then toStringB feature.isNews
        else if k = "is_news_score".toList then toStringF feature.isNewsScore
        else doc.getMeta k := by
  rw [markNews, getMeta_setMeta, getMeta_setMeta]
  by_cases h1 : k = "is_news".toList
  · rw [if_neg (by rw [h1]; decide), if_pos h1, if_pos h1]
  · rw [if_neg h1, if_neg h1]

/-- The marks are invisible under other keys. -/
theorem getMeta_markNews (doc : HTMLDocument) (feature : LeftFeatures) {k : Str}
    (h1 : k ≠ "is_news".toList) (h2 : k ≠ "is_news_score".toList) :
    (markNews doc feature).getMeta k = doc.getMeta k := by
  rw [getMeta_markNews_eq, if_neg h1, if_neg h2]

/-! ## What the columns hold -/

theorem column_appendCell (result : UMap Str (List Str)) (key value k : Str) :
    column (appendCell result key value) k
      = column result k ++ if k = key then [value] else [] := by
  rw [column, appendCell, lookup_update, column]
  by_cases h : k = key
  · subst h
    rw [if_pos rfl, if_pos rfl]
    rfl
  · rw [if_neg h, if_neg h, List.append_nil]

theorem column_appendCells {keys : List Str} (hkeys : keys.Nodup) (value : Str → Str)
    (result : UMap Str (List Str)) (k : Str) :
    column (keys.foldl (fun result key => appendCell result key (value key)) result) k
      = column result k ++ if k ∈ keys then [value k] else [] := by
  induction keys generalizing result with
  | nil => simp
  | cons key keys ih =>
      obtain ⟨hnew, hrest⟩ := List.nodup_cons.mp hkeys
      rw [List.foldl_cons, ih hrest, column_appendCell]
      by_cases heq : k = key
      · subst heq
        rw [if_pos rfl, if_neg hnew, if_pos List.mem_cons_self, List.append_nil]
      · rw [if_neg heq, List.append_nil]
        simp [heq]

/-- The cells one document adds to a column. -/
def cellsOf (keys : List Str) (k : Str) (p : HTMLDocument × LeftFeatures) : List Str :=
  let doc := markNews p.1 p.2
  (if k = "related_links".toList then [cleanCell (joinLinks doc.relatedLinks)] else [])
    ++ (if k = "text".toList then [cleanCell doc.text] else [])
    ++ (if k ∈ keys then [cleanCell (doc.getMeta k)] else [])

/-- One turn of the loop. -/
theorem addRow_spec {keys : List Str} (hkeys : keys.Nodup) {docs : List HTMLDocument}
    {features : List LeftFeatures} {i : Nat} {doc : HTMLDocument} {feature : LeftFeatures}
    (hdoc : docs[i]? = some doc) (hfeature : features[i]? = some feature)
    (result : UMap Str (List Str)) :
    ∃ result', addRow keys docs features result i = .ok result'
      ∧ ∀ k, column result' k = column result k ++ cellsOf keys k (doc, feature) := by
  rw [addRow, vectorAt_of_getElem? hdoc, vectorAt_of_getElem? hfeature]
  refine ⟨_, rfl, ?_⟩
  intro k
  rw [column_appendCells hkeys, column_appendCell, column_appendCell, cellsOf,
    List.append_assoc, List.append_assoc, List.append_assoc]

/-- **The columns after the loop**: what each document adds, in order. -/
theorem column_addRows {keys : List Str} (hkeys : keys.Nodup) {docs : List HTMLDocument}
    {features : List LeftFeatures} (hlen : features.length = docs.length) :
    ∃ result, (List.range docs.length).foldlM (addRow keys docs features) ∅ = .ok result
      ∧ ∀ k, column result k = (docs.zip features).flatMap (cellsOf keys k) := by
  obtain ⟨result, hrun, hcol⟩ := foldlM_range (n := docs.length)
    (f := addRow keys docs features) (b := ∅)
    (I := fun i result => ∀ k,
      column result k = ((docs.zip features).take i).flatMap (cellsOf keys k))
    (by
      intro i hi result hres
      have hdoc := List.getElem?_eq_getElem hi
      have hfeature := List.getElem?_eq_getElem (l := features) (i := i) (by omega)
      obtain ⟨result', hrun, hcol⟩ := addRow_spec hkeys hdoc hfeature result
      refine ⟨result', hrun, ?_⟩
      intro k
      rw [hcol k, hres k, take_succ_zip hdoc hfeature, List.flatMap_append,
        List.flatMap_singleton])
    (fun _ => rfl)
  refine ⟨result, hrun, ?_⟩
  intro k
  rw [hcol k, List.take_of_length_le (by simp [List.length_zip])]

/-! ## The table -/

/-- The cell of row `i` in a column, when the rows are written: by index, and from
    the end of the column for the last row. -/
def writtenCell (n : Nat) (col : List Str) (i : Nat) : Str :=
  if i + 1 < n then col.getD i [] else col.getLastD []

/-- A row that is read by index. -/
theorem mapM_elemAt_column {header : List Str} {result : UMap Str (List Str)} {n i : Nat}
    (hlen : ∀ k ∈ header, n ≤ (column result k).length) (hi : i < n - 1) :
    header.mapM (fun key => elemAt (column result key) i)
      = .ok (header.map fun k => writtenCell n (column result k) i) := by
  refine mapM_eq_ok ?_
  intro k hk
  have hik : i < (column result k).length := by have := hlen k hk; omega
  rw [elemAt_of_getElem? (List.getElem?_eq_getElem hik), writtenCell, if_pos (by omega),
    List.getD_eq_getElem?_getD, List.getElem?_eq_getElem hik]
  rfl

/-- The last row, read from the ends of the columns. -/
theorem mapM_columnBack {header : List Str} {result : UMap Str (List Str)} {n : Nat}
    (hpos : 0 < n) (hlen : ∀ k ∈ header, n ≤ (column result k).length) :
    header.mapM (fun key => columnBack (column result key))
      = .ok (header.map fun k => writtenCell n (column result k) (n - 1)) := by
  refine mapM_eq_ok ?_
  intro k hk
  have hnek : column result k ≠ [] := by
    intro hnil
    have := hlen k hk
    rw [hnil, List.length_nil] at this
    omega
  rw [columnBack, List.getLast?_eq_some_getLast hnek, writtenCell, if_neg (by omega),
    List.getLastD_eq_getLast?, List.getLast?_eq_some_getLast hnek]
  rfl

/-- Writing columns that are long enough. -/
theorem writeTable_eq {header : List Str} {result : UMap Str (List Str)} {n : Nat}
    (hpos : 0 < n) (hlen : ∀ k ∈ header, n ≤ (column result k).length) :
    writeTable header result n = .ok {
      header := header
      rows := (List.range n).map fun i =>
        header.map fun k => writtenCell n (column result k) i } := by
  have hbody : (List.range (n - 1)).mapM
      (fun i => header.mapM fun key => elemAt (column result key) i)
      = .ok ((List.range (n - 1)).map fun i =>
          header.map fun k => writtenCell n (column result k) i) := by
    refine mapM_eq_ok ?_
    intro i hi
    exact mapM_elemAt_column hlen (List.mem_range.mp hi)
  have hrange : List.range n = List.range (n - 1) ++ [n - 1] := by
    rw [← List.range_succ, show (n - 1).succ = n by omega]
  rw [writeTable, hbody, hrange, List.map_append]
  show (header.mapM (fun key => columnBack (column result key)) >>= fun last => _) = _
  rw [mapM_columnBack hpos hlen]
  rfl

/-- Every column is long enough to write all rows. -/
theorem length_column_le {keys : List Str} {l : List (HTMLDocument × LeftFeatures)} {k : Str}
    (hk : k ∈ keysVec keys) : l.length ≤ (l.flatMap (cellsOf keys k)).length := by
  have hone : ∀ p, 1 ≤ (cellsOf keys k p).length := by
    intro p
    rw [cellsOf]
    rcases List.mem_append.mp hk with hkeys | hrest
    · rw [if_pos hkeys, List.length_append, List.length_singleton]
      omega
    · simp only [List.mem_cons, List.not_mem_nil, or_false] at hrest
      rcases hrest with rfl | rfl
      · rw [if_pos rfl, List.length_append, List.length_append, List.length_singleton]
        omega
      · rw [if_pos rfl, List.length_append, List.length_append, List.length_singleton]
        omega
  induction l with
  | nil => exact Nat.le_refl _
  | cons p l ih =>
      rw [List.flatMap_cons, List.length_append, List.length_cons]
      have := hone p
      omega

/-- **The table of a non-empty list of documents** has one row per document, and
    each cell is read off its column. -/
theorem makeTsv_eq (order : SetOrder Str) {docs : List HTMLDocument}
    {features : List LeftFeatures} (hne : docs ≠ []) (hlen : features.length = docs.length) :
    makeTsv order docs features = .ok {
      header := keysVec (order.run (metaKeys docs))
      rows := (List.range docs.length).map fun i =>
        (keysVec (order.run (metaKeys docs))).map fun k =>
          writtenCell docs.length
            ((docs.zip features).flatMap (cellsOf (order.run (metaKeys docs)) k)) i } := by
  obtain ⟨result, hrun, hcol⟩ := column_addRows (order.nodup_run (metaKeys docs)) hlen
  have hcollen : ∀ k ∈ keysVec (order.run (metaKeys docs)),
      docs.length ≤ (column result k).length := by
    intro k hk
    rw [hcol k, ← length_zip_left hlen]
    exact length_column_le hk
  rw [makeTsv, hrun]
  show writeTable (keysVec (order.run (metaKeys docs))) result docs.length = _
  rw [writeTable_eq (List.length_pos_iff.mpr hne) hcollen]
  simp only [hcol]

/-- A key that is neither `text` nor `related_links` has one cell per document. -/
theorem flatMap_cellsOf {keys : List Str} {k : Str} (hk : k ∈ keys) (ht : k ≠ "text".toList)
    (hl : k ≠ "related_links".toList) (l : List (HTMLDocument × LeftFeatures)) :
    l.flatMap (cellsOf keys k)
      = l.map fun p => cleanCell ((markNews p.1 p.2).getMeta k) := by
  have hone : cellsOf keys k = fun p => [cleanCell ((markNews p.1 p.2).getMeta k)] := by
    funext p
    rw [cellsOf, if_neg hl, if_neg ht, if_pos hk]
    rfl
  rw [hone, List.map_eq_flatMap]

/-- A column with one cell per element is written in order, the last row from its end. -/
theorem writtenCell_map {γ : Type} {n i : Nat} {l : List γ} (hn : l.length = n) (f : γ → Str)
    {p : γ} (hp : l[i]? = some p) : writtenCell n (l.map f) i = f p := by
  obtain ⟨hi, -⟩ := List.getElem?_eq_some_iff.mp hp
  rw [writtenCell]
  by_cases hlt : i + 1 < n
  · rw [if_pos hlt, List.getD_eq_getElem?_getD, List.getElem?_map, hp]
    rfl
  · rw [if_neg hlt, List.getLastD_eq_getLast?, List.getLast?_eq_getElem?, List.length_map,
      show l.length - 1 = i by omega, List.getElem?_map, hp]
    rfl

/-- **A cell of a meta column** is the cleaned meta of the document of its row. -/
theorem cell_makeTsv (order : SetOrder Str) {docs : List HTMLDocument}
    {features : List LeftFeatures} (hlen : features.length = docs.length) {t : Table}
    (hrun : makeTsv order docs features = .ok t) {k : Str} (hk : k ∈ metaKeys docs)
    (ht : k ≠ "text".toList) (hl : k ≠ "related_links".toList) {i : Nat} {doc : HTMLDocument}
    {feature : LeftFeatures} (hdoc : docs[i]? = some doc) (hfeature : features[i]? = some feature) :
    t.cell i k = some (cleanCell ((markNews doc feature).getMeta k)) := by
  obtain ⟨hi, -⟩ := List.getElem?_eq_some_iff.mp hdoc
  have hne : docs ≠ [] := List.ne_nil_of_length_pos (by omega)
  have hkeys : k ∈ order.run (metaKeys docs) := order.mem_run.mpr hk
  have hheader : k ∈ keysVec (order.run (metaKeys docs)) := List.mem_append_left _ hkeys
  obtain rfl := Except.ok.inj ((makeTsv_eq order hne hlen).symm.trans hrun)
  have hpair : (docs.zip features)[i]? = some (doc, feature) :=
    List.getElem?_zip_eq_some.mpr ⟨hdoc, hfeature⟩
  have hwritten : writtenCell docs.length
      ((docs.zip features).flatMap (cellsOf (order.run (metaKeys docs)) k)) i
      = cleanCell ((markNews doc feature).getMeta k) := by
    rw [flatMap_cellsOf hkeys ht hl, writtenCell_map (length_zip_left hlen) _ hpair]
  rw [Table.cell]
  simp only [List.getElem?_map, List.getElem?_range hi, Option.map_some, Option.bind_some]
  rw [List.getElem?_eq_getElem (List.idxOf_lt_length_of_mem hheader), List.getElem_idxOf,
    Option.map_some, hwritten]

end TgnewsDebug
