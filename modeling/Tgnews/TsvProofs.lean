import Tgnews.DebugProofs

/-! # The debug table read back (`debug.hpp`)

    What a reader gets who splits the file of `MakeTsv` on newlines and tabs, against
    the table it stands for: distinct columns, a row per document, and in each column
    the value of the document (`Faithful`).  Cells are stripped of tabs and newlines
    before they are written, names of columns are not, and the columns of the text and
    of the links are added to those of the meta keys.  The route:

    * the rows come back as they were written, the first line as its pieces
      (`fields_render`);
    * with keys that hold no separator and are not the names of the two added columns
      the table is faithful (`faithful_of_plainKeys`);
    * a newline in a key makes a line too many, a tab a field too many in the header
      alone, and a key with the name of an added column a name that is there twice. -/

namespace TgnewsTsv

open CxxContainers CxxText TgnewsCommon TgnewsHtml TgnewsDebug

/-! ## The table the file stands for -/

/-- The fields of a file, line by line. -/
def fields (file : Str) : List (List Str) := (splitEnded '\n' file).map (·.splitOn '\t')

/-- What column `k` is to hold of a document. -/
def fieldOf (k : Str) (doc : HTMLDocument) (feature : LeftFeatures) : Str :=
  cleanCell <|
    if k = "text".toList then doc.text
    else if k = "related_links".toList then List.intercalate [','] doc.relatedLinks
    else if k = "is_news".toList then toStringB feature.isNews
    else if k = "is_news_score".toList then toStringF feature.isNewsScore
    else doc.getMeta k

/-- A header with distinct columns, and one row per document with a field for each. -/
structure Faithful (docs : List HTMLDocument) (features : List LeftFeatures)
    (header : List Str) (rows : List (List Str)) : Prop where
  columns : ∀ k, k ∈ header ↔ k ∈ metaKeys docs ∨ k = "text".toList ∨ k = "related_links".toList
  distinct : header.Nodup
  cells : rows = (docs.zip features).map fun p => header.map fun k => fieldOf k p.1 p.2

/-- A key that can be the name of a column. -/
structure PlainKey (k : Str) : Prop where
  noTab : '\t' ∉ k
  noNewline : '\n' ∉ k
  notText : k ≠ "text".toList
  notLinks : k ≠ "related_links".toList

/-- Every meta key of every document can. -/
def PlainKeys (docs : List HTMLDocument) : Prop :=
  ∀ doc ∈ docs, ∀ k ∈ doc.getMetaKeys, PlainKey k

/-! ## Cells -/

/-- Text without separators. -/
def Clean (s : Str) : Prop := '\t' ∉ s ∧ '\n' ∉ s

theorem clean_cleanCell (s : Str) : Clean (cleanCell s) := by
  constructor
  · intro h
    have htab := List.mem_of_mem_filter h
    simpa using (List.mem_filter.mp htab).2
  · intro h
    simpa using (List.mem_filter.mp h).2

theorem clean_of_mem_cellsOf {keys : List Str} {k s : Str} {p : HTMLDocument × LeftFeatures}
    (h : s ∈ cellsOf keys k p) : Clean s := by
  have hite : ∀ {P : Prop} [Decidable P] {t : Str}, s ∈ (if P then [cleanCell t] else []) →
      Clean s := by
    intro P _ t hs
    by_cases hP : P
    · rw [if_pos hP, List.mem_singleton] at hs
      rw [hs]
      exact clean_cleanCell t
    · rw [if_neg hP] at hs
      cases hs
  rw [cellsOf, List.mem_append, List.mem_append] at h
  rcases h with (h | h) | h
  · exact hite h
  · exact hite h
  · exact hite h

/-- A written cell is one of its column, or empty. -/
theorem clean_writtenCell {n : Nat} {col : List Str} (hcol : ∀ s ∈ col, Clean s) (i : Nat) :
    Clean (writtenCell n col i) := by
  have hnil : Clean [] := ⟨List.not_mem_nil, List.not_mem_nil⟩
  rw [writtenCell]
  by_cases hi : i + 1 < n
  · rw [if_pos hi, List.getD_eq_getElem?_getD]
    cases h : col[i]? with
    | none => exact hnil
    | some s => exact hcol s (List.mem_of_getElem? h)
  · rw [if_neg hi, List.getLastD_eq_getLast?]
    cases h : col.getLast? with
    | none => exact hnil
    | some s => exact hcol s (List.mem_of_getLast? h)

/-- The links come out joined by commas. -/
theorem joinLinks_eq (links : List Str) : joinLinks links = List.intercalate [','] links := by
  have hjoined : links.foldl (fun acc link => acc ++ (link ++ [','])) []
      = links.flatMap (· ++ [',']) := by
    rw [List.foldl_append_eq_append, List.nil_append, List.flatMap_def]
  rw [joinLinks, hjoined]
  by_cases hne : links = []
  · rw [hne]
    rfl
  · simp only [flatMap_append_sep hne]
    rw [if_pos (by simp), List.dropLast_concat]

/-! ## Lines and fields -/

/-- **The rows come back as they were written**, the first line as its pieces. -/
theorem fields_render {t : Table} (hne : ∀ row ∈ t.rows, row ≠ [])
    (hclean : ∀ row ∈ t.rows, ∀ s ∈ row, Clean s) :
    fields t.render
      = ((List.intercalate ['\t'] t.header).splitOn '\n').map (·.splitOn '\t') ++ t.rows := by
  have hlines : t.render
      = ((t.header :: t.rows).map (List.intercalate ['\t'])).flatMap (· ++ ['\n']) := by
    rw [Table.render, List.flatMap_map]
  have hrow : ∀ row ∈ t.rows,
      (((List.intercalate ['\t'] row).splitOn '\n').map (·.splitOn '\t')) = [row] := by
    intro row hrow
    have hnl : '\n' ∉ List.intercalate ['\t'] row := by
      rw [mem_intercalate (by decide)]
      rintro ⟨s, hs, hmem⟩
      exact (hclean row hrow s hs).2 hmem
    rw [List.splitOn_eq_singleton hnl, List.map_singleton,
      List.splitOn_intercalate '\t' (fun s hs => (hclean row hrow s hs).1) (hne row hrow)]
  rw [fields, hlines, splitEnded_lines, List.map_flatMap, List.map_cons, List.flatMap_cons,
    List.flatMap_map]
  congr 1
  calc t.rows.flatMap (fun row => ((List.intercalate ['\t'] row).splitOn '\n').map
        (·.splitOn '\t'))
      = t.rows.flatMap (fun row => [row]) := List.flatMap_congr hrow
    _ = t.rows := List.flatMap_singleton' t.rows

/-! ## Plain keys -/

instance (k : Str) : Decidable (PlainKey k) :=
  decidable_of_iff ('\t' ∉ k ∧ '\n' ∉ k ∧ k ≠ "text".toList ∧ k ≠ "related_links".toList)
    ⟨fun h => ⟨h.1, h.2.1, h.2.2.1, h.2.2.2⟩,
      fun h => ⟨h.noTab, h.noNewline, h.notText, h.notLinks⟩⟩

/-- The two keys `MakeTsv` adds itself are plain. -/
theorem plainKeys_iff {docs : List HTMLDocument} :
    PlainKeys docs ↔ ∀ k ∈ metaKeys docs, PlainKey k := by
  constructor
  · intro h k hk
    rcases List.mem_append.mp hk with hk | hk
    · obtain ⟨doc, hdoc, hkey⟩ := List.mem_flatMap.mp hk
      exact h doc hdoc k hkey
    · rw [List.mem_cons, List.mem_singleton] at hk
      rcases hk with rfl | rfl <;> decide
  · intro h doc hdoc k hk
    exact h k (List.mem_append_left _ (List.mem_flatMap.mpr ⟨doc, hdoc, hk⟩))

section Table

variable {docs : List HTMLDocument} {features : List LeftFeatures} (order : SetOrder Str)

/-- The names of the columns. -/
def columnNames (docs : List HTMLDocument) : List Str := keysVec (order.run (metaKeys docs))

theorem mem_columnNames {k : Str} : k ∈ columnNames order docs ↔
    k ∈ metaKeys docs ∨ k = "text".toList ∨ k = "related_links".toList := by
  rw [columnNames, keysVec, List.mem_append, order.mem_run, List.mem_cons, List.mem_singleton]

/-- With plain keys no name has a separator. -/
theorem clean_columnNames (hplain : PlainKeys docs) : ∀ k ∈ columnNames order docs, Clean k := by
  intro k hk
  rcases (mem_columnNames order).mp hk with hk | rfl | rfl
  · have hkey := plainKeys_iff.mp hplain k hk
    exact ⟨hkey.noTab, hkey.noNewline⟩
  · exact ⟨by decide, by decide⟩
  · exact ⟨by decide, by decide⟩

/-- The names are distinct unless a key has the name of an added column. -/
theorem nodup_columnNames : (columnNames order docs).Nodup ↔
    "text".toList ∉ metaKeys docs ∧ "related_links".toList ∉ metaKeys docs := by
  have hadded : ["text".toList, "related_links".toList].Nodup := by decide
  rw [columnNames, keysVec, List.nodup_append]
  constructor
  · rintro ⟨-, -, hdisj⟩
    exact ⟨fun h => hdisj _ (order.mem_run.mpr h) _ (by simp) rfl,
      fun h => hdisj _ (order.mem_run.mpr h) _ (by simp) rfl⟩
  · rintro ⟨ht, hl⟩
    refine ⟨order.nodup_run _, hadded, ?_⟩
    intro k hk k' hk' heq
    rw [List.mem_cons, List.mem_singleton] at hk'
    rw [order.mem_run, heq] at hk
    rcases hk' with rfl | rfl
    · exact ht hk
    · exact hl hk

theorem columnNames_ne_nil : columnNames order docs ≠ [] := by
  rw [columnNames, keysVec]
  simp

/-- What is written, with the cells of a column as the columns hold them. -/
theorem exists_makeTsv (hne : docs ≠ []) (hlen : features.length = docs.length) :
    ∃ t, makeTsv order docs features = .ok t ∧
      t.rows = (List.range docs.length).map (fun i => (columnNames order docs).map fun k =>
        writtenCell docs.length
          ((docs.zip features).flatMap (cellsOf (order.run (metaKeys docs)) k)) i) ∧
      fields t.render
        = ((List.intercalate ['\t'] (columnNames order docs)).splitOn '\n').map (·.splitOn '\t')
          ++ t.rows := by
  refine ⟨_, makeTsv_eq order hne hlen, rfl, fields_render ?_ ?_⟩
  · intro row hrow
    obtain ⟨i, -, rfl⟩ := List.mem_map.mp hrow
    exact mt List.map_eq_nil_iff.mp (columnNames_ne_nil order)
  · intro row hrow s hs
    obtain ⟨i, -, rfl⟩ := List.mem_map.mp hrow
    obtain ⟨k, -, rfl⟩ := List.mem_map.mp hs
    refine clean_writtenCell (fun c hc => ?_) i
    obtain ⟨p, -, hp⟩ := List.mem_flatMap.mp hc
    exact clean_of_mem_cellsOf hp

/-- With plain keys a column holds one field per document. -/
theorem column_eq_fieldOf (hplain : PlainKeys docs) {k : Str} (hk : k ∈ columnNames order docs) :
    (docs.zip features).flatMap (cellsOf (order.run (metaKeys docs)) k)
      = (docs.zip features).map fun p => fieldOf k p.1 p.2 := by
  have hmeta := plainKeys_iff.mp hplain
  rcases (mem_columnNames order).mp hk with hk | rfl | rfl
  · have ht := (hmeta k hk).notText
    have hl := (hmeta k hk).notLinks
    rw [flatMap_cellsOf (order.mem_run.mpr hk) ht hl]
    simp only [fieldOf, if_neg ht, if_neg hl, getMeta_markNews_eq]
  · have hnot : "text".toList ∉ order.run (metaKeys docs) :=
      fun h => (hmeta _ (order.mem_run.mp h)).notText rfl
    have hone : ∀ p, cellsOf (order.run (metaKeys docs)) "text".toList p
        = [fieldOf "text".toList p.1 p.2] := by
      intro p
      rw [cellsOf, if_neg (by decide), if_pos rfl, if_neg hnot, fieldOf, if_pos rfl]
      rfl
    rw [funext hone, List.map_eq_flatMap]
  · have hnot : "related_links".toList ∉ order.run (metaKeys docs) :=
      fun h => (hmeta _ (order.mem_run.mp h)).notLinks rfl
    have hone : ∀ p, cellsOf (order.run (metaKeys docs)) "related_links".toList p
        = [fieldOf "related_links".toList p.1 p.2] := by
      intro p
      rw [cellsOf, if_pos rfl, if_neg (by decide), if_neg hnot, fieldOf, if_neg (by decide),
        if_pos rfl, joinLinks_eq]
      rfl
    rw [funext hone, List.map_eq_flatMap]

/-- **With plain keys the table is faithful.** -/
theorem faithful_of_plainKeys (hlen : features.length = docs.length) (hplain : PlainKeys docs) :
    Faithful docs features (columnNames order docs)
      ((List.range docs.length).map fun i => (columnNames order docs).map fun k =>
        writtenCell docs.length
          ((docs.zip features).flatMap (cellsOf (order.run (metaKeys docs)) k)) i) := by
  have hzip := length_zip_left hlen
  have hmeta := plainKeys_iff.mp hplain
  refine ⟨fun k => mem_columnNames order, ?_, ?_⟩
  · exact (nodup_columnNames order).mpr
      ⟨fun h => (hmeta _ h).notText rfl, fun h => (hmeta _ h).notLinks rfl⟩
  · refine List.ext_getElem (by rw [List.length_map, List.length_map, List.length_range, hzip]) ?_
    intro i h1 h2
    rw [List.getElem_map, List.getElem_map, List.getElem_range]
    refine List.map_congr_left fun k hk => ?_
    rw [List.length_map] at h2
    rw [column_eq_fieldOf order hplain hk,
      writtenCell_map hzip _ (List.getElem?_eq_getElem h2)]

/-- **A faithful file has plain keys.** -/
theorem plainKeys_of_faithful (hne : docs ≠ []) (hlen : features.length = docs.length)
    {t : Table} {header : List Str} {rows : List (List Str)}
    (hrun : makeTsv order docs features = .ok t) (hread : fields t.render = header :: rows)
    (hfaithful : Faithful docs features header rows) : PlainKeys docs := by
  obtain ⟨t', hrun', hrows, hfields⟩ := exists_makeTsv order hne hlen
  obtain rfl := Except.ok.inj (hrun'.symm.trans hrun)
  have hzip := length_zip_left hlen
  -- one line before the rows: no name has a newline
  have hrowsLen : rows.length = t'.rows.length := by
    rw [hfaithful.cells, hrows, List.length_map, List.length_map, List.length_range, hzip]
  have hnewline : '\n' ∉ List.intercalate ['\t'] (columnNames order docs) := by
    have hcount := congrArg List.length (hfields.symm.trans hread)
    rw [List.length_append, List.length_map, List.length_cons, hrowsLen] at hcount
    exact length_splitOn_eq_one.mp (by omega)
  rw [List.splitOn_eq_singleton hnewline, List.map_singleton, hread] at hfields
  obtain ⟨rfl, rfl⟩ := List.cons.inj hfields
  -- as many names as cells in the first row: no name has a tab
  have htab : ∀ k ∈ columnNames order docs, '\t' ∉ k := by
    refine splitOn_flatMap_of_length ?_
    rw [← splitOn_intercalate_flatMap '\t' (columnNames_ne_nil order)]
    obtain ⟨p, hp⟩ := List.exists_mem_of_ne_nil (docs.zip features)
      (List.ne_nil_of_length_pos (by rw [hzip]; exact List.length_pos_iff.mpr hne))
    have hrow := List.mem_map_of_mem (f := fun p => List.map (fun k => fieldOf k p.1 p.2)
      ((List.intercalate ['\t'] (columnNames order docs)).splitOn '\t')) hp
    rw [← hfaithful.cells, hrows] at hrow
    obtain ⟨i, -, hi⟩ := List.mem_map.mp hrow
    have hcells := congrArg List.length hi
    rw [List.length_map, List.length_map] at hcells
    exact hcells.symm
  rw [List.splitOn_intercalate '\t' htab (columnNames_ne_nil order)] at hfaithful
  obtain ⟨htext, hlinks⟩ := (nodup_columnNames order).mp hfaithful.distinct
  refine plainKeys_iff.mpr fun k hk => ?_
  have hname : k ∈ columnNames order docs := (mem_columnNames order).mpr (Or.inl hk)
  refine ⟨htab k hname, ?_, ?_, ?_⟩
  · intro hnl
    exact hnewline ((mem_intercalate (by decide)).mpr ⟨k, hname, hnl⟩)
  · rintro rfl
    exact htext hk
  · rintro rfl
    exact hlinks hk

/-- **Plain keys make a faithful file.** -/
theorem exists_faithful (hne : docs ≠ []) (hlen : features.length = docs.length)
    (hplain : PlainKeys docs) :
    ∃ t header rows, makeTsv order docs features = .ok t ∧ fields t.render = header :: rows ∧
      Faithful docs features header rows := by
  obtain ⟨t, hrun, hrows, hfields⟩ := exists_makeTsv order hne hlen
  have hclean := clean_columnNames order hplain
  have hnewline : '\n' ∉ List.intercalate ['\t'] (columnNames order docs) := by
    rw [mem_intercalate (by decide)]
    rintro ⟨k, hk, hmem⟩
    exact (hclean k hk).2 hmem
  rw [List.splitOn_eq_singleton hnewline, List.map_singleton,
    List.splitOn_intercalate '\t' (fun k hk => (hclean k hk).1) (columnNames_ne_nil order),
    hrows] at hfields
  exact ⟨t, columnNames order docs, _, hrun, hfields,
    faithful_of_plainKeys order hlen hplain⟩

/-- **The file is a faithful table exactly when every key is plain.** -/
theorem makeTsv_faithful_iff (hne : docs ≠ []) (hlen : features.length = docs.length) :
    (∃ t header rows, makeTsv order docs features = .ok t ∧ fields t.render = header :: rows ∧
      Faithful docs features header rows) ↔ PlainKeys docs := by
  constructor
  · rintro ⟨t, header, rows, hrun, hread, hfaithful⟩
    exact plainKeys_of_faithful order hne hlen hrun hread hfaithful
  · exact exists_faithful order hne hlen

end Table

instance (docs : List HTMLDocument) : Decidable (PlainKeys docs) :=
  inferInstanceAs (Decidable (∀ doc ∈ docs, ∀ k ∈ doc.getMetaKeys, PlainKey k))

/-- A document with a tab in its title. -/
def tabDoc : HTMLDocument :=
  (HTMLDocument.empty.setMeta "path".toList "in/a.html".toList).setMeta "og:title".toList
    "A\tB".toList

theorem makeTsv_tabDoc :
    ∃ t header rows, makeTsv .stored [tabDoc] [DocFeatures.new.left] = .ok t ∧
      fields t.render = header :: rows ∧ Faithful [tabDoc] [DocFeatures.new.left] header rows :=
  (makeTsv_faithful_iff .stored (List.cons_ne_nil _ _) rfl).mpr (by decide)

/-- A document whose page has a meta property `text`. -/
def textKeyDoc : HTMLDocument := HTMLDocument.empty.setMeta "text".toList "x".toList

theorem makeTsv_textKeyDoc :
    ¬ ∃ t header rows, makeTsv .stored [textKeyDoc] [DocFeatures.new.left] = .ok t ∧
      fields t.render = header :: rows ∧
        Faithful [textKeyDoc] [DocFeatures.new.left] header rows := by
  rintro ⟨t, header, rows, hrun, hread, hfaithful⟩
  have hplain := plainKeys_of_faithful .stored (List.cons_ne_nil _ _) rfl hrun hread hfaithful
  exact absurd hplain (by decide)

end TgnewsTsv
