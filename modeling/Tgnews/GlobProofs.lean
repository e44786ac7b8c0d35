import Tgnews.IoProofs

/-! # Finding the files (`utils.hpp`)

    `GlobHTML` walks a directory tree and keeps the regular files whose path ends in
    `.html`.  `IsHTML` computes where the suffix would start by an unsigned
    subtraction, and a path shorter than the suffix makes it wrap.  The route:

    * `isHTML_eq` — a path of at least five characters is compared with the suffix, a
      shorter one is `out_of_range`;
    * `globHTML_eq` — with such paths only, the walk filtered, and `globHTML_fault` —
      one regular file with a shorter path takes the whole walk down;
    * `nodup_walk` — a directory has no name twice, so no path is met twice. -/

namespace TgnewsGlob

open CxxContainers CxxText TgnewsIo

/-! ## The tree -/

/-- An entry of a directory.  A symbolic link is not followed by the walk, so it is a
    leaf; `regular` is what `is_regular_file` says of it. -/
inductive Entry where
  | leaf (name : Str) (regular : Bool)
  | folder (name : Str) (entries : List Entry)

def Entry.name : Entry → Str
  | .leaf name _ => name
  | .folder name _ => name

/-- A name of a directory entry. -/
structure IsName (name : Str) : Prop where
  ne_nil : name ≠ []
  noSlash : '/' ∉ name

mutual

/-- Every name in the tree is one, and no directory has a name twice. -/
def Entry.Named : Entry → Prop
  | .leaf name _ => IsName name
  | .folder name entries => IsName name ∧ NamedList entries

def NamedList : List Entry → Prop
  | [] => True
  | e :: es => e.Named ∧ (∀ e' ∈ es, e'.name ≠ e.name) ∧ NamedList es

end

/-- The contents of a directory. -/
structure Directory where
  entries : List Entry
  named : NamedList entries

mutual

/-- What `recursive_directory_iterator` yields for an entry: its path, and whether it
    is a regular file; a folder comes before its contents. -/
def Entry.walk (parent : Str) : Entry → List (Str × Bool)
  | .leaf name regular => [(joinPath parent name, regular)]
  | .folder name entries =>
      (joinPath parent name, false) :: walkList (joinPath parent name) entries

/-- The same for the entries of a directory. -/
def walkList (parent : Str) : List Entry → List (Str × Bool)
  | [] => []
  | e :: es => e.walk parent ++ walkList parent es

end

/-! ## The program -/

/-- Subtraction of two `size_t`: below zero it wraps at 64 bits. -/
def sizeSub (a b : Nat) : Nat := if b ≤ a then a - b else a + 2 ^ 64 - b

/-- `s.compare(pos, len, t) == 0`. -/
def compareAt (s : Str) (pos len : Nat) (t : Str) : Except Fault Bool :=
  if pos ≤ s.length then .ok ((s.drop pos).take len = t) else .error .outOfRange

/-- `IsHTML`. -/
def isHTML (fileName : Str) : Except Fault Bool :=
  compareAt fileName (sizeSub fileName.length 5) 5 ".html".toList

/-- The body of the loop of `GlobHTML`. -/
def addFile (htmlFiles : List Str) (entry : Str × Bool) : Except Fault (List Str) :=
  if entry.2 then do
    if ← isHTML entry.1 then return htmlFiles ++ [entry.1] else return htmlFiles
  else return htmlFiles

/-- `GlobHTML`. -/
def globHTML (inputFolder : Str) (dir : Directory) : Except Fault (List Str) :=
  (walkList inputFolder dir.entries).foldlM addFile []

/-! ## The suffix -/

/-- **A path is compared with the suffix**, unless it is shorter. -/
theorem isHTML_eq (s : Str) :
    isHTML s = if 5 ≤ s.length then .ok (".html".toList <:+ s : Bool) else .error .outOfRange := by
  have hlen : ".html".toList.length = 5 := rfl
  rw [isHTML, sizeSub]
  by_cases h : 5 ≤ s.length
  · rw [if_pos h, if_pos h, compareAt, if_pos (Nat.sub_le _ _)]
    have hall : ((s.drop (s.length - 5)).take 5) = s.drop (s.length - 5) :=
      List.take_of_length_le (by rw [List.length_drop]; omega)
    rw [hall]
    congr 1
    refine decide_eq_decide.mpr ?_
    rw [List.suffix_iff_eq_drop, hlen]
    exact eq_comm
  · rw [if_neg h, if_neg h, compareAt, if_neg (by omega)]

/-- **`IsHTML` decides the suffix exactly when the path is long enough.** -/
theorem isHTML_returns_iff (s : Str) :
    (∃ b, isHTML s = .ok b ∧ (b = true ↔ ".html".toList <:+ s)) ↔ 5 ≤ s.length := by
  rw [isHTML_eq]
  by_cases h : 5 ≤ s.length
  · rw [if_pos h]
    exact ⟨fun _ => h, fun _ => ⟨_, rfl, decide_eq_true_iff⟩⟩
  · rw [if_neg h]
    exact ⟨fun ⟨b, hb, _⟩ => (by cases hb), fun h' => absurd h' h⟩

/-! ## The walk -/

/-- A regular file whose path ends in `.html`. -/
def wanted (e : Str × Bool) : Bool := e.2 && decide (".html".toList <:+ e.1)

/-- The wanted files of a directory, in the order of the walk. -/
def htmlFiles (inputFolder : Str) (dir : Directory) : List Str :=
  ((walkList inputFolder dir.entries).filter wanted).map Prod.fst

/-- Every regular file has a path of at least five characters. -/
def LongPaths (inputFolder : Str) (dir : Directory) : Prop :=
  ∀ e ∈ walkList inputFolder dir.entries, e.2 = true → 5 ≤ e.1.length

/-- One turn of the loop, on a path that is long enough. -/
theorem addFile_eq {entry : Str × Bool} (h : entry.2 = true → 5 ≤ entry.1.length)
    (files : List Str) :
    addFile files entry = .ok (files ++ ([entry].filter wanted).map Prod.fst) := by
  obtain ⟨path, regular⟩ := entry
  cases regular with
  | false =>
      have hno : wanted (path, false) = false := rfl
      rw [List.filter_cons_of_neg (by rw [hno]; decide), List.filter_nil, List.map_nil,
        List.append_nil]
      rfl
  | true =>
      have hwanted : wanted (path, true) = decide (".html".toList <:+ path) := rfl
      rw [addFile, if_pos rfl, isHTML_eq, if_pos (h rfl), ← hwanted]
      cases hw : wanted (path, true) with
      | true =>
          rw [List.filter_cons_of_pos hw]
          rfl
      | false =>
          rw [List.filter_cons_of_neg (by rw [hw]; decide), List.filter_nil, List.map_nil,
            List.append_nil]
          rfl

/-- **With long paths the walk is filtered**, each entry in its turn. -/
theorem globHTML_eq {inputFolder : Str} {dir : Directory} (h : LongPaths inputFolder dir) :
    globHTML inputFolder dir = .ok (htmlFiles inputFolder dir) := by
  have hloop : ∀ (l : List (Str × Bool)) (files : List Str),
      (∀ e ∈ l, e.2 = true → 5 ≤ e.1.length) →
        l.foldlM addFile files = .ok (files ++ (l.filter wanted).map Prod.fst) := by
    intro l
    induction l with
    | nil => intro files _; simp; rfl
    | cons e l ih =>
        intro files hl
        rw [List.foldlM_cons, addFile_eq (hl e List.mem_cons_self)]
        refine (ih _ fun e' he' => hl e' (List.mem_cons_of_mem _ he')).trans ?_
        rw [List.append_assoc, ← List.map_append, ← List.filter_append, List.singleton_append]
  rw [globHTML, hloop _ _ h, List.nil_append]
  rfl

/-- **One short path takes the walk down.** -/
theorem globHTML_fault {inputFolder : Str} {dir : Directory} (h : ¬ LongPaths inputFolder dir) :
    ∃ e, globHTML inputFolder dir = .error e := by
  obtain ⟨entry, hmem, hshort⟩ := not_forall₂.mp h
  obtain ⟨hreg, hlt⟩ := Classical.not_imp.mp hshort
  refine foldlM_fault hmem ?_ _
  intro files
  rw [addFile, if_pos hreg, isHTML_eq, if_neg (by omega)]
  exact ⟨_, rfl⟩

/-! ## No path twice -/

mutual

/-- The names of an entry and of what it contains, relative to its directory. -/
def Entry.relative : Entry → List (Str × Bool)
  | .leaf name regular => [(name, regular)]
  | .folder name entries =>
      (name, false) :: (relativeList entries).map fun e => (name ++ '/' :: e.1, e.2)

def relativeList : List Entry → List (Str × Bool)
  | [] => []
  | e :: es => e.relative ++ relativeList es

end

theorem Entry.Named.isName {e : Entry} (h : e.Named) : IsName e.name := by
  cases e with
  | leaf name regular => exact h
  | folder name entries => exact h.1

/-- A path below a folder, by way of one of its entries. -/
theorem joinPath_joinPath {name : Str} (h : IsName name) (parent r : Str) :
    joinPath (joinPath parent name) r = joinPath parent (name ++ '/' :: r) := by
  have hlast : (joinPath parent name).getLast? ≠ some '/' := by
    rw [joinPath, List.getLast?_append_of_ne_nil _ h.ne_nil]
    exact fun hl => h.noSlash (List.mem_of_getLast? hl)
  rw [joinPath, if_neg hlast, joinPath, joinPath, List.append_assoc, List.append_assoc]
  rfl

mutual

/-- The walk goes through the relative names, below the folder. -/
theorem walk_eq : ∀ (e : Entry), e.Named → ∀ parent,
    e.walk parent = e.relative.map fun p => (joinPath parent p.1, p.2)
  | .leaf name regular, _, parent => rfl
  | .folder name entries, h, parent => by
      rw [Entry.walk, Entry.relative, List.map_cons, List.map_map,
        walkList_eq entries h.2 (joinPath parent name)]
      refine congrArg _ (List.map_congr_left fun e _ => ?_)
      rw [Function.comp_apply, joinPath_joinPath h.1]

theorem walkList_eq : ∀ (es : List Entry), NamedList es → ∀ parent,
    walkList parent es = (relativeList es).map fun p => (joinPath parent p.1, p.2)
  | [], _, _ => rfl
  | e :: es, h, parent => by
      rw [walkList, relativeList, List.map_append, walk_eq e h.1 parent,
        walkList_eq es h.2.2 parent]

end

/-- A relative name begins with the name of its entry. -/
theorem takeWhile_of_mem_relative {e : Entry} (h : IsName e.name) {p : Str × Bool}
    (hp : p ∈ e.relative) : p.1.takeWhile (· ≠ '/') = e.name := by
  have hname : ∀ c ∈ e.name, (decide (c ≠ '/')) = true := fun c hc =>
    decide_eq_true fun heq => h.noSlash (heq ▸ hc)
  cases e with
  | leaf name regular =>
      rw [Entry.relative, List.mem_singleton] at hp
      rw [hp]
      exact List.takeWhile_eq_self_iff.mpr hname
  | folder name entries =>
      rw [Entry.relative, List.mem_cons, List.mem_map] at hp
      rcases hp with rfl | ⟨q, -, rfl⟩
      · exact List.takeWhile_eq_self_iff.mpr hname
      · show (name ++ '/' :: q.1).takeWhile (· ≠ '/') = name
        have hcut : (name ++ '/' :: q.1).takeWhile (· ≠ '/')
            = name ++ ('/' :: q.1).takeWhile (· ≠ '/') := List.takeWhile_append_of_pos hname
        rw [hcut, List.takeWhile_cons_of_neg (by simp), List.append_nil]

theorem relativeList_eq (es : List Entry) : relativeList es = es.flatMap Entry.relative := by
  induction es with
  | nil => rfl
  | cons e es ih => rw [relativeList, ih, List.flatMap_cons]

theorem NamedList.named_of_mem {es : List Entry} (h : NamedList es) {e : Entry} (he : e ∈ es) :
    e.Named := by
  induction es with
  | nil => cases he
  | cons e' es ih =>
      rcases List.mem_cons.mp he with rfl | he
      · exact h.1
      · exact ih h.2.2 he

mutual

/-- **No relative name occurs twice.** -/
theorem nodup_relative : ∀ e : Entry, e.Named → (e.relative.map Prod.fst).Nodup
  | .leaf name regular, _ => List.nodup_singleton _
  | .folder name entries, h => by
      rw [Entry.relative, List.map_cons, List.map_map, List.nodup_cons]
      constructor
      · intro hmem
        obtain ⟨p, -, hp⟩ := List.mem_map.mp hmem
        have hlen := congrArg List.length hp
        simp at hlen
      · have hinj : Function.Injective fun r : Str => name ++ '/' :: r := fun r r' heq =>
          (List.cons.inj (List.append_cancel_left heq)).2
        have hrest := (nodup_relativeList entries h.2).map hinj
        rw [List.map_map] at hrest
        exact hrest

theorem nodup_relativeList : ∀ es : List Entry, NamedList es →
    ((relativeList es).map Prod.fst).Nodup
  | [], _ => List.nodup_nil
  | e :: es, h => by
      rw [relativeList, List.map_append, List.nodup_append]
      refine ⟨nodup_relative e h.1, nodup_relativeList es h.2.2, ?_⟩
      intro r hr r' hr' heq
      obtain ⟨p, hp, rfl⟩ := List.mem_map.mp hr
      obtain ⟨p', hp', rfl⟩ := List.mem_map.mp hr'
      rw [relativeList_eq] at hp'
      obtain ⟨e', he', hp'⟩ := List.mem_flatMap.mp hp'
      -- names of different entries differ before the first slash
      refine h.2.1 e' he' ?_
      rw [← takeWhile_of_mem_relative (h.2.2.named_of_mem he').isName hp',
        ← takeWhile_of_mem_relative h.1.isName hp, heq]

end

/-- **No path is met twice.** -/
theorem nodup_walk (inputFolder : Str) (dir : Directory) :
    ((walkList inputFolder dir.entries).map Prod.fst).Nodup := by
  have hinj : Function.Injective (joinPath inputFolder) := fun r r' heq =>
    List.append_cancel_left heq
  have h := (nodup_relativeList dir.entries dir.named).map hinj
  rw [List.map_map] at h
  rw [walkList_eq dir.entries dir.named, List.map_map]
  exact h

/-! ## The files found -/

/-- **The files found lie below the folder**, each under its own relative name. -/
theorem globHTML_relative {inputFolder : Str} {dir : Directory} {files : List Str}
    (h : globHTML inputFolder dir = .ok files) :
    ∃ rs : List Str, files = rs.map (joinPath inputFolder) ∧ rs.Nodup := by
  have hlong : LongPaths inputFolder dir := by
    by_contra hshort
    obtain ⟨e, he⟩ := globHTML_fault hshort
    rw [he] at h
    cases h
  rw [globHTML_eq hlong, htmlFiles, walkList_eq dir.entries dir.named, List.filter_map,
    List.map_map] at h
  refine ⟨((relativeList dir.entries).filter fun p =>
      wanted (joinPath inputFolder p.1, p.2)).map Prod.fst, ?_,
    (nodup_relativeList dir.entries dir.named).sublist (List.filter_sublist.map _)⟩
  rw [List.map_map]
  exact (Except.ok.inj h).symm

/-- **Finding files works exactly when every path is long enough**: `IsHTML` returns and
    decides the suffix on the paths of at least five characters, and `GlobHTML` returns
    the wanted files, each once and in the order of the walk, when all regular files
    have such a path. -/
theorem globHTML_returns_iff (fileName inputFolder : Str) (dir : Directory) :
    ((∃ b, isHTML fileName = .ok b ∧ (b = true ↔ ".html".toList <:+ fileName)) ↔
      5 ≤ fileName.length) ∧
    ((globHTML inputFolder dir = .ok (htmlFiles inputFolder dir) ∧
        (htmlFiles inputFolder dir).Nodup) ↔ LongPaths inputFolder dir) := by
  refine ⟨isHTML_returns_iff fileName, ?_⟩
  constructor
  · rintro ⟨hrun, -⟩
    by_contra hshort
    obtain ⟨e, he⟩ := globHTML_fault hshort
    rw [he] at hrun
    cases hrun
  · intro h
    exact ⟨globHTML_eq h, (nodup_walk inputFolder dir).sublist (List.filter_sublist.map _)⟩

/-- A page beside a file with a name of one letter. -/
def pageAndNote : Directory where
  entries := [.leaf "a.html".toList true, .leaf "b".toList true]
  named := by
    refine ⟨⟨by decide, by decide⟩, ?_, ⟨by decide, by decide⟩, ?_, trivial⟩
    · intro e he
      rw [List.mem_singleton.mp he]
      decide
    · intro e he
      cases he

/-- In the folder `f` the path of the second file has three characters. -/
theorem globHTML_pageAndNote :
    (¬ ∃ b, isHTML "f/b".toList = .ok b) ∧
      ¬ ∃ files, globHTML "f".toList pageAndNote = .ok files := by
  have hhtml : isHTML "f/b".toList = .error .outOfRange := by decide
  have hglob : globHTML "f".toList pageAndNote = .error .outOfRange := by decide
  refine ⟨?_, ?_⟩
  · rintro ⟨b, hb⟩
    rw [hhtml] at hb
    cases hb
  · rintro ⟨files, hfiles⟩
    rw [hglob] at hfiles
    cases hfiles

end TgnewsGlob
