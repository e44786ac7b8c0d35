import Tgnews.StagesProofs

/-! # Files that cannot be opened (`html_parse.hpp`, `io.hpp`)

    `ReadDocument` asks the file buffer for the size of the file and allocates as many
    bytes.  A buffer that is not open answers -1, which as a `size_t` is the largest of
    all, and the allocation throws in a worker thread.  The route:

    * `htmlSize_le_iff` — the length asked for is within the file exactly when the file
      is open, and `openDocument_eq`, `openDocument_fault` — so a document is loaded or
      the constructor throws;
    * `stage_open` — whatever the schedule, `LoadDocs` ends as the left-to-right map does;
    * `survives_iff` — one file that cannot be opened takes the process down. -/

namespace TgnewsLoad

open CxxContainers CxxText WorkerPool TgnewsCommon TgnewsHtml TgnewsTasks TgnewsStages

variable {σ α ε M R S : Type}

/-! ## Files -/

/-- An existing regular file, and whether it can be opened.  A size is an `off_t`. -/
structure File where
  content : Str
  opens : Bool
  size_lt : content.length < 2 ^ 63

/-- `pubseekoff(0, end, in)`: the size of an open file, -1 if it is not open. -/
def File.seekEnd (f : File) : Int := if f.opens then f.content.length else -1

/-- `sgetn(buffer, n)`: the first `n` characters of an open file. -/
def File.sgetn (f : File) (n : Nat) : Str := if f.opens then f.content.take n else []

/-- A signed position stored into a `size_t`. -/
def toSize (pos : Int) : Nat := (pos % 2 ^ 64).toNat

/-- `new lxb_char_t[n]`: an array of more than `PTRDIFF_MAX` bytes cannot be had. -/
def newArray (n : Nat) : Except Fault Unit :=
  if n < 2 ^ 63 then .ok () else .error .badAlloc

/-- The length of the buffer that `ReadDocument` asks for. -/
def htmlSize (f : File) : Nat := toSize f.seekEnd

/-- `ReadDocument`. -/
def readDocument (f : File) : Except Fault Str := do
  newArray (htmlSize f)
  return f.sgetn (htmlSize f)

/-- `HTMLDocument(file_path)`; `parse` is the HTML parser. -/
def openDocument (parse : Str → Node) (disk : Str → File) (filePath : Str) :
    Except Fault HTMLDocument := do
  let html ← readDocument (disk filePath)
  return .ofFile filePath (parse html)

/-- The paths that `LoadDocs` takes: a vector of strings of 32 bytes each. -/
structure Paths where
  list : List Str
  fits : list.length ≤ (2 ^ 63 - 1) / 32

/-- `LoadDocs`. -/
def openJob (parse : Str → Node) (disk : Str → File) (files : List Str) :
    Job Unit HTMLDocument Fault where
  count := files.length
  step := stepSize kNumThreads files.length
  init := ()
  body _ i _ := do
    let file ← vectorAt files i
    let doc ← openDocument parse disk file
    return ((), doc)

/-! ## One file -/

theorem htmlSize_of_opens {f : File} (h : f.opens = true) : htmlSize f = f.content.length := by
  have := f.size_lt
  rw [htmlSize, File.seekEnd, if_pos h, toSize]
  omega

theorem htmlSize_of_not_opens {f : File} (h : f.opens = false) : htmlSize f = 2 ^ 64 - 1 := by
  rw [htmlSize, File.seekEnd, h]
  rfl

/-- **The buffer is within the file exactly when the file is open.** -/
theorem htmlSize_le_iff (f : File) : htmlSize f ≤ f.content.length ↔ f.opens = true := by
  have := f.size_lt
  cases h : f.opens with
  | true => rw [htmlSize_of_opens h]; simp
  | false => rw [htmlSize_of_not_opens h]; simp; omega

section Files

variable (parse : Str → Node) {disk : Str → File}

/-- A file that opens is loaded, as the other modules have it. -/
theorem openDocument_eq {path : Str} (h : (disk path).opens = true) :
    openDocument parse disk path = .ok (.ofFile path (parse (disk path).content)) := by
  have hsize := htmlSize_of_opens h
  have hread : readDocument (disk path) = .ok (disk path).content := by
    rw [readDocument, hsize, newArray, if_pos (disk path).size_lt, File.sgetn, if_pos h,
      List.take_length]
    rfl
  rw [openDocument, hread]
  rfl

/-- A file that does not open makes the constructor throw. -/
theorem openDocument_fault {path : Str} (h : (disk path).opens = false) :
    openDocument parse disk path = .error .badAlloc := by
  have hread : readDocument (disk path) = .error .badAlloc := by
    rw [readDocument, htmlSize_of_not_opens h, newArray, if_neg (by norm_num)]
    rfl
  rw [openDocument, hread]
  rfl

/-- Files that open are all loaded. -/
theorem mapM_openDocument {paths : List Str} (h : ∀ path ∈ paths, (disk path).opens = true) :
    paths.mapM (openDocument parse disk)
      = .ok (paths.map fun path => .ofFile path (parse (disk path).content)) :=
  mapM_eq_ok fun path hpath => openDocument_eq parse (h path hpath)

/-- With files that open, the documents are those of `LoadDocs` in the other modules. -/
theorem mapM_openDocument_eq (env : Env M R S)
    (hdom : ∀ path, env.dom path = parse (disk path).content) {paths : List Str}
    (h : ∀ path ∈ paths, (disk path).opens = true) :
    paths.mapM (openDocument parse disk) = .ok (loadDocs env paths) := by
  rw [mapM_openDocument parse h, loadDocs]
  congr 1
  refine List.map_congr_left fun path _ => ?_
  rw [loadFile, hdom]

/-! ## The stage -/

/-- `LoadDocs` opens every file. -/
theorem stage_open (disk : Str → File) {files : List Str} (hn : files.length < 2 ^ 60) :
    Stage (openJob parse disk files) (List.replicate files.length HTMLDocument.empty)
      (files.mapM (openDocument parse disk)) := by
  have hC : Computes (openJob parse disk files)
      (fun i _ => vectorAt files i >>= fun file => openDocument parse disk file)
      (fun _ => True) :=
    Computes.stateless fun i _ => by
      show (vectorAt files i >>= fun file => openDocument parse disk file >>= fun doc => _) = _
      cases vectorAt files i with
      | error e => rfl
      | ok file =>
          show (openDocument parse disk file >>= fun doc => _)
            = Except.map (fun b => ((), b)) (openDocument parse disk file)
          cases openDocument parse disk file <;> rfl
  have hseq := seqMap_vectorAt (fun file _ => openDocument parse disk file)
    HTMLDocument.empty [] files
  have h := stage_of_computes (List.replicate files.length HTMLDocument.empty)
    (List.length_replicate).symm hn rfl hC
  rw [← hseq]
  exact h

/-- `LoadDocs` on `paths` returns one document per path, and for the files that open
    those it returns when the others are not among the paths. -/
def Survives (disk : Str → File) (paths : List Str) : Prop :=
  ∃ docs docs', Stage (openJob parse disk paths)
      (List.replicate paths.length HTMLDocument.empty) (.ok docs) ∧
    Stage (openJob parse disk (paths.filter fun p => (disk p).opens))
      (List.replicate (paths.filter fun p => (disk p).opens).length HTMLDocument.empty)
      (.ok docs') ∧
    docs.length = paths.length ∧
    ((paths.zip docs).filter fun e => (disk e.1).opens).map Prod.snd = docs'

/-- Files that open are all loaded, whatever the schedule. -/
theorem stage_open_loaded {files : List Str} (hn : files.length < 2 ^ 60)
    (h : ∀ path ∈ files, (disk path).opens = true) :
    Stage (openJob parse disk files) (List.replicate files.length HTMLDocument.empty)
      (.ok (files.map fun path => .ofFile path (parse (disk path).content))) := by
  have hstage := stage_open parse disk hn
  rw [mapM_openDocument parse h] at hstage
  exact hstage

/-- **One file that does not open takes the process down**, whatever the schedule. -/
theorem stage_open_terminated {files : List Str} (hn : files.length < 2 ^ 60) {path : Str}
    (hpath : path ∈ files) (h : (disk path).opens = false) :
    Stage (openJob parse disk files) (List.replicate files.length HTMLDocument.empty)
      (.error .badAlloc) := by
  have hstage := stage_open parse disk hn
  rw [mapM_fault hpath (openDocument_fault parse h) fun p e hp => ?_] at hstage
  · exact hstage
  · cases hopen : (disk p).opens with
    | true => rw [openDocument_eq parse hopen] at hp; cases hp
    | false => rw [openDocument_fault parse hopen] at hp; exact Except.error.inj hp

/-- **Loading survives exactly when every file opens.** -/
theorem survives_iff (disk : Str → File) (paths : Paths) :
    Survives parse disk paths.list ↔ ∀ path ∈ paths.list, (disk path).opens = true := by
  have hn : paths.list.length < 2 ^ 60 := by
    have := paths.fits
    omega
  constructor
  · rintro ⟨docs, docs', hstage, -⟩ path hpath
    cases hopen : (disk path).opens with
    | true => rfl
    | false =>
        have hdown := stage_open_terminated parse hn hpath hopen
        cases hstage.isOk_eq hdown
  · intro h
    have hfilter : (paths.list.filter fun p => (disk p).opens) = paths.list :=
      List.filter_eq_self.mpr h
    have hloaded := stage_open_loaded parse hn h
    refine ⟨_, _, hloaded, by rw [hfilter]; exact hloaded, List.length_map _, ?_⟩
    have hzip : ((paths.list.zip (paths.list.map fun p =>
        HTMLDocument.ofFile p (parse (disk p).content))).filter fun e => (disk e.1).opens)
        = paths.list.zip (paths.list.map fun p =>
          HTMLDocument.ofFile p (parse (disk p).content)) :=
      List.filter_eq_self.mpr fun e he => h e.1 (List.of_mem_zip he).1
    rw [hzip, List.map_snd_zip (by rw [List.length_map])]

/-- The buffers asked for are within their files exactly when every file opens. -/
theorem requests_iff (disk : Str → File) (paths : List Str) :
    (∀ path ∈ paths, htmlSize (disk path) ≤ (disk path).content.length) ↔
      ∀ path ∈ paths, (disk path).opens = true := by
  simp only [htmlSize_le_iff]

/-- **A bad file does no harm exactly when there is none**: loading survives, and no
    buffer longer than its file is asked for, when every file opens, and neither is so
    when one does not. -/
theorem loadDocs_bad_file_iff (disk : Str → File) (paths : Paths) :
    (Survives parse disk paths.list ↔ ∀ path ∈ paths.list, (disk path).opens = true) ∧
    ((∀ path ∈ paths.list, htmlSize (disk path) ≤ (disk path).content.length) ↔
      ∀ path ∈ paths.list, (disk path).opens = true) :=
  ⟨survives_iff parse disk paths, requests_iff disk paths.list⟩

end Files

/-- Two pages; the second cannot be opened. -/
def sampleDisk (path : Str) : File where
  content := "<p>Hello</p>".toList
  opens := path ≠ "in/b.html".toList
  size_lt := by decide

def samplePaths : Paths where
  list := ["in/a.html".toList, "in/b.html".toList]
  fits := by decide

/-- **One bad file takes down the run**: the page that could be read is not returned
    either, and the buffer asked for is not within its file. -/
theorem loadDocs_samplePaths :
    ¬ Survives (fun html => .text html) sampleDisk samplePaths.list ∧
    ¬ ∀ path ∈ samplePaths.list,
        htmlSize (sampleDisk path) ≤ (sampleDisk path).content.length := by
  have hbad : ¬ ∀ path ∈ samplePaths.list, (sampleDisk path).opens = true := by decide
  constructor
  · intro h
    exact hbad ((survives_iff _ sampleDisk samplePaths).mp h)
  · intro h
    exact hbad ((requests_iff sampleDisk samplePaths.list).mp h)

end TgnewsLoad
