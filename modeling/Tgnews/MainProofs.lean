import Tgnews.CategoriesTaskProofs
import Tgnews.ForkJoinProofs
import Tgnews.GlobProofs
import Tgnews.LoadProofs
import Tgnews.LookupsProofs
import Tgnews.SerializerProofs
import Tgnews.StagesProofs

/-! # The program (`tgnews.cpp`)

    `main` finds the files, loads them, and composes the parallel stages of a task; the
    result goes to the standard output or, in `dump`, to a file.  `tgnews` is that
    program over the pools of `StagesProofs`, `sequential` the composition of the
    left-to-right tasks of `TasksProofs` with what is printed.  The route:

    * `settles` — a stage is a pool that settles, so the rules of `ForkJoin` apply, and
      `finishes_recognize`, `finishes_detectFrom` — one rule for each group of stages;
    * `taskOutput_eq_stages` — the stages of `LookupsProofs` are those of the tasks;
    * `tgnews_every_run` — whatever the schedules, the program ends as `sequential` says;
    * `news_exits_iff`, `top_exits_iff` and `categories_exits_iff` — when the process exits,
      and what it has printed then. -/

namespace TgnewsMain

open CxxContainers CxxText WorkerPool ForkJoin TgnewsCommon TgnewsHtml TgnewsLangrec TgnewsIo
open TgnewsSerializer TgnewsDump TgnewsFeatures TgnewsNewsDet TgnewsNewsCategories
open TgnewsNewsThreads TgnewsDebug TgnewsTasks TgnewsStages TgnewsLoad TgnewsGlob
open TgnewsCategoriesTask TgnewsLookups

/-- What the process runs in: the surroundings of the tasks, the HTML parser and the
    files it reads, and the two elapsed times that are printed. -/
structure World (M R S : Type) where
  env : Env M R S
  parse : Str → Node
  disk : Str → File
  dom_eq : ∀ path, env.dom path = parse (disk path).content
  clock : Str × Str

/-- What a process leaves: its standard output, and the file of `dump` with its name. -/
structure Output where
  stdout : Str
  tsv : Option (Str × Str)

variable {M R S : Type}

/-! ## The stages, as `main` calls them -/

/-- `LoadDocs`. -/
def load (w : World M R S) (files : List Str) (next : List HTMLDocument → Program Output Fault) :
    Program Output Fault :=
  .pool (openJob w.parse w.disk files) (List.replicate files.length HTMLDocument.empty) next

/-- `RecognizeLanguage`. -/
def recognize (w : World M R S) (docs : List HTMLDocument)
    (next : List HTMLDocument × List HTMLDocument → Program Output Fault) :
    Program Output Fault :=
  .pool (recogJob w.env.lang true docs) docs fun docs => next (moveOutRuEn docs)

/-- `GenerateFeatures`. -/
def generate (w : World M R S) (docs : List HTMLDocument) (totalSentences : Int)
    (next : List DocFeatures → Program Output Fault) : Program Output Fault :=
  .pool (featuresJob w.env.tools w.env.files docs totalSentences)
    (List.replicate docs.length DocFeatures.new) next

/-- `DetectNews`. -/
def detect (w : World M R S) (features : List DocFeatures)
    (next : List DocFeatures × List LeftFeatures → Program Output Fault) :
    Program Output Fault :=
  .pool (detectJob w.env.scores features) features fun docs => next (moveOutNews w.env.moved docs)

/-- What is on the standard output when the main thread has printed without a fault. -/
def printed (p : Print Unit) : Except Fault Output :=
  match p [] with
  | .ok _ out => .ok ⟨out, none⟩
  | .error e _ => .error e

/-- The end of the main thread.  An operation with no defined result counts as a fault like
    the exceptions. -/
def finish (result : Except Fault Output) : Program Output Fault :=
  match result with
  | .ok out => .exit out
  | .error e => .throw e

/-- The two lines of the task `features`. -/
def timings (w : World M R S) : Str :=
  "REC LANG: ".toList ++ w.clock.1 ++ "\n".toList ++ "FEATURES GEN: ".toList ++ w.clock.2
    ++ "\n".toList

/-! ## The program -/

/-- The stages that `news`, `categories`, `threads` and `top` share. -/
def newsIn (w : World M R S) (docs : List HTMLDocument)
    (next : List DocFeatures → Program Output Fault) : Program Output Fault :=
  recognize w docs fun (langsRuen, _) =>
    generate w langsRuen (-1) fun features => detect w features fun (news, _) => next news

/-- Those of `news_test` and `dump`, which drop what `RecognizeLanguage` returns. -/
def allIn (w : World M R S) (docs : List HTMLDocument)
    (next : List HTMLDocument → List DocFeatures × List LeftFeatures → Program Output Fault) :
    Program Output Fault :=
  recognize w docs fun (_, docs) =>
    generate w docs (-1) fun features => detect w features (next docs)

/-- `main`, once the documents are loaded. -/
def runTask (w : World M R S) (task inputFolder outputFname : Str) (docs : List HTMLDocument) :
    Program Output Fault :=
  if task = "languages".toList then
    recognize w docs fun (langsRuen, _) =>
      finish (printed (dumpLanguage w.env.dumpFloat langsRuen inputFolder))
  else if task = "news".toList then
    newsIn w docs fun news => finish (printed (dumpNewsDet w.env.dumpFloat news inputFolder))
  else if task = "categories".toList then
    newsIn w docs fun news =>
      finish (printed (do
        let categories ← getCategories w.env.tokenOrder w.env.topics news
        dumpNewsCat w.env.dumpFloat w.env.docsOrder categories inputFolder))
  else if task = "threads".toList then
    newsIn w docs fun news =>
      finish (printed
        (dumpNewsThreads w.env.dumpFloat w.env.docsOrder (getThreads news) inputFolder))
  else if task = "top".toList then
    newsIn w docs fun news =>
      finish (printed (do
        let _ ← getCategories w.env.tokenOrder w.env.topics news
        write "[]\n".toList))
  else if task = "news_test".toList then
    allIn w docs fun _ (news, _) =>
      finish (printed (dumpNewsDetTest w.env.dumpFloat news inputFolder))
  else if task = "dump".toList then
    allIn w docs fun docs (_, features) =>
      finish (do
        let table ← makeTsv w.env.keyOrder docs features
        return ⟨[], some (outputFname, table.render)⟩)
  else if task = "features".toList then
    recognize w docs fun (_, docs) =>
      generate w docs 3 fun _ => finish (.ok ⟨timings w, none⟩)
  else finish (.ok ⟨[], none⟩)

/-- `main`, on the contents of the folder. -/
def tgnews (w : World M R S) (task inputFolder outputFname : Str) (dir : Directory) :
    Program Output Fault :=
  match globHTML inputFolder dir with
  | .error e => .throw e
  | .ok htmlFiles => load w htmlFiles (runTask w task inputFolder outputFname)

/-! ## The sequential program -/

/-- What a task makes of files that are all read, without threads. -/
def taskOutput (w : World M R S) (task inputFolder outputFname : Str) (files : List Str) :
    Except Fault Output :=
  if task = "languages".toList then printed (languagesTask w.env inputFolder files)
  else if task = "news".toList then printed (newsTask w.env inputFolder files)
  else if task = "categories".toList then printed (categoriesTask w.env inputFolder files)
  else if task = "threads".toList then printed (threadsTask w.env inputFolder files)
  else if task = "top".toList then printed (topTask w.env files)
  else if task = "news_test".toList then printed (newsTestTask w.env inputFolder files)
  else if task = "dump".toList then do
    let table ← dumpTask w.env files
    return ⟨[], some (outputFname, table.render)⟩
  else if task = "features".toList then do
    featuresTask w.env files
    return ⟨timings w, none⟩
  else .ok ⟨[], none⟩

/-- What a task does with what its stages have handed over. -/
def finishTask (w : World M R S) (inputFolder outputFname : Str) (handed : Handed) :
    Task → Except Fault Output
  | .languages => printed (dumpLanguage w.env.dumpFloat handed.documents inputFolder)
  | .news => printed (dumpNewsDet w.env.dumpFloat handed.news inputFolder)
  | .categories => printed (do
      let categories ← getCategories w.env.tokenOrder w.env.topics handed.news
      dumpNewsCat w.env.dumpFloat w.env.docsOrder categories inputFolder)
  | .threads =>
      printed (dumpNewsThreads w.env.dumpFloat w.env.docsOrder (getThreads handed.news)
        inputFolder)
  | .top => printed (do
      let _ ← getCategories w.env.tokenOrder w.env.topics handed.news
      write "[]\n".toList)
  | .newsTest => printed (dumpNewsDetTest w.env.dumpFloat handed.news inputFolder)
  | .dump => do
      let table ← makeTsv w.env.keyOrder handed.documents handed.features
      return ⟨[], some (outputFname, table.render)⟩
  | .features => .ok ⟨timings w, none⟩

theorem printed_lift_bind {α : Type} (x : Except Fault α) (p : α → Print Unit) :
    printed ((liftM x : Print α) >>= p) = x >>= fun a => printed (p a) := by
  cases x <;> rfl

/-- **A task is its stages and an end that reads only what they hand over.** -/
theorem taskOutput_eq_stages (w : World M R S) (task : Task) (inputFolder outputFname : Str)
    (files : List Str) :
    taskOutput w task.name inputFolder outputFname files
      = task.handed w.env (loadDocs w.env files) >>= fun handed =>
          finishTask w inputFolder outputFname handed task := by
  cases task with
  | languages => rfl
  | news =>
      show printed (newsTask w.env inputFolder files) = _
      rw [newsTask, printed_lift_bind, Task.handed, bind_assoc]
      rfl
  | categories =>
      show printed (categoriesTask w.env inputFolder files) = _
      rw [categoriesTask, printed_lift_bind, Task.handed, bind_assoc]
      rfl
  | threads =>
      show printed (threadsTask w.env inputFolder files) = _
      rw [threadsTask, printed_lift_bind, Task.handed, bind_assoc]
      rfl
  | top =>
      show printed (topTask w.env files) = _
      rw [topTask, printed_lift_bind, Task.handed, bind_assoc]
      rfl
  | newsTest =>
      show printed (newsTestTask w.env inputFolder files) = _
      rw [newsTestTask, printed_lift_bind, Task.handed, bind_assoc]
      rfl
  | dump =>
      show (dumpTask w.env files >>= fun table => _) = _
      rw [dumpTask, Task.handed, bind_assoc, bind_assoc]
      rfl
  | features =>
      show (featuresTask w.env files >>= fun _ => _) = _
      rw [featuresTask, Task.handed, bind_assoc, bind_assoc]
      rfl

/-- The program without threads: the files are found and read, then comes the task. -/
def sequential (w : World M R S) (task inputFolder outputFname : Str) (dir : Directory) :
    Except Fault Output := do
  let files ← globHTML inputFolder dir
  let _ ← files.mapM (openDocument w.parse w.disk)
  taskOutput w task inputFolder outputFname files

/-! ## The rules of the stages -/

/-- A stage is a pool that settles. -/
theorem settles {σ α : Type} {J : Job σ α Fault} {vec : List α} {result : Except Fault (List α)}
    (h : Stage J vec result) : Settles J vec (2 * J.count + 1) result :=
  ⟨h.bounded, h.outcome⟩

theorem finishes_finish (result : Except Fault Output) : Finishes (finish result) result := by
  cases result with
  | ok out => exact .exit out
  | error e => exact .throw e

/-- Reading fails if one file does not open. -/
theorem mapM_openDocument_fault (parse : Str → Node) {disk : Str → File} {files : List Str}
    {path : Str} (hpath : path ∈ files) (h : (disk path).opens = false) :
    files.mapM (openDocument parse disk) = .error .badAlloc := by
  refine mapM_fault hpath (openDocument_fault parse h) ?_
  intro p e hp
  cases hopens : (disk p).opens with
  | true => rw [openDocument_eq parse hopens] at hp; cases hp
  | false => rw [openDocument_fault parse hopens] at hp; exact Except.error.inj hp

section Rules

variable (w : World M R S) {result : Except Fault Output}

/-- Loading reads every file, or takes the process down. -/
theorem finishes_load {files : List Str} (hn : files.length < 2 ^ 60)
    {next : List HTMLDocument → Program Output Fault}
    (hnext : (∀ path ∈ files, (w.disk path).opens = true) →
      Finishes (next (loadDocs w.env files)) result) :
    Finishes (load w files next)
      (files.mapM (openDocument w.parse w.disk) >>= fun _ => result) := by
  by_cases h : ∀ path ∈ files, (w.disk path).opens = true
  · have hstage := stage_open w.parse w.disk hn
    rw [mapM_openDocument_eq w.parse w.env w.dom_eq h] at hstage ⊢
    exact (hnext h).pool (settles hstage)
  · obtain ⟨path, hbad⟩ := not_forall.mp h
    obtain ⟨hpath, hopens⟩ := Classical.not_imp.mp hbad
    have hclosed : (w.disk path).opens = false := by simpa using hopens
    have hstage := stage_open w.parse w.disk hn
    rw [mapM_openDocument_fault w.parse hpath hclosed] at hstage ⊢
    exact .pool_error (settles hstage)

theorem finishes_recognize {docs : List HTMLDocument} (hn : docs.length < 2 ^ 60)
    {next : List HTMLDocument × List HTMLDocument → Program Output Fault}
    (hnext : Finishes (next (recognizeLanguage w.env.lang true docs)) result) :
    Finishes (recognize w docs next) result :=
  .pool (settles (stage_recog w.env.lang true hn)) hnext

theorem finishes_generate (htext : TextDetermined w.env.tools) {docs : List HTMLDocument}
    (hn : docs.length < 2 ^ 60) {totalSentences : Int} {features : List DocFeatures}
    (hfeatures : generateFeatures w.env.tools w.env.files docs totalSentences = .ok features)
    {next : List DocFeatures → Program Output Fault} (hnext : Finishes (next features) result) :
    Finishes (generate w docs totalSentences next) result := by
  have hstage := stage_features htext w.env.files hn totalSentences
  rw [hfeatures] at hstage
  exact .pool (settles hstage) hnext

/-- The features of a document, for any number of sentences; see `docFeatures_ok`. -/
theorem generateFeatures_ok (docs : List HTMLDocument) (totalSentences : Int) :
    generateFeatures w.env.tools w.env.files docs totalSentences
      = .ok (docs.map fun doc =>
          (docFeatures w.env.tools w.env.files totalSentences doc).toOption.getD
            DocFeatures.new) := by
  refine mapM_eq_ok fun doc _ => ?_
  obtain ⟨f, hf, -, -⟩ := docFeatures_ok w.env.tools w.env.files totalSentences doc
  rw [hf]
  rfl

/-- **Features and detection** end in the news and the vector left. -/
theorem finishes_detectFrom (htext : TextDetermined w.env.tools) {docs : List HTMLDocument}
    (hn : docs.length < 2 ^ 60) {news : List DocFeatures} {left : List LeftFeatures}
    (hdetect : detectFrom w.env docs = .ok (news, left))
    {next : List DocFeatures × List LeftFeatures → Program Output Fault}
    (hnext : Finishes (next (news, left)) result) :
    Finishes (generate w docs (-1) fun features => detect w features next) result := by
  have hgen := generateFeatures_ok w docs (-1)
  have hmap : (docs.map (featuresOf w.env)).mapM (detectDoc w.env.scores)
      = .ok (docs.map (verdict w.env)) := by
    rw [List.mapM_map]
    exact mapM_eq_ok fun doc _ => detectDoc_featuresOf w.env doc
  have hmoved : moveOutNews w.env.moved (docs.map (verdict w.env)) = (news, left) := by
    rw [detectFrom, hgen] at hdetect
    have h : (do
        let documents ← (docs.map (featuresOf w.env)).mapM (detectDoc w.env.scores)
        return moveOutNews w.env.moved documents) = Except.ok (news, left) := hdetect
    rw [hmap] at h
    exact Except.ok.inj h
  refine finishes_generate w htext hn hgen ?_
  have hstage := stage_detect w.env.scores
    (show (docs.map (featuresOf w.env)).length < 2 ^ 60 by rw [List.length_map]; exact hn)
  rw [hmap] at hstage
  refine .pool (settles hstage) ?_
  rw [hmoved]
  exact hnext

/-- The stages that four of the tasks share. -/
theorem finishes_news (htext : TextDetermined w.env.tools) {files : List Str}
    (hn : files.length < 2 ^ 60) {news : List DocFeatures}
    (hnews : newsOf w.env files = .ok news) {next : List DocFeatures → Program Output Fault}
    (hnext : Finishes (next news) result) :
    Finishes (newsIn w (loadDocs w.env files) next) result := by
  have hlen : (loadDocs w.env files).length < 2 ^ 60 := by
    rw [loadDocs, List.length_map]
    exact hn
  refine finishes_recognize w hlen ?_
  have hdetect := detectFrom_eq w.env
    (recognizeLanguage w.env.lang true (loadDocs w.env files)).1
  have hfirst := hnews
  rw [newsOf, newsFrom, hdetect] at hfirst
  obtain rfl := Except.ok.inj hfirst
  refine finishes_detectFrom w htext ?_ hdetect hnext
  rw [recognizeLanguage_result]
  refine (List.length_filter_le _ _).trans_lt ?_
  rw [List.length_map]
  exact hlen

/-- The stages of the two tasks that go on with the vector that was handed over. -/
theorem finishes_handed (htext : TextDetermined w.env.tools) {files : List Str}
    (hn : files.length < 2 ^ 60)
    {next : List HTMLDocument → List DocFeatures × List LeftFeatures → Program Output Fault}
    {news : List DocFeatures} {left : List LeftFeatures}
    (hdetect : detectFrom w.env (handedDocs w.env files) = .ok (news, left))
    (hnext : Finishes (next (handedDocs w.env files) (news, left)) result) :
    Finishes (allIn w (loadDocs w.env files) next) result := by
  have hlen : (loadDocs w.env files).length < 2 ^ 60 := by
    rw [loadDocs, List.length_map]
    exact hn
  refine finishes_recognize w hlen (finishes_detectFrom w htext ?_ hdetect hnext)
  show (recognizeLanguage w.env.lang true (loadDocs w.env files)).2.length < 2 ^ 60
  rw [recognizeLanguage_left, List.length_map]
  exact hlen

/-- **A task** ends as its sequential composition does. -/
theorem finishes_runTask (htext : TextDetermined w.env.tools) (task inputFolder outputFname : Str)
    {files : List Str} (hn : files.length < 2 ^ 60) :
    Finishes (runTask w task inputFolder outputFname (loadDocs w.env files))
      (taskOutput w task inputFolder outputFname files) := by
  have hlen : (loadDocs w.env files).length < 2 ^ 60 := by
    rw [loadDocs, List.length_map]
    exact hn
  have hhanded : (handedDocs w.env files).length < 2 ^ 60 := by
    rw [handedDocs, recognizeLanguage_left, List.length_map]
    exact hlen
  obtain ⟨news, hnews⟩ : ∃ news, newsOf w.env files = .ok news := ⟨_, newsOf_eq w.env files⟩
  have hdetect := detectFrom_eq w.env (handedDocs w.env files)
  rw [runTask, taskOutput]
  split_ifs with hlanguages hnewsTask hcategories hthreads htop htest hdump hfeatures
  · exact finishes_recognize w hlen (finishes_finish _)
  · rw [newsTask, hnews, lift_ok_bind]
    exact finishes_news w htext hn hnews (finishes_finish _)
  · rw [categoriesTask, hnews, lift_ok_bind]
    exact finishes_news w htext hn hnews (finishes_finish _)
  · rw [threadsTask, hnews, lift_ok_bind]
    exact finishes_news w htext hn hnews (finishes_finish _)
  · rw [topTask, hnews, lift_ok_bind]
    exact finishes_news w htext hn hnews (finishes_finish _)
  · rw [newsTestTask, hdetect, lift_ok_bind]
    exact finishes_handed w htext hn hdetect (finishes_finish _)
  · rw [dumpTask, hdetect]
    exact finishes_handed w htext hn hdetect (finishes_finish _)
  · have hgen := generateFeatures_ok w (handedDocs w.env files) 3
    rw [featuresTask, hgen]
    exact finishes_recognize w hlen (finishes_generate w htext hhanded hgen (finishes_finish _))
  · exact finishes_finish _

/-- The program computes what the sequential one does. -/
theorem tgnews_finishes (htext : TextDetermined w.env.tools) (task inputFolder outputFname : Str)
    (dir : Directory)
    (hn : ∀ files, globHTML inputFolder dir = .ok files → files.length < 2 ^ 60) :
    Finishes (tgnews w task inputFolder outputFname dir)
      (sequential w task inputFolder outputFname dir) := by
  rw [tgnews, sequential]
  cases hglob : globHTML inputFolder dir with
  | error e => exact .throw e
  | ok files =>
      exact finishes_load w (hn files hglob) fun _ =>
        finishes_runTask w htext task inputFolder outputFname (hn files hglob)

end Rules

/-- **Whatever the schedules, the program ends as the sequential one does**: the runs are
    bounded, and one that cannot go on has exited with the same output, or it has been taken
    down and the sequential program faults. -/
theorem tgnews_every_run (w : World M R S) (htext : TextDetermined w.env.tools)
    (task inputFolder outputFname : Str) (dir : Directory)
    (hn : ∀ files, globHTML inputFolder dir = .ok files → files.length < 2 ^ 60) :
    ∃ n, AllEnd Advance (Ended (sequential w task inputFolder outputFname dir)) n
      (.main (tgnews w task inputFolder outputFname dir)) :=
  (tgnews_finishes w htext task inputFolder outputFname dir hn).runs

/-! ## When the process exits, and with what -/

/-- The files of the folder are found, and each can be read. -/
structure Readable (w : World M R S) (inputFolder : Str) (dir : Directory) : Prop where
  long : LongPaths inputFolder dir
  opens : ∀ path ∈ htmlFiles inputFolder dir, (w.disk path).opens = true

section Exits

variable (w : World M R S)

/-- The program without threads returns when the files can be read and the task returns. -/
theorem sequential_ok_iff (task inputFolder outputFname : Str) (dir : Directory) (out : Output) :
    sequential w task inputFolder outputFname dir = .ok out ↔
      Readable w inputFolder dir ∧
        taskOutput w task inputFolder outputFname (htmlFiles inputFolder dir) = .ok out := by
  constructor
  · intro h
    obtain ⟨files, hglob, hrest⟩ := of_bind_ok h
    have hlong : LongPaths inputFolder dir := by
      by_contra hshort
      obtain ⟨e, he⟩ := globHTML_fault hshort
      rw [he] at hglob
      cases hglob
    rw [globHTML_eq hlong] at hglob
    obtain rfl := Except.ok.inj hglob
    obtain ⟨docs, hdocs, htask⟩ := of_bind_ok hrest
    refine ⟨⟨hlong, ?_⟩, htask⟩
    intro path hpath
    cases hopens : (w.disk path).opens with
    | true => rfl
    | false =>
        rw [mapM_openDocument_fault w.parse hpath hopens] at hdocs
        cases hdocs
  · rintro ⟨hread, htask⟩
    rw [sequential, globHTML_eq hread.long]
    show ((htmlFiles inputFolder dir).mapM (openDocument w.parse w.disk) >>= fun _ =>
      taskOutput w task inputFolder outputFname (htmlFiles inputFolder dir)) = _
    rw [mapM_openDocument w.parse hread.opens]
    exact htask

/-- What `GlobHTML` returns are the files of the folder. -/
theorem length_of_globHTML {inputFolder : Str} {dir : Directory}
    (hn : (htmlFiles inputFolder dir).length < 2 ^ 60) (files : List Str)
    (hglob : globHTML inputFolder dir = .ok files) : files.length < 2 ^ 60 := by
  have hlong : LongPaths inputFolder dir := by
    by_contra hshort
    obtain ⟨e, he⟩ := globHTML_fault hshort
    rw [he] at hglob
    cases hglob
  rw [globHTML_eq hlong] at hglob
  rw [← Except.ok.inj hglob]
  exact hn

/-- **The process exits as the task returns**, whatever the schedules. -/
theorem tgnews_exits_iff (htext : TextDetermined w.env.tools) (task inputFolder outputFname : Str)
    {dir : Directory} (hn : (htmlFiles inputFolder dir).length < 2 ^ 60) (out : Output) :
    Finishes (tgnews w task inputFolder outputFname dir) (.ok out) ↔
      Readable w inputFolder dir ∧
        taskOutput w task inputFolder outputFname (htmlFiles inputFolder dir) = .ok out := by
  have hseq := tgnews_finishes w htext task inputFolder outputFname dir (length_of_globHTML hn)
  rw [← sequential_ok_iff]
  constructor
  · intro h
    have heq := hseq.unique h
    cases hs : sequential w task inputFolder outputFname dir with
    | ok out' =>
        rw [hs] at heq
        rw [Option.some.inj heq]
    | error e =>
        rw [hs] at heq
        cases heq
  · intro h
    rw [h] at hseq
    exact hseq

/-- **Where it does not exit, the process is taken down.** -/
theorem tgnews_taken_down (htext : TextDetermined w.env.tools)
    (task inputFolder outputFname : Str) {dir : Directory}
    (hn : (htmlFiles inputFolder dir).length < 2 ^ 60)
    (h : ∀ out, ¬ Finishes (tgnews w task inputFolder outputFname dir) (.ok out)) :
    ∃ e, Finishes (tgnews w task inputFolder outputFname dir) (.error e) := by
  have hseq := tgnews_finishes w htext task inputFolder outputFname dir
    (length_of_globHTML hn)
  cases hs : sequential w task inputFolder outputFname dir with
  | ok out =>
      rw [hs] at hseq
      exact absurd hseq (h out)
  | error e =>
      rw [hs] at hseq
      exact ⟨e, hseq⟩

/-- The task exits exactly when it prints, with what it prints. -/
theorem printed_ok_iff {ok : Prop} {p : Print Unit} {t : Str} (h : Prints ok p t) (out : Output) :
    printed p = .ok out ↔ ok ∧ out = ⟨t, none⟩ := by
  rw [printed]
  by_cases hok : ok
  · rw [h.writes hok []]
    simp only [List.nil_append, Except.ok.injEq, hok, true_and]
    exact eq_comm
  · obtain ⟨out', hrun⟩ := h.throws hok []
    simp only [hrun, hok, false_and, iff_false]
    exact fun h => by cases h

/-! ### The three tasks over the news -/

/-- The names of the files of a folder, relative to it. -/
def relNames (inputFolder : Str) (dir : Directory) : List Str :=
  (htmlFiles inputFolder dir).map fun path => path.drop (joinPath inputFolder []).length

/-- The files found are those names, below the folder. -/
theorem htmlFiles_eq_map {inputFolder : Str} {dir : Directory} (h : LongPaths inputFolder dir) :
    htmlFiles inputFolder dir = (relNames inputFolder dir).map (joinPath inputFolder)
      ∧ (relNames inputFolder dir).Nodup := by
  obtain ⟨rs, hrs, hnodup⟩ := globHTML_relative (globHTML_eq h)
  have hrel : relNames inputFolder dir = rs := by
    rw [relNames, hrs, List.map_map]
    refine (List.map_congr_left fun r _ => ?_).trans (List.map_id rs)
    have hjoin : joinPath inputFolder r = joinPath inputFolder [] ++ r := by
      rw [joinPath, joinPath, List.append_nil]
    rw [Function.comp_apply, hjoin, List.drop_left]
    rfl
  rw [hrel]
  exact ⟨hrs, hnodup⟩

/-- **Task `top`** prints when both languages are among the news. -/
theorem topTask_writes (env : Env M R S) (hload : ∀ lang, (env.topics lang).OverCategories)
    {f : Str} {rs : List Str} (hru : Occurs env f rs "ru".toList)
    (hen : Occurs env f rs "en".toList) :
    Writes (topTask env (rs.map (joinPath f))) "[]\n".toList := by
  obtain ⟨m, hm, -⟩ := getCategories_newsDocs env hload hru hen
  rw [topTask, newsOf_joinPath, lift_ok_bind, hm, lift_ok_bind]
  exact (prints_write _).writes trivial

/-- It prints nothing when one of them is missing. -/
theorem topTask_missing (env : Env M R S) {f : Str} {rs : List Str}
    (h : ¬ (Occurs env f rs "ru".toList ∧ Occurs env f rs "en".toList)) :
    ∃ e, topTask env (rs.map (joinPath f)) = throw e := by
  rw [topTask, newsOf_joinPath, lift_ok_bind]
  cases hrun : getCategories env.tokenOrder env.topics (newsDocs env f rs) with
  | ok m => exact absurd hrun (getCategories_newsDocs_missing env h m)
  | error e => exact ⟨e, rfl⟩

variable (htext : TextDetermined w.env.tools) {inputFolder : Str} (hf : inputFolder ≠ [])
variable {dir : Directory} (hn : (htmlFiles inputFolder dir).length < 2 ^ 60)

include htext hn

/-- **`top` exits exactly when the files can be read and both languages are among the
    news.** -/
theorem top_exits_iff (hload : ∀ lang, (w.env.topics lang).OverCategories) (outputFname : Str)
    (out : Output) :
    Finishes (tgnews w "top".toList inputFolder outputFname dir) (.ok out) ↔
      Readable w inputFolder dir
      ∧ (Occurs w.env inputFolder (relNames inputFolder dir) "ru".toList
        ∧ Occurs w.env inputFolder (relNames inputFolder dir) "en".toList)
      ∧ out = ⟨"[]\n".toList, none⟩ := by
  rw [tgnews_exits_iff w htext _ _ _ hn]
  refine and_congr_right fun hread => ?_
  have htop : taskOutput w "top".toList inputFolder outputFname (htmlFiles inputFolder dir)
      = printed (topTask w.env (htmlFiles inputFolder dir)) := rfl
  rw [htop, (htmlFiles_eq_map hread.long).1]
  by_cases hboth : Occurs w.env inputFolder (relNames inputFolder dir) "ru".toList
      ∧ Occurs w.env inputFolder (relNames inputFolder dir) "en".toList
  · rw [printed, topTask_writes w.env hload hboth.1 hboth.2 []]
    simp only [List.nil_append, Except.ok.injEq, hboth, true_and]
    exact eq_comm
  · obtain ⟨e, he⟩ := topTask_missing w.env hboth
    rw [he]
    refine iff_of_false (fun h => ?_) fun h => hboth h.1
    cases h

include hf

/-- **`news` exits exactly when the files can be read and the names of the news are valid
    UTF-8**, and it has printed those names then; else it is taken down. -/
theorem news_exits_iff (outputFname : Str) :
    (∀ out, Finishes (tgnews w "news".toList inputFolder outputFname dir) (.ok out) ↔
      Readable w inputFolder dir
      ∧ (∀ r ∈ newsNames w.env inputFolder (relNames inputFolder dir), ValidUtf8 r)
      ∧ out = ⟨jsonLine w.env.dumpFloat (newsJson
          (newsNames w.env inputFolder (relNames inputFolder dir))), none⟩)
    ∧ (¬ (Readable w inputFolder dir
        ∧ ∀ r ∈ newsNames w.env inputFolder (relNames inputFolder dir), ValidUtf8 r) →
      ∃ e, Finishes (tgnews w "news".toList inputFolder outputFname dir) (.error e)) := by
  have hexits : ∀ out, Finishes (tgnews w "news".toList inputFolder outputFname dir) (.ok out) ↔
      Readable w inputFolder dir
      ∧ (∀ r ∈ newsNames w.env inputFolder (relNames inputFolder dir), ValidUtf8 r)
      ∧ out = ⟨jsonLine w.env.dumpFloat (newsJson
          (newsNames w.env inputFolder (relNames inputFolder dir))), none⟩ := by
    intro out
    rw [tgnews_exits_iff w htext _ _ _ hn]
    refine and_congr_right fun hread => ?_
    have hnews : taskOutput w "news".toList inputFolder outputFname (htmlFiles inputFolder dir)
        = printed (newsTask w.env inputFolder (htmlFiles inputFolder dir)) := rfl
    rw [hnews, (htmlFiles_eq_map hread.long).1, printed_ok_iff (newsTask_prints w.env hf _)]
  refine ⟨hexits, fun hbad => tgnews_taken_down w htext _ _ _ hn fun out hout => hbad ?_⟩
  exact ⟨((hexits out).mp hout).1, ((hexits out).mp hout).2.1⟩

/-- **`categories` exits exactly when** the files can be read, both languages are among
    the news, and the names it lists are valid UTF-8. -/
theorem categories_exits_iff (hload : ∀ lang, (w.env.topics lang).OverCategories)
    (outputFname : Str) :
    (∃ out, Finishes (tgnews w "categories".toList inputFolder outputFname dir) (.ok out)) ↔
      Readable w inputFolder dir
      ∧ (Occurs w.env inputFolder (relNames inputFolder dir) "ru".toList
        ∧ Occurs w.env inputFolder (relNames inputFolder dir) "en".toList)
      ∧ ∀ c ∈ categories, ∀ d ∈ categoryDocs w.env.tokenOrder w.env.topics
          (newsDocs w.env inputFolder (relNames inputFolder dir)) c,
        ValidUtf8 (d.docName.drop (joinPath inputFolder []).length) := by
  simp only [tgnews_exits_iff w htext _ _ _ hn, exists_and_left]
  refine and_congr_right fun hread => ?_
  have htask : taskOutput w "categories".toList inputFolder outputFname
      (htmlFiles inputFolder dir)
      = printed (categoriesTask w.env inputFolder (htmlFiles inputFolder dir)) := rfl
  rw [htask, (htmlFiles_eq_map hread.long).1]
  obtain ⟨len, hlen, hstrip⟩ := prefixLen_joinPath hf
  obtain rfl : len = (joinPath inputFolder []).length := len_of_substr (hstrip [])
  by_cases hboth : Occurs w.env inputFolder (relNames inputFolder dir) "ru".toList
      ∧ Occurs w.env inputFolder (relNames inputFolder dir) "en".toList
  · obtain ⟨cats, -, hprints⟩ := categoriesTask_prints w.env hload hlen hstrip hboth.1 hboth.2
    simp only [printed_ok_iff hprints, hboth, true_and, exists_and_left, exists_eq, and_true]
  · obtain ⟨e, he⟩ := categoriesTask_missing w.env hboth
    rw [he]
    refine iff_of_false ?_ fun h => hboth h.1
    rintro ⟨out, hout⟩
    cases hout

end Exits

/-! ## A folder with two pages -/

/-- Two pages. -/
def twoPages : Directory where
  entries := [.leaf "a.html".toList true, .leaf "b.html".toList true]
  named := by
    refine ⟨⟨by decide, by decide⟩, ?_, ⟨by decide, by decide⟩, ?_, trivial⟩
    · intro e he
      rw [List.mem_singleton.mp he]
      decide
    · intro e he
      cases he

/-- A page holds the beginning of its path, which is the site it names; `opens` says which
    pages can be opened. -/
def sampleWorld (opens : Str → Bool) : World Unit Str (List Word) where
  env := { mixedEnv with dom := fun path => sitePage (path.take 64) }
  parse := sitePage
  disk path := {
    content := path.take 64
    opens := opens path
    size_lt := by
      have := List.length_take_le 64 path
      omega }
  dom_eq _ := rfl
  clock := ([], [])

theorem length_htmlFiles_twoPages : (htmlFiles "in".toList twoPages).length < 2 ^ 60 := by
  have h : (htmlFiles "in".toList twoPages).length = 2 := by decide +kernel
  rw [h]
  norm_num

theorem readable_twoPages :
    Readable (sampleWorld fun _ => true) "in".toList twoPages where
  long := by
    unfold LongPaths
    decide +kernel
  opens _ _ := rfl

theorem occurs_twoPages :
    Occurs (sampleWorld fun _ => true).env "in".toList (relNames "in".toList twoPages) "ru".toList
      ∧ Occurs (sampleWorld fun _ => true).env "in".toList (relNames "in".toList twoPages)
        "en".toList :=
  ⟨⟨"a.html".toList, by decide +kernel, by decide +kernel⟩,
    ⟨"b.html".toList, by decide +kernel, by decide +kernel⟩⟩

/-- A page that cannot be opened takes the process down; with both pages open it exits. -/
theorem tgnews_every_run_twoPages :
    (∃ n, AllEnd Advance (· = .aborted) n
      (.main (tgnews (sampleWorld fun _ => false) "top".toList "in".toList [] twoPages)))
    ∧ ∃ n, AllEnd Advance (· = .exited ⟨"[]\n".toList, none⟩) n
      (.main (tgnews (sampleWorld fun _ => true) "top".toList "in".toList [] twoPages)) := by
  refine ⟨?_, ?_⟩
  · have h := tgnews_every_run (sampleWorld fun _ => false) sampleTools_textDetermined
      "top".toList "in".toList [] twoPages (length_of_globHTML length_htmlFiles_twoPages)
    have hseq : sequential (sampleWorld fun _ => false) "top".toList "in".toList [] twoPages
        = .error .badAlloc := by rfl
    rw [hseq] at h
    exact h
  · have h := tgnews_every_run (sampleWorld fun _ => true) sampleTools_textDetermined
      "top".toList "in".toList [] twoPages (length_of_globHTML length_htmlFiles_twoPages)
    have hseq : sequential (sampleWorld fun _ => true) "top".toList "in".toList [] twoPages
        = .ok ⟨"[]\n".toList, none⟩ := by
      refine (sequential_ok_iff _ _ _ _ _ _).mpr ⟨readable_twoPages, ?_⟩
      show printed (topTask _ (htmlFiles "in".toList twoPages)) = _
      rw [(htmlFiles_eq_map readable_twoPages.long).1, printed,
        topTask_writes _ sampleARTM_overCategories occurs_twoPages.1 occurs_twoPages.2 []]
      rfl
    rw [hseq] at h
    exact h

theorem top_exits_twoPages :
    Finishes (tgnews (sampleWorld fun _ => true) "top".toList "in".toList [] twoPages)
      (.ok ⟨"[]\n".toList, none⟩) :=
  (top_exits_iff (sampleWorld fun _ => true) sampleTools_textDetermined
    length_htmlFiles_twoPages sampleARTM_overCategories [] _).mpr
      ⟨readable_twoPages, occurs_twoPages, rfl⟩

/-- With both pages open the names are printed, with none of them open there is no output. -/
theorem news_exits_twoPages :
    Finishes (tgnews (sampleWorld fun _ => true) "news".toList "in".toList [] twoPages)
      (.ok ⟨jsonLine (fun _ => []) (newsJson ["a.html".toList, "b.html".toList]), none⟩)
    ∧ ∃ e, Finishes (tgnews (sampleWorld fun _ => false) "news".toList "in".toList [] twoPages)
      (.error e) := by
  have hnames : newsNames (sampleWorld fun _ => true).env "in".toList
      (relNames "in".toList twoPages) = ["a.html".toList, "b.html".toList] := by
    decide +kernel
  refine ⟨((news_exits_iff (sampleWorld fun _ => true) sampleTools_textDetermined
    (show "in".toList ≠ [] by decide) length_htmlFiles_twoPages []).1 _).mpr
      ⟨readable_twoPages, ?_, ?_⟩, (news_exits_iff (sampleWorld fun _ => false)
        sampleTools_textDetermined (show "in".toList ≠ [] by decide) length_htmlFiles_twoPages
        []).2 ?_⟩
  · rw [hnames]
    decide +kernel
  · rw [hnames]
    rfl
  · rintro ⟨hread, -⟩
    exact absurd (hread.opens "in/a.html".toList (by decide +kernel)) (by decide)

theorem categories_exits_twoPages :
    ∃ out, Finishes (tgnews (sampleWorld fun _ => true) "categories".toList "in".toList []
      twoPages) (.ok out) := by
  refine (categories_exits_iff (sampleWorld fun _ => true) sampleTools_textDetermined
    (show "in".toList ≠ [] by decide) length_htmlFiles_twoPages
    sampleARTM_overCategories []).mpr ⟨readable_twoPages, occurs_twoPages, ?_⟩
  decide +kernel

end TgnewsMain
