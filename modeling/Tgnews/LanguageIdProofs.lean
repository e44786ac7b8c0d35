import Tgnews.LangrecProofs
import Tgnews.SerializerProofs
import Tgnews.TextProcessingProofs
import Tgnews.Utf8StateTableProofs
import Mathlib.Order.Filter.AtTopBot.Basic

/-! # The text that is classified (`nnet_language_identifier.cc`)

    `FindLanguage` does not hand its input to the network as it is: it takes the valid front
    of it, runs it through a scanner that leaves letters and spaces, squeezes the result in
    place, and if there is still too much of it, takes snippets.  The network's part assumes
    interchange-valid UTF-8.  The route:

    * `snippets_spec` — the snippets lie one behind the other inside the text;
    * `selectTextGivenBeginAndSize_spec` — what is selected is valid and not too long;
    * **`findLanguage_eq`** — whatever the input, the network gets text as it assumes;
    * **`recognizeLanguage_network`** — so `RecognizeLanguage` returns a document only if a
      site list has named its language, or the network has, asked about such text. -/

namespace TgnewsLanguageId

open CxxText TgnewsHtml TgnewsLangrec TgnewsSerializer
open Utf8 TgnewsUtf8StateTable TgnewsTextProcessing

/-! ## The code -/

def kMaxNumInputBytesToConsider : Nat := 10000
def kNumSnippets : Nat := 5

/-- The largest `int`. -/
def intMax : Nat := 2 ^ 31 - 1

/-- `NNetLanguageIdentifier(min_num_bytes, max_num_bytes)`, as far as the choice of the text
    reads it; the fields are what its constructor checks. -/
structure NNetLanguageIdentifier where
  minNumBytes : Nat
  maxNumBytes : Nat
  min_lt_max : minNumBytes < maxNumBytes

namespace NNetLanguageIdentifier

variable (identifier : NNetLanguageIdentifier)

def numSnippets : Nat := if identifier.maxNumBytes ≤ kNumSnippets then 1 else kNumSnippets

def snippetSize : Nat := identifier.maxNumBytes / identifier.numSnippets

end NNetLanguageIdentifier

/-- `SpanInterchangeValid` on `byteLength` bytes from `src` on, which have to be there. -/
def spanAt (text : List Nat) (jumps src byteLength : Nat) : Option Nat :=
  if src + byteLength ≤ text.length then
    spanInterchangeValid ((text.drop src).take byteLength) jumps
  else none

/-- `FindNumValidBytesToProcess`. -/
def findNumValidBytesToProcess (jumps : Nat) (text : List Nat) : Option Nat :=
  let docTextSize := if text.length < intMax then text.length else intMax
  spanAt text jumps 0 (min kMaxNumInputBytesToConsider docTextSize)

/-- The loop over the snippets. -/
def snippets (jumps snippetSize numSkipBytes : Nat) (text : List Nat) :
    Nat → Nat → List Nat → Option (List Nat)
  | 0, _, outputText => some outputText
  | n + 1, snippetEnd, outputText => do
      let actualNumSkipBytes ← spanAt text jumps snippetEnd numSkipBytes
      let snippetBegin := snippetEnd + actualNumSkipBytes
      let actualSnippetSize ← spanAt text jumps snippetBegin snippetSize
      snippets jumps snippetSize numSkipBytes text n (snippetBegin + actualSnippetSize)
        (outputText ++ (text.drop snippetBegin).take actualSnippetSize ++ [0x20])

/-- `SelectTextGivenBeginAndSize`, on the `text_size` bytes from `text_begin` on. -/
def selectTextGivenBeginAndSize (identifier : NNetLanguageIdentifier) (jumps : Nat)
    (text : List Nat) : Option (List Nat) :=
  if identifier.maxNumBytes < text.length then
    let numSkipBytes :=
      (text.length - identifier.maxNumBytes) / (identifier.numSnippets + 1)
    snippets jumps identifier.snippetSize numSkipBytes text identifier.numSnippets 0 []
  else some text

/-- The text that `FindLanguage` gives to `FindLanguageOfValidUTF8`; there is none where it
    returns `Result()`.  The scanner gives the spans that `GetOneScriptSpanLower` finds. -/
def textToProcess (identifier : NNetLanguageIdentifier)
    (scriptSpans : List Nat → List (List Nat)) (jumps turns : Nat) (text : List Nat) :
    Option (Option (List Nat)) := do
  let numValidBytes ← findNumValidBytesToProcess jumps text
  let cleaned := (scriptSpans (text.take numValidBytes)).flatten
  if cleaned.length < identifier.minNumBytes then return none
  else
    let (newLength, buf) ← cheapSqueezeInplace (cleaned ++ [0]) cleaned.length 0 turns
    if newLength < identifier.minNumBytes then return none
    else
      let squeezed ← selectTextGivenBeginAndSize identifier jumps (buf.take newLength)
      return some squeezed

/-- `FindLanguage`: `Result()`, or what the network says of the text. -/
def findLanguage {R : Type} (identifier : NNetLanguageIdentifier)
    (scriptSpans : List Nat → List (List Nat)) (unknown : R)
    (findLanguageOfValidUTF8 : List Nat → R) (jumps turns : Nat) (text : List Nat) : Option R := do
  match ← textToProcess identifier scriptSpans jumps turns text with
  | none => return unknown
  | some squeezed => return findLanguageOfValidUTF8 squeezed

/-- The identifier of `RecognizeLanguage`. -/
def langrec : NNetLanguageIdentifier := ⟨0, 1000, by decide⟩

/-! ## Spans -/

theorem spanAt_spec {text : List Nat} (htext : ∀ b ∈ text, b < 256) {jumps src byteLength : Nat}
    (hlen : src + byteLength ≤ text.length) (hjumps : text.length < jumps) :
    ∃ n, spanAt text jumps src byteLength = some n ∧ n ≤ byteLength ∧
      Interchange ((text.drop src).take n) := by
  have hlength : ((text.drop src).take byteLength).length = byteLength := by
    rw [List.length_take, List.length_drop]
    omega
  have hbytes : ∀ b ∈ (text.drop src).take byteLength, b < 256 :=
    fun b hb => htext b (List.mem_of_mem_drop (List.mem_of_mem_take hb))
  obtain ⟨n, e, hscan, ⟨hle, hvalid⟩, -⟩ :=
    genericScan_longest acceptInterchange_utf8acceptinterchangeObj hbytes (show _ < jumps by omega)
  have hn : spanInterchangeValid ((text.drop src).take byteLength) jumps = some n := by
    rw [spanInterchangeValid, hscan]
    rfl
  rw [hlength] at hle
  rw [List.take_take, Nat.min_eq_left hle] at hvalid
  exact ⟨n, (if_pos hlen).trans hn, hle, hvalid⟩

/-- The arithmetic of the snippets: all of them and what is between them fit. -/
theorem snippets_fit (identifier : NNetLanguageIdentifier) {textSize : Nat}
    (hlong : identifier.maxNumBytes < textSize) :
    identifier.numSnippets * ((textSize - identifier.maxNumBytes) / (identifier.numSnippets + 1)
      + identifier.snippetSize) ≤ textSize ∧
    identifier.numSnippets * (identifier.snippetSize + 1)
      ≤ identifier.maxNumBytes + identifier.numSnippets := by
  have hsize : identifier.numSnippets * identifier.snippetSize ≤ identifier.maxNumBytes :=
    Nat.mul_div_le _ _
  have hskip : identifier.numSnippets * ((textSize - identifier.maxNumBytes)
      / (identifier.numSnippets + 1)) ≤ textSize - identifier.maxNumBytes :=
    le_trans (Nat.mul_le_mul_right _ (Nat.le_succ _)) (Nat.mul_div_le _ _)
  rw [Nat.mul_add, Nat.mul_add]
  omega

/-- **The snippets**: each is valid and followed by a space, and with `n` of them to go there
    is room for them. -/
theorem snippets_spec {text : List Nat} (htext : ∀ b ∈ text, b < 256)
    {jumps snippetSize numSkipBytes n snippetEnd : Nat} {outputText : List Nat}
    (hjumps : text.length < jumps) (houtput : Interchange outputText)
    (hroom : snippetEnd + n * (numSkipBytes + snippetSize) ≤ text.length) :
    ∃ out, snippets jumps snippetSize numSkipBytes text n snippetEnd outputText = some out ∧
      Interchange out ∧ out.length ≤ outputText.length + n * (snippetSize + 1) := by
  induction n generalizing snippetEnd outputText with
  | zero => exact ⟨outputText, rfl, houtput, Nat.le_add_right _ _⟩
  | succ n ih =>
      rw [Nat.succ_mul] at hroom
      obtain ⟨skip, hskip, hskipLe, -⟩ := spanAt_spec htext
        (show snippetEnd + numSkipBytes ≤ text.length by omega) hjumps
      obtain ⟨size, hsize, hsizeLe, hvalid⟩ := spanAt_spec htext
        (show snippetEnd + skip + snippetSize ≤ text.length by omega) hjumps
      simp only [snippets, hskip, hsize, Option.bind_eq_bind, Option.bind_some]
      have hspace : Interchange [0x20] :=
        ⟨[' '], by simpa using ⟨.inl (by decide), by decide, by decide⟩, rfl⟩
      obtain ⟨out, hout, hvalidOut, hlength⟩ :=
        ih ((houtput.append hvalid).append hspace)
          (show snippetEnd + skip + size + n * (numSkipBytes + snippetSize) ≤ text.length by omega)
      refine ⟨out, hout, hvalidOut, le_trans hlength ?_⟩
      rw [List.length_append, List.length_append, List.length_take, List.length_singleton,
        Nat.succ_mul]
      omega

/-- **`SelectTextGivenBeginAndSize`**: what is selected is valid, and not longer than the
    bytes to consider with a space for each snippet. -/
theorem selectTextGivenBeginAndSize_spec (identifier : NNetLanguageIdentifier)
    {text : List Nat} (htext : Interchange text) {jumps : Nat} (hjumps : text.length < jumps) :
    ∃ out, selectTextGivenBeginAndSize identifier jumps text = some out ∧ Interchange out ∧
      out.length ≤ identifier.maxNumBytes + identifier.numSnippets := by
  rw [selectTextGivenBeginAndSize]
  by_cases hlong : identifier.maxNumBytes < text.length
  · rw [if_pos hlong]
    obtain ⟨hroom, hsize⟩ := snippets_fit identifier hlong
    obtain ⟨out, hout, hvalid, hlength⟩ := snippets_spec htext.valid.lt hjumps
      (encodes_nil InterchangeValid) (by rw [Nat.zero_add]; exact hroom)
    refine ⟨out, hout, hvalid, ?_⟩
    rw [List.length_nil] at hlength
    omega
  · rw [if_neg hlong]
    exact ⟨text, rfl, htext, by omega⟩

/-! ## The text for the network -/

theorem encodes_flatten {P : Char → Prop} {spans : List (List Nat)}
    (h : ∀ span ∈ spans, Encodes P span) : Encodes P spans.flatten := by
  induction spans with
  | nil => exact encodes_nil P
  | cons span spans ih =>
      obtain ⟨hspan, hspans⟩ := List.forall_mem_cons.mp h
      exact hspan.append (ih hspans)

theorem findNumValidBytesToProcess_spec {text : List Nat} (htext : ∀ b ∈ text, b < 256)
    {jumps : Nat} (hjumps : text.length < jumps) :
    ∃ n, findNumValidBytesToProcess jumps text = some n ∧
      n ≤ min kMaxNumInputBytesToConsider text.length ∧ Interchange (text.take n) := by
  rw [findNumValidBytesToProcess]
  obtain ⟨n, hn, hle, hvalid⟩ := spanAt_spec htext (show 0 + min kMaxNumInputBytesToConsider
      (if text.length < intMax then text.length else intMax) ≤ text.length by
    split_ifs <;> omega) hjumps
  exact ⟨n, hn, le_trans hle (by split_ifs <;> omega), hvalid⟩

/-- The text that is left after squeezing, and what is selected of it. -/
theorem squeeze_select (identifier : NNetLanguageIdentifier) {cleaned : List Nat}
    (hcleaned : Interchange cleaned) {turns : Nat} (hturns : cleaned.length < turns) :
    ∃ newLength buf squeezed,
      cheapSqueezeInplace (cleaned ++ [0]) cleaned.length 0 turns = some (newLength, buf) ∧
      selectTextGivenBeginAndSize identifier turns (buf.take newLength) = some squeezed ∧
      Interchange squeezed ∧ squeezed.length ≤ identifier.maxNumBytes + identifier.numSnippets := by
  have hspace : InterchangeValid ' ' := ⟨.inl (by decide), by decide, by decide⟩
  obtain ⟨s, buf, hsqueeze, hs, -, hfront⟩ := squeezed_text hspace hcleaned 0 hturns
  have hvalid : Interchange (buf.take s.dst) := hfront ▸ hs.front
  have hlength : (buf.take s.dst).length < turns := by
    have := hs.dst_le
    have := hs.src_le
    rw [List.length_take]
    omega
  obtain ⟨squeezed, hselect, hinterchange, hsize⟩ :=
    selectTextGivenBeginAndSize_spec identifier hvalid hlength
  exact ⟨s.dst, buf, squeezed, hsqueeze, hselect, hinterchange, hsize⟩

section FindLanguage

variable {R : Type} (identifier : NNetLanguageIdentifier)
  {scriptSpans : List Nat → List (List Nat)}
  (hspans : ∀ bytes, Interchange bytes → ∀ span ∈ scriptSpans bytes, Interchange span)
  (unknown : R) (findLanguageOfValidUTF8 : List Nat → R) {text : List Nat}
  (htext : ∀ b ∈ text, b < 256)

include hspans htext

/-- With turns for the text, and for whatever the scanner makes of its front, the network is
    asked about a text, or it is not asked at all because a smallest size is set. -/
theorem findLanguage_of_turns {turns : Nat} (hturns : text.length < turns)
    (hclean : ∀ n ≤ text.length, (scriptSpans (text.take n)).flatten.length < turns) :
    (0 < identifier.minNumBytes ∧ findLanguage identifier scriptSpans unknown
        findLanguageOfValidUTF8 turns turns text = some unknown) ∨
      ∃ squeezed, Interchange squeezed ∧
        squeezed.length ≤ identifier.maxNumBytes + identifier.numSnippets ∧
        findLanguage identifier scriptSpans unknown findLanguageOfValidUTF8 turns turns text
          = some (findLanguageOfValidUTF8 squeezed) := by
  obtain ⟨n, hn, hle, hvalid⟩ := findNumValidBytesToProcess_spec htext hturns
  have hcleaned : Interchange (scriptSpans (text.take n)).flatten :=
    encodes_flatten (hspans _ hvalid)
  obtain ⟨newLength, buf, squeezed, hsqueeze, hselect, hinterchange, hsize⟩ :=
    squeeze_select identifier hcleaned (hclean n (le_trans hle (min_le_right _ _)))
  simp only [findLanguage, textToProcess, hn, hsqueeze, hselect, Option.bind_eq_bind,
    Option.bind_some]
  split_ifs with hshort hshort'
  · exact .inl ⟨by omega, rfl⟩
  · exact .inl ⟨by omega, rfl⟩
  · exact .inr ⟨squeezed, hinterchange, hsize, rfl⟩

/-- **`FindLanguage`** on any input: no access is out of bounds and every loop ends.  The
    network is asked about interchange-valid text that is not too long; where it is not
    asked, a smallest size is set. -/
theorem findLanguage_eq :
    ∀ᶠ turns in Filter.atTop,
      (0 < identifier.minNumBytes ∧ findLanguage identifier scriptSpans unknown
        findLanguageOfValidUTF8 turns turns text = some unknown) ∨
      ∃ squeezed, Interchange squeezed ∧
        squeezed.length ≤ identifier.maxNumBytes + identifier.numSnippets ∧
        findLanguage identifier scriptSpans unknown findLanguageOfValidUTF8 turns turns text
          = some (findLanguageOfValidUTF8 squeezed) := by
  have hclean : ∀ᶠ turns in Filter.atTop, ∀ n ∈ Finset.range (text.length + 1),
      (scriptSpans (text.take n)).flatten.length < turns :=
    (Filter.eventually_all_finset _).mpr fun n _ => Filter.eventually_gt_atTop _
  filter_upwards [Filter.eventually_gt_atTop text.length, hclean] with turns hturns hclean
  exact findLanguage_of_turns identifier hspans unknown findLanguageOfValidUTF8 htext hturns
    fun n hn => hclean n (Finset.mem_range.mpr (by omega))

end FindLanguage

/-- A scanner that finds one span. -/
theorem findLanguage_eq_sample :
    ∀ᶠ turns in Filter.atTop,
      (0 < langrec.minNumBytes ∧ findLanguage langrec (fun bytes => [bytes]) 0 List.length
        turns turns [0x41, 0xC3, 0xA9, 0xFF] = some 0) ∨
      ∃ squeezed, Interchange squeezed ∧ squeezed.length ≤ 1000 + 5 ∧
        findLanguage langrec (fun bytes => [bytes]) 0 List.length turns turns
          [0x41, 0xC3, 0xA9, 0xFF] = some squeezed.length :=
  findLanguage_eq langrec (fun bytes h span hspan => List.mem_singleton.mp hspan ▸ h) 0
    List.length (by decide)

/-! ## The identifier of `RecognizeLanguage` -/

section Recognizer

variable (scriptSpans : List Nat → List (List Nat)) (network : List Nat → LangResult)

/-- Turns for a text, and for what the scanner makes of any front of it. -/
def turnsFor (text : List Nat) : Nat :=
  text.length + ((List.range (text.length + 1)).map fun n =>
    (scriptSpans (text.take n)).flatten.length).sum + 1

/-- `langrec.FindLanguage`; `Result()` has the language `und`. -/
def identify (text : Str) : LangResult :=
  let turns := turnsFor scriptSpans (text.map byteOf)
  (findLanguage langrec scriptSpans ⟨"und".toList, 0⟩ network turns turns
    (text.map byteOf)).getD ⟨"und".toList, 0⟩

/-- The surroundings of the recogniser with this identifier. -/
def cldEnv (siteFile : Str → Str) : LangEnv where
  siteFile := siteFile
  findLanguage := identify scriptSpans network

variable {scriptSpans}
  (hspans : ∀ bytes, Interchange bytes → ∀ span ∈ scriptSpans bytes, Interchange span)

include hspans

/-- The identifier answers what the network does, asked about some text as it assumes. -/
theorem identify_eq (text : Str) :
    ∃ squeezed, Interchange squeezed ∧ squeezed.length ≤ 1000 + 5 ∧
      identify scriptSpans network text = network squeezed := by
  have htext : ∀ b ∈ text.map byteOf, b < 256 := by
    intro b hb
    obtain ⟨c, -, rfl⟩ := List.mem_map.mp hb
    exact Nat.mod_lt _ (by decide)
  have hclean : ∀ n ≤ (text.map byteOf).length,
      (scriptSpans ((text.map byteOf).take n)).flatten.length
        < turnsFor scriptSpans (text.map byteOf) := by
    intro n hn
    have hmem : n ∈ List.range ((text.map byteOf).length + 1) :=
      List.mem_range.mpr (Nat.lt_succ_of_le hn)
    have hle := List.single_le_sum (fun _ _ => Nat.zero_le _) _
      (List.mem_map_of_mem (f := fun n =>
        (scriptSpans ((text.map byteOf).take n)).flatten.length) hmem)
    rw [turnsFor]
    omega
  have hturns : (text.map byteOf).length < turnsFor scriptSpans (text.map byteOf) := by
    rw [turnsFor]
    omega
  rcases findLanguage_of_turns langrec hspans ⟨"und".toList, 0⟩ network htext hturns hclean with
    ⟨hmin, -⟩ | ⟨squeezed, hvalid, hlength, heq⟩
  · -- no smallest size is set
    exact absurd hmin (Nat.lt_irrefl 0)
  · refine ⟨squeezed, hvalid, hlength, ?_⟩
    simp only [identify, heq, Option.getD_some]

/-- **Where a language comes from**: a document that `RecognizeLanguage` returns has the
    language of the first list with its site, or the one that the network has answered when
    it was asked about interchange-valid text of at most 1005 bytes. -/
theorem recognizeLanguage_network {siteFile : Str → Str} {lists : SiteLists}
    (hlists : (cldEnv scriptSpans network siteFile).Holds lists) (useLists : Bool)
    (docs : List HTMLDocument) :
    ∀ doc ∈ (recognizeLanguage (cldEnv scriptSpans network siteFile) useLists docs).1,
      (useLists = true ∧ lists.langOf (doc.getMeta "og:site_name".toList)
          = some (doc.getMeta "lang".toList)) ∨
        ∃ squeezed, Interchange squeezed ∧ squeezed.length ≤ 1000 + 5 ∧
          doc.getMeta "lang".toList = (network squeezed).language := by
  intro doc hdoc
  rw [recognizeLanguage_result] at hdoc
  obtain ⟨doc, -, rfl⟩ := List.mem_map.mp (List.mem_of_mem_filter hdoc)
  rw [getMeta_recogDoc _ _ _ (by decide) (by decide), lang_recogDoc,
    decidedLang_eq_recognizedLang hlists]
  obtain ⟨squeezed, hvalid, hlength, heq⟩ := identify_eq network hspans doc.text
  have hnetwork : (cldEnv scriptSpans network siteFile).findLanguage doc.text
      = network squeezed := heq
  rw [recognizedLang, hnetwork]
  cases useLists with
  | false => exact .inr ⟨squeezed, hvalid, hlength, rfl⟩
  | true =>
      rw [if_pos rfl]
      cases hsite : lists.langOf (doc.getMeta "og:site_name".toList) with
      | some lang => exact .inl ⟨rfl, rfl⟩
      | none => exact .inr ⟨squeezed, hvalid, hlength, rfl⟩

end Recognizer

/-- A page of no site, with a network that always answers Russian. -/
theorem recognizeLanguage_network_ru :
    ∃ doc ∈ (recognizeLanguage (cldEnv (fun bytes => [bytes]) (fun _ => ⟨"ru".toList, 1⟩)
        sampleEnv.siteFile) true [HTMLDocument.empty]).1,
      (true = true ∧ sampleLists.langOf (doc.getMeta "og:site_name".toList)
          = some (doc.getMeta "lang".toList)) ∨
        ∃ squeezed, Interchange squeezed ∧ squeezed.length ≤ 1000 + 5 ∧
          doc.getMeta "lang".toList = "ru".toList := by
  have hlists : (cldEnv (fun bytes => [bytes]) (fun _ => ⟨"ru".toList, 1⟩)
      sampleEnv.siteFile).Holds sampleLists :=
    ⟨sampleEnv_holds.ru, sampleEnv_holds.en, sampleEnv_holds.other⟩
  have hreturned : (recognizeLanguage (cldEnv (fun bytes => [bytes])
      (fun _ => ⟨"ru".toList, 1⟩) sampleEnv.siteFile) true [HTMLDocument.empty]).1 ≠ [] := by
    decide +kernel
  obtain ⟨doc, hdoc⟩ := List.exists_mem_of_ne_nil _ hreturned
  exact ⟨doc, hdoc, recognizeLanguage_network (fun _ => ⟨"ru".toList, 1⟩)
    (fun bytes h span hspan => List.mem_singleton.mp hspan ▸ h) hlists true _ doc hdoc⟩

end TgnewsLanguageId
