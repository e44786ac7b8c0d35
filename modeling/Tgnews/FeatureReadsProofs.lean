import Tgnews.CommonProofs
import Tgnews.TallyProofs

/-! # Reading features between updates (`common.h`)

    Any sequence of `BOW::Update`, `DocFeatures::Get` and `DocFeatures::Concat` on the
    bags of a document.  `Get` normalises a copy; `Concat` normalises the bags
    themselves, and words counted after it weigh more than the words before.

    A bag is a tally (`bow_update`, `bow_normalize`), and the calls are events for each
    of the bags (`events`), so `Tally.faithful_iff` says when the reads stay right:

    * `call_tracks`, `run_tracks` — along any calls every bag is the tally of its events;
    * `gets_true_iff` — all reads are right exactly when no `Concat` comes between
      different words of a bag (`Undisturbed`). -/

namespace TgnewsFeatureReads

open CxxContainers CxxText TgnewsCommon

/-! ## Calls -/

/-- A call on the features of a document. -/
inductive Call where
  | update (name word : Str)
  | get (name : Str)
  | concat (names : List Str)

/-- The bags a call is about. -/
def Call.names : Call → List Str
  | .update name _ => [name]
  | .get name => [name]
  | .concat names => names

/-- Whether a call is meant to change something. -/
def Call.isGet : Call → Bool
  | .get _ => true
  | _ => false

/-- One call: the features after it, and what it returns. -/
def Call.run (d : DocFeatures) : Call → Except Fault (DocFeatures × List ℚ)
  | .update name word => do
      let bow ← mapAt d.bows name
      let bow ← bow.update word
      return ({ d with bows := d.bows.insert name bow }, [])
  | .get name => do
      let vec ← d.get name
      return (d, vec)
  | .concat names => d.concat names

/-- A sequence of calls: the features after it, and what each call returned. -/
def runCalls (d : DocFeatures) : List Call → Except Fault (DocFeatures × List (List ℚ))
  | [] => .ok (d, [])
  | c :: cs => do
      let (d, vec) ← c.run d
      let (d, vecs) ← runCalls d cs
      return (d, vec :: vecs)

/-- The words passed to `Update` on a bag. -/
def shown (name : Str) (calls : List Call) : List Str :=
  calls.filterMap fun
    | .update name' word => if name' = name then some word else none
    | _ => none

/-! ## Bags as tallies -/

/-- The place of a word in a bag. -/
def place (dict : BOWDict) (w : Str) : Option (Fin dict.entries.length) :=
  (dict.lookup w).bind fun i => if h : i < dict.entries.length then some ⟨i, h⟩ else none

theorem place_eq {dict : BOWDict} (hd : Dense dict) {w : Str} {i : Nat}
    (h : dict.lookup w = some i) : place dict w = some ⟨i, hd w i h⟩ := by
  rw [place, h, Option.bind_some, dif_pos (hd w i h)]

theorem place_eq_none {dict : BOWDict} {w : Str} (h : dict.lookup w = none) :
    place dict w = none := by
  rw [place, h]
  rfl

/-- Counting a word in a bag. -/
theorem bow_update {dict : BOWDict} (hd : Dense dict) (v : Fin dict.entries.length → ℚ)
    (w : Str) : BOW.update ⟨List.ofFn v, dict⟩ w
      = .ok ⟨List.ofFn (match place dict w with
          | some i => v + Pi.single i 1
          | none => v), dict⟩ := by
  cases hw : dict.lookup w with
  | none => rw [BOW.update, hw, place_eq_none hw]
  | some i =>
      have hi := hd w i hw
      have hget : (List.ofFn v)[i]? = some (v ⟨i, hi⟩) := by
        rw [List.getElem?_ofFn, dif_pos hi]
      rw [BOW.update, hw, place_eq hd hw]
      simp only [hget]
      congr 2
      refine List.ext_getElem? fun j => ?_
      by_cases hj : j < dict.entries.length
      · by_cases hij : i = j
        · subst hij
          rw [List.getElem?_set_self (by rw [List.length_ofFn]; exact hj), List.getElem?_ofFn,
            dif_pos hj]
          simp
        · rw [List.getElem?_set_ne hij, List.getElem?_ofFn, List.getElem?_ofFn, dif_pos hj,
            dif_pos hj, Pi.add_apply, Pi.single_eq_of_ne (by simpa [Fin.ext_iff] using Ne.symm hij),
            add_zero]
      · rw [List.getElem?_eq_none (by rw [List.length_set, List.length_ofFn]; omega),
          List.getElem?_eq_none (by rw [List.length_ofFn]; omega)]

/-- Normalising a bag. -/
theorem bow_normalize {dict : BOWDict} (v : Fin dict.entries.length → ℚ) :
    BOW.normalize ⟨List.ofFn v, dict⟩ = ⟨List.ofFn (Tally.normalized v), dict⟩ := by
  have hsum : (List.ofFn v).sum = Tally.total v := List.sum_ofFn
  rw [BOW.normalize, Tally.normalized]
  simp only [hsum]
  by_cases h : 0 < Tally.total v
  · rw [if_pos h, if_pos h, List.map_ofFn]
    congr 2
    ext i
    rw [Function.comp_apply, Pi.smul_apply, smul_eq_mul, div_eq_inv_mul]
  · rw [if_neg h, if_neg h]

/-- The true counts of a list of words. -/
theorem countVec_eq_ofFn {dict : BOWDict} (hd : Dense dict) (words : List Str) :
    countVec dict words = List.ofFn (Tally.counts (words.filterMap (place dict))) := by
  induction words using List.reverseRecOn with
  | nil =>
      rw [countVec_nil, List.filterMap_nil]
      exact (List.ofFn_const _ _).symm
  | append_singleton words w ih =>
      -- an update adds the word on both sides
      have h := BOW.update_countVec hd words w
      rw [ih, bow_update hd] at h
      have hbag : _ = countVec dict (words ++ [w]) := congrArg BOW.bag (Except.ok.inj h)
      rw [← hbag, List.filterMap_append]
      cases hw : place dict w with
      | none => simp [hw]
      | some i => simp [hw, Tally.counts_concat]

/-- The frequencies of a list of words. -/
theorem freqVec_eq_ofFn {dict : BOWDict} (hd : Dense dict) (words : List Str) :
    freqVec dict words
      = List.ofFn (Tally.normalized (Tally.counts (words.filterMap (place dict)))) := by
  have h := BOW.normalize_countVec hd words
  rw [countVec_eq_ofFn hd, bow_normalize] at h
  exact h.symm

/-! ## Calls as events -/

/-- What a call is for a bag. -/
def event (dict : BOWDict) (name : Str) : Call → Option (Tally.Event (Fin dict.entries.length))
  | .update name' word => if name' = name then (place dict word).map .count else none
  | .get _ => none
  | .concat names => if name ∈ names then some .normalize else none

/-- What a sequence of calls is for a bag. -/
def events (dict : BOWDict) (name : Str) (calls : List Call) :
    List (Tally.Event (Fin dict.entries.length)) :=
  calls.filterMap (event dict name)

theorem counted_events (dict : BOWDict) (name : Str) (calls : List Call) :
    Tally.counted (events dict name calls) = (shown name calls).filterMap (place dict) := by
  rw [events, Tally.counted, shown, List.filterMap_filterMap, List.filterMap_filterMap]
  congr 1
  funext c
  cases c with
  | update name' word =>
      by_cases h : name' = name
      · cases hw : place dict word <;> simp [event, h, hw]
      · simp [event, h]
  | get name' => rfl
  | concat names =>
      by_cases h : name ∈ names
      · simp [event, h]
      · simp [event, h]

/-- A document all of whose bags are new. -/
structure NewBags (dict : Str → BOWDict) (d : DocFeatures) : Prop where
  dense : ∀ name, Dense (dict name)
  new : ∀ name ∈ d.bows, d.bows.lookup name = some (BOW.new (dict name))

/-- Every bag is the tally of the events of the calls. -/
def Tracks (dict : Str → BOWDict) (names : List Str) (calls : List Call) (d : DocFeatures) :
    Prop :=
  ∀ name, d.bows.lookup name = if name ∈ names then
    some ⟨List.ofFn (Tally.after (events (dict name) name calls)), dict name⟩ else none

/-! ## One call -/

/-- `Concat` normalises the bags it names; to do it twice changes nothing. -/
theorem concat_bows {names : List Str} {d : DocFeatures} (hmem : ∀ name ∈ names, name ∈ d.bows)
    (hidem : ∀ {name bow}, d.bows.lookup name = some bow →
      bow.normalize.normalize = bow.normalize) :
    ∃ d' vec, d.concat names = .ok (d', vec) ∧ ∀ name, d'.bows.lookup name
      = (d.bows.lookup name).map fun bow => if name ∈ names then bow.normalize else bow := by
  obtain ⟨⟨d', vec⟩, hrun, hbows⟩ := foldlM_prefix (l := names)
    (f := fun (d, result) name => do
      let bow ← mapAt d.bows name
      let bow := bow.normalize
      return ({ d with bows := d.bows.insert name bow },
        result ++ bow.get.map (· / (names.length : ℚ)))) (b := (d, ([] : List ℚ)))
    (I := fun done (state : DocFeatures × List ℚ) => ∀ name, state.1.bows.lookup name
      = (d.bows.lookup name).map fun bow => if name ∈ done then bow.normalize else bow)
    (by
      rintro done name hname ⟨d₁, result⟩ hI
      obtain ⟨bow, hbow⟩ := exists_lookup_of_mem (hmem name hname)
      have hbow₁ : d₁.bows.lookup name
          = some (if name ∈ done then bow.normalize else bow) := by
        have hname₁ := hI name
        rw [hbow] at hname₁
        exact hname₁
      refine ⟨_, by
        show (mapAt d₁.bows name >>= fun bow => _) = _
        rw [mapAt_of_lookup hbow₁]
        rfl, ?_⟩
      intro name'
      by_cases heq : name' = name
      · subst heq
        have hhere : name' ∈ done ++ [name'] := List.mem_append_right _ List.mem_cons_self
        rw [AList.lookup_insert, hbow, Option.map_some, if_pos hhere]
        by_cases hdone : name' ∈ done
        · rw [if_pos hdone, hidem hbow]
        · rw [if_neg hdone]
      · rw [AList.lookup_insert_ne heq, hI name']
        simp [heq])
    (fun name => by simp)
  exact ⟨d', vec, hrun, hbows⟩

section Runs

variable {dict : Str → BOWDict} {names : List Str} {d : DocFeatures}

/-- Appending a call appends its event. -/
theorem events_concat (dict : BOWDict) (name : Str) (calls : List Call) (c : Call) :
    events dict name (calls ++ [c]) = events dict name calls ++ (event dict name c).toList := by
  rw [events, List.filterMap_append]
  cases h : event dict name c <;> simp [events, h]

/-- What a read returns of a tracked bag. -/
theorem get_of_tracks {calls : List Call} (h : Tracks dict names calls d) {name : Str}
    (hname : name ∈ names) : d.get name
      = .ok (List.ofFn (Tally.normalized (Tally.after (events (dict name) name calls)))) := by
  have hbow := h name
  rw [if_pos hname] at hbow
  rw [DocFeatures.get, mapAt_of_lookup hbow, Except.map, bow_normalize]
  rfl

/-- **One call**: it does not fault, and every bag gets its event. -/
theorem call_tracks (hd : ∀ name, Dense (dict name)) {calls : List Call}
    (h : Tracks dict names calls d) {c : Call} (hc : ∀ name ∈ c.names, name ∈ names) :
    ∃ d' vec, c.run d = .ok (d', vec) ∧ Tracks dict names (calls ++ [c]) d' ∧
      ∀ name, c = .get name → vec
        = List.ofFn (Tally.normalized (Tally.after (events (dict name) name calls))) := by
  have hmem : ∀ {name}, name ∈ names → d.bows.lookup name
      = some ⟨List.ofFn (Tally.after (events (dict name) name calls)), dict name⟩ :=
    fun {name} hname => (h name).trans (if_pos hname)
  cases c with
  | update name word =>
      have hname : name ∈ names := hc name List.mem_cons_self
      refine ⟨_, _, by
        rw [Call.run, mapAt_of_lookup (hmem hname)]
        show (BOW.update _ word >>= fun bow => _) = _
        rw [bow_update (hd name)]
        rfl, ?_, fun name' heq => by cases heq⟩
      intro name'
      by_cases heq : name' = name
      · subst heq
        rw [AList.lookup_insert, if_pos hname, events_concat, event, if_pos rfl]
        cases hw : place (dict name') word with
        | none => simp
        | some i => simp [Tally.after_concat, Tally.step]
      · rw [AList.lookup_insert_ne heq, h name', events_concat, event, if_neg (Ne.symm heq)]
        simp
  | get name =>
      have hname : name ∈ names := hc name List.mem_cons_self
      refine ⟨d, _, by rw [Call.run, get_of_tracks h hname]; rfl, ?_, ?_⟩
      · intro name'
        rw [h name', events_concat, event, Option.toList_none, List.append_nil]
      · rintro name' heq
        obtain rfl := Call.get.inj heq
        rfl
  | concat cnames =>
      have hin : ∀ name ∈ cnames, name ∈ d.bows := fun name hname =>
        AList.lookup_isSome.mp (by rw [hmem (hc name hname)]; rfl)
      obtain ⟨d', vec, hrun, hbows⟩ := concat_bows hin (by
        intro name bow hbow
        rw [h name] at hbow
        by_cases hname : name ∈ names
        · rw [if_pos hname] at hbow
          obtain rfl := Option.some.inj hbow
          rw [bow_normalize, bow_normalize, Tally.normalized_normalized]
        · rw [if_neg hname] at hbow
          cases hbow)
      refine ⟨d', vec, hrun, ?_, fun name heq => by cases heq⟩
      intro name
      rw [hbows name, h name, events_concat, event]
      by_cases hname : name ∈ names
      · rw [if_pos hname, if_pos hname, Option.map_some]
        by_cases hcn : name ∈ cnames
        · rw [if_pos hcn, if_pos hcn, bow_normalize]
          simp [Tally.after_concat, Tally.step]
        · rw [if_neg hcn, if_neg hcn]
          simp
      · rw [if_neg hname, if_neg hname]
        rfl

/-- **A sequence of calls**: none faults, every bag is the tally of its events, and a
    read returns the normalised tally of the events before it. -/
theorem run_tracks (hd : ∀ name, Dense (dict name)) {done : List Call}
    (h : Tracks dict names done d) {rest : List Call}
    (hrest : ∀ c ∈ rest, ∀ name ∈ c.names, name ∈ names) :
    ∃ d' vecs, runCalls d rest = .ok (d', vecs) ∧ Tracks dict names (done ++ rest) d' ∧
      ∀ k name, rest[k]? = some (.get name) → vecs[k]? = some (List.ofFn (Tally.normalized
        (Tally.after (events (dict name) name (done ++ rest.take k))))) := by
  induction rest generalizing done d with
  | nil =>
      refine ⟨d, [], rfl, by rw [List.append_nil]; exact h, ?_⟩
      intro k name hk
      cases hk
  | cons c rest ih =>
      obtain ⟨d₁, vec, hrun, h₁, hvec⟩ := call_tracks hd h (hrest c List.mem_cons_self)
      obtain ⟨d₂, vecs, hruns, h₂, hvecs⟩ := ih h₁ fun c' hc' =>
        hrest c' (List.mem_cons_of_mem _ hc')
      rw [List.append_assoc, List.singleton_append] at h₂
      refine ⟨d₂, vec :: vecs, ?_, h₂, ?_⟩
      · rw [runCalls, hrun]
        show (runCalls d₁ rest >>= fun r => _) = _
        rw [hruns]
        rfl
      · intro k name hk
        cases k with
        | zero =>
            rw [List.take_zero, List.append_nil, List.getElem?_cons_zero]
            exact congrArg some (hvec name (Option.some.inj hk))
        | succ k =>
            rw [List.getElem?_cons_succ, hvecs k name hk, List.take_succ_cons, List.append_assoc,
              List.singleton_append]

end Runs

/-! ## When the reads are right -/

/-- The calls are on bags of the document. -/
def OnBags (d : DocFeatures) (calls : List Call) : Prop :=
  ∀ c ∈ calls, ∀ name ∈ c.names, name ∈ d.bows

/-- Every `Get` among the calls returns the frequencies of the known words that were
    passed to `Update` on its bag before. -/
def GetsTrue (dict : Str → BOWDict) (d : DocFeatures) (calls : List Call) : Prop :=
  ∃ d' vecs, runCalls d calls = .ok (d', vecs) ∧ ∀ k name, calls[k]? = some (.get name) →
    vecs[k]? = some (freqVec (dict name) (shown name (calls.take k)))

/-- The same updates and concatenations, with any reads between them. -/
def SameWrites (calls calls' : List Call) : Prop :=
  calls.filter (!·.isGet) = calls'.filter (!·.isGet)

/-- The places of the known words of a list. -/
def knownPlaces (dict : BOWDict) (words : List Str) : List Nat := words.filterMap dict.lookup

/-- No `Concat` on a bag that has counted two or more known words is followed by another
    known word for the bag, unless all its known words are one word. -/
def Undisturbed (dict : BOWDict) (name : Str) (calls : List Call) : Prop :=
  ∀ pre names post, calls = pre ++ .concat names :: post → name ∈ names →
    (knownPlaces dict (shown name pre)).length ≤ 1 ∨ knownPlaces dict (shown name post) = [] ∨
      Tally.AllSame (knownPlaces dict (shown name pre) ++ knownPlaces dict (shown name post))

theorem map_val_places {dict : BOWDict} (hd : Dense dict) (words : List Str) :
    (words.filterMap (place dict)).map Fin.val = knownPlaces dict words := by
  rw [knownPlaces, List.map_filterMap]
  congr 1
  funext w
  cases hw : dict.lookup w with
  | none => rw [place_eq_none hw]; rfl
  | some i => rw [place_eq hd hw]; rfl

/-- The call behind a division is a `Concat` of the bag. -/
theorem event_eq_normalize {dict : BOWDict} {name : Str} {c : Call}
    (h : event dict name c = some .normalize) : ∃ names, c = .concat names ∧ name ∈ names := by
  cases c with
  | update name' word =>
      rw [event] at h
      by_cases hname : name' = name
      · rw [if_pos hname, Option.map_eq_some_iff] at h
        obtain ⟨i, -, hi⟩ := h
        cases hi
      · rw [if_neg hname] at h
        cases h
  | get name' => cases h
  | concat names =>
      rw [event] at h
      by_cases hname : name ∈ names
      · exact ⟨names, rfl, hname⟩
      · rw [if_neg hname] at h
        cases h

/-- The condition on the calls is the one on the events of the bag. -/
theorem undisturbed_iff {dict : BOWDict} (hd : Dense dict) (name : Str) (calls : List Call) :
    Undisturbed dict name calls ↔ Tally.Unspoilt (events dict name calls) := by
  have hsplit : ∀ pre post : List Call,
      ((knownPlaces dict (shown name pre)).length ≤ 1 ∨ knownPlaces dict (shown name post) = [] ∨
        Tally.AllSame (knownPlaces dict (shown name pre) ++ knownPlaces dict (shown name post)))
      ↔ ((Tally.counted (events dict name pre)).length ≤ 1 ∨
        Tally.counted (events dict name post) = [] ∨
        Tally.AllSame (Tally.counted (events dict name pre)
          ++ Tally.counted (events dict name post))) := by
    intro pre post
    rw [counted_events, counted_events, ← map_val_places hd, ← map_val_places hd,
      ← List.map_append, List.length_map, List.map_eq_nil_iff]
    refine or_congr_right (or_congr_right ⟨?_, ?_⟩)
    · intro h i hi j hj
      exact Fin.ext (h i (List.mem_map_of_mem hi) j (List.mem_map_of_mem hj))
    · intro h i hi j hj
      obtain ⟨i', hi', rfl⟩ := List.mem_map.mp hi
      obtain ⟨j', hj', rfl⟩ := List.mem_map.mp hj
      exact congrArg Fin.val (h i' hi' j' hj')
  constructor
  · intro h pre post hev
    obtain ⟨a, rest, rfl, rfl, hrest⟩ := List.filterMap_eq_append_iff.mp hev
    obtain ⟨a', c, b, rfl, hnone, hc, rfl⟩ := List.filterMap_eq_cons_iff.mp hrest
    obtain ⟨names, rfl, hname⟩ := event_eq_normalize hc
    have hpre : events dict name (a ++ a') = events dict name a := by
      rw [events, List.filterMap_append, List.filterMap_eq_nil_iff.mpr hnone, List.append_nil]
      rfl
    have hcond := (hsplit (a ++ a') b).mp (h (a ++ a') names b (by rw [List.append_assoc]) hname)
    rw [hpre] at hcond
    exact hcond
  · intro h pre names post hcalls hname
    refine (hsplit pre post).mpr (h _ _ ?_)
    rw [hcalls, events, List.filterMap_append, List.filterMap_cons_some]
    · rfl
    · rw [event, if_pos hname]

/-- Reads are no events. -/
theorem events_eq_of_sameWrites {calls calls' : List Call} (h : SameWrites calls calls')
    (dict : BOWDict) (name : Str) : events dict name calls = events dict name calls' := by
  have hwrites : ∀ l : List Call,
      events dict name (l.filter (!·.isGet)) = events dict name l := by
    intro l
    rw [events, List.filterMap_filter, events]
    congr 1
    funext c
    cases c <;> rfl
  rw [← hwrites calls, h, hwrites calls']

/-- A document with new bags, before any call. -/
theorem tracks_new {dict : Str → BOWDict} {d : DocFeatures} (h : NewBags dict d) :
    Tracks dict d.bows.keys [] d := by
  intro name
  have hbag : List.replicate (dict name).entries.length (0 : ℚ)
      = List.ofFn (Tally.after (events (dict name) name [])) := (List.ofFn_const _ _).symm
  by_cases hname : name ∈ d.bows
  · rw [if_pos (AList.mem_keys.mp hname), h.new name hname, BOW.new, hbag]
  · rw [if_neg fun hk => hname (AList.mem_keys.mpr hk), AList.lookup_eq_none.mpr hname]

/-- **Reads are right, wherever they stand among the updates and concatenations,
    exactly when every bag is undisturbed.** -/
theorem gets_true_iff (dict : Str → BOWDict) (d : DocFeatures) (hnew : NewBags dict d)
    (calls : List Call) (hon : OnBags d calls) :
    (∀ calls', SameWrites calls calls' → OnBags d calls' → GetsTrue dict d calls') ↔
      ∀ name ∈ d.bows, Undisturbed (dict name) name calls := by
  have hnames : ∀ {cs : List Call}, OnBags d cs →
      ∀ c ∈ cs, ∀ name ∈ c.names, name ∈ d.bows.keys :=
    fun hcs c hc name hname => AList.mem_keys.mp (hcs c hc name hname)
  constructor
  · intro hreads name hname
    rw [undisturbed_iff (hnew.dense name), ← Tally.faithful_iff]
    intro p hp
    obtain ⟨pre, ⟨post, rfl⟩, rfl⟩ := List.prefix_filterMap_iff.mp hp
    -- read the bag at this point
    have hon' : OnBags d (pre ++ .get name :: post) := by
      intro c hc
      rcases List.mem_append.mp hc with hc | hc
      · exact hon c (List.mem_append_left _ hc)
      · rcases List.mem_cons.mp hc with rfl | hc
        · intro name' hname'
          rw [List.mem_singleton.mp hname']
          exact hname
        · exact hon c (List.mem_append_right _ hc)
    have hsame : SameWrites (pre ++ post) (pre ++ .get name :: post) := by
      rw [SameWrites, List.filter_append, List.filter_append,
        List.filter_cons_of_neg (by simp [Call.isGet])]
    obtain ⟨d', vecs, hrun, hgets⟩ := hreads _ hsame hon'
    obtain ⟨d₂, vecs₂, hrun₂, -, hgets₂⟩ :=
      run_tracks hnew.dense (tracks_new hnew) (hnames hon')
    obtain ⟨-, rfl⟩ := Prod.mk.inj (Except.ok.inj (hrun₂.symm.trans hrun))
    have hat : (pre ++ .get name :: post)[pre.length]? = some (.get name) := by simp
    have hread := (hgets₂ _ _ hat).symm.trans (hgets _ _ hat)
    rw [List.nil_append, List.take_left, freqVec_eq_ofFn (hnew.dense name)] at hread
    have hvec := List.ofFn_injective (Option.some.inj hread)
    rw [← counted_events] at hvec
    exact hvec
  · intro hund calls' hsame hon'
    obtain ⟨d', vecs, hrun, -, hgets⟩ := run_tracks hnew.dense (tracks_new hnew) (hnames hon')
    refine ⟨d', vecs, hrun, ?_⟩
    intro k name hk
    have hname : name ∈ d.bows :=
      hon' _ (List.mem_of_getElem? hk) name List.mem_cons_self
    have hfaithful := (Tally.faithful_iff _).mpr
      ((undisturbed_iff (hnew.dense name) name calls).mp (hund name hname))
    have hpre : events (dict name) name (calls'.take k) <+: events (dict name) name calls := by
      rw [events_eq_of_sameWrites hsame]
      exact (List.take_prefix k calls').filterMap _
    rw [hgets k name hk, List.nil_append, hfaithful _ hpre, counted_events,
      freqVec_eq_ofFn (hnew.dense name)]

/-- A dictionary of two words. -/
def sampleDict : BOWDict := (AList.insert "a".toList 0 ∅).insert "b".toList 1

theorem sampleDict_dense : Dense sampleDict := by
  intro w i h
  have hmem := AList.mem_lookup_iff.mp h
  have hall : ∀ e ∈ sampleDict.entries, e.2 < sampleDict.entries.length := by decide
  exact hall _ hmem

/-- A document with one bag. -/
def sampleDoc : DocFeatures :=
  { DocFeatures.new with bows := AList.insert "text".toList (BOW.new sampleDict) ∅ }

theorem sampleDoc_newBags : NewBags (fun _ => sampleDict) sampleDoc := by
  refine ⟨fun _ => sampleDict_dense, ?_⟩
  intro name hname
  have hall : ∀ k ∈ sampleDoc.bows.keys, k = "text".toList := by decide
  rw [hall name (AList.mem_keys.mp hname)]
  rfl

/-- Two words, then a concatenation. -/
def sampleCalls : List Call :=
  [.update "text".toList "a".toList, .update "text".toList "b".toList, .concat ["text".toList]]

/-- The same, with a read between the words and one at the end. -/
def sampleReads : List Call :=
  [.update "text".toList "a".toList, .get "text".toList, .update "text".toList "b".toList,
    .concat ["text".toList], .get "text".toList]

theorem gets_true_sampleCalls : GetsTrue (fun _ => sampleDict) sampleDoc sampleReads := by
  refine (gets_true_iff _ sampleDoc sampleDoc_newBags sampleCalls ?_).mpr ?_ sampleReads rfl ?_
  · rw [OnBags]
    decide
  · intro name hname pre names post hcalls _
    -- nothing comes after the only concatenation
    refine Or.inr (Or.inl ?_)
    rcases pre with _ | ⟨_, _ | ⟨_, _ | ⟨_, pre⟩⟩⟩
    · cases hcalls
    · cases hcalls
    · cases hcalls
      rfl
    · simp [sampleCalls] at hcalls
  · rw [OnBags]
    decide

/-- A word twice, a concatenation, another word: the read gives one half each, and the
    frequencies are two thirds and one third. -/
theorem gets_wrong_after_concat :
    ¬ GetsTrue (fun _ => sampleDict) sampleDoc
      [.update "text".toList "a".toList, .update "text".toList "a".toList,
        .concat ["text".toList], .update "text".toList "b".toList, .get "text".toList] := by
  rintro ⟨d', vecs, hrun, hgets⟩
  have hvecs : (runCalls sampleDoc
      [.update "text".toList "a".toList, .update "text".toList "a".toList,
        .concat ["text".toList], .update "text".toList "b".toList, .get "text".toList]).map Prod.snd
      = .ok [[], [], [1, 0], [], [1 / 2, 1 / 2]] := by decide +kernel
  rw [hrun] at hvecs
  obtain rfl := Except.ok.inj hvecs
  have hread := hgets 4 "text".toList rfl
  exact absurd hread (by decide +kernel)

end TgnewsFeatureReads
