import Tgnews.CommonProofs

/-! # Threads (`news_threads.hpp`)

    `GetThreads` keys documents by title.  It ASSIGNS the thread of a title where
    it might have appended to it, so of several documents with one title only the
    last is kept: the threads partition the documents exactly when the titles are
    distinct (`partitions_iff`). -/

namespace TgnewsNewsThreads

open CxxContainers CxxText TgnewsCommon

/-- `GetThreads`. -/
def getThreads (documents : List DocFeatures) : UMap Str (List DocFeatures) :=
  documents.foldl (fun threads document => threads.insert document.title [document]) ∅

/-- The threads partition the documents: together they are the documents, each as
    often as it was given, and each document is in the thread of its title. -/
structure Partitions (threads : UMap Str (List DocFeatures)) (docs : List DocFeatures) :
    Prop where
  perm : (threads.entries.flatMap fun e => e.2).Perm docs
  own : ∀ d ∈ docs, ∃ thread, threads.lookup d.title = some thread ∧ d ∈ thread

/-- The loop of `GetThreads` assigns a list of pairs. -/
theorem getThreads_eq_assignAll (docs : List DocFeatures) :
    getThreads docs = assignAll ∅ (docs.map fun d => (d.title, [d])) := by
  rw [getThreads, assignAll, List.foldl_map]

theorem titles_map (docs : List DocFeatures) :
    (docs.map fun d => (d.title, [d])).map Prod.fst = docs.map DocFeatures.title := by
  rw [List.map_map]
  rfl

/-- Every thread holds exactly one document. -/
theorem thread_singleton {docs : List DocFeatures} {e : Σ _ : Str, List DocFeatures}
    (h : e ∈ (getThreads docs).entries) : ∃ d ∈ docs, e.1 = d.title ∧ e.2 = [d] := by
  rw [getThreads_eq_assignAll] at h
  rcases mem_entries_assignAll h with hm | hl
  · exact nomatch hm
  · obtain ⟨d, hd, heq⟩ := List.mem_map.mp hl
    exact ⟨d, hd, (Prod.mk.inj heq).1.symm, (Prod.mk.inj heq).2.symm⟩

/-- The threads hold one document per distinct title. -/
theorem length_threads (docs : List DocFeatures) :
    ((getThreads docs).entries.flatMap fun e => e.2).length
      = (docs.map DocFeatures.title).dedup.length := by
  have hone : ∀ (l : List (Σ _ : Str, List DocFeatures)),
      (∀ e ∈ l, e.2.length = 1) → (l.flatMap fun e => e.2).length = l.length := by
    intro l hl
    induction l with
    | nil => rfl
    | cons e l ih =>
        rw [List.flatMap_cons, List.length_append, hl e List.mem_cons_self,
          ih (fun x hx => hl x (List.mem_cons_of_mem _ hx)), List.length_cons]
        omega
  rw [hone _ fun e he => ?_, getThreads_eq_assignAll, length_entries_assignAll, titles_map]
  obtain ⟨d, -, -, hd⟩ := thread_singleton he
  rw [hd]
  rfl

/-- With distinct titles the entries are the documents, each under its title. -/
theorem entries_getThreads {docs : List DocFeatures}
    (h : (docs.map DocFeatures.title).Nodup) :
    (getThreads docs).entries.Perm (docs.map fun d => ⟨d.title, [d]⟩) := by
  have hperm := entries_assignAll (m := (∅ : UMap Str (List DocFeatures)))
    (l := docs.map fun d => (d.title, [d])) (by rw [titles_map]; exact h)
    (fun p _ => AList.notMem_empty _)
  rw [← getThreads_eq_assignAll, AList.empty_entries, List.append_nil, List.map_map] at hperm
  exact hperm

/-- **Exactly distinct titles.**  `GetThreads` partitions its input if and only if
    no two documents share a title. -/
theorem partitions_iff (docs : List DocFeatures) :
    Partitions (getThreads docs) docs ↔ (docs.map DocFeatures.title).Nodup := by
  constructor
  · -- one document per distinct title is as many as there are documents
    intro h
    have hlen := h.perm.length_eq
    rw [length_threads] at hlen
    rw [← List.dedup_eq_self]
    refine (List.dedup_sublist _).eq_of_length ?_
    rw [hlen, List.length_map]
  · intro h
    have hperm := entries_getThreads h
    refine ⟨?_, ?_⟩
    · have hflat := hperm.flatMap_right fun e => e.2
      rw [List.flatMap_map] at hflat
      rw [show (docs.flatMap fun d => [d]) = docs from List.flatMap_singleton' docs] at hflat
      exact hflat
    · intro d hd
      refine ⟨[d], ?_, List.mem_cons_self⟩
      refine AList.mem_lookup_iff.mpr (hperm.mem_iff.mpr ?_)
      exact List.mem_map.mpr ⟨d, hd, rfl⟩

end TgnewsNewsThreads
