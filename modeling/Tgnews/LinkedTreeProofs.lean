import Mathlib.Data.List.Basic
import Mathlib.Data.List.Nodup
import Mathlib.Logic.Function.Basic
import Mathlib.Order.Filter.AtTopBot.Basic
import Mathlib.Logic.Relation
import Mathlib.Tactic.Common

/-! # Trees in a heap of nodes with links

    Every node has pointers to its parent, its neighbours and its first and last child.
    The heap stands for a function that gives each node the list of its children; whether
    what hangs below a node is a finite tree is said apart from that.  The route:

    * `Represents.splice` — one frame lemma for every change of one list of children;
      `inserts_insertChild`, `inserts_insertBefore`, `inserts_insertAfter` and
      `removes_remove` — what the operations do to the links, as its instances need it;
    * `Grounded.insert` — no operation makes a cycle, so `run_represents` holds of every
      sequence of them;
    * `walk_eq` — the loop that follows the links visits the nodes in document order. -/

namespace LinkedTree

variable {ι : Type}

/-- The links of a node. -/
structure Links (ι : Type) where
  parent : Option ι
  firstChild : Option ι
  lastChild : Option ι
  prev : Option ι
  next : Option ι

/-- A node that is nowhere, with nothing below it. -/
def Links.none : Links ι := ⟨Option.none, Option.none, Option.none, Option.none, Option.none⟩

/-- The nodes by their addresses. -/
abbrev Heap (ι : Type) := ι → Links ι

/-- The children of each node, in order. -/
abbrev Children (ι : Type) := ι → List ι

/-! ## What a heap stands for -/

/-- The links of a child that has `before` and `behind` beside it. -/
structure Placed (h : Heap ι) (p : ι) (before : List ι) (i : ι) (behind : List ι) : Prop where
  parent : (h i).parent = some p
  prev : (h i).prev = before.getLast?
  next : (h i).next = behind.head?

/-- A node that is a child of no node. -/
structure Detached (h : Heap ι) (i : ι) : Prop where
  parent : (h i).parent = none
  prev : (h i).prev = none
  next : (h i).next = none

/-- Detaching such a node again changes nothing. -/
theorem Detached.eq {h : Heap ι} {i : ι} (hd : Detached h i) :
    { h i with parent := none, next := none, prev := none } = h i := by
  obtain ⟨hparent, hprev, hnext⟩ := hd
  cases hlinks : h i with
  | mk parent first last prev next =>
      rw [hlinks] at hparent hprev hnext
      simp only at hparent hprev hnext
      subst hparent hprev hnext
      rfl

/-- **The heap stands for the lists of children.** -/
structure Represents (h : Heap ι) (kids : Children ι) : Prop where
  first : ∀ p, (h p).firstChild = (kids p).head?
  last : ∀ p, (h p).lastChild = (kids p).getLast?
  nodup : ∀ p, (kids p).Nodup
  placed : ∀ p before i behind, kids p = before ++ i :: behind → Placed h p before i behind
  detached : ∀ i, (∀ p, i ∉ kids p) → Detached h i

/-- A child knows its parent. -/
theorem Represents.parent_of_mem {h : Heap ι} {kids : Children ι} (hr : Represents h kids)
    {p i : ι} (hi : i ∈ kids p) : (h i).parent = some p := by
  obtain ⟨before, behind, hsplit⟩ := List.append_of_mem hi
  exact (hr.placed p before i behind hsplit).parent

/-- A node is a child of one node at most. -/
theorem Represents.parent_unique {h : Heap ι} {kids : Children ι} (hr : Represents h kids)
    {p q i : ι} (hp : i ∈ kids p) (hq : i ∈ kids q) : p = q :=
  Option.some.inj ((hr.parent_of_mem hp).symm.trans (hr.parent_of_mem hq))

/-- The two tests of `remove` tell whether the node is first or last. -/
theorem first_iff {before behind : List ι} {node : ι} (h : (before ++ node :: behind).Nodup) :
    (before ++ node :: behind).head? = some node ↔ before = [] := by
  cases before with
  | nil => simp
  | cons b before =>
      have hb : b ≠ node := by
        rintro rfl
        exact List.disjoint_of_nodup_append h List.mem_cons_self List.mem_cons_self
      simp [hb]

/-- A node is the last one if there is none behind it. -/
theorem last_iff {before behind : List ι} {node : ι} (h : (before ++ node :: behind).Nodup) :
    (before ++ node :: behind).getLast? = some node ↔ behind = [] := by
  rcases List.eq_nil_or_concat' behind with rfl | ⟨behind, b, rfl⟩
  · simp
  · have hb : b ≠ node := by
      rintro rfl
      exact (List.nodup_cons.mp (List.nodup_append.mp h).2.1).1 (by simp)
    rw [← List.cons_append, ← List.append_assoc, List.getLast?_concat]
    simp [hb]

/-! ## Trees -/

/-- `i` has a finite tree below it: no chain of children goes on for ever. -/
def Grounded (kids : Children ι) (i : ι) : Prop := Acc (fun c p => c ∈ kids p) i

/-- `j` is `i` or below it. -/
def Below (kids : Children ι) : ι → ι → Prop := Relation.ReflTransGen fun p c => c ∈ kids p

/-- With fewer children nothing below gets deeper. -/
theorem Grounded.of_subset {kids kids' : Children ι} {i : ι} (h : Grounded kids i)
    (hsub : ∀ q, kids' q ⊆ kids q) : Grounded kids' i :=
  Subrelation.accessible (fun {_ q} hc => hsub q hc) h

/-- A tree that `p` is not in does not see a change at `p`. -/
theorem Grounded.of_not_below {kids kids' : Children ι} {i p : ι} (h : Grounded kids i)
    (hne : ∀ q, q ≠ p → kids' q = kids q) (hp : ¬ Below kids i p) : Grounded kids' i := by
  induction h with
  | intro i _ ih =>
      have hi : i ≠ p := by
        rintro rfl
        exact hp .refl
      refine .intro i fun c hc => ?_
      rw [hne i hi] at hc
      exact ih c hc fun hbelow => hp (.head hc hbelow)

/-- **A node comes in below `p`**, and `p` is not in its tree: there is no new cycle. -/
theorem Grounded.insert {kids kids' : Children ι} {i p node : ι} (h : Grounded kids i)
    (hne : ∀ q, q ≠ p → kids' q = kids q) (hsub : ∀ c ∈ kids' p, c ∈ kids p ∨ c = node)
    (hnode : Grounded kids node) (hp : ¬ Below kids node p) : Grounded kids' i := by
  induction h with
  | intro i _ ih =>
      refine .intro i fun c hc => ?_
      by_cases hi : i = p
      · subst hi
        rcases hsub c hc with hold | rfl
        · exact ih c hold
        · exact hnode.of_not_below hne hp
      · rw [hne i hi] at hc
        exact ih c hc

/-- The nodes of a tree, in document order. -/
inductive NodeTree (ι : Type) where
  | node (id : ι) (children : List (NodeTree ι))

def NodeTree.id : NodeTree ι → ι
  | .node i _ => i

def NodeTree.children : NodeTree ι → List (NodeTree ι)
  | .node _ cs => cs

mutual

/-- The tree is what hangs below its root. -/
def NodeTree.Of (kids : Children ι) : NodeTree ι → Prop
  | .node i cs => kids i = cs.map NodeTree.id ∧ AllOf kids cs

def AllOf (kids : Children ι) : List (NodeTree ι) → Prop
  | [] => True
  | t :: ts => t.Of kids ∧ AllOf kids ts

end

mutual

/-- The nodes, each before those below it. -/
def NodeTree.preorder : NodeTree ι → List ι
  | .node i cs => i :: preorderAll cs

def preorderAll : List (NodeTree ι) → List ι
  | [] => []
  | t :: ts => t.preorder ++ preorderAll ts

end

mutual

/-- The subtrees, in document order. -/
def NodeTree.subtrees : NodeTree ι → List (NodeTree ι)
  | .node i cs => .node i cs :: subtreesAll cs

def subtreesAll : List (NodeTree ι) → List (NodeTree ι)
  | [] => []
  | t :: ts => t.subtrees ++ subtreesAll ts

end

mutual

/-- The subtrees are in the order of their roots. -/
theorem map_id_subtrees : ∀ t : NodeTree ι, t.subtrees.map NodeTree.id = t.preorder
  | .node i cs => by
      rw [NodeTree.subtrees, List.map_cons, map_id_subtreesAll, NodeTree.preorder, NodeTree.id]

theorem map_id_subtreesAll : ∀ ts : List (NodeTree ι),
    (subtreesAll ts).map NodeTree.id = preorderAll ts
  | [] => rfl
  | t :: ts => by
      rw [subtreesAll, List.map_append, map_id_subtrees, map_id_subtreesAll, preorderAll]

end

mutual

/-- A subtree is one of the same nodes. -/
theorem of_mem_subtrees {kids : Children ι} : ∀ (t : NodeTree ι) {s : NodeTree ι}, t.Of kids →
    s ∈ t.subtrees → s.Of kids
  | .node i cs, s, hof, hs => by
      rcases List.mem_cons.mp hs with rfl | hs
      · exact hof
      · exact of_mem_subtreesAll cs hof.2 hs

theorem of_mem_subtreesAll {kids : Children ι} : ∀ (ts : List (NodeTree ι)) {s : NodeTree ι},
    AllOf kids ts → s ∈ subtreesAll ts → s.Of kids
  | t :: ts, s, hof, hs => by
      rcases List.mem_append.mp hs with hs | hs
      · exact of_mem_subtrees t hof.1 hs
      · exact of_mem_subtreesAll ts hof.2 hs

end

/-- A node without cycles below it has its tree. -/
theorem Grounded.exists_tree {kids : Children ι} {i : ι} (h : Grounded kids i) :
    ∃ t : NodeTree ι, t.id = i ∧ t.Of kids := by
  induction h with
  | intro i _ ih =>
      have hall : ∀ l : List ι, l ⊆ kids i →
          ∃ ts : List (NodeTree ι), ts.map NodeTree.id = l ∧ AllOf kids ts := by
        intro l hl
        induction l with
        | nil => exact ⟨[], rfl, trivial⟩
        | cons c l ihl =>
            obtain ⟨ts, hts, hof⟩ := ihl fun d hd => hl (List.mem_cons_of_mem _ hd)
            obtain ⟨t, ht, htof⟩ := ih c (hl List.mem_cons_self)
            exact ⟨t :: ts, by rw [List.map_cons, ht, hts], htof, hof⟩
      obtain ⟨ts, hts, hof⟩ := hall (kids i) fun c hc => hc
      exact ⟨.node i ts, rfl, hts.symm, hof⟩

theorem NodeTree.Of.children {kids : Children ι} {t : NodeTree ι} (h : t.Of kids) :
    AllOf kids t.children := by
  cases t with
  | node i cs => exact h.2

theorem id_mem_preorder (t : NodeTree ι) : t.id ∈ t.preorder := by
  cases t with
  | node i cs => exact List.mem_cons_self

theorem mem_preorder_of_children {t : NodeTree ι} {j : ι} (h : j ∈ preorderAll t.children) :
    j ∈ t.preorder := by
  cases t with
  | node i cs => exact List.mem_cons_of_mem _ h

/-- A node is not below itself. -/
theorem Grounded.not_below {kids : Children ι} {i c : ι} (h : Grounded kids i)
    (hc : c ∈ kids i) : ¬ Below kids c i := by
  induction h generalizing c with
  | intro i _ ih =>
      intro hbelow
      rcases Relation.ReflTransGen.cases_head hbelow with rfl | ⟨d, hd, hrest⟩
      · exact ih c hc hc .refl
      · exact ih c hc hd (hrest.tail hc)

mutual

/-- What is in a tree is below its root. -/
theorem below_of_mem {kids : Children ι} : ∀ (t : NodeTree ι) {j : ι}, t.Of kids → j ∈ t.preorder →
    Below kids t.id j
  | .node i cs, j, hof, hj => by
      rcases List.mem_cons.mp hj with rfl | hj
      · exact .refl
      · obtain ⟨t, ht, hbelow⟩ := below_of_mem_all cs hof.2 hj
        refine .head ?_ hbelow
        rw [NodeTree.id, hof.1]
        exact List.mem_map_of_mem ht

theorem below_of_mem_all {kids : Children ι} : ∀ (ts : List (NodeTree ι)) {j : ι}, AllOf kids ts →
    j ∈ preorderAll ts → ∃ t ∈ ts, Below kids t.id j
  | [], _, _, hj => by cases hj
  | t :: ts, j, hof, hj => by
      rcases List.mem_append.mp hj with hj | hj
      · exact ⟨t, List.mem_cons_self, below_of_mem t hof.1 hj⟩
      · obtain ⟨t', ht', hbelow⟩ := below_of_mem_all ts hof.2 hj
        exact ⟨t', List.mem_cons_of_mem _ ht', hbelow⟩

end

/-- Two nodes that are both above a third are one above the other. -/
theorem Represents.below_total {h : Heap ι} {kids : Children ι} (hr : Represents h kids)
    {i i' j : ι} (hi : Below kids i j) (hi' : Below kids i' j) :
    Below kids i i' ∨ Below kids i' i := by
  have hunique : Relator.RightUnique fun c p => c ∈ kids p := fun _ _ _ hp hq =>
    hr.parent_unique hp hq
  have hup : ∀ {a b : ι}, Below kids a b ↔ Relation.ReflTransGen (fun c p => c ∈ kids p) b a :=
    Relation.reflTransGen_swap
  rw [hup] at hi hi' ⊢
  rw [hup]
  exact (Relation.ReflTransGen.total_of_right_unique hunique hi hi').symm

/-- No node is below two different children of one node. -/
theorem Represents.eq_of_below {h : Heap ι} {kids : Children ι} (hr : Represents h kids)
    {p i i' : ι} (hg : Grounded kids p) (hi : i ∈ kids p) (hi' : i' ∈ kids p)
    (hbelow : Below kids i i') : i = i' := by
  rcases Relation.ReflTransGen.cases_tail hbelow with rfl | ⟨q, hq, hlast⟩
  · rfl
  · obtain rfl := hr.parent_unique hi' hlast
    exact absurd hq (hg.not_below hi)

mutual

/-- **A tree has each of its nodes once.** -/
theorem nodup_preorder {h : Heap ι} {kids : Children ι} (hr : Represents h kids) :
    ∀ t : NodeTree ι, t.Of kids → Grounded kids t.id → t.preorder.Nodup
  | .node i cs, hof, hg => by
      rw [NodeTree.preorder, List.nodup_cons]
      refine ⟨fun hi => ?_, nodup_preorderAll hr cs hof.2 i hg ?_ ?_⟩
      · obtain ⟨t, ht, hbelow⟩ := below_of_mem_all cs hof.2 hi
        refine hg.not_below ?_ hbelow
        rw [NodeTree.id, hof.1]
        exact List.mem_map_of_mem ht
      · exact hof.1 ▸ hr.nodup i
      · exact hof.1 ▸ List.Subset.refl _

/-- The same for the trees of siblings, which have different roots. -/
theorem nodup_preorderAll {h : Heap ι} {kids : Children ι} (hr : Represents h kids) :
    ∀ ts : List (NodeTree ι), AllOf kids ts → ∀ p, Grounded kids p →
      (ts.map NodeTree.id).Nodup → ts.map NodeTree.id ⊆ kids p → (preorderAll ts).Nodup
  | [], _, _, _, _, _ => List.nodup_nil
  | t :: ts, hof, p, hg, hnodup, hsub => by
      rw [List.map_cons, List.nodup_cons] at hnodup
      rw [List.map_cons, List.cons_subset] at hsub
      rw [preorderAll, List.nodup_append]
      refine ⟨nodup_preorder hr t hof.1 (hg.inv hsub.1),
        nodup_preorderAll hr ts hof.2 p hg hnodup.2 hsub.2, ?_⟩
      rintro j hj j' hj' rfl
      obtain ⟨t', ht', hbelow'⟩ := below_of_mem_all ts hof.2 hj'
      have hid : t'.id ∈ ts.map NodeTree.id := List.mem_map_of_mem ht'
      refine hnodup.1 ?_
      rcases hr.below_total (below_of_mem t hof.1 hj) hbelow' with hdown | hdown
      · rwa [hr.eq_of_below hg hsub.1 (hsub.2 hid) hdown]
      · rwa [← hr.eq_of_below hg (hsub.2 hid) hsub.1 hdown]

end

/-! ## The change of one list -/

variable [DecidableEq ι]

/-- **A change of one list of children.**  The children of `p` become `new`; a node that
    comes in was detached, one that goes out is detached, and the links of all nodes that
    are in neither list stay. -/
theorem Represents.splice {h h' : Heap ι} {kids : Children ι} (hr : Represents h kids) (p : ι)
    {new : List ι} (hnodup : new.Nodup)
    (hfirst : ∀ q, (h' q).firstChild = if q = p then new.head? else (h q).firstChild)
    (hlast : ∀ q, (h' q).lastChild = if q = p then new.getLast? else (h q).lastChild)
    (hplaced : ∀ before i behind, new = before ++ i :: behind → Placed h' p before i behind)
    (hin : ∀ i ∈ new, i ∉ kids p → ∀ q, i ∉ kids q)
    (hout : ∀ i ∈ kids p, i ∉ new → Detached h' i)
    (hframe : ∀ i, i ∉ kids p → i ∉ new → (h' i).parent = (h i).parent ∧
      (h' i).prev = (h i).prev ∧ (h' i).next = (h i).next) :
    Represents h' (Function.update kids p new) where
  first q := by
    rw [hfirst, Function.update_apply, hr.first]
    split_ifs <;> rfl
  last q := by
    rw [hlast, Function.update_apply, hr.last]
    split_ifs <;> rfl
  nodup q := by
    rw [Function.update_apply]
    split_ifs
    · exact hnodup
    · exact hr.nodup q
  placed q before i behind hsplit := by
    rw [Function.update_apply] at hsplit
    split_ifs at hsplit with hq
    · subst hq
      exact hplaced before i behind hsplit
    · have hmem : i ∈ kids q := by
        rw [hsplit]
        exact List.mem_append_right _ List.mem_cons_self
      have hold : i ∉ kids p := fun hi => hq (hr.parent_unique hmem hi)
      have hnew : i ∉ new := fun hi => hin i hi hold q hmem
      obtain ⟨hparent, hprev, hnext⟩ := hframe i hold hnew
      obtain ⟨hparent', hprev', hnext'⟩ := hr.placed q before i behind hsplit
      exact ⟨hparent.trans hparent', hprev.trans hprev', hnext.trans hnext'⟩
  detached i hi := by
    have hnew : i ∉ new := by
      have := hi p
      rwa [Function.update_self] at this
    by_cases hold : i ∈ kids p
    · exact hout i hold hnew
    · obtain ⟨hparent, hprev, hnext⟩ := hframe i hold hnew
      have hnone : ∀ q, i ∉ kids q := by
        intro q
        by_cases hq : q = p
        · rw [hq]
          exact hold
        · have := hi q
          rwa [Function.update_of_ne hq] at this
      obtain ⟨hparent', hprev', hnext'⟩ := hr.detached i hnone
      exact ⟨hparent.trans hparent', hprev.trans hprev', hnext.trans hnext'⟩

/-! ## Operations -/

/-- An assignment to links of one node. -/
def Heap.modify (h : Heap ι) (i : ι) (f : Links ι → Links ι) : Heap ι :=
  Function.update h i (f (h i))

theorem Heap.modify_apply (h : Heap ι) (i : ι) (f : Links ι → Links ι) (j : ι) :
    h.modify i f j = if j = i then f (h i) else h j := Function.update_apply h i _ j

theorem Heap.modify_parent (h : Heap ι) (i : ι) (f : Links ι → Links ι) (j : ι) :
    (h.modify i f j).parent = if j = i then (f (h i)).parent else (h j).parent := by
  rw [Heap.modify_apply, apply_ite Links.parent]

theorem Heap.modify_firstChild (h : Heap ι) (i : ι) (f : Links ι → Links ι) (j : ι) :
    (h.modify i f j).firstChild = if j = i then (f (h i)).firstChild else (h j).firstChild := by
  rw [Heap.modify_apply, apply_ite Links.firstChild]

theorem Heap.modify_lastChild (h : Heap ι) (i : ι) (f : Links ι → Links ι) (j : ι) :
    (h.modify i f j).lastChild = if j = i then (f (h i)).lastChild else (h j).lastChild := by
  rw [Heap.modify_apply, apply_ite Links.lastChild]

theorem Heap.modify_prev (h : Heap ι) (i : ι) (f : Links ι → Links ι) (j : ι) :
    (h.modify i f j).prev = if j = i then (f (h i)).prev else (h j).prev := by
  rw [Heap.modify_apply, apply_ite Links.prev]

theorem Heap.modify_next (h : Heap ι) (i : ι) (f : Links ι → Links ι) (j : ι) :
    (h.modify i f j).next = if j = i then (f (h i)).next else (h j).next := by
  rw [Heap.modify_apply, apply_ite Links.next]

/-- `node` becomes the last child of `target`. -/
def insertChild (target node : ι) (h : Heap ι) : Heap ι :=
  let last := (h target).lastChild
  let h := match last with
    | some last => h.modify last fun l => { l with next := some node }
    | none => h.modify target fun l => { l with firstChild := some node }
  let h := h.modify node fun l => { l with parent := some target, next := none, prev := last }
  h.modify target fun l => { l with lastChild := some node }

/-- `node` becomes the neighbour before `target`. -/
def insertBefore (target node : ι) (h : Heap ι) : Heap ι :=
  let parent := (h target).parent
  let prev := (h target).prev
  let h := match prev with
    | some prev => h.modify prev fun l => { l with next := some node }
    | none =>
        match parent with
        | some parent => h.modify parent fun l => { l with firstChild := some node }
        | none => h
  let h := h.modify node fun l => { l with parent := parent, next := some target, prev := prev }
  h.modify target fun l => { l with prev := some node }

/-- `node` becomes the neighbour behind `target`. -/
def insertAfter (target node : ι) (h : Heap ι) : Heap ι :=
  let parent := (h target).parent
  let next := (h target).next
  let h := match next with
    | some next => h.modify next fun l => { l with prev := some node }
    | none =>
        match parent with
        | some parent => h.modify parent fun l => { l with lastChild := some node }
        | none => h
  let h := h.modify node fun l => { l with parent := parent, next := next, prev := some target }
  h.modify target fun l => { l with next := some node }

/-- The assignments to the parent when a node goes that had these neighbours. -/
def unlinkParent (node parent : ι) (prev next : Option ι) (h : Heap ι) : Heap ι :=
  let h := if (h parent).firstChild = some node then
      h.modify parent fun l => { l with firstChild := next } else h
  if (h parent).lastChild = some node then
    h.modify parent fun l => { l with lastChild := prev } else h

/-- `node` is taken from its parent and its neighbours. -/
def remove (node : ι) (h : Heap ι) : Heap ι :=
  let parent := (h node).parent
  let prev := (h node).prev
  let next := (h node).next
  let h := match parent with
    | some parent => unlinkParent node parent prev next h
    | none => h
  let h := match next with
    | some next => h.modify next fun l => { l with prev := prev }
    | none => h
  let h := match prev with
    | some prev => h.modify prev fun l => { l with next := next }
    | none => h
  h.modify node fun l => { l with parent := none, next := none, prev := none }

/-! ### A node comes in -/

/-- `node` between two halves of the children of `p`: what an insertion has to do. -/
structure Inserts (h h' : Heap ι) (p node : ι) (before behind : List ι) : Prop where
  parent : (h' node).parent = some p
  prev : (h' node).prev = before.getLast?
  next : (h' node).next = behind.head?
  first : ∀ q, (h' q).firstChild
    = if q = p ∧ before = [] then some node else (h q).firstChild
  last : ∀ q, (h' q).lastChild
    = if q = p ∧ behind = [] then some node else (h q).lastChild
  parents : ∀ i, i ≠ node → (h' i).parent = (h i).parent
  prevs : ∀ i, i ≠ node → (h' i).prev
    = if behind.head? = some i then some node else (h i).prev
  nexts : ∀ i, i ≠ node → (h' i).next
    = if before.getLast? = some i then some node else (h i).next

/-- The nodes beside the new one have it as a neighbour, all others their old ones. -/
theorem Inserts.placed_of_ne {h h' : Heap ι} {kids : Children ι} {p node i : ι}
    {before behind l₁ l₂ : List ι} (hi : Inserts h h' p node before behind)
    (hr : Represents h kids) (hsplit : kids p = before ++ behind)
    (hnodup : (before ++ behind).Nodup) (hne : i ≠ node)
    (hnew : before ++ node :: behind = l₁ ++ i :: l₂) : Placed h' p l₁ i l₂ := by
  have hparent : ∀ {b c : List ι}, kids p = b ++ i :: c → (h' i).parent = some p := fun hold =>
    (hi.parents i hne).trans (hr.placed p _ i _ hold).parent
  rcases List.append_eq_append_iff.mp hnew with ⟨c, rfl, hbehind⟩ | ⟨c, rfl, hbefore⟩
  · cases c with
    | nil => exact absurd (List.cons.inj hbehind).1.symm hne
    | cons x c =>
        obtain ⟨rfl, htail⟩ := List.cons.inj hbehind
        replace htail : behind = c ++ i :: l₂ := htail
        subst htail
        have hold : kids p = (before ++ c) ++ i :: l₂ := by rw [hsplit, List.append_assoc]
        obtain ⟨-, hprev, hnext⟩ := hr.placed p _ i _ hold
        have hbefore : before.getLast? ≠ some i := fun hlast =>
          List.disjoint_of_nodup_append hnodup (List.mem_of_getLast? hlast)
            (List.mem_append_right _ List.mem_cons_self)
        refine ⟨hparent hold, ?_, ?_⟩
        · rw [hi.prevs i hne]
          cases c with
          | nil => simp
          | cons y c =>
              have hy : y ≠ i := by
                rintro rfl
                exact (List.nodup_cons.mp (List.nodup_append.mp hnodup).2.1).1
                  (List.mem_append_right _ List.mem_cons_self)
              simp [hy, hprev]
        · rw [hi.nexts i hne, if_neg hbefore, hnext]
  · cases c with
    | nil => exact absurd (List.cons.inj hbefore).1 hne
    | cons x c =>
        obtain ⟨rfl, htail⟩ := List.cons.inj hbefore
        replace htail : l₂ = c ++ node :: behind := htail
        subst htail
        have hold : kids p = l₁ ++ i :: (c ++ behind) := by rw [hsplit]; simp
        obtain ⟨-, hprev, hnext⟩ := hr.placed p _ i _ hold
        have hbehind : behind.head? ≠ some i := fun hhead =>
          List.disjoint_of_nodup_append hnodup (List.mem_append_right _ List.mem_cons_self)
            (List.mem_of_mem_head? hhead)
        refine ⟨hparent hold, ?_, ?_⟩
        · rw [hi.prevs i hne, if_neg hbehind, hprev]
        · rw [hi.nexts i hne]
          rcases List.eq_nil_or_concat' c with rfl | ⟨c, y, rfl⟩
          · simp
          · have hy : y ≠ i := by
              rintro rfl
              have hbefore := (List.nodup_append.mp hnodup).1
              exact (List.nodup_cons.mp (List.nodup_append.mp hbefore).2.1).1 (by simp)
            have hlast : (l₁ ++ i :: (c ++ [y])).getLast? = some y := by
              rw [← List.cons_append, ← List.append_assoc, List.getLast?_concat]
            rw [hlast, if_neg (by simpa using hy), hnext]
            cases c <;> rfl

/-- **An insertion** refines the insertion into the list. -/
theorem Represents.insert {h h' : Heap ι} {kids : Children ι} (hr : Represents h kids)
    {p node : ι} {before behind : List ι} (hsplit : kids p = before ++ behind)
    (hnode : ∀ q, node ∉ kids q) (hi : Inserts h h' p node before behind) :
    Represents h' (Function.update kids p (before ++ node :: behind)) := by
  have hnot : node ∉ before ++ behind := hsplit ▸ hnode p
  have hnodup : (before ++ behind).Nodup := hsplit ▸ hr.nodup p
  refine hr.splice p ?_ ?_ ?_ ?_ ?_ ?_ ?_
  · exact List.nodup_middle.mpr (List.nodup_cons.mpr ⟨hnot, hnodup⟩)
  · intro q
    rw [hi.first, hr.first]
    by_cases hq : q = p
    · subst hq
      cases before with
      | nil => simp
      | cons b before => simp [hsplit]
    · simp [hq]
  · intro q
    rw [hi.last, hr.last]
    by_cases hq : q = p
    · subst hq
      rcases List.eq_nil_or_concat' behind with rfl | ⟨behind, b, rfl⟩
      · simp
      · rw [if_neg (by simp), hsplit, ← List.append_assoc, List.getLast?_concat,
          ← List.cons_append, ← List.append_assoc, List.getLast?_concat, if_pos rfl]
    · simp [hq]
  · intro l₁ i l₂ hnew
    by_cases hi' : i = node
    · subst hi'
      rw [List.mem_append, not_or] at hnot
      obtain ⟨rfl, -, rfl⟩ := (List.append_cons_inj_of_notMem hnot.1 hnot.2).mp hnew
      exact ⟨hi.parent, hi.prev, hi.next⟩
    · exact hi.placed_of_ne hr hsplit hnodup hi' hnew
  · intro i hmem hold
    have : i = node := by
      rw [hsplit] at hold
      simp only [List.mem_append, List.mem_cons] at hmem hold
      tauto
    rw [this]
    exact hnode
  · intro i hmem hout
    refine absurd ?_ hout
    rw [hsplit] at hmem
    simp only [List.mem_append, List.mem_cons] at hmem ⊢
    tauto
  · intro i hold hout
    have hne : i ≠ node := by
      rintro rfl
      exact hout (List.mem_append_right _ List.mem_cons_self)
    rw [hsplit, List.mem_append] at hold
    rw [hi.parents i hne, hi.prevs i hne, hi.nexts i hne, if_neg, if_neg]
    · exact ⟨rfl, rfl, rfl⟩
    · exact fun hlast => hold (Or.inl (List.mem_of_getLast? hlast))
    · exact fun hhead => hold (Or.inr (List.mem_of_mem_head? hhead))

/-- `insertChild` puts the node behind the last child. -/
theorem inserts_insertChild {h : Heap ι} {kids : Children ι} (hr : Represents h kids)
    {target node : ι} (hnode : ∀ q, node ∉ kids q) (hne : node ≠ target) :
    Inserts h (insertChild target node h) target node (kids target) [] := by
  have hlast := hr.last target
  rcases List.eq_nil_or_concat' (kids target) with hnil | ⟨before, b, hb⟩
  · rw [hnil] at hlast ⊢
    have hlast : (h target).lastChild = none := hlast
    clear hr hnode hnil
    constructor
    all_goals
      intros
      simp only [insertChild, hlast, Heap.modify_parent, Heap.modify_firstChild,
        Heap.modify_lastChild, Heap.modify_prev, Heap.modify_next]
      grind
  · have hbne : b ≠ node := by
      rintro rfl
      exact hnode target (hb ▸ by simp)
    rw [hb] at hlast ⊢
    have hlast : (h target).lastChild = some b := by
      rw [hlast, List.getLast?_concat]
    clear hr hnode hb
    constructor
    all_goals
      intros
      simp only [insertChild, hlast, Heap.modify_parent, Heap.modify_firstChild,
        Heap.modify_lastChild, Heap.modify_prev, Heap.modify_next, List.getLast?_concat]
      grind

/-- `insertBefore` puts the node before a node that has a parent. -/
theorem inserts_insertBefore {h : Heap ι} {kids : Children ι} (hr : Represents h kids)
    {p target node : ι} (hnode : ∀ q, node ∉ kids q) {before behind : List ι}
    (hsplit : kids p = before ++ target :: behind) (hp : node ≠ p) :
    Inserts h (insertBefore target node h) p node before (target :: behind) := by
  obtain ⟨hparent, hprev, hnext⟩ := hr.placed p before target behind hsplit
  have hne : node ≠ target := by
    rintro rfl
    exact hnode p (hsplit ▸ by simp)
  have hnodup : (before ++ target :: behind).Nodup := hsplit ▸ hr.nodup p
  rcases List.eq_nil_or_concat' before with rfl | ⟨before, b, rfl⟩
  · have hprev : (h target).prev = none := hprev
    clear hr hnode hsplit hnodup
    constructor
    all_goals
      intros
      simp only [insertBefore, hparent, hprev, Heap.modify_parent, Heap.modify_firstChild,
        Heap.modify_lastChild, Heap.modify_prev, Heap.modify_next]
      grind
  · rw [List.getLast?_concat] at hprev
    have hbne : b ≠ node := by
      rintro rfl
      exact hnode p (hsplit ▸ by simp)
    have hbt : b ≠ target := by
      rintro rfl
      exact List.disjoint_of_nodup_append hnodup (by simp) List.mem_cons_self
    have hnil : before ++ [b] ≠ [] := by simp
    clear hr hnode hsplit hnodup
    constructor
    all_goals
      intros
      simp only [insertBefore, hparent, hprev, Heap.modify_parent, Heap.modify_firstChild,
        Heap.modify_lastChild, Heap.modify_prev, Heap.modify_next]
      grind

/-- `insertAfter` puts the node behind a node that has a parent. -/
theorem inserts_insertAfter {h : Heap ι} {kids : Children ι} (hr : Represents h kids)
    {p target node : ι} (hnode : ∀ q, node ∉ kids q) {before behind : List ι}
    (hsplit : kids p = before ++ target :: behind) (hp : node ≠ p) :
    Inserts h (insertAfter target node h) p node (before ++ [target]) behind := by
  obtain ⟨hparent, hprev, hnext⟩ := hr.placed p before target behind hsplit
  have hne : node ≠ target := by
    rintro rfl
    exact hnode p (hsplit ▸ by simp)
  have hnodup : (before ++ target :: behind).Nodup := hsplit ▸ hr.nodup p
  have hnil : before ++ [target] ≠ [] := by simp
  cases behind with
  | nil =>
      have hnext : (h target).next = none := hnext
      clear hr hnode hsplit hnodup
      constructor
      all_goals
        intros
        simp only [insertAfter, hparent, hnext, Heap.modify_parent, Heap.modify_firstChild,
          Heap.modify_lastChild, Heap.modify_prev, Heap.modify_next]
        grind
  | cons b behind =>
      have hnext : (h target).next = some b := hnext
      have hbne : b ≠ node := by
        rintro rfl
        exact hnode p (hsplit ▸ by simp)
      have hbt : b ≠ target := by
        rintro rfl
        exact (List.nodup_cons.mp (List.nodup_append.mp hnodup).2.1).1 List.mem_cons_self
      clear hr hnode hsplit hnodup
      constructor
      all_goals
        intros
        simp only [insertAfter, hparent, hnext, Heap.modify_parent, Heap.modify_firstChild,
          Heap.modify_lastChild, Heap.modify_prev, Heap.modify_next]
        grind

/-! ### A node goes out -/

/-- `node` from between two halves of the children of `p`: what a removal has to do. -/
structure Removes (h h' : Heap ι) (p node : ι) (before behind : List ι) : Prop where
  detached : Detached h' node
  first : ∀ q, (h' q).firstChild
    = if q = p ∧ before = [] then behind.head? else (h q).firstChild
  last : ∀ q, (h' q).lastChild
    = if q = p ∧ behind = [] then before.getLast? else (h q).lastChild
  parents : ∀ i, i ≠ node → (h' i).parent = (h i).parent
  prevs : ∀ i, i ≠ node → (h' i).prev
    = if behind.head? = some i then before.getLast? else (h i).prev
  nexts : ∀ i, i ≠ node → (h' i).next
    = if before.getLast? = some i then behind.head? else (h i).next

/-- The nodes beside the one that goes are neighbours, all others keep theirs. -/
theorem Removes.placed {h h' : Heap ι} {kids : Children ι} {p node i : ι}
    {before behind l₁ l₂ : List ι} (hm : Removes h h' p node before behind)
    (hr : Represents h kids) (hsplit : kids p = before ++ node :: behind)
    (hnew : before ++ behind = l₁ ++ i :: l₂) : Placed h' p l₁ i l₂ := by
  have hnodup : (before ++ node :: behind).Nodup := hsplit ▸ hr.nodup p
  obtain ⟨hnot, hrest⟩ := List.nodup_cons.mp (List.nodup_middle.mp hnodup)
  have hne : i ≠ node := by
    rintro rfl
    exact hnot (hnew ▸ List.mem_append_right _ List.mem_cons_self)
  have hparent : ∀ {b c : List ι}, kids p = b ++ i :: c → (h' i).parent = some p := fun hold =>
    (hm.parents i hne).trans (hr.placed p _ i _ hold).parent
  rcases List.append_eq_append_iff.mp hnew with ⟨c, rfl, rfl⟩ | ⟨c, rfl, hbefore⟩
  · -- `i` stands behind the node
    have hold : kids p = (before ++ node :: c) ++ i :: l₂ := by rw [hsplit]; simp
    obtain ⟨-, hprev, hnext⟩ := hr.placed p _ i _ hold
    have hbefore : before.getLast? ≠ some i := fun hlast =>
      List.disjoint_of_nodup_append hrest (List.mem_of_getLast? hlast)
        (List.mem_append_right _ List.mem_cons_self)
    refine ⟨hparent hold, ?_, ?_⟩
    · rw [hm.prevs i hne]
      cases c with
      | nil => simp
      | cons y c =>
          have hy : y ≠ i := by
            rintro rfl
            exact (List.nodup_cons.mp (List.nodup_append.mp hrest).2.1).1
              (List.mem_append_right _ List.mem_cons_self)
          simp [hy, hprev]
    · rw [hm.nexts i hne, if_neg hbefore, hnext]
  · cases c with
    | nil =>
        -- `i` is the neighbour behind the node
        replace hbefore : behind = i :: l₂ := hbefore.symm
        subst hbefore
        have hold : kids p = (l₁ ++ [node]) ++ i :: l₂ := by rw [hsplit]; simp
        obtain ⟨-, hprev, hnext⟩ := hr.placed p _ i _ hold
        have hlast : l₁.getLast? ≠ some i := fun hlast =>
          List.disjoint_of_nodup_append hrest (by simpa using List.mem_of_getLast? hlast)
            List.mem_cons_self
        rw [List.append_nil] at hm
        refine ⟨hparent hold, ?_, ?_⟩
        · rw [hm.prevs i hne]
          simp
        · rw [hm.nexts i hne, if_neg hlast, hnext]
    | cons x c =>
        -- `i` stands before the node
        obtain ⟨rfl, htail⟩ := List.cons.inj hbefore
        replace htail : l₂ = c ++ behind := htail
        subst htail
        have hold : kids p = l₁ ++ i :: (c ++ node :: behind) := by rw [hsplit]; simp
        obtain ⟨-, hprev, hnext⟩ := hr.placed p _ i _ hold
        have hbehind : behind.head? ≠ some i := fun hhead =>
          List.disjoint_of_nodup_append hrest (List.mem_append_right _ List.mem_cons_self)
            (List.mem_of_mem_head? hhead)
        refine ⟨hparent hold, ?_, ?_⟩
        · rw [hm.prevs i hne, if_neg hbehind, hprev]
        · rw [hm.nexts i hne]
          rcases List.eq_nil_or_concat' c with rfl | ⟨c, y, rfl⟩
          · simp
          · have hy : y ≠ i := by
              rintro rfl
              have hbefore := (List.nodup_append.mp hrest).1
              exact (List.nodup_cons.mp (List.nodup_append.mp hbefore).2.1).1 (by simp)
            have hlast : (l₁ ++ i :: (c ++ [y])).getLast? = some y := by
              rw [← List.cons_append, ← List.append_assoc, List.getLast?_concat]
            rw [hlast, if_neg (by simpa using hy), hnext]
            cases c <;> rfl

/-- **A removal** refines the removal from the list. -/
theorem Represents.remove {h h' : Heap ι} {kids : Children ι} (hr : Represents h kids)
    {p node : ι} {before behind : List ι} (hsplit : kids p = before ++ node :: behind)
    (hm : Removes h h' p node before behind) :
    Represents h' (Function.update kids p (before ++ behind)) := by
  have hnodup : (before ++ node :: behind).Nodup := hsplit ▸ hr.nodup p
  obtain ⟨hnot, hrest⟩ := List.nodup_cons.mp (List.nodup_middle.mp hnodup)
  refine hr.splice p hrest ?_ ?_ (fun l₁ i l₂ hnew => hm.placed hr hsplit hnew) ?_ ?_ ?_
  · intro q
    rw [hm.first, hr.first]
    by_cases hq : q = p
    · subst hq
      cases before <;> simp [hsplit]
    · simp [hq]
  · intro q
    rw [hm.last, hr.last]
    by_cases hq : q = p
    · subst hq
      rcases List.eq_nil_or_concat' behind with rfl | ⟨behind, b, rfl⟩
      · simp
      · rw [if_neg (by simp), if_pos rfl, hsplit, ← List.cons_append, ← List.append_assoc,
          ← List.append_assoc, List.getLast?_concat, List.getLast?_concat]
    · simp [hq]
  · intro i hmem hold
    refine absurd ?_ hold
    rw [hsplit]
    simp only [List.mem_append, List.mem_cons] at hmem ⊢
    tauto
  · intro i hmem hout
    have : i = node := by
      rw [hsplit] at hmem
      simp only [List.mem_append, List.mem_cons] at hmem hout
      tauto
    rw [this]
    exact hm.detached
  · intro i hold hout
    have hne : i ≠ node := by
      rintro rfl
      exact hold (hsplit ▸ List.mem_append_right _ List.mem_cons_self)
    rw [List.mem_append, not_or] at hout
    rw [hm.parents i hne, hm.prevs i hne, hm.nexts i hne, if_neg, if_neg]
    · exact ⟨rfl, rfl, rfl⟩
    · exact fun hlast => hout.1 (List.mem_of_getLast? hlast)
    · exact fun hhead => hout.2 (List.mem_of_mem_head? hhead)

/-- A first child that is removed leaves its place to the next one. -/
theorem unlinkParent_firstChild (node parent : ι) (prev next : Option ι) (h : Heap ι) (q : ι) :
    (unlinkParent node parent prev next h q).firstChild
      = if q = parent ∧ (h parent).firstChild = some node then next else (h q).firstChild := by
  rw [unlinkParent]
  grind [Heap.modify_firstChild, Heap.modify_lastChild]

/-- A last child leaves it to the one before. -/
theorem unlinkParent_lastChild (node parent : ι) (prev next : Option ι) (h : Heap ι) (q : ι) :
    (unlinkParent node parent prev next h q).lastChild
      = if q = parent ∧ (h parent).lastChild = some node then prev else (h q).lastChild := by
  rw [unlinkParent]
  grind [Heap.modify_lastChild]

theorem unlinkParent_others (node parent : ι) (prev next : Option ι) (h : Heap ι) (q : ι) :
    (unlinkParent node parent prev next h q).parent = (h q).parent
      ∧ (unlinkParent node parent prev next h q).prev = (h q).prev
      ∧ (unlinkParent node parent prev next h q).next = (h q).next := by
  rw [unlinkParent]
  grind [Heap.modify_parent, Heap.modify_prev, Heap.modify_next]

/-- `remove` does what a removal has to. -/
theorem removes_remove {h : Heap ι} {kids : Children ι} (hr : Represents h kids)
    {p node : ι} {before behind : List ι} (hsplit : kids p = before ++ node :: behind) :
    Removes h (LinkedTree.remove node h) p node before behind := by
  obtain ⟨hparent, hprev, hnext⟩ := hr.placed p before node behind hsplit
  have hnodup : (before ++ node :: behind).Nodup := hsplit ▸ hr.nodup p
  have hisFirst := first_iff hnodup
  have hisLast := last_iff hnodup
  rw [← hsplit, ← hr.first p] at hisFirst
  rw [← hsplit, ← hr.last p] at hisLast
  have hnot := (List.nodup_cons.mp (List.nodup_middle.mp hnodup)).1
  rw [List.mem_append, not_or] at hnot
  have hprevNe : before.getLast? ≠ some node := fun h => hnot.1 (List.mem_of_getLast? h)
  have hnextNe : behind.head? ≠ some node := fun h => hnot.2 (List.mem_of_mem_head? h)
  clear hr hsplit hnodup hnot
  have hothers := unlinkParent_others node p before.getLast? behind.head? h
  have hfirst := unlinkParent_firstChild node p before.getLast? behind.head? h
  have hlast := unlinkParent_lastChild node p before.getLast? behind.head? h
  refine ⟨⟨?_, ?_, ?_⟩, ?_, ?_, ?_, ?_, ?_⟩
  all_goals
    intros
    cases hb : before.getLast?
    all_goals cases hc : behind.head?
    all_goals
      rw [hb] at hprev
      rw [hc] at hnext
      rw [hb, hc] at hothers hfirst hlast
      simp only [remove, hparent, hprev, hnext, Heap.modify_parent, Heap.modify_firstChild,
        Heap.modify_lastChild, Heap.modify_prev, Heap.modify_next]
      grind

/-! ## Runs of operations -/

/-- An operation on the heap. -/
inductive Op (ι : Type) where
  | insertChild (target node : ι)
  | insertBefore (target node : ι)
  | insertAfter (target node : ι)
  | remove (node : ι)

def Op.run : Op ι → Heap ι → Heap ι
  | .insertChild target node => LinkedTree.insertChild target node
  | .insertBefore target node => LinkedTree.insertBefore target node
  | .insertAfter target node => LinkedTree.insertAfter target node
  | .remove node => LinkedTree.remove node

/-- What it means for the lists of children. -/
def Op.apply (kids : Children ι) : Op ι → Children ι
  | .insertChild target node => Function.update kids target (kids target ++ [node])
  | .insertBefore target node => fun q =>
      (kids q).flatMap fun c => if c = target then [node, c] else [c]
  | .insertAfter target node => fun q =>
      (kids q).flatMap fun c => if c = target then [c, node] else [c]
  | .remove node => fun q => (kids q).filter (· ≠ node)

/-- What a caller has to see to: a node that comes in is nobody's child and not above the
    place, and there is a place. -/
def Op.Allowed (kids : Children ι) : Op ι → Prop
  | .insertChild target node => (∀ q, node ∉ kids q) ∧ ¬ Below kids node target
  | .insertBefore target node =>
      (∀ q, node ∉ kids q) ∧ ∃ p, target ∈ kids p ∧ ¬ Below kids node p
  | .insertAfter target node =>
      (∀ q, node ∉ kids q) ∧ ∃ p, target ∈ kids p ∧ ¬ Below kids node p
  | .remove _ => True

/-- Every operation is allowed where it is run. -/
def AllAllowed (kids : Children ι) : List (Op ι) → Prop
  | [] => True
  | op :: ops => op.Allowed kids ∧ AllAllowed (op.apply kids) ops

theorem flatMap_of_notMem {target : ι} (f : ι → List ι) {l : List ι} (h : target ∉ l) :
    (l.flatMap fun c => if c = target then f c else [c]) = l := by
  induction l with
  | nil => rfl
  | cons c l ih =>
      rw [List.mem_cons, not_or] at h
      rw [List.flatMap_cons, if_neg (Ne.symm h.1), ih h.2]
      rfl

/-- A list without repetition, changed at one of its elements. -/
theorem flatMap_split {target : ι} (f : ι → List ι) {before behind : List ι}
    (h : (before ++ target :: behind).Nodup) :
    ((before ++ target :: behind).flatMap fun c => if c = target then f c else [c])
      = before ++ f target ++ behind := by
  have hnot := (List.nodup_cons.mp (List.nodup_middle.mp h)).1
  rw [List.mem_append, not_or] at hnot
  rw [List.flatMap_append, List.flatMap_cons, if_pos rfl, flatMap_of_notMem f hnot.1,
    flatMap_of_notMem f hnot.2, List.append_assoc]

theorem filter_of_notMem {node : ι} {l : List ι} (h : node ∉ l) : l.filter (· ≠ node) = l := by
  refine List.filter_eq_self.mpr fun c hc => decide_eq_true ?_
  rintro rfl
  exact h hc

/-- Removing a node joins what is before it and behind it. -/
theorem filter_split {node : ι} {before behind : List ι}
    (h : (before ++ node :: behind).Nodup) :
    (before ++ node :: behind).filter (· ≠ node) = before ++ behind := by
  have hnot := (List.nodup_cons.mp (List.nodup_middle.mp h)).1
  rw [List.mem_append, not_or] at hnot
  rw [List.filter_append, List.filter_cons_of_neg (by simp), filter_of_notMem hnot.1,
    filter_of_notMem hnot.2]

/-- The change at one node is the change everywhere. -/
theorem eq_update_of_split {h : Heap ι} {kids : Children ι} (hr : Represents h kids) {p i : ι}
    (hi : i ∈ kids p) (f : List ι → List ι) (hf : ∀ l, i ∉ l → f l = l) :
    (fun q => f (kids q)) = Function.update kids p (f (kids p)) := by
  funext q
  rw [Function.update_apply]
  split_ifs with hq
  · rw [hq]
  · exact hf _ fun hmem => hq (hr.parent_unique hmem hi)

/-- **A step**: an operation on the heap refines the one on the lists, and makes no cycle. -/
theorem step_represents {h : Heap ι} {kids : Children ι} (hr : Represents h kids)
    (hg : ∀ i, Grounded kids i) {op : Op ι} (hop : op.Allowed kids) :
    Represents (op.run h) (op.apply kids) ∧ ∀ i, Grounded (op.apply kids) i := by
  cases op with
  | insertChild target node =>
      obtain ⟨hnode, hbelow⟩ := hop
      have hne : node ≠ target := by
        rintro rfl
        exact hbelow .refl
      refine ⟨?_, fun i => ?_⟩
      · exact hr.insert (List.append_nil _).symm hnode (inserts_insertChild hr hnode hne)
      · refine (hg i).insert (p := target) (fun q hq => Function.update_of_ne hq _ _) ?_
          (hg node) hbelow
        intro c hc
        rw [Op.apply, Function.update_self] at hc
        simpa using hc
  | insertBefore target node =>
      obtain ⟨hnode, p, hp, hbelow⟩ := hop
      obtain ⟨before, behind, hsplit⟩ := List.append_of_mem hp
      have hnodup : (before ++ target :: behind).Nodup := hsplit ▸ hr.nodup p
      have hpnode : node ≠ p := by
        rintro rfl
        exact hbelow .refl
      have hnew : Op.apply kids (.insertBefore target node)
          = Function.update kids p (before ++ node :: target :: behind) := by
        refine (eq_update_of_split hr hp _ fun l hl =>
          flatMap_of_notMem (fun c => [node, c]) hl).trans ?_
        rw [hsplit, flatMap_split (fun c => [node, c]) hnodup, List.append_assoc]
        rfl
      rw [hnew]
      refine ⟨?_, fun i => ?_⟩
      · exact hr.insert hsplit hnode (inserts_insertBefore hr hnode hsplit hpnode)
      · refine (hg i).insert (p := p) (fun q hq => Function.update_of_ne hq _ _) ?_
          (hg node) hbelow
        intro c hc
        rw [Function.update_self] at hc
        rw [hsplit]
        simp only [List.mem_append, List.mem_cons] at hc ⊢
        tauto
  | insertAfter target node =>
      obtain ⟨hnode, p, hp, hbelow⟩ := hop
      obtain ⟨before, behind, hsplit⟩ := List.append_of_mem hp
      have hnodup : (before ++ target :: behind).Nodup := hsplit ▸ hr.nodup p
      have hpnode : node ≠ p := by
        rintro rfl
        exact hbelow .refl
      have hnew : Op.apply kids (.insertAfter target node)
          = Function.update kids p ((before ++ [target]) ++ node :: behind) := by
        refine (eq_update_of_split hr hp _ fun l hl =>
          flatMap_of_notMem (fun c => [c, node]) hl).trans ?_
        rw [hsplit, flatMap_split (fun c => [c, node]) hnodup]
        simp
      rw [hnew]
      refine ⟨?_, fun i => ?_⟩
      · exact hr.insert (hsplit.trans (List.append_cons _ _ _)) hnode
          (inserts_insertAfter hr hnode hsplit hpnode)
      · refine (hg i).insert (p := p) (fun q hq => Function.update_of_ne hq _ _) ?_
          (hg node) hbelow
        intro c hc
        rw [Function.update_self] at hc
        rw [hsplit]
        simp only [List.mem_append, List.mem_cons] at hc ⊢
        tauto
  | remove node =>
      refine ⟨?_, fun i => (hg i).of_subset fun q => List.filter_sublist.subset⟩
      by_cases hall : ∀ q, node ∉ kids q
      · have hd := hr.detached node hall
        have hkids : Op.apply kids (.remove node) = kids := funext fun q =>
          filter_of_notMem (hall q)
        have hheap : LinkedTree.remove node h = h := by
          simp only [LinkedTree.remove, hd.parent, hd.prev, hd.next]
          exact (congrArg (Function.update h node) hd.eq).trans (Function.update_eq_self node h)
        rw [hkids]
        show Represents (LinkedTree.remove node h) kids
        rw [hheap]
        exact hr
      · obtain ⟨p, hp⟩ := not_forall.mp hall
        obtain ⟨before, behind, hsplit⟩ := List.append_of_mem (not_not.mp hp)
        have hnodup : (before ++ node :: behind).Nodup := hsplit ▸ hr.nodup p
        have hnew : Op.apply kids (.remove node)
            = Function.update kids p (before ++ behind) := by
          refine (eq_update_of_split hr (not_not.mp hp) _ fun l hl => filter_of_notMem hl).trans ?_
          rw [hsplit, filter_split hnodup]
        rw [hnew]
        exact hr.remove hsplit (removes_remove hr hsplit)

omit [DecidableEq ι] in
/-- Nodes that are nowhere stand for lists that are all empty. -/
theorem represents_none : Represents (fun _ : ι => Links.none) fun _ => [] where
  first _ := rfl
  last _ := rfl
  nodup _ := List.nodup_nil
  placed _ before i behind h := by simp at h
  detached _ _ := ⟨rfl, rfl, rfl⟩

omit [DecidableEq ι] in
theorem grounded_none (i : ι) : Grounded (fun _ => []) i :=
  .intro i fun c hc => by cases hc

omit [DecidableEq ι] in
/-- Nothing is below a node without children. -/
theorem not_below_of_nil {kids : Children ι} {i j : ι} (hi : kids i = []) (hne : i ≠ j) :
    ¬ Below kids i j := by
  intro hbelow
  rcases Relation.ReflTransGen.cases_head hbelow with heq | ⟨c, hc, -⟩
  · exact hne heq
  · rw [hi] at hc
    cases hc

/-- **A run**, from any heap that stands for lists without cycles. -/
theorem run_represents {h : Heap ι} {kids : Children ι} (hr : Represents h kids)
    (hg : ∀ i, Grounded kids i) {ops : List (Op ι)} (hops : AllAllowed kids ops) :
    Represents (ops.foldl (fun h op => op.run h) h) (ops.foldl Op.apply kids)
      ∧ ∀ i, Grounded (ops.foldl Op.apply kids) i := by
  induction ops generalizing h kids with
  | nil => exact ⟨hr, hg⟩
  | cons op ops ih =>
      obtain ⟨hr', hg'⟩ := step_represents hr hg hops.1
      exact ih hr' hg' hops.2

/-! ## Walks -/

/-- What a walker answers. -/
inductive Action where
  | next
  | stop

/-- Where the loop of a walk is: at its head, or at the head of the inner one. -/
inductive Place (ι : Type) where
  | visit (node : Option ι)
  | climb (node : ι)

section Walk

variable {σ : Type} (h : Heap ι) (root : ι) (walker : ι → σ → Action × σ)

/-- How a turn of one of the loops ends; `crash` is a null pointer that is followed. -/
inductive Turn (ι σ : Type) where
  | again (place : Place ι) (ctx : σ)
  | done (ctx : σ)
  | crash

/-- One turn of the loops that follow the links below `root`. -/
def walkTurn : Place ι → σ → Turn ι σ
  | .visit none, ctx => .done ctx
  | .visit (some node), ctx =>
      match walker node ctx with
      | (.stop, ctx) => .done ctx
      | (.next, ctx) =>
          match (h node).firstChild with
          | some child => .again (.visit (some child)) ctx
          | none => .again (.climb node) ctx
  | .climb node, ctx =>
      if node = root then .done ctx
      else
        match (h node).next with
        | some next => .again (.visit (some next)) ctx
        | none =>
            match (h node).parent with
            | some parent => .again (.climb parent) ctx
            | none => .crash

/-- The loops, for a number of turns; `none` if they are not through, or crash. -/
def walkFrom : Nat → Place ι → σ → Option σ
  | 0, _, _ => none
  | n + 1, place, ctx =>
      match walkTurn h root walker place ctx with
      | .again place ctx => walkFrom n place ctx
      | .done ctx => some ctx
      | .crash => none

/-- The walk over the nodes below `root`. -/
def walk (n : Nat) (ctx : σ) : Option σ :=
  walkFrom h root walker n (.visit (h root).firstChild) ctx

/-- The walker over the nodes of a list, until it stops. -/
def visitAll : List ι → σ → Action × σ
  | [], ctx => (.next, ctx)
  | node :: nodes, ctx =>
      match walker node ctx with
      | (.stop, ctx) => (.stop, ctx)
      | (.next, ctx) => visitAll nodes ctx

end Walk

omit [DecidableEq ι] in
/-- A walker that never stops folds over the nodes. -/
theorem visitAll_eq_foldl {σ : Type} {walker : ι → σ → Action × σ} {f : σ → ι → σ}
    (h : ∀ i ctx, walker i ctx = (.next, f ctx i)) (l : List ι) (ctx : σ) :
    visitAll walker l ctx = (.next, l.foldl f ctx) := by
  induction l generalizing ctx with
  | nil => rfl
  | cons i l ih =>
      rw [visitAll, h]
      exact ih (f ctx i)

omit [DecidableEq ι] in
/-- A visit goes on to the second part unless the walker has stopped it in the first. -/
theorem visitAll_append {σ : Type} (walker : ι → σ → Action × σ) (l l' : List ι) (ctx : σ) :
    visitAll walker (l ++ l') ctx = match visitAll walker l ctx with
      | (.stop, ctx) => (.stop, ctx)
      | (.next, ctx) => visitAll walker l' ctx := by
  induction l generalizing ctx with
  | nil => rfl
  | cons node l ih =>
      rw [List.cons_append, visitAll, visitAll]
      cases walker node ctx with
      | mk action ctx =>
          cases action with
          | stop => rfl
          | next => exact ih ctx

section WalkTree

variable {σ : Type} {h : Heap ι} {kids : Children ι} (hr : Represents h kids) (root : ι)
  (walker : ι → σ → Action × σ)

/-- What is left to do once a part of the tree is behind: nothing if the walker stopped. -/
def carryOn (h : Heap ι) (n : Nat) (place : Place ι) : Action × σ → Option σ
  | (.stop, ctx) => some ctx
  | (.next, ctx) => walkFrom h root walker n place ctx

include hr

omit [DecidableEq ι] in
/-- Among siblings each tree has its parent and the next sibling as links. -/
theorem placed_of_trees {p : ι} {before : List ι} {t : NodeTree ι} {ts : List (NodeTree ι)}
    (hsplit : kids p = before ++ (t :: ts).map NodeTree.id) :
    (h t.id).parent = some p ∧ (h t.id).next = (ts.map NodeTree.id).head? :=
  have hplaced := hr.placed p before t.id (ts.map NodeTree.id) hsplit
  ⟨hplaced.parent, hplaced.next⟩

/-- At a node: the walker is called, and the loop goes down or starts to climb. -/
theorem walkFrom_visit {i : ι} {cs : List (NodeTree ι)} (hkids : kids i = cs.map NodeTree.id)
    (n : Nat) (ctx : σ) :
    walkFrom h root walker (n + 1) (.visit (some i)) ctx = match walker i ctx with
      | (.stop, ctx) => some ctx
      | (.next, ctx) =>
          match cs with
          | [] => walkFrom h root walker n (.climb i) ctx
          | c :: _ => walkFrom h root walker n (.visit (some c.id)) ctx := by
  have hfirst := hr.first i
  rw [hkids] at hfirst
  rw [walkFrom, walkTurn]
  cases walker i ctx with
  | mk action ctx =>
      cases action with
      | stop => rfl
      | next =>
          cases cs with
          | nil =>
              have hfirst : (h i).firstChild = none := hfirst
              simp only [hfirst]
          | cons c cs =>
              have hfirst : (h i).firstChild = some c.id := hfirst
              simp only [hfirst]

/-- At the end of a subtree: the loop goes to the neighbour, or on climbing. -/
theorem walkFrom_climb {p : ι} {before : List ι} {t : NodeTree ι} {ts : List (NodeTree ι)}
    (hsplit : kids p = before ++ (t :: ts).map NodeTree.id) (hroot : t.id ≠ root) (n : Nat)
    (ctx : σ) :
    walkFrom h root walker (n + 1) (.climb t.id) ctx = match ts with
      | [] => walkFrom h root walker n (.climb p) ctx
      | t' :: _ => walkFrom h root walker n (.visit (some t'.id)) ctx := by
  obtain ⟨hparent, hnext⟩ := placed_of_trees hr hsplit
  rw [walkFrom, walkTurn, if_neg hroot]
  cases ts with
  | nil =>
      have hnext : (h t.id).next = none := hnext
      simp only [hnext, hparent]
  | cons t' ts =>
      have hnext : (h t.id).next = some t'.id := hnext
      simp only [hnext]

mutual

/-- **A subtree**: the loop goes through it and comes up at its root. -/
theorem walkFrom_tree : ∀ (t : NodeTree ι), t.Of kids → root ∉ preorderAll t.children →
    ∃ n, ∀ m ctx, walkFrom h root walker (n + m) (.visit (some t.id)) ctx
      = carryOn root walker h m (.climb t.id) (visitAll walker t.preorder ctx)
  | .node i [], hof, _ => by
      refine ⟨1, fun m ctx => ?_⟩
      have hvisit := walkFrom_visit hr root walker hof.1 m ctx
      rw [Nat.add_comm, NodeTree.id, hvisit, NodeTree.preorder, preorderAll, visitAll]
      cases walker i ctx with
      | mk action ctx => cases action <;> rfl
  | .node i (c :: cs), hof, hroot => by
      obtain ⟨n, hn⟩ := walkFrom_trees i [] (c :: cs) hof.1 hof.2 hroot (List.cons_ne_nil _ _)
      refine ⟨n + 1, fun m ctx => ?_⟩
      have hvisit := walkFrom_visit hr root walker hof.1 (n + m) ctx
      rw [Nat.add_right_comm, NodeTree.id, hvisit, NodeTree.preorder, visitAll]
      cases walker i ctx with
      | mk action ctx =>
          cases action with
          | stop => rfl
          | next => exact hn m ctx

/-- **The rest of the children** of a node that is not the root. -/
theorem walkFrom_trees : ∀ (p : ι) (before : List ι) (ts : List (NodeTree ι)),
    kids p = before ++ ts.map NodeTree.id → AllOf kids ts → root ∉ preorderAll ts → ts ≠ [] →
    ∃ n, ∀ m ctx, walkFrom h root walker (n + m) (.visit (ts.head?.map NodeTree.id)) ctx
      = carryOn root walker h m (.climb p) (visitAll walker (preorderAll ts) ctx)
  | _, _, [], _, _, _, hne => absurd rfl hne
  | p, before, [t], hsplit, hof, hroot, _ => by
      rw [preorderAll, preorderAll, List.append_nil] at hroot ⊢
      obtain ⟨n, hn⟩ := walkFrom_tree t hof.1 fun hmem => hroot (mem_preorder_of_children hmem)
      refine ⟨n + 1, fun m ctx => ?_⟩
      rw [Nat.add_right_comm, Nat.add_assoc]
      refine (hn (m + 1) ctx).trans ?_
      cases visitAll walker t.preorder ctx with
      | mk action ctx =>
          cases action with
          | stop => rfl
          | next =>
              have hne : t.id ≠ root := fun heq => hroot (heq ▸ id_mem_preorder t)
              exact walkFrom_climb hr root walker hsplit hne m ctx
  | p, before, t :: t' :: ts, hsplit, hof, hroot, _ => by
      rw [preorderAll, List.mem_append, not_or] at hroot
      obtain ⟨n, hn⟩ := walkFrom_tree t hof.1 fun hmem => hroot.1 (mem_preorder_of_children hmem)
      obtain ⟨n', hn'⟩ := walkFrom_trees p (before ++ [t.id]) (t' :: ts)
        (hsplit.trans (List.append_cons _ _ _)) hof.2 hroot.2 (List.cons_ne_nil _ _)
      refine ⟨n + 1 + n', fun m ctx => ?_⟩
      rw [show n + 1 + n' + m = n + (n' + m + 1) by omega]
      refine (hn (n' + m + 1) ctx).trans ?_
      rw [preorderAll, visitAll_append]
      cases visitAll walker t.preorder ctx with
      | mk action ctx =>
          cases action with
          | stop => rfl
          | next =>
              have hne : t.id ≠ root := fun heq => hroot.1 (heq ▸ id_mem_preorder t)
              exact (walkFrom_climb hr root walker hsplit hne (n' + m) ctx).trans (hn' m ctx)

end

/-- **The walk** visits what is below the root in document order, and ends. -/
theorem walk_eq (t : NodeTree ι) (hof : t.Of kids) (hg : Grounded kids t.id) (ctx : σ) :
    ∀ᶠ turns in Filter.atTop, walk h t.id walker turns ctx
      = some (visitAll walker (preorderAll t.children) ctx).2 := by
  refine Filter.eventually_atTop.mpr ?_
  suffices hsum : ∃ n, ∀ m, walk h t.id walker (n + m) ctx
      = some (visitAll walker (preorderAll t.children) ctx).2 by
    obtain ⟨n, hn⟩ := hsum
    refine ⟨n, fun turns hle => ?_⟩
    obtain ⟨m, rfl⟩ := Nat.exists_eq_add_of_le hle
    exact hn m
  cases t with
  | node i cs =>
      have hroot : i ∉ preorderAll cs := by
        intro hmem
        obtain ⟨t, ht, hbelow⟩ := below_of_mem_all cs hof.2 hmem
        refine hg.not_below ?_ hbelow
        rw [NodeTree.id, hof.1]
        exact List.mem_map_of_mem ht
      have hfirst : (h i).firstChild = cs.head?.map NodeTree.id := by
        rw [hr.first, hof.1, List.head?_map]
      cases cs with
      | nil =>
          refine ⟨1, fun m => ?_⟩
          rw [walk, NodeTree.id, hfirst, Nat.add_comm]
          rfl
      | cons c cs =>
          obtain ⟨n, hn⟩ := walkFrom_trees hr i walker i [] (c :: cs) hof.1 hof.2 hroot
            (List.cons_ne_nil _ _)
          refine ⟨n + 1, fun m => ?_⟩
          rw [walk, NodeTree.id, hfirst, Nat.add_assoc]
          refine (hn (1 + m) ctx).trans ?_
          rw [NodeTree.children]
          cases visitAll walker (preorderAll (c :: cs)) ctx with
          | mk action ctx =>
              cases action with
              | stop => rfl
              | next =>
                  show walkFrom h i walker (1 + m) (.climb i) ctx = some ctx
                  rw [Nat.add_comm, walkFrom, walkTurn, if_pos rfl]

end WalkTree

end LinkedTree
