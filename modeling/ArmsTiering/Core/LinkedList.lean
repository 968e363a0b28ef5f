import Mathlib.Data.List.Nodup

/-!
# Singly linked lists

The nodes that a `next` function links from a starting point up to a null value,
and what reassigning `next` at single nodes does to them.  Nothing in this file
refers to the modelled program.
-/

namespace ArmsTiering

variable {Node : Type*}

/-- From `start` the nodes of the list follow each other, and the last one is
followed by `null`. -/
def IsChain (next : Node → Node) (null : Node) : Node → List Node → Prop
  | start, [] => start = null
  | start, node :: rest => start = node ∧ node ≠ null ∧ IsChain next null (next node) rest

namespace IsChain

variable {next next' : Node → Node} {null start node other : Node} {nodes rest before : List Node}

/-- Only the links of the nodes themselves matter. -/
theorem congr (hchain : IsChain next null start nodes)
    (hnext : ∀ node ∈ nodes, next' node = next node) : IsChain next' null start nodes := by
  induction nodes generalizing start with
  | nil => exact hchain
  | cons first rest ih =>
      obtain ⟨hstart, hne, hrest⟩ := hchain
      refine ⟨hstart, hne, ?_⟩
      rw [hnext first List.mem_cons_self]
      exact ih hrest fun node hmem => hnext node (List.mem_cons_of_mem _ hmem)

/-- A node is replaced by another: the node before it links to the new one, which
takes over the link of the old one. -/
theorem replace {prev : Node} (hchain : IsChain next null start (before ++ prev :: node :: rest))
    (hother : other ≠ null) (hprev : next' prev = other) (htaken : next' other = next node)
    (hbefore : ∀ n ∈ before, next' n = next n) (hrest : ∀ n ∈ rest, next' n = next n) :
    IsChain next' null start (before ++ prev :: other :: rest) := by
  induction before generalizing start with
  | nil =>
      obtain ⟨hstart, hne, _, _, hlinked⟩ := hchain
      refine ⟨hstart, hne, hprev, hother, ?_⟩
      rw [htaken]
      exact hlinked.congr hrest
  | cons first before ih =>
      obtain ⟨hstart, hne, hlinked⟩ := hchain
      refine ⟨hstart, hne, ?_⟩
      rw [hbefore first List.mem_cons_self]
      exact ih hlinked fun n hmem => hbefore n (List.mem_cons_of_mem _ hmem)

/-- Another node is linked behind the last one. -/
theorem snoc (hchain : IsChain next null start (nodes ++ [node])) (hother : other ≠ null)
    (hnode : next' node = other) (hlast : next' other = null)
    (hnodes : ∀ n ∈ nodes, next' n = next n) :
    IsChain next' null start (nodes ++ [node] ++ [other]) := by
  induction nodes generalizing start with
  | nil =>
      obtain ⟨hstart, hne, _⟩ := hchain
      exact ⟨hstart, hne, hnode, hother, hlast⟩
  | cons first nodes ih =>
      obtain ⟨hstart, hne, hlinked⟩ := hchain
      refine ⟨hstart, hne, ?_⟩
      rw [hnodes first List.mem_cons_self]
      exact ih hlinked fun n hmem => hnodes n (List.mem_cons_of_mem _ hmem)

/-- A node behind another one is unlinked. -/
theorem unlink {prev : Node} (hchain : IsChain next null start (before ++ prev :: node :: rest))
    (hprev : next' prev = next node) (hbefore : ∀ n ∈ before, next' n = next n)
    (hrest : ∀ n ∈ rest, next' n = next n) : IsChain next' null start (before ++ prev :: rest) := by
  induction before generalizing start with
  | nil =>
      obtain ⟨hstart, hne, _, _, hlinked⟩ := hchain
      refine ⟨hstart, hne, ?_⟩
      rw [hprev]
      exact hlinked.congr hrest
  | cons first before ih =>
      obtain ⟨hstart, hne, hlinked⟩ := hchain
      refine ⟨hstart, hne, ?_⟩
      rw [hbefore first List.mem_cons_self]
      exact ih hlinked fun n hmem => hbefore n (List.mem_cons_of_mem _ hmem)

/-- The nodes from a given one on. -/
theorem drop (hchain : IsChain next null start (before ++ node :: rest)) :
    IsChain next null node (node :: rest) := by
  induction before generalizing start with
  | nil =>
      obtain ⟨_, hne, hlinked⟩ := hchain
      exact ⟨rfl, hne, hlinked⟩
  | cons first before ih => exact ih hchain.2.2

/-- The nodes up to a given one end with the node that links to it. -/
theorem exists_init (first : Node) (before : List Node) :
    ∃ init, first :: before = init ++ [before.getLastD first] := by
  refine ⟨(first :: before).dropLast, ?_⟩
  rw [← List.getLast_eq_getLastD (List.cons_ne_nil first before)]
  exact (List.dropLast_append_getLast _).symm

/-- The same for a node behind the first one, if no node occurs twice. -/
theorem replace_behind {first : Node}
    (hchain : IsChain next null first (first :: (before ++ node :: rest)))
    (hnodup : (first :: (before ++ node :: rest)).Nodup) (hother : other ≠ null)
    (hprev : next' (before.getLastD first) = other) (htaken : next' other = next node)
    (hkeep : ∀ n ∈ first :: (before ++ node :: rest), n ≠ before.getLastD first →
      next' n = next n) :
    IsChain next' null first (first :: (before ++ other :: rest)) := by
  obtain ⟨init, hinit⟩ := exists_init first before
  have hsplit : ∀ n, first :: (before ++ n :: rest) =
      init ++ before.getLastD first :: n :: rest := by
    intro n
    rw [← List.cons_append, hinit, List.append_assoc]
    rfl
  rw [hsplit] at hchain hnodup hkeep ⊢
  rw [List.nodup_middle, List.nodup_cons] at hnodup
  refine hchain.replace hother hprev htaken (fun n hn => ?_) fun n hn => ?_
  · refine hkeep n (List.mem_append_left _ hn) ?_
    rintro rfl
    exact hnodup.1 (List.mem_append_left _ hn)
  · refine hkeep n (List.mem_append_right _ (by simp [hn])) ?_
    rintro rfl
    exact hnodup.1 (List.mem_append_right _ (List.mem_cons_of_mem _ hn))

end IsChain

end ArmsTiering
