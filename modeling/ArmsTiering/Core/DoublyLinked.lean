import Mathlib.Data.List.Nodup
import Mathlib.Logic.Function.Basic

/-!
# Doubly linked lists

The nodes that a pair of neighbour functions links between two ends, and what
putting a node in front or taking a node out does to them.  Nothing in this file
refers to the modelled program.
-/

namespace ArmsTiering

variable {Node : Type*}

/-- `next` and `prev` link exactly `nodes`, from `first` to `last`. -/
structure IsDoublyLinked (next prev : Node → Option Node) (first last : Option Node)
    (nodes : List Node) : Prop where
  first_eq : first = nodes.head?
  last_eq : last = nodes.getLast?
  nodup : nodes.Nodup
  next_eq : ∀ before node after, nodes = before ++ node :: after → next node = after.head?
  prev_eq : ∀ before node after, nodes = before ++ node :: after → prev node = before.getLast?

namespace IsDoublyLinked

variable {next prev next' prev' : Node → Option Node} {first last : Option Node}
  {nodes before after : List Node} {node : Node}

theorem nil : IsDoublyLinked next prev none none [] where
  first_eq := rfl
  last_eq := rfl
  nodup := List.nodup_nil
  next_eq := fun before node after heq => by simp at heq
  prev_eq := fun before node after heq => by simp at heq

/-- Only the neighbours of the listed nodes matter. -/
theorem congr (hlinked : IsDoublyLinked next prev first last nodes)
    (hnext : ∀ node ∈ nodes, next' node = next node)
    (hprev : ∀ node ∈ nodes, prev' node = prev node) :
    IsDoublyLinked next' prev' first last nodes where
  first_eq := hlinked.first_eq
  last_eq := hlinked.last_eq
  nodup := hlinked.nodup
  next_eq := fun before node after heq =>
    (hnext node (by simp [heq])).trans (hlinked.next_eq before node after heq)
  prev_eq := fun before node after heq =>
    (hprev node (by simp [heq])).trans (hlinked.prev_eq before node after heq)

theorem first_eq_none (hlinked : IsDoublyLinked next prev first last nodes) :
    first = none ↔ nodes = [] := by
  rw [hlinked.first_eq, List.head?_eq_none_iff]

theorem last_eq_none (hlinked : IsDoublyLinked next prev first last nodes) :
    last = none ↔ nodes = [] := by
  rw [hlinked.last_eq, List.getLast?_eq_none_iff]

/-- A node is put in front: it takes the old first node as its successor, and
becomes that one's predecessor. -/
theorem cons (hlinked : IsDoublyLinked next prev first last nodes) (hfresh : node ∉ nodes)
    (hnext : next' node = first) (hprev : prev' node = none)
    (hhead : ∀ head ∈ nodes.head?, prev' head = some node)
    (hnexts : ∀ other ∈ nodes, next' other = next other)
    (hprevs : ∀ other ∈ nodes.tail, prev' other = prev other) :
    IsDoublyLinked next' prev' (some node) ((node :: nodes).getLast?) (node :: nodes) where
  first_eq := rfl
  last_eq := rfl
  nodup := List.nodup_cons.mpr ⟨hfresh, hlinked.nodup⟩
  next_eq := by
    intro before other after heq
    cases before with
    | nil =>
        obtain ⟨rfl, rfl⟩ := List.cons.inj heq
        rw [hnext, hlinked.first_eq]
    | cons head before =>
        obtain ⟨rfl, rfl⟩ := List.cons.inj heq
        rw [hnexts other (by simp)]
        exact hlinked.next_eq before other after rfl
  prev_eq := by
    intro before other after heq
    cases before with
    | nil =>
        obtain ⟨rfl, rfl⟩ := List.cons.inj heq
        exact hprev
    | cons head before =>
        obtain ⟨rfl, rfl⟩ := List.cons.inj heq
        cases before with
        | nil => exact hhead other rfl
        | cons second before =>
            rw [hprevs other (by simp), hlinked.prev_eq (second :: before) other after rfl]
            rfl

/-- A node is taken out: its neighbours become each other's neighbours, and an
end that was the node moves to the neighbour on that side. -/
theorem unlink (hlinked : IsDoublyLinked next prev first last (before ++ node :: after))
    (hbefore : ∀ other ∈ before.getLast?, next' other = next node)
    (hafter : ∀ other ∈ after.head?, prev' other = prev node)
    (hnexts : ∀ other ∈ before ++ after, other ∉ before.getLast? → next' other = next other)
    (hprevs : ∀ other ∈ before ++ after, other ∉ after.head? → prev' other = prev other) :
    IsDoublyLinked next' prev' (before ++ after).head? (before ++ after).getLast?
      (before ++ after) where
  first_eq := rfl
  last_eq := rfl
  nodup := (List.nodup_middle.mp hlinked.nodup).of_cons
  next_eq := by
    intro front other rest heq
    have hnodup : (before ++ after).Nodup := (List.nodup_middle.mp hlinked.nodup).of_cons
    have hnode := hlinked.next_eq before node after rfl
    rcases List.append_eq_append_iff.mp heq with ⟨middle, rfl, rfl⟩ | ⟨middle, rfl, hrest⟩
    · -- the other node comes after the one taken out
      rw [hnexts other (by simp), hlinked.next_eq (before ++ node :: middle) other rest (by simp)]
      intro hlast
      have hmem := List.mem_of_mem_getLast? hlast
      exact List.disjoint_of_nodup_append hnodup hmem (by simp)
    · cases middle with
      | nil =>
          obtain rfl : other :: rest = after := by simpa using hrest
          rw [hnexts other (by simp), hlinked.next_eq (front ++ [] ++ [node]) other rest (by simp)]
          intro hlast
          have hmem := List.mem_of_mem_getLast? hlast
          exact List.disjoint_of_nodup_append hnodup hmem (by simp)
      | cons head middle =>
          obtain ⟨rfl, rfl⟩ := List.cons.inj hrest
          cases hmiddle : middle with
          | nil =>
              subst hmiddle
              rw [hbefore other (by simp), hnode]
              rfl
          | cons second tail =>
              subst hmiddle
              rw [hnexts other (by simp),
                hlinked.next_eq front other (second :: tail ++ node :: after) (by simp)]
              · rfl
              · intro hlast
                have hin : other ∈ second :: tail := by
                  rw [show front ++ other :: second :: tail =
                    (front ++ [other]) ++ (second :: tail) by simp,
                    List.getLast?_append_of_ne_nil _ (by simp)] at hlast
                  exact List.mem_of_mem_getLast? hlast
                have hself : (other :: second :: tail).Nodup :=
                  (List.nodup_append.mp (List.nodup_append.mp hnodup).1).2.1
                exact (List.nodup_cons.mp hself).1 hin
  prev_eq := by
    intro front other rest heq
    have hnodup : (before ++ after).Nodup := (List.nodup_middle.mp hlinked.nodup).of_cons
    have hnode := hlinked.prev_eq before node after rfl
    rcases List.append_eq_append_iff.mp heq with ⟨middle, rfl, rfl⟩ | ⟨middle, rfl, hrest⟩
    · cases hmiddle : middle with
      | nil =>
          subst hmiddle
          rw [hafter other (by simp), hnode, List.append_nil]
      | cons head tail =>
          subst hmiddle
          rw [hprevs other (by simp),
            hlinked.prev_eq (before ++ node :: head :: tail) other rest (by simp)]
          · rw [List.getLast?_append_of_ne_nil _ (by simp),
              List.getLast?_append_of_ne_nil _ (by simp), List.getLast?_cons_cons]
          · intro hhead
            obtain rfl : head = other := by simpa using hhead
            have hself : (head :: tail ++ head :: rest).Nodup :=
              (List.nodup_append.mp hnodup).2.1
            simp at hself
    · cases middle with
      | nil =>
          obtain rfl : other :: rest = after := by simpa using hrest
          rw [hafter other rfl, hnode, List.append_nil]
      | cons head middle =>
          obtain ⟨rfl, rfl⟩ := List.cons.inj hrest
          rw [hprevs other (by simp),
            hlinked.prev_eq front other (middle ++ node :: after) (by simp)]
          intro hhead
          have hmem := List.mem_of_mem_head? hhead
          exact List.disjoint_of_nodup_append hnodup (by simp) hmem

end IsDoublyLinked

end ArmsTiering
