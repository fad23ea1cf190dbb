import Mathlib
import TaskFlow.Graph.Reach

namespace TaskFlow

variable {ids ids' : List String} {ls : List Link} {g : Graph} {x y : String}

-- Whether each link leads from one place to a place further on in a list.
def Forward (ids : List String) (ls : List Link) : Prop :=
  ∀ l ∈ ls, [l.source, l.target].Sublist ids

namespace Forward

theorem widen (h : Forward ids ls) (hs : ids.Sublist ids') : Forward ids' ls :=
  fun l hl => (h l hl).trans hs

theorem append {ls' : List Link} (h : Forward ids ls) (h' : Forward ids ls') :
    Forward ids (ls ++ ls') :=
  List.forall_mem_append.mpr ⟨h, h'⟩

end Forward

theorem pair_sublist_append (hx : x ∈ ids) (hy : y ∈ ids') : [x, y].Sublist (ids ++ ids') :=
  (List.singleton_sublist.mpr hx).append (List.singleton_sublist.mpr hy)

theorem idxOf_lt_of_sublist (hn : ids.Nodup) (h : [x, y].Sublist ids) :
    ids.idxOf x < ids.idxOf y := by
  induction ids
  case nil => cases h
  case cons id ids hi =>
    have ⟨hid, hn⟩ := List.nodup_cons.mp hn
    cases h
    case cons h =>
      have hx : id ≠ x := fun he => hid (he ▸ h.subset List.mem_cons_self)
      have hy : id ≠ y := fun he => hid (he ▸ h.subset (by simp))
      rw [List.idxOf_cons_ne _ hx, List.idxOf_cons_ne _ hy]
      exact Nat.succ_lt_succ (hi hn h)
    case cons_cons h =>
      have hy : x ≠ y := fun he => hid (he ▸ List.singleton_sublist.mp h)
      rw [List.idxOf_cons_self, List.idxOf_cons_ne _ hy]
      exact Nat.succ_pos _

namespace Graph

theorem mem_successors : y ∈ g.successors x ↔ ∃ l ∈ g.links, l.source = x ∧ l.target = y := by
  simp [successors, mem_outgoing, and_assoc]

theorem mem_predecessors : x ∈ g.predecessors y ↔ y ∈ g.successors x := by
  simp only [predecessors, successors, List.mem_map, mem_incoming, mem_outgoing]
  exact ⟨fun ⟨l, ⟨hl, ht⟩, hs⟩ => ⟨l, ⟨hl, hs⟩, ht⟩, fun ⟨l, ⟨hl, hs⟩, ht⟩ => ⟨l, ⟨hl, ht⟩, hs⟩⟩

def Acyclic (g : Graph) : Prop :=
  ∀ id, ¬ Relation.TransGen (fun x y => y ∈ g.successors x) id id

-- Along the links the places in the list increase.
theorem acyclic_of_forward (h : Forward ids g.links) (hn : ids.Nodup) : g.Acyclic := by
  have hstep {x y} (hy : y ∈ g.successors x) : ids.idxOf x < ids.idxOf y := by
    obtain ⟨l, hl, rfl, rfl⟩ := mem_successors.mp hy
    exact idxOf_lt_of_sublist hn (h l hl)
  have hway {x y} (hw : Relation.TransGen (fun x y => y ∈ g.successors x) x y) :
      ids.idxOf x < ids.idxOf y := by
    induction hw
    case single hy => exact hstep hy
    case tail hy hi => exact Nat.lt_trans hi (hstep hy)
  exact fun id hw => Nat.lt_irrefl _ (hway hw)

end Graph

end TaskFlow
