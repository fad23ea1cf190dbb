import TaskFlow.Graph.PostDominator
import TaskFlow.Proofs.Graph.Search

namespace TaskFlow.Graph

variable {g : Graph} {finish id x y e : String} {es : List String} {S : String → Prop}

theorem passes_iff {via : String} :
    g.passes finish id via ↔ ¬ Way g.successors (g.ids.erase via) id finish := by
  rw [passes, Bool.not_eq_true', ← Bool.not_eq_true, List.contains_iff_mem, mem_explore_iff]
  simp

-- The places behind a node cannot be left if their only exit is taken away.
theorem not_way_of_closed (hn : g.ids.Nodup) (hs : ∀ y, S y → ∀ z ∈ g.successors y, S z ∨ z = x)
    (hf : ¬ S finish) (hy : S y) : ¬ Way g.successors (g.ids.erase x) y finish := by
  intro hw
  generalize hz : finish = z at hw
  induction hw
  case here => exact hf (hz ▸ hy)
  case step hyz hw hi =>
    obtain h | rfl := hs _ hy _ hyz
    case inl => exact hi h hz
    case inr => exact hn.not_mem_erase hw.source_mem

-- If control leaves the places behind a node for one node only, and can avoid each of them, then it
-- is there that all ways meet.
theorem immediatePostDominator_eq (hn : g.ids.Nodup) (hsucc : g.successors id = e :: es)
    (hstart : ∀ s ∈ e :: es, S s ∨ s = x)
    (hs : ∀ y, S y → ∀ z ∈ g.successors y, S z ∨ z = x) (hf : ¬ S finish) (hid : id ≠ finish)
    (hx : ∀ s ∈ e :: es, Way g.successors g.ids s x) (hne : x ≠ id)
    (hv : ∀ via, S via → Way g.successors (g.ids.erase via) id finish) :
    g.immediatePostDominator finish id = x := by
  have hreach s (hm : s ∈ e :: es) : x ∈ g.reachableFrom s :=
    mem_explore_of_way (List.mem_singleton_self s) (hx s hm)
  obtain ⟨pre, post, he, hpre⟩ :
      ∃ pre post, g.reachableFrom e = pre ++ x :: post ∧ ∀ y ∈ pre, S y :=
    explore_eq_append (List.forall_mem_singleton.mpr (hstart e List.mem_cons_self)) hs
      (hreach e List.mem_cons_self)
  have hpass : g.passes finish id x := by
    refine passes_iff.mpr fun hw => ?_
    cases hw
    case here => exact hid rfl
    case step s _ hm hw =>
      obtain h | rfl := hstart s (hsucc ▸ hm)
      case inl => exact not_way_of_closed hn hs hf h hw
      case inr => exact hn.not_mem_erase hw.source_mem
  let q := fun via => via != id && (es.map g.reachableFrom).all (·.contains via)
  have hmeet : g.meetingPoints id = (g.reachableFrom e).filter q := by
    rw [meetingPoints, hsucc]
    rfl
  -- No point before the exit will do, since control can avoid it.
  have hnone : (pre.filter q).find? (g.passes finish id) = none := by
    rw [List.find?_eq_none]
    intro y hy hp
    exact passes_iff.mp hp (hv y (hpre y ((List.mem_filter.mp hy).1)))
  have hq : q x := by
    simp only [q, Bool.and_eq_true, List.all_map, List.all_eq_true]
    refine ⟨bne_iff_ne.mpr hne, fun s hm => ?_⟩
    exact List.contains_iff_mem.mpr (hreach s (List.mem_cons_of_mem e hm))
  rw [immediatePostDominator, hmeet, he, List.filter_append, List.find?_append, hnone,
    List.filter_cons_of_pos hq, List.find?_cons_of_pos hpass]
  rfl

-- Behind a node with a single link stands the node that the link leads to.
theorem immediatePostDominator_of_single (hn : g.ids.Nodup) (hsucc : g.successors id = [x])
    (hx : x ∈ g.ids) (hne : x ≠ id) (hid : id ≠ finish) :
    g.immediatePostDominator finish id = x := by
  refine immediatePostDominator_eq (S := fun _ => False) hn hsucc ?_ nofun not_false hid ?_ hne nofun
  · exact List.forall_mem_singleton.mpr (.inr rfl)
  · exact List.forall_mem_singleton.mpr (.here hx)

theorem lookup_map_self {ids : List String} {h : String → String} :
    (ids.map fun id => (id, h id)).lookup id = if id ∈ ids then some (h id) else none := by
  induction ids
  case nil => rfl
  case cons x xs hi =>
    rw [List.map_cons, List.lookup_cons, hi]
    by_cases he : id = x
    case pos => simp [he]
    case neg =>
      rw [beq_false_of_ne he]
      simp [he]

theorem lookup_postDominators (h : id ∈ g.ids) (hf : id ≠ finish) :
    (g.postDominators finish).lookup id = some (g.immediatePostDominator finish id) := by
  rw [postDominators, lookup_map_self, if_pos]
  simpa [List.mem_filter] using ⟨h, hf⟩

end TaskFlow.Graph
