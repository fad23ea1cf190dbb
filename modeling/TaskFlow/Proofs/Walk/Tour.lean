import TaskFlow.Proofs.Graph.Acyclic
import TaskFlow.Proofs.Graph.Search
import TaskFlow.Proofs.Walk.Hollow

namespace TaskFlow.Graph

-- A stretch of the walk from one position to another, the nodes that it visits in order, and those
-- that are left before and after it.
inductive Tour (m : Terrain) : Position → List Node → List Node → Position → List Node → Prop
  | done {p left} : Tour m p left [] p left
  | close {p left p' order q rest} {f : FanOut} {fans : List FanOut} : p.here = p.region.stop →
    p.fans = f :: fans → closeRegion m p f fans = .ok p' → Tour m p' left order q rest →
    Tour m p left order q rest
  | visit {p left p' order q rest} {n : Node} : p.here ≠ p.region.stop → n ∈ left → n.id = p.here →
    n.type ≠ .finish → visit m p n = .ok p' → Tour m p' (left.erase n) order q rest →
    Tour m p left (n :: order) q rest

-- Whether each region closes where the branches of the fan-out around it end, and the outermost one
-- at the end of the graph.
inductive Nested (finish : String) : String → List FanOut → Prop
  | outermost : Nested finish finish []
  | inside {f : FanOut} {fans : List FanOut} : Nested finish f.outer.stop fans → Nested finish f.join (f :: fans)

variable {m : Terrain} {p p' q : Position} {left rest order : List Node} {d : Definition} {n : Node}
  {f : FanOut} {fans : List FanOut} {finish x : String}

theorem exists_tour {p : Position} {left : List Node} (h : walk m p left = .ok (d, rest)) :
    ∃ order q, Tour m p left order q rest ∧ q.Final ∧ d = q.region.definition := by
  obtain ⟨hf, hd, rfl⟩ | ⟨p', left', hs, hw⟩ := walk_cases h
  case inl => exact ⟨[], p, .done, hf, hd⟩
  case inr =>
    have ⟨order, q, ht, hq⟩ := exists_tour hw
    cases hs
    case close hh hf hc => exact ⟨order, q, .close hh hf hc ht, hq⟩
    case visit n hh hn hi hx hv => exact ⟨n :: order, q, .visit hh hn hi hx hv ht, hq⟩
termination_by (left.length, openBranches p.fans)
decreasing_by exact hs.decreases

namespace Tour

theorem walk_eq (h : Tour m p left order q rest) (hn : (left.map (·.id)).Nodup) :
    walk m p left = walk m q rest := by
  induction h
  case done => rfl
  case close hh hf hc _ hi =>
    have ⟨hl, _⟩ := closeRegion_cases hc
    simp only [closeRegion, hl] at hc
    rw [walk_of_close hh hf hl, hc]
    exact hi hn
  case visit hh hm hid ht hv _ hi =>
    have hf := find?_of_nodup hn (List.Subset.refl _) hm
    rw [walk_of_visit hh (hid ▸ hf) ht, hv]
    exact hi (hn.sublist (List.erase_sublist.map _))

theorem perm (h : Tour m p left order q rest) : left.Perm (order ++ rest) := by
  induction h
  case done  => exact .refl _
  case close hi => exact hi
  case visit hm _ _ _ _ hi => exact (List.perm_cons_erase hm).trans (.cons _ hi)

theorem type_ne_finish (h : Tour m p left order q rest) : ∀ n ∈ order, n.type ≠ .finish := by
  induction h
  case done => exact List.forall_mem_nil _
  case close hi => exact hi
  case visit ht _ _ hi => exact List.forall_mem_cons.mpr ⟨ht, hi⟩

end Tour

theorem nested_nil : Nested finish x [] ↔ x = finish := by
  constructor
  · rintro ⟨⟩
    rfl
  · rintro rfl
    exact .outermost

theorem nested_cons :
    Nested finish x (f :: fans) ↔ x = f.join ∧ Nested finish f.outer.stop fans := by
  constructor
  · rintro ⟨⟩
    exact ⟨rfl, ‹_›⟩
  · rintro ⟨rfl, h⟩
    exact .inside h

-- The nodes that the walk still has to come to for the sake of a fan-out: the beginnings of the
-- branches to come, and the end of the region around it.
def FanOut.owed (f : FanOut) : List String :=
  f.outer.stop :: f.todo.map (·.2)

def Position.owed (p : Position) : List String :=
  p.here :: p.region.stop :: p.fans.flatMap FanOut.owed

namespace Continued

theorem nested (h : Continued m f fans p') (hn : Nested finish f.outer.stop fans) :
    Nested finish p'.region.stop p'.fans := by
  cases h
  case behind => exact hn
  case branch c _ todo _ _ _ => exact .inside (f := f.begin c todo) hn

theorem mem_owed (h : Continued m f fans p') :
    x ∈ p'.owed ↔ x ∈ f.join :: (f :: fans).flatMap FanOut.owed := by
  cases h
  case behind ht => simp [ht, FanOut.owed, Position.owed, Region.add]
  case branch ht _ _ =>
    simp only [ht, FanOut.owed, Position.owed, FanOut.begin, List.flatMap_cons, List.mem_cons,
      List.mem_append, List.map_cons]
    tauto

end Continued

namespace Visited

variable (h : Visited m p n p')

include h

theorem nested (hn : Nested finish p.region.stop p.fans) :
    Nested finish p'.region.stop p'.fans := by
  cases h
  case lead => exact hn
  case select h => exact h.nested hn
  case pass => simpa using hn
  case split h => exact h.nested (by simpa [parallel] using hn)

-- What is still to come stays so, but for the node that is visited.
theorem owed_subset : p.owed ⊆ p.here :: p'.owed := by
  have hfan {f : FanOut} (hf : f.outer.stop = p.region.stop) :
      p.region.stop :: p.fans.flatMap FanOut.owed ⊆ f.join :: (f :: p.fans).flatMap FanOut.owed := by
    rw [← hf]
    refine List.cons_subset.mpr ⟨by simp [FanOut.owed], ?_⟩
    exact List.subset_cons_of_subset _ (List.subset_append_right _ _)
  apply List.cons_subset_cons
  cases h
  case lead => exact List.subset_cons_self ..
  case select h => exact fun x hx => h.mem_owed.mpr (hfan rfl hx)
  case pass => simp [Position.owed]
  case split h => exact fun x hx => h.mem_owed.mpr (hfan Region.stop_arrive hx)

theorem targets_owed : ∀ l ∈ m.graph.outgoing n.id, l.target ∈ p'.owed := by
  have hfan {f : FanOut} {l : Link} (hc : ∃ c ∈ f.todo, c.2 = l.target) :
      l.target ∈ f.join :: (f :: p.fans).flatMap FanOut.owed := by
    refine List.mem_cons_of_mem _ (List.mem_append_left _ (List.mem_cons_of_mem _ ?_))
    exact List.mem_map.mpr hc
  cases h
  case lead ho _ _ _ => simp [ho, Position.lead, Position.owed]
  case select h =>
    intro l hl
    have hm : (l.condition, l.target) ∈ orderedClauses (m.graph.outgoing n.id) :=
      mem_orderedClauses.mpr ⟨l, hl, rfl⟩
    exact h.mem_owed.mpr (hfan ⟨_, hm, rfl⟩)
  case pass ho _ _ => simp [ho, Position.owed]
  case split h =>
    exact fun l hl => h.mem_owed.mpr (hfan ⟨(none, l.target), List.mem_map_of_mem hl, rfl⟩)

-- What is new to come was found among the links of the node, or where its branches end.
theorem owed_cases (hx : x ∈ p'.owed) : x ∈ p.owed ∨ (∃ l ∈ m.graph.outgoing n.id, l.target = x) ∨
    x = m.postDominator n.id ∨ x = m.branchesEnd n := by
  have hfan {f : FanOut} (hf : f.outer.stop = p.region.stop)
      (hx : x ∈ f.join :: (f :: p.fans).flatMap FanOut.owed) :
      x ∈ p.owed ∨ (∃ c ∈ f.todo, c.2 = x) ∨ x = f.join := by
    simp only [List.flatMap_cons, FanOut.owed, hf, List.mem_cons, List.mem_append, List.mem_map] at hx
    obtain hx | (hx | hc) | hx := hx
    case inl => exact .inr (.inr hx)
    case inr.inl.inl => simp [Position.owed, hx]
    case inr.inl.inr => exact .inr (.inl hc)
    case inr.inr => exact .inl (by simp [Position.owed, hx])
  cases h
  case lead ho _ _ _ =>
    obtain rfl | hx := List.mem_cons.mp hx
    case inl => exact .inr (.inl ⟨_, by simp [ho], rfl⟩)
    case inr => exact .inl (List.mem_cons_of_mem _ hx)
  case select h =>
    obtain hx | ⟨c, hc, rfl⟩ | hx := hfan rfl (h.mem_owed.mp hx)
    case inl => exact .inl hx
    case inr.inl =>
      obtain ⟨l, hl, rfl⟩ := mem_orderedClauses.mp hc
      exact .inr (.inl ⟨l, hl, rfl⟩)
    case inr.inr => exact .inr (.inr (.inl hx))
  case pass ho _ _ =>
    obtain rfl | hx := List.mem_cons.mp hx
    case inl => exact .inr (.inl ⟨_, by simp [ho], rfl⟩)
    case inr => exact .inl (List.mem_cons_of_mem _ (by simpa using hx))
  case split h =>
    obtain hx | ⟨c, hc, rfl⟩ | hx := hfan Region.stop_arrive (h.mem_owed.mp hx)
    case inl => exact .inl hx
    case inr.inl =>
      obtain ⟨l, hl, rfl⟩ := List.mem_map.mp hc
      exact .inr (.inl ⟨l, hl, rfl⟩)
    case inr.inr => exact .inr (.inr (.inr hx))

end Visited

namespace Tour

-- Everything that a position still has to come to is visited later, or it is the end.
theorem owed_subset (h : Tour m p left order q rest) (hp : Nested finish p.region.stop p.fans)
    (hq : q.Final) : p.owed ⊆ order.map (·.id) ++ [finish] := by
  induction h
  case done =>
    rw [hq.fans, nested_nil] at hp
    simp [Position.owed, hq.fans, hq.here, hp]
  case close hh hf hc _ hi =>
    have ⟨_, hc⟩ := closeRegion_cases hc
    rw [hf, nested_cons] at hp
    refine List.Subset.trans (fun x hx => hc.mem_owed.mpr ?_) (hi (hc.nested hp.2) hq)
    rw [Position.owed, hh, hf, hp.1] at hx
    exact List.cons_subset.mpr ⟨List.mem_cons_self, List.Subset.refl _⟩ hx
  case visit hid _ hv _ hi =>
    have hv := visit_cases hv
    refine List.Subset.trans hv.owed_subset ?_
    rw [List.map_cons, List.cons_append, hid]
    exact List.cons_subset_cons _ (hi (hv.nested hp) hq)

theorem forward (h : Tour m p left order q rest) (hp : Nested finish p.region.stop p.fans)
    (hq : q.Final) : ∀ n ∈ order, Forward (order.map (·.id) ++ [finish]) (m.graph.outgoing n.id) := by
  induction h
  case done => exact List.forall_mem_nil _
  case close hf hc _ hi =>
    have ⟨_, hc⟩ := closeRegion_cases hc
    rw [hf, nested_cons] at hp
    exact hi (hc.nested hp.2) hq
  case visit hv ht hi =>
    have hv := visit_cases hv
    have hp := hv.nested hp
    refine List.forall_mem_cons.mpr ⟨fun l hl => ?_, fun n hn => (hi hp hq n hn).widen ?_⟩
    · rw [(mem_outgoing.mp hl).2]
      refine .cons_cons _ (List.singleton_sublist.mpr ?_)
      exact ht.owed_subset hp hq (hv.targets_owed l hl)
    · exact List.sublist_cons_self ..

end Tour

end TaskFlow.Graph
