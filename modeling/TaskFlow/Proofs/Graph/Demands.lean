import Mathlib
import TaskFlow.Graph.Walk
import TaskFlow.Graph.WellFormed

namespace TaskFlow.Graph

open RenderFault

variable {g : Graph} {n start finish : Node} {ns : List Node} {owners : List (String × String)}
  {id : String} {seen conditions : List String}

theorem stopOn_bind_eq_ok {α : Type} {f : Option RenderFault} {k : Unit → Except RenderFault α}
    {a : α} : (stopOn f >>= k) = .ok a ↔ f = none ∧ k () = .ok a := by
  cases f <;> simp [stopOn, bind, Except.bind]

structure Nameable (n : Node) : Prop where
  name : n.name.any isName
  label : ∀ l ∈ n.label, isName l

theorem nameFault?_eq_none : nameFault? owners n = none ↔
    Nameable n ∧ ∀ l ∈ n.label, owners.lookup l = none := by
  have hn : Nameable n ↔ n.name.any isName ∧ ∀ l ∈ n.label, isName l :=
    ⟨fun ⟨h, h'⟩ => ⟨h, h'⟩, fun ⟨h, h'⟩ => ⟨h, h'⟩⟩
  rw [nameFault?, hn]
  cases n.name.any isName
  case false => simp
  case true =>
    cases n.label
    case none => simp
    case some l => cases hi : isName l <;> simp [hi]

theorem secondOccurrence?_eq_none {ids : List String} :
    secondOccurrence? seen ids = none ↔ ids.Nodup ∧ ∀ id ∈ ids, id ∉ seen := by
  induction ids generalizing seen
  case nil => simp [secondOccurrence?]
  case cons id ids hi =>
    rw [secondOccurrence?]
    split
    case isTrue h => simp [h]
    case isFalse h =>
      rw [hi]
      simp [h]
      grind

theorem namesFault?_eq_none : namesFault? owners ns = none ↔
    (∀ n ∈ ns, Nameable n) ∧ (ns.filterMap (·.label)).Nodup ∧
      ∀ l ∈ ns.filterMap (·.label), owners.lookup l = none := by
  induction ns generalizing owners
  case nil => simp [namesFault?]
  case cons n ns hi =>
    have hf : namesFault? owners (n :: ns) = none ↔ nameFault? owners n = none ∧
        namesFault? ((n.label.map fun l => (l, n.id)).toList ++ owners) ns = none := by
      rw [namesFault?]
      cases nameFault? owners n <;> simp
    rw [hf, hi, nameFault?_eq_none, List.forall_mem_cons]
    cases hl : n.label
    case none => simp [hl]; grind
    case some l =>
      simp [hl, List.lookup_cons]
      grind

theorem conditionsFault?_eq_none : conditionsFault? id seen conditions = none ↔
    (∀ c ∈ conditions, isWritable c) ∧ conditions.Nodup ∧ ∀ c ∈ conditions, c ∉ seen := by
  induction conditions generalizing seen
  case nil => simp [conditionsFault?]
  case cons c cs hi =>
    rw [conditionsFault?]
    cases hw : isWritable c
    case false => simp [hw]
    case true =>
      split
      · contradiction
      split
      case isTrue h => simp [h]
      case isFalse h =>
        rw [hi]
        simp [h, hw]
        grind

-- Whether the links that leave a node have a condition either all or not at all.
inductive LinksFit (g : Graph) (n : Node) : Prop
  | plain : (∀ l ∈ g.outgoing n.id, l.condition = none) → LinksFit g n
  | conditional {cs} : n.type = .task → (g.outgoing n.id).map (·.condition) = cs.map some →
    cs ≠ [] → (∀ c ∈ cs, isWritable c) → cs.Nodup → LinksFit g n

theorem LinksFit.plain_of_ne (h : g.LinksFit n) (ht : n.type ≠ .task) :
    ∀ l ∈ g.outgoing n.id, l.condition = none := by
  cases h
  case plain h => exact h
  case conditional h _ _ _ _ => exact absurd h ht

theorem map_eq_of_length_filterMap {α β : Type} {f : α → Option β} {xs : List α}
    (h : (xs.filterMap f).length = xs.length) : xs.map f = (xs.filterMap f).map some := by
  induction xs
  case nil => rfl
  case cons x xs hi =>
    have hl := List.length_filterMap_le f xs
    cases hx : f x
    case none =>
      rw [List.filterMap_cons_none hx, List.length_cons] at h
      omega
    case some y =>
      rw [List.filterMap_cons_some hx, List.length_cons, List.length_cons, Nat.add_right_cancel_iff] at h
      rw [List.filterMap_cons_some hx, List.map_cons, List.map_cons, hx, hi h]

theorem filterMap_eq_of_map {α β : Type} {f : α → Option β} {xs : List α} {ys : List β}
    (h : xs.map f = ys.map some) : xs.filterMap f = ys := by
  have hx : xs.filterMap f = (xs.map f).filterMap id := by
    rw [List.filterMap_map]
    rfl
  rw [hx, h, List.filterMap_map]
  exact List.filterMap_some

theorem linksFault?_eq_none : g.linksFault? n = none ↔ g.LinksFit n := by
  simp only [linksFault?]
  constructor
  case mp =>
    intro h
    split at h
    case isTrue he =>
      refine .plain fun l hl => ?_
      have := List.filterMap_eq_nil_iff.mp (List.isEmpty_iff.mp he) l hl
      exact this
    case isFalse he =>
      split at h
      · cases h
      split at h
      · cases h
      case isFalse ht hl =>
        have ⟨hw, hn, _⟩ := conditionsFault?_eq_none.mp h
        -- There are as many conditions as links, so each link has one.
        refine .conditional (by simpa using ht) (map_eq_of_length_filterMap
          (Decidable.not_not.mp (mt bne_iff_ne.mpr hl))) ?_ hw hn
        simpa using he
  case mpr =>
    intro h
    cases h
    case plain h =>
      have : (g.outgoing n.id).filterMap (·.condition) = [] := List.filterMap_eq_nil_iff.mpr h
      simp [this]
    case conditional cs ht hc hne hw hn =>
      have hf := filterMap_eq_of_map hc
      have hl : cs.length = (g.outgoing n.id).length := by simpa using (congrArg List.length hc).symm
      have hx : conditionsFault? n.id [] cs = none :=
        conditionsFault?_eq_none.mpr ⟨hw, hn, by simp⟩
      simp [hf, hl, ht, hx]

-- What a graph satisfies between two anchors.
structure Sound (g : Graph) (start finish : Node) : Prop where
  ids : g.ids.Nodup
  nodesWith_start : g.nodesWith .start = [start]
  nodesWith_finish : g.nodesWith .finish = [finish]
  ends : ∀ l ∈ g.links, l.source ∈ g.ids ∧ l.target ∈ g.ids
  incoming : g.incoming start.id = []
  outgoing : g.outgoing finish.id = []
  nameable : ∀ n ∈ g.nodesWith .task, Nameable n
  labels : ((g.nodesWith .task).filterMap (·.label)).Nodup
  tasks : g.nodesWith .task ≠ []
  links : g.links ≠ []
  linksFit : ∀ n ∈ g.nodes, g.LinksFit n
  reachable : ∀ id ∈ g.ids, id ∈ g.reachableFrom start.id
  leading : ∀ id ∈ g.ids, id ∈ g.leadingTo finish.id

theorem anchor_eq_ok {type : NodeType} : g.anchor type = .ok n ↔ g.nodesWith type = [n] := by
  rw [anchor]
  split <;> simp_all

theorem danglingEnd?_eq_none {l : Link} :
    g.danglingEnd? l = none ↔ l.source ∈ g.ids ∧ l.target ∈ g.ids := by
  rw [danglingEnd?, Option.map_eq_none_iff, List.find?_eq_none]
  simp

theorem missingFrom_eq_none {ids : List String} {cause : Cause} :
    g.missingFrom ids cause = none ↔ ∀ id ∈ g.ids, id ∈ ids := by
  rw [missingFrom, Option.map_eq_none_iff, List.find?_eq_none]
  simp

theorem anchor_bind_eq_ok {α : Type} {type : NodeType} {k : Node → Except RenderFault α} {a : α} :
    (g.anchor type >>= k) = .ok a ↔ ∃ n, g.nodesWith type = [n] ∧ k n = .ok a := by
  simp only [← anchor_eq_ok]
  cases g.anchor type <;> simp [bind, Except.bind]

theorem anchors_eq_ok : g.anchors = .ok (start, finish) ↔ g.Sound start finish := by
  simp only [anchors, stopOn_bind_eq_ok, anchor_bind_eq_ok, Option.map_eq_none_iff,
    secondOccurrence?_eq_none, List.findSome?_eq_none_iff, danglingEnd?_eq_none,
    linksFault?_eq_none, namesFault?_eq_none, missingFrom_eq_none, ite_eq_left_iff,
    ite_eq_right_iff, reduceCtorEq, imp_false, Decidable.not_not, List.isEmpty_iff]
  constructor
  case mp =>
    rintro ⟨h₁, s, hs, f, hf, h₂, h₃, h₄, ⟨h₅, h₆, _⟩, h₇, h₈, h₉, h₁₀, h₁₁, he⟩
    cases he
    exact ⟨h₁.1, hs, hf, h₂, h₃, h₄, h₅, h₆, h₇, h₈, h₉, h₁₀, h₁₁⟩
  case mpr =>
    rintro ⟨h₁, hs, hf, h₂, h₃, h₄, h₅, h₆, h₇, h₈, h₉, h₁₀, h₁₁⟩
    exact ⟨⟨h₁, by simp⟩, start, hs, finish, hf, h₂, h₃, h₄, ⟨h₅, h₆, by simp⟩, h₇, h₈, h₉, h₁₀, h₁₁,
      rfl⟩

end TaskFlow.Graph
