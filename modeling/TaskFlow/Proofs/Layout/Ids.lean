import Std.Data.String.ToNat
import TaskFlow.Definition.Layout
import TaskFlow.Graph.Projection
import TaskFlow.Graph.Walk
import TaskFlow.Proofs.Definition.Spelling
import TaskFlow.Proofs.Reader.Offsets

namespace TaskFlow

-- An empty label counts as none.
def TaskMention.attributes (t : TaskMention) : Attributes :=
  ⟨.task, some t.name, t.label.filter fun label => !label.isEmpty⟩

theorem isName_ne_empty {s : String} (h : isName s) : s ≠ "" := by
  rintro rfl
  simp [isName] at h

section Attributes

variable {n : Node} {t : TaskMention}

theorem TaskMention.Named.filter_label (h : t.Named) :
    t.label.filter (fun label => !label.isEmpty) = t.label := by
  cases hl : t.label
  case none => rfl
  case some l =>
    have := isName_ne_empty (h.label l hl)
    simp [Option.filter, this]

theorem Node.type_eq_task (h : n.attributes = t.attributes) : n.type = .task :=
  congrArg Attributes.type h

-- A task that can be written is read back from its node.
theorem Node.task_eq_bare (h : n.attributes = t.attributes) (ht : t.Named) : n.task = t.bare := by
  have hn : n.name = some t.name := congrArg Attributes.name h
  have hl : n.label = t.label := (congrArg Attributes.label h).trans ht.filter_label
  simp [Node.task, TaskMention.bare, hn, hl]

end Attributes

namespace IdPool

variable {p : IdPool} {base : String} {taken : List String} {n n' : Nat} {type : NodeType}
  {name : Option String} {properties : List (String × String)}

theorem numbered_injective (h : numbered base n = numbered base n') : n = n' := by
  have h := congrArg String.toList h
  simp only [numbered, String.toList_append] at h
  exact Nat.repr_injective (String.toList_inj.mp (List.append_cancel_left h))

theorem le_firstFree : n ≤ firstFree base taken n := by
  induction taken, n using firstFree.induct base
  case case1 h hi =>
    rw [firstFree, if_pos h]
    omega
  case case2 h =>
    rw [firstFree]
    simp [h]

-- Leaving out an id that was met does not make it free, since later numbers are greater.
theorem numbered_firstFree_notMem : numbered base (firstFree base taken n) ∉ taken := by
  induction taken, n using firstFree.induct base
  case case1 taken n h hi =>
    rw [firstFree, if_pos h]
    have hne : numbered base (firstFree base (taken.erase (numbered base n)) (n + 1))
        ≠ numbered base n := by
      intro he
      have := numbered_injective he
      have := @le_firstFree base (taken.erase (numbered base n)) (n + 1)
      omega
    exact fun hm => hi ((List.mem_erase_of_ne hne).mpr hm)
  case case2 h => rwa [firstFree, if_neg h]

theorem allocate_fresh : (p.allocate base).1 ∉ p.taken ∧
    (p.allocate base).2.taken = (p.allocate base).1 :: p.taken := by
  rw [allocate]
  split
  case isTrue  => exact ⟨numbered_firstFree_notMem, rfl⟩
  case isFalse h => exact ⟨h, rfl⟩

theorem allocate_ne_empty (h : base ≠ "") : (p.allocate base).1 ≠ "" := by
  rw [allocate]
  split
  case isTrue => simp [numbered]
  case isFalse => exact h

-- Whether a pool has given out ids behind another one.
structure Gives (p : IdPool) (ids : List String) (p' : IdPool) : Prop where
  taken : p'.taken.Perm (ids ++ p.taken)
  nodup : p.taken.Nodup → p'.taken.Nodup

theorem Gives.nil : p.Gives [] p :=
  ⟨.refl _, id⟩

theorem Gives.append {p p₁ p₂ : IdPool} {ids ids' : List String} (h : p.Gives ids p₁)
    (h' : p₁.Gives ids' p₂) : p.Gives (ids ++ ids') p₂ := by
  refine ⟨h'.taken.trans ?_, fun hn => h'.nodup (h.nodup hn)⟩
  refine (h.taken.append_left ids').trans ?_
  rw [← List.append_assoc]
  exact List.perm_append_comm.append_right _

theorem Gives.cons {p p₁ p₂ : IdPool} {id : String} {ids : List String} (h : p.Gives [id] p₁)
    (h' : p₁.Gives ids p₂) : p.Gives (id :: ids) p₂ :=
  h.append h'

theorem newNode_eq_ok (h : base ≠ "") : ∃ id p', p.newNode base type name properties
    = .ok (⟨id, type, name, properties⟩, p') ∧ p.Gives [id] p' := by
  have ⟨hf, ht⟩ := @allocate_fresh p base
  refine ⟨(p.allocate base).1, (p.allocate base).2, ?_, ⟨?_, fun hn => ?_⟩⟩
  · have he : (p.allocate base).1.isEmpty = false := by
      simpa using @allocate_ne_empty p base h
    simp [newNode, he]
  · rw [ht]
    exact .refl _
  · rw [ht]
    exact List.nodup_cons.mpr ⟨hf, hn⟩

theorem newTask_eq_ok {t : TaskMention} (h : t.name ≠ "") : ∃ n p', p.newTask t = .ok (n, p') ∧
    n.attributes = t.attributes ∧ p.Gives [n.id] p' := by
  have ⟨id, p', he, hg⟩ := @newNode_eq_ok p t.name .task (some t.name)
    ((t.label.filter fun l => !l.isEmpty).elim [] fun l => [("label", l)]) h
  refine ⟨_, p', he, ?_, hg⟩
  cases hl : t.label.filter fun l => !l.isEmpty
  all_goals simp [Node.attributes, Node.label, TaskMention.attributes, hl]

end IdPool

end TaskFlow
