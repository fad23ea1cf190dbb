import TaskFlow.Document.Checked

namespace TaskFlow.Checked

open DocumentFault

variable {α β : Type} {c : Checked α} {cf : Checked (α → β)} {a : α} {b : β} {f : α → β}
  {check : Json → Checked α} {write : α → Json} {fields : List (String × Json)} {name : String}
  {key : Key} {default : α} {xs : List α}

section Success

theorem map_eq_ok : f <$> c = ok b ↔ ∃ a, c = ok a ∧ f a = b := by
  cases c <;> simp [Functor.map, map]

theorem seq_eq_ok : cf <*> c = ok b ↔ ∃ f a, cf = ok f ∧ c = ok a ∧ f a = b := by
  cases cf <;> cases c <;> simp [Seq.seq, apply]

theorem within_eq_ok : within key c = ok a ↔ c = ok a := by
  cases c <;> simp [within]

theorem andThen_eq_ok {next : α → Checked β} :
    c.andThen next = ok b ↔ ∃ a, c = ok a ∧ next a = ok b := by
  cases c <;> simp [andThen]

theorem required_eq_ok :
    required fields name check = ok a ↔ ∃ j, fields.lookup name = some j ∧ check j = ok a := by
  rw [required, within_eq_ok]
  cases fields.lookup name <;> simp [fail]

theorem optional_eq_ok : optional fields name default check = ok a ↔
    fields.lookup name = none ∧ a = default ∨ ∃ j, fields.lookup name = some j ∧ check j = ok a := by
  rw [optional]
  cases fields.lookup name
  case none => simp [@eq_comm _ default]
  case some j => simp [within_eq_ok]

theorem model_eq_ok {check : List (String × Json) → Checked α} {j : Json} :
    model name check j = ok a ↔ ∃ fields, j = .object fields ∧ check fields = ok a := by
  cases j <;> simp [model, fail]

theorem mem_of_each_eq_ok {i : Nat} {items : List Json} (h : each check i items = ok xs) :
    ∀ x ∈ xs, ∃ j ∈ items, check j = ok x := by
  induction items generalizing i xs
  case nil =>
    cases h
    exact List.forall_mem_nil _
  case cons item items hi =>
    obtain ⟨f, ys, hf, hys, rfl⟩ := seq_eq_ok.mp h
    obtain ⟨x, hx, rfl⟩ := map_eq_ok.mp hf
    refine List.forall_mem_cons.mpr ⟨⟨item, List.mem_cons_self, within_eq_ok.mp hx⟩, fun y hy => ?_⟩
    have ⟨j, hj, hy⟩ := hi hys y hy
    exact ⟨j, List.mem_cons_of_mem _ hj, hy⟩

theorem mem_of_list_eq_ok {j : Json} (h : list check j = ok xs) : ∀ x ∈ xs, ∃ j, check j = ok x := by
  cases j
  case array items => exact fun x hx => have ⟨j, _, hj⟩ := mem_of_each_eq_ok h x hx; ⟨j, hj⟩
  all_goals cases h

end Success

section Roundtrip

theorem each_map (h : ∀ x ∈ xs, check (write x) = ok x) (i : Nat) :
    each check i (xs.map write) = ok xs := by
  induction xs generalizing i
  case nil => rfl
  case cons x xs hi =>
    rw [List.forall_mem_cons] at h
    simp [each, h.1, hi h.2]

theorem eachField_map {entries : List (String × α)} (h : ∀ x, check (write x) = ok x) :
    eachField check (entries.map fun (name, x) => (name, write x)) = ok entries := by
  induction entries
  case nil => rfl
  case cons entry entries hi => simp [eachField, h, hi]

theorem text?_ofText? (s : Option String) : text? (.ofText? s) = ok s := by
  cases s <;> rfl

end Roundtrip

end TaskFlow.Checked
