import Mathlib
import TaskFlow.Graph.Reach

namespace TaskFlow

variable {α : Type}

-- What is told apart by `f` is found by it, also among what is left.
theorem find?_of_nodup {β : Type} [BEq β] [LawfulBEq β] {f : α → β} {xs left : List α} {x : α}
    (hn : (xs.map f).Nodup) (hs : left ⊆ xs) (hx : x ∈ left) :
    left.find? (f · == f x) = some x := by
  cases hf : left.find? (f · == f x)
  case none => simpa using List.find?_eq_none.mp hf x hx
  case some y =>
    have hy : f y = f x := by simpa using List.find?_some hf
    rw [List.inj_on_of_nodup_map hn (hs (List.mem_of_find?_eq_some hf)) (hs hx) hy]

-- A way from one place to another by way of places that are left.
inductive Way (next : α → List α) (left : List α) : α → α → Prop
  | here {x} : x ∈ left → Way next left x x
  | step {x y z} : x ∈ left → y ∈ next x → Way next left y z → Way next left x z

variable {next : α → List α} {left left' : List α} {x y z here : α}

namespace Way

theorem source_mem (h : Way next left x z) : x ∈ left := by
  cases h <;> assumption

theorem target_mem (h : Way next left x z) : z ∈ left := by
  induction h <;> assumption

theorem trans (h : Way next left x y) (h' : Way next left y z) : Way next left x z := by
  induction h
  case here => exact h'
  case step hx hy _ hi => exact .step hx hy (hi h')

theorem mono (h : Way next left x z) (hs : left ⊆ left') : Way next left' x z := by
  induction h
  case here hx => exact .here (hs hx)
  case step hx hy _ hi => exact .step (hs hx) hy hi

theorem mono_next {next' : α → List α} (h : Way next left x z)
    (hn : ∀ x ∈ left, ∀ y ∈ next x, y ∈ next' x) : Way next' left x z := by
  induction h
  case here hx => exact .here hx
  case step hx hy _ hi => exact .step hx (hn _ hx _ hy) hi

theorem concat (h : Way next left x y) (hy : z ∈ next y) (hz : z ∈ left) : Way next left x z :=
  h.trans (.step h.target_mem hy (.here hz))

theorem preserves {S : α → Prop} (h : Way next left x z) (hs : ∀ x, S x → ∀ y ∈ next x, S y)
    (hx : S x) : S z := by
  induction h
  case here => exact hx
  case step hy _ hi => exact hi (hs _ hx _ hy)

-- Ways can be gone back along what leads the other way.
theorem reverse {prev : α → List α} (h : Way next left x z) (hp : ∀ x y, y ∈ next x → x ∈ prev y) :
    Way prev left z x := by
  induction h
  case here hx => exact .here hx
  case step hx hy _ hi => exact hi.concat (hp _ _ hy) hx

variable [DecidableEq α]

theorem passes_or_avoids (h : Way next left x z) (y : α) :
    Way next left x y ∨ Way next (left.erase y) x z := by
  induction h
  case here x hx =>
    by_cases he : x = y
    case pos => exact .inl (he ▸ .here hx)
    case neg => exact .inr (.here ((List.mem_erase_of_ne he).mpr hx))
  case step x _ _ hx hn _ hi =>
    by_cases he : x = y
    case pos => exact .inl (he ▸ .here hx)
    case neg => exact hi.imp (.step hx hn) (.step ((List.mem_erase_of_ne he).mpr hx) hn)

-- A way either leaves out a place, or it can be begun behind the last time that it visits the
-- place.
theorem avoid (h : Way next left x z) (hz : z ≠ here) :
    Way next (left.erase here) x z ∨ ∃ y ∈ next here, Way next (left.erase here) y z := by
  induction h
  case here hx => exact .inl (.here ((List.mem_erase_of_ne hz).mpr hx))
  case step x y z hx hy _ hi =>
    obtain hw | hw := hi hz
    case inr => exact .inr hw
    case inl =>
      by_cases he : x = here
      case pos => exact .inr ⟨y, he ▸ hy, hw⟩
      case neg => exact .inl (.step ((List.mem_erase_of_ne he).mpr hx) hy hw)

end Way

variable [DecidableEq α] {work : List α}

theorem explore_nil : explore next left [] = [] := by
  rw [explore]

theorem explore_cons : explore next left (here :: work) =
    if here ∈ left then here :: explore next (left.erase here) (next here ++ work)
    else explore next left work := by
  rw [explore]

-- The induction that follows the search.
@[elab_as_elim]
theorem explore_induct {P : List α → List α → Prop} (next : α → List α)
    (done : ∀ left, P left [])
    (visit : ∀ left here work, here ∈ left → P (left.erase here) (next here ++ work) →
      P left (here :: work))
    (skip : ∀ left here work, here ∉ left → P left work → P left (here :: work))
    (left work : List α) : P left work :=
  explore.induct next P done visit skip left work

theorem way_of_mem_explore (h : z ∈ explore next left work) : ∃ w ∈ work, Way next left w z := by
  induction left, work using explore_induct next
  case done => simp [explore_nil] at h
  case visit left here work hm hi =>
    rw [explore_cons, if_pos hm, List.mem_cons] at h
    obtain rfl | h := h
    case inl => exact ⟨z, by simp, .here hm⟩
    case inr =>
      have ⟨w, hw, hz⟩ := hi h
      have hz := hz.mono List.erase_subset
      obtain hw | hw := List.mem_append.mp hw
      case inl => exact ⟨here, by simp, .step hm hw hz⟩
      case inr => exact ⟨w, by simp [hw], hz⟩
  case skip hm hi =>
    rw [explore_cons, if_neg hm] at h
    have ⟨w, hw, hz⟩ := hi h
    exact ⟨w, by simp [hw], hz⟩

theorem mem_explore_of_way (hw : x ∈ work) (h : Way next left x z) :
    z ∈ explore next left work := by
  induction left, work using explore_induct next generalizing x
  case done => cases hw
  case visit left here work hm hi =>
    rw [explore_cons, if_pos hm, List.mem_cons]
    -- The node is taken away, so a way that comes through it has to go on from its last visit.
    by_cases hz : z = here
    case pos => exact .inl hz
    case neg =>
      right
      obtain h | ⟨y, hy, h⟩ := h.avoid hz
      case inr => exact hi (List.mem_append_left _ hy) h
      case inl =>
        obtain rfl | hw := List.mem_cons.mp hw
        case inr => exact hi (List.mem_append_right _ hw) h
        case inl =>
          cases h
          case here => contradiction
          case step y _ hy h => exact hi (List.mem_append_left _ hy) h
  case skip left here work hm hi =>
    rw [explore_cons, if_neg hm]
    obtain rfl | hw := List.mem_cons.mp hw
    case inl => exact absurd h.source_mem hm
    case inr => exact hi hw h

theorem mem_explore_iff : z ∈ explore next left work ↔ ∃ w ∈ work, Way next left w z :=
  ⟨way_of_mem_explore, fun ⟨_, hw, h⟩ => mem_explore_of_way hw h⟩

theorem mem_left_of_mem_explore (h : z ∈ explore next left work) : z ∈ left := by
  have ⟨_, _, hw⟩ := way_of_mem_explore h
  exact hw.target_mem

theorem nodup_explore (hn : left.Nodup) : (explore next left work).Nodup := by
  induction left, work using explore_induct next
  case done => simp [explore_nil]
  case visit hm hi =>
    rw [explore_cons, if_pos hm, List.nodup_cons]
    refine ⟨fun h => ?_, hi (hn.erase _)⟩
    exact (hn.mem_erase_iff.mp (mem_left_of_mem_explore h)).1 rfl
  case skip hm hi =>
    rw [explore_cons, if_neg hm]
    exact hi hn

-- A search that begins everywhere finds everything.
theorem explore_perm (hn : left.Nodup) : (explore next left left).Perm left :=
  (List.perm_ext_iff_of_nodup (nodup_explore hn) hn).mpr fun _ =>
    ⟨mem_left_of_mem_explore, fun h => mem_explore_of_way h (.here h)⟩

-- What is found is found by way of places that were found before it.
theorem way_of_explore_eq_append {pre post : List α}
    (h : explore next left work = pre ++ x :: post) : ∃ w ∈ work, Way next (pre ++ [x]) w x := by
  induction left, work using explore_induct next generalizing pre
  case done => simp [explore_nil] at h
  case visit left here work hm hi =>
    rw [explore_cons, if_pos hm] at h
    cases pre
    case nil =>
      cases h
      exact ⟨x, by simp, .here (by simp)⟩
    case cons y pre =>
      rw [List.cons_append, List.cons.injEq] at h
      obtain ⟨rfl, h⟩ := h
      have ⟨w, hw, hx⟩ := hi h
      have hx := hx.mono (List.subset_cons_self here (pre ++ [x]))
      obtain hw | hw := List.mem_append.mp hw
      case inl => exact ⟨here, by simp, .step (by simp) hw hx⟩
      case inr => exact ⟨w, by simp [hw], hx⟩
  case skip hm hi =>
    rw [explore_cons, if_neg hm] at h
    have ⟨w, hw, hx⟩ := hi h
    exact ⟨w, by simp [hw], hx⟩

-- What is found beyond an exit is found behind it.
theorem explore_eq_append {S : α → Prop} {out : α} (hw : ∀ w ∈ work, S w ∨ w = out)
    (hs : ∀ x, S x → ∀ y ∈ next x, S y ∨ y = out) (ho : out ∈ explore next left work) :
    ∃ pre post, explore next left work = pre ++ out :: post ∧ ∀ x ∈ pre, S x := by
  induction left, work using explore_induct next
  case done => simp [explore_nil] at ho
  case visit left here work hm hi =>
    rw [explore_cons, if_pos hm] at ho ⊢
    obtain hh | rfl := hw here (by simp)
    case inr => exact ⟨[], _, rfl, List.forall_mem_nil _⟩
    case inl =>
      by_cases he : here = out
      case pos => exact ⟨[], _, by rw [he]; rfl, List.forall_mem_nil _⟩
      case neg =>
        have hw : ∀ w ∈ next here ++ work, S w ∨ w = out := by
          rintro w hm
          obtain hm | hm := List.mem_append.mp hm
          · exact hs here hh w hm
          · exact hw w (by simp [hm])
        have ho := (List.mem_cons.mp ho).resolve_left (Ne.symm he)
        have ⟨pre, post, heq, hp⟩ := hi hw ho
        exact ⟨here :: pre, post, by rw [heq]; rfl, List.forall_mem_cons.mpr ⟨hh, hp⟩⟩
  case skip left here work hm hi =>
    rw [explore_cons, if_neg hm] at ho ⊢
    exact hi (fun w h => hw w (by simp [h])) ho

end TaskFlow
