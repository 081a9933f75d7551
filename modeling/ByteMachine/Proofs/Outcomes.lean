import Mathlib

/-! # Outcomes: what a composed computation that can fail gives, and where it fails -/
namespace ByteMachine

theorem bind_eq_ok_iff {α β ε : Type} {x : Except ε α} {f : α → Except ε β} {b : β} :
    x >>= f = .ok b ↔ ∃ a, x = .ok a ∧ f a = .ok b := by
  cases x <;> simp [bind, Except.bind]

theorem bind_eq_error_iff {α β ε : Type} {x : Except ε α} {f : α → Except ε β} {e : ε} :
    x >>= f = .error e ↔ x = .error e ∨ ∃ a, x = .ok a ∧ f a = .error e := by
  cases x <;> simp [bind, Except.bind]

theorem map_eq_ok_iff {α β ε : Type} {x : Except ε α} {f : α → β} {b : β} :
    x.map f = .ok b ↔ ∃ a, x = .ok a ∧ f a = b := by
  cases x <;> simp [Except.map]

theorem map_eq_error_iff {α β ε : Type} {x : Except ε α} {f : α → β} {e : ε} :
    x.map f = .error e ↔ x = .error e := by
  cases x <;> simp [Except.map]

theorem mapError_eq_ok_iff {α ε ε' : Type} {x : Except ε α} {f : ε → ε'} {a : α} : x.mapError f = .ok a ↔ x = .ok a := by
  cases x <;> simp [Except.mapError]

theorem mapError_eq_error_iff {α ε ε' : Type} {x : Except ε α} {f : ε → ε'} {e : ε'} :
    x.mapError f = .error e ↔ ∃ cause, x = .error cause ∧ f cause = e := by
  cases x <;> simp [Except.mapError]

theorem mapM_eq_ok_iff {α β ε : Type} {f : α → Except ε β} {xs : List α} {ys : List β} :
    xs.mapM f = .ok ys ↔ List.Forall₂ (fun x y => f x = .ok y) xs ys := by
  induction xs generalizing ys with
  | nil => cases ys <;> simp [pure, Except.pure]
  | cons x xs ih =>
    simp only [List.mapM_cons, bind_eq_ok_iff, ih, List.forall₂_cons_left_iff, pure, Except.pure, Except.ok.injEq]
    grind

/-- The first element at which a list is split, or one behind it. -/
theorem exists_split_cons {α : Type} {p : List α → α → List α → Prop} {y : α} {ys : List α} :
    (∃ before x after, y :: ys = before ++ x :: after ∧ p before x after) ↔
      p [] y ys ∨ ∃ before x after, ys = before ++ x :: after ∧ p (y :: before) x after := by
  constructor
  · rintro ⟨_ | ⟨b, before⟩, x, after, hsplit, hp⟩
    · obtain ⟨rfl, rfl⟩ := List.cons_eq_cons.mp hsplit
      exact .inl hp
    · obtain ⟨rfl, rfl⟩ := List.cons_eq_cons.mp hsplit
      exact .inr ⟨before, x, after, rfl, hp⟩
  · rintro (hp | ⟨before, x, after, rfl, hp⟩)
    · exact ⟨[], y, ys, rfl, hp⟩
    · exact ⟨y :: before, x, after, rfl, hp⟩

/-- Reading element by element fails at the first element that fails. -/
theorem mapM_eq_error_iff {α β ε : Type} {f : α → Except ε β} {xs : List α} {e : ε} : xs.mapM f = .error e ↔
    ∃ before x after, xs = before ++ x :: after ∧ (∀ y ∈ before, ∃ b, f y = .ok b) ∧ f x = .error e := by
  induction xs with
  | nil => simp [pure, Except.pure]
  | cons y ys ih =>
    rw [exists_split_cons, List.mapM_cons]
    cases hy : f y with
    | error e' => simp [bind, Except.bind, hy]
    | ok b =>
      simp only [List.forall_mem_cons, hy, Except.ok.injEq, exists_eq', true_and, ← ih]
      cases ys.mapM f <;> simp [bind, Except.bind, pure, Except.pure]

end ByteMachine
