import Mathlib.Logic.Basic
/-!
# Total correctness

A computation is an `Option`: `none` is a failure (a bad access, a broken
assertion). `Ends o P` says that `o` does not fail and that its result has `P`;
one rule for each way of putting computations together.

`loop` repeats a body until it returns. Its fuel is a number of turns, and a loop
that needs more fails, so `ends_loop` asks for a measure below it.

`Yields o P` is the partial half, with the same rules: the result has `P` if there
is one. `Ends.and` puts it on top of a proof that the computation does not fail.
-/

namespace Total

universe u

variable {α β : Type u} {σ ρ : Type*}

def Ends (o : Option α) (P : α → Prop) : Prop := ∃ a, o = some a ∧ P a

theorem ends_some {a : α} {P : α → Prop} (h : P a) : Ends (some a) P := ⟨a, rfl, h⟩

theorem ends_pure {a : α} {P : α → Prop} (h : P a) : Ends (pure a) P := ⟨a, rfl, h⟩

theorem Ends.mono {o : Option α} {P Q : α → Prop} (h : Ends o P) (hpq : ∀ a, P a → Q a) : Ends o Q := by
  obtain ⟨a, ha, hp⟩ := h
  exact ⟨a, ha, hpq a hp⟩

theorem ends_bind {o : Option α} {f : α → Option β} {P : α → Prop} {Q : β → Prop} (h : Ends o P)
    (hf : ∀ a, P a → Ends (f a) Q) : Ends (o >>= f) Q := by
  obtain ⟨a, rfl, hp⟩ := h
  exact hf a hp

theorem ends_ite {c : Prop} [Decidable c] {o o' : Option α} {P : α → Prop} (h : c → Ends o P) (h' : ¬ c → Ends o' P) :
    Ends (if c then o else o') P := by
  by_cases hc : c
  · rw [if_pos hc]
    exact h hc
  · rw [if_neg hc]
    exact h' hc

theorem ends_guard {c : Prop} [Decidable c] {P : Unit → Prop} (hc : c) (h : P ()) : Ends (guard c : Option Unit) P := by
  unfold guard
  rw [if_pos hc]
  exact ends_pure h

/-- Repeats `body` until it returns a `.inr`. -/
def loop (body : σ → Option (σ ⊕ ρ)) : Nat → σ → Option ρ
  | 0, _ => none
  | fuel + 1, s => (body s).bind fun
    | .inl s' => loop body fuel s'
    | .inr r => some r

/-- Every turn keeps `I` and makes the measure smaller, or returns. -/
theorem ends_loop {body : σ → Option (σ ⊕ ρ)} {I : σ → Prop} {m : σ → Nat} {P : ρ → Prop} {fuel : Nat} {s : σ}
    (hbody : ∀ s, I s → Ends (body s) (Sum.elim (fun s' => I s' ∧ m s' < m s) P)) (hi : I s) (hm : m s < fuel) :
    Ends (loop body fuel s) P := by
  induction fuel generalizing s with
  | zero => omega
  | succ fuel ih =>
    obtain ⟨x, hx, hp⟩ := hbody s hi
    unfold loop
    rw [hx]
    cases x with
    | inl s' =>
      obtain ⟨hi', hlt⟩ := hp
      exact ih hi' (by omega)
    | inr r => exact ends_some hp

/-! ## Partial correctness -/

def Yields (o : Option α) (P : α → Prop) : Prop := ∀ a, o = some a → P a

theorem Ends.and {o : Option α} {P Q : α → Prop} (h : Ends o P) (h' : Yields o Q) : Ends o fun a => P a ∧ Q a := by
  obtain ⟨a, ha, hp⟩ := h
  exact ⟨a, ha, hp, h' a ha⟩

theorem Ends.yields {o : Option α} {P : α → Prop} (h : Ends o P) : Yields o P := by
  obtain ⟨a, rfl, hp⟩ := h
  rintro _ ⟨⟩
  exact hp

theorem Yields.and {o : Option α} {P Q : α → Prop} (h : Yields o P) (h' : Yields o Q) : Yields o fun a => P a ∧ Q a :=
  fun a ha => ⟨h a ha, h' a ha⟩

theorem yields_some {a : α} {P : α → Prop} (h : P a) : Yields (some a) P := by
  rintro _ ⟨⟩
  exact h

theorem yields_pure {a : α} {P : α → Prop} (h : P a) : Yields (pure a) P := yields_some h

theorem Yields.mono {o : Option α} {P Q : α → Prop} (h : Yields o P) (hpq : ∀ a, P a → Q a) : Yields o Q :=
  fun a ha => hpq a (h a ha)

theorem yields_bind {o : Option α} {f : α → Option β} {P : α → Prop} {Q : β → Prop} (h : Yields o P)
    (hf : ∀ a, P a → Yields (f a) Q) : Yields (o >>= f) Q := by
  intro b hb
  obtain ⟨a, ha, hfa⟩ := Option.bind_eq_some_iff.1 hb
  exact hf a (h a ha) b hfa

/-- Nothing need be known of the first result. -/
theorem yields_bind_any {o : Option α} {f : α → Option β} {Q : β → Prop} (hf : ∀ a, Yields (f a) Q) : Yields (o >>= f) Q :=
  yields_bind (P := fun _ => True) (fun _ _ => trivial) fun a _ => hf a

theorem yields_none {P : α → Prop} : Yields none P := by
  rintro _ ⟨⟩

theorem yields_ite {c : Prop} [Decidable c] {o o' : Option α} {P : α → Prop} (h : c → Yields o P)
    (h' : ¬ c → Yields o' P) : Yields (if c then o else o') P := by
  by_cases hc : c
  · rw [if_pos hc]
    exact h hc
  · rw [if_neg hc]
    exact h' hc

/-- Every turn keeps `I`, or returns. -/
theorem yields_loop {body : σ → Option (σ ⊕ ρ)} {I : σ → Prop} {P : ρ → Prop} {fuel : Nat} {s : σ}
    (hbody : ∀ s, I s → Yields (body s) (Sum.elim I P)) (hi : I s) : Yields (loop body fuel s) P := by
  induction fuel generalizing s with
  | zero => rintro _ ⟨⟩
  | succ fuel ih =>
    intro r hr
    obtain ⟨x, hx, hrest⟩ := Option.bind_eq_some_iff.1 hr
    cases x with
    | inl s' => exact ih (hbody s hi _ hx) r hrest
    | inr r' =>
      obtain rfl := Option.some.inj hrest
      exact hbody s hi _ hx

/-- Bodies that agree on the states of an invariant. -/
theorem loop_congr {body body' : σ → Option (σ ⊕ ρ)} {I : σ → Prop} {fuel : Nat} {s : σ}
    (heq : ∀ s, I s → body s = body' s) (hI : ∀ s, I s → Yields (body' s) (Sum.elim I fun _ => True)) (hi : I s) :
    loop body fuel s = loop body' fuel s := by
  induction fuel generalizing s with
  | zero => rfl
  | succ fuel ih =>
    unfold loop
    rw [heq s hi]
    refine Option.bind_congr fun x hx => ?_
    cases x with
    | inl s' => exact ih (hI s hi _ hx)
    | inr r => rfl

/-- A loop seen through `f`: each turn of `body`, so seen, is a turn of `body'`. -/
theorem loop_map {σ' ρ' : Type*} {body : σ → Option (σ ⊕ ρ)} {body' : σ' → Option (σ' ⊕ ρ')} {f : σ → σ'} {g : ρ → ρ'}
    {I : σ → Prop} {fuel : Nat} {s : σ} (hbody : ∀ s, I s → (body s).map (Sum.map f g) = body' (f s))
    (hI : ∀ s, I s → Yields (body s) (Sum.elim I fun _ => True)) (hi : I s) :
    (loop body fuel s).map g = loop body' fuel (f s) := by
  induction fuel generalizing s with
  | zero => rfl
  | succ fuel ih =>
    unfold loop
    rw [← hbody s hi]
    cases hx : body s with
    | none => rfl
    | some x =>
      cases x with
      | inl s' => exact ih (hI s hi _ hx)
      | inr r => rfl

end Total
