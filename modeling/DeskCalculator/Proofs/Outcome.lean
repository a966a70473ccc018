import DeskCalculator.Fault

namespace DeskCalculator.Outcome

variable {ε α β : Type} {x : Except ε α} {f : α → Except ε β}

theorem ok_bind (a : α) (f : α → Except ε β) : (Except.ok a >>= f) = f a := rfl

theorem error_bind (e : ε) (f : α → Except ε β) : (Except.error e >>= f) = .error e := rfl

theorem bind_ok {b : β} (h : (x >>= f) = .ok b) : ∃ a, x = .ok a ∧ f a = .ok b := by
  cases x with
  | error e => cases h
  | ok a => exact ⟨a, rfl, h⟩

theorem map_ok {g : α → β} {b : β} (h : (g <$> x) = .ok b) : ∃ a, x = .ok a ∧ g a = b := by
  cases x with
  | error e => cases h
  | ok a => exact ⟨a, rfl, Except.ok.inj h⟩

theorem map_error {g : α → β} {e : ε} (h : (g <$> x) = .error e) : x = .error e := by
  cases x with
  | error e' => exact congrArg Except.error (Except.error.inj h)
  | ok a => cases h

theorem forall_mem_none (P : α → Prop) : ∀ a ∈ (none : Option α), P a := by
  intro a h
  cases h

theorem forall_mem_some {P : α → Prop} {a : α} (h : P a) : ∀ b ∈ some a, P b := by
  intro b hb
  cases hb
  exact h

/-- The same fault, or results that go together. -/
inductive Alike {γ δ : Type} (R : γ → δ → Prop) : Except ε γ → Except ε δ → Prop where
  | ok {a : γ} {b : δ} (h : R a b) : Alike R (.ok a) (.ok b)
  | error (e : ε) : Alike R (.error e) (.error e)

theorem Alike.bind {γ δ : Type} {R : α → γ → Prop} {S : β → δ → Prop} {y : Except ε γ}
    {g : γ → Except ε δ} (h : Alike R x y) (hf : ∀ a c, R a c → Alike S (f a) (g c)) :
    Alike S (x >>= f) (y >>= g) := by
  cases h with
  | ok h => exact hf _ _ h
  | error e => exact .error e

theorem Alike.refl (x : Except ε α) : Alike Eq x x := by
  cases x with
  | error e => exact .error e
  | ok a => exact .ok rfl

theorem Alike.eq {y : Except ε α} (h : Alike Eq x y) : x = y := by
  cases h with
  | ok h => rw [h]
  | error e => rfl

/-- Some faults tell of a defect of the calculator, or are answered before they are reported; all
others are faults of the input. -/
def OfInput : Fault → Prop
  | .noInput | .unknownUnaryOperator _ | .unknownOperator _ | .unexpected _ => False
  | _ => True

/-- An operation has no result, or one that is too big. -/
def OfArithmetic : Fault → Prop
  | .overflow | .divideByZero | .negativeRoot _ => True
  | _ => False

/-- A literal is malformed, or its number too big. -/
def OfLiteral : Fault → Prop
  | .badCharacter _ | .doubleSeparator | .integerPartOverflow | .fractionalPartOverflow
  | .badRadixMarker _ | .overflow => True
  | _ => False

/-- There is no literal where one is called for, or it is malformed or too big. -/
def OfText : Fault → Prop
  | .noInput => True
  | fault => OfLiteral fault

theorem OfArithmetic.ofInput {fault : Fault} (h : OfArithmetic fault) : OfInput fault := by
  cases fault <;> first | exact trivial | exact h

theorem OfLiteral.ofInput {fault : Fault} (h : OfLiteral fault) : OfInput fault := by
  cases fault <;> first | exact trivial | exact h

theorem OfLiteral.ofText {fault : Fault} (h : OfLiteral fault) : OfText fault := by
  cases fault <;> first | exact trivial | exact h

/-- A result with a property, or a fault with one. -/
def Yields {α : Type} (F : Fault → Prop) (P : α → Prop) : Except Fault α → Prop
  | .ok a => P a
  | .error fault => F fault

/-- A result with a property, or a fault of the input. -/
abbrev Meets {α : Type} (P : α → Prop) : Except Fault α → Prop := Yields OfInput P

variable {F G : Fault → Prop} {P : α → Prop} {Q : β → Prop} {r : Except Fault α}
  {g : α → Except Fault β}

theorem Yields.bind (h : Yields F P r) (hg : ∀ a, P a → Yields F Q (g a)) :
    Yields F Q (r >>= g) := by
  cases r with
  | error fault => exact h
  | ok a => exact hg a h

theorem Yields.map {f : α → β} (h : Yields F P r) (hf : ∀ a, P a → Q (f a)) :
    Yields F Q (f <$> r) := by
  cases r with
  | error fault => exact h
  | ok a => exact hf a h

theorem Yields.mono (h : Yields F P r) (hF : ∀ fault, F fault → G fault) : Yields G P r := by
  cases r with
  | error fault => exact hF fault h
  | ok a => exact h

theorem Yields.of_ok {a : α} (h : Yields F P r) (hr : r = .ok a) : P a := by
  subst hr
  exact h

theorem Yields.of_error {fault : Fault} (h : Yields F P r) (hr : r = .error fault) : F fault := by
  subst hr
  exact h

end DeskCalculator.Outcome
