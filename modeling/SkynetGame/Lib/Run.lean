import Mathlib.Logic.Relation
import Mathlib.Tactic.SplitIfs

/-!
# Machines and their runs

A machine takes labelled steps, each a partial function of its state. A run may be asked to meet
a condition on every step it takes, read off the state before the step and its label: what holds
at the start and is kept by every such step holds of every state such a run reaches
(`Machine.Reach.invariant`).
-/

namespace SkynetGame

/-- A machine: where it starts, and what each labelled step does where it can be taken. -/
structure Machine (σ ι : Type*) where
  init : σ
  step : σ → ι → Option σ

/-- A step that is taken where its test holds. -/
theorem of_guard {σ : Type*} {p : Prop} [Decidable p] {s s' : σ}
    (h : (if p then some s else none) = some s') : p ∧ s = s' := by
  obtain ⟨hp, hs⟩ := Option.ite_none_right_eq_some.1 h
  exact ⟨hp, Option.some.inj hs⟩

namespace Machine

variable {σ ι : Type*} (M : Machine σ ι)

/-- The labels' steps one after the other, as long as each meets `ok`. -/
def run (ok : σ → ι → Prop) [∀ s i, Decidable (ok s i)] : σ → List ι → Option σ
  | s, [] => some s
  | s, i :: is => if ok s i then (M.step s i).bind fun s' => run ok s' is else none

/-- The states that a run reaches from `s` whose steps all meet `ok`. -/
inductive Steps (ok : σ → ι → Prop) (s : σ) : σ → Prop
  | refl : Steps ok s s
  | tail {s₁ s₂ : σ} {i : ι} : Steps ok s s₁ → ok s₁ i → M.step s₁ i = some s₂ → Steps ok s s₂

/-- The states that a run of the machine reaches whose steps all meet `ok`. -/
def Reach (ok : σ → ι → Prop) (s : σ) : Prop := M.Steps ok M.init s

/-- The states that some run of the machine reaches. -/
def Reachable (s : σ) : Prop := M.Reach (fun _ _ => True) s

variable {M} {ok : σ → ι → Prop}

theorem Steps.trans {s₁ s₂ s₃ : σ} (h₁ : M.Steps ok s₁ s₂) (h₂ : M.Steps ok s₂ s₃) :
    M.Steps ok s₁ s₃ := by
  induction h₂ with
  | refl => exact h₁
  | tail _ hok hst ih => exact ih.tail hok hst

theorem Steps.single {s s' : σ} {i : ι} (hok : ok s i) (h : M.step s i = some s') :
    M.Steps ok s s' := Steps.refl.tail hok h

theorem Steps.mono {ok' : σ → ι → Prop} (hle : ∀ s i, ok s i → ok' s i) {s s' : σ}
    (h : M.Steps ok s s') : M.Steps ok' s s' := by
  induction h with
  | refl => exact .refl
  | tail _ hok hst ih => exact ih.tail (hle _ _ hok) hst

theorem Steps.invariant {I : σ → Prop} {s s' : σ} (h : M.Steps ok s s') (h₀ : I s)
    (hstep : ∀ s i s', I s → ok s i → M.step s i = some s' → I s') : I s' := by
  induction h with
  | refl => exact h₀
  | tail _ hok hst ih => exact hstep _ _ _ ih hok hst

/-- What holds at the start and is kept by every step that meets `ok` holds of every state
that a run of such steps reaches. -/
theorem Reach.invariant {I : σ → Prop} {s : σ} (h : M.Reach ok s) (h₀ : I M.init)
    (hstep : ∀ s i s', I s → ok s i → M.step s i = some s' → I s') : I s :=
  Steps.invariant h h₀ hstep

theorem Reach.init : M.Reach ok M.init := Steps.refl

theorem Reach.step {s s' : σ} {i : ι} (h : M.Reach ok s) (hok : ok s i)
    (hst : M.step s i = some s') : M.Reach ok s' := Steps.tail h hok hst

theorem steps_of_run [∀ s i, Decidable (ok s i)] : ∀ (is : List ι) {s s' : σ},
    M.run ok s is = some s' → M.Steps ok s s'
  | [], s, s', h => by
    simp only [run, Option.some.injEq] at h
    exact h ▸ .refl
  | i :: is, s, s', h => by
    simp only [run] at h
    split_ifs at h with hok
    obtain ⟨s₁, hst, h⟩ := Option.bind_eq_some_iff.1 h
    exact (Steps.single hok hst).trans (steps_of_run is h)

theorem reach_of_run [∀ s i, Decidable (ok s i)] {is : List ι} {s : σ}
    (h : M.run ok M.init is = some s) : M.Reach ok s := steps_of_run is h

/-- What is seen of the last state of a run is seen of a state that is reached. -/
theorem exists_reach [∀ s i, Decidable (ok s i)] {is : List ι} {β : Type*} {f : σ → β} {b : β}
    (h : (M.run ok M.init is).map f = some b) : ∃ s, M.Reach ok s ∧ f s = b := by
  obtain ⟨s, hs, he⟩ := Option.map_eq_some_iff.1 h
  exact ⟨s, reach_of_run hs, he⟩

end Machine

end SkynetGame
