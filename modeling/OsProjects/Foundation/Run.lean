import Mathlib.Tactic
import Mathlib.Logic.Relation

/-!
# Runs of a labelled transition system

A system is a step relation `step s a t`: in state `s` the event `a` leads to `t`.  `Run step` is
the relation of a whole sequence of events, and `Reachable` collects the states at the end of a
run from an initial state.

The rules used by the developments above this file:

* `Run.append`, `Run.append_iff`, `Run.snoc_iff`: runs compose and split at any event;
* `Run.invariant`, `Reachable.invariant`: what every step preserves, a run preserves;
* `Run.trace_invariant`: the same for a property that also speaks about the events so far;
* `Run.mono`: a run of a stronger step relation is a run of a weaker one.
-/

namespace OsProjects

variable {σ α : Type*}

/-- `Run step s as t`: the events `as`, in this order, lead from `s` to `t`. -/
inductive Run (step : σ → α → σ → Prop) : σ → List α → σ → Prop
  | nil (s : σ) : Run step s [] s
  | cons {s t u : σ} {a : α} {as : List α} : step s a t → Run step t as u → Run step s (a :: as) u

/-- The states some run from an initial state ends in. -/
def Reachable (init : σ → Prop) (step : σ → α → σ → Prop) (s : σ) : Prop :=
  ∃ s₀ as, init s₀ ∧ Run step s₀ as s

namespace Run

variable {step : σ → α → σ → Prop} {s t u : σ} {a : α} {as bs : List α}

theorem nil_iff : Run step s [] t ↔ s = t :=
  ⟨fun h => by cases h; rfl, fun h => h ▸ nil s⟩

theorem cons_iff : Run step s (a :: as) u ↔ ∃ t, step s a t ∧ Run step t as u := by
  constructor
  · rintro (_ | ⟨h, hr⟩)
    exact ⟨_, h, hr⟩
  · rintro ⟨t, h, hr⟩
    exact cons h hr

theorem append (h₁ : Run step s as t) (h₂ : Run step t bs u) : Run step s (as ++ bs) u := by
  induction h₁ with
  | nil s => exact h₂
  | cons h _ ih => exact cons h (ih h₂)

theorem append_iff : Run step s (as ++ bs) u ↔ ∃ t, Run step s as t ∧ Run step t bs u := by
  constructor
  · intro h
    induction as generalizing s with
    | nil => exact ⟨s, nil s, h⟩
    | cons a as ih =>
      obtain ⟨m, hm, hr⟩ := cons_iff.1 h
      obtain ⟨t, h₁, h₂⟩ := ih hr
      exact ⟨t, cons hm h₁, h₂⟩
  · rintro ⟨t, h₁, h₂⟩
    exact append h₁ h₂

theorem single_iff : Run step s [a] t ↔ step s a t := by
  simp [cons_iff, nil_iff]

theorem snoc_iff : Run step s (as ++ [a]) u ↔ ∃ t, Run step s as t ∧ step t a u := by
  simp only [append_iff, single_iff]

/-- Induction on the last event of a run, the form in which a trace grows. -/
theorem snoc_induction {motive : List α → σ → Prop} (h : Run step s as t) (nil : motive [] s)
    (snoc : ∀ as a t u, Run step s as t → motive as t → step t a u → motive (as ++ [a]) u) :
    motive as t := by
  induction as using List.reverseRecOn generalizing t with
  | nil => rw [nil_iff.1 h] at nil; exact nil
  | append_singleton as a ih =>
    obtain ⟨m, hm, hs⟩ := snoc_iff.1 h
    exact snoc as a m t hm (ih hm) hs

/-- A property every step preserves holds at the end of a run that starts with it. -/
theorem invariant {I : σ → Prop} (h : Run step s as t) (hs : I s)
    (hstep : ∀ s a t, I s → step s a t → I t) : I t := by
  induction h with
  | nil s => exact hs
  | cons h _ ih => exact ih (hstep _ _ _ hs h)

/-- The same for a property of the state and the events that led to it. -/
theorem trace_invariant {I : List α → σ → Prop} (h : Run step s as t) (hs : I [] s)
    (hstep : ∀ as s a t, I as s → step s a t → I (as ++ [a]) t) : I as t :=
  h.snoc_induction hs fun as a t u _ ih hst => hstep as t a u ih hst

theorem mono {step' : σ → α → σ → Prop} (h : Run step s as t)
    (himp : ∀ s a t, step s a t → step' s a t) : Run step' s as t := by
  induction h with
  | nil s => exact nil s
  | cons h _ ih => exact cons (himp _ _ _ h) ih

/-- The same where a step is one of the other relation only under an invariant. -/
theorem mono_invariant {step' : σ → α → σ → Prop} {I : σ → Prop} (h : Run step s as t) (hs : I s)
    (himp : ∀ s a t, I s → step s a t → step' s a t ∧ I t) : Run step' s as t := by
  induction h with
  | nil s => exact nil s
  | cons h _ ih =>
    obtain ⟨h', hI⟩ := himp _ _ _ hs h
    exact cons h' (ih hI)

/-- An executed list of events is a run. -/
theorem of_foldlM {f : σ → α → Option σ} {s t : σ} {as : List α} (h : as.foldlM f s = some t) :
    Run (fun s a t => f s a = some t) s as t := by
  induction as generalizing s with
  | nil =>
    obtain rfl := Option.some.inj h
    exact nil s
  | cons a as ih =>
    rw [List.foldlM_cons] at h
    obtain ⟨u, hu, h⟩ := Option.bind_eq_some_iff.1 h
    exact cons hu (ih h)

end Run

namespace Reachable

variable {init : σ → Prop} {step : σ → α → σ → Prop} {s t : σ} {a : α} {as : List α}

theorem run (h : Reachable init step s) (hr : Run step s as t) : Reachable init step t := by
  obtain ⟨s₀, bs, h₀, hb⟩ := h
  exact ⟨s₀, bs ++ as, h₀, hb.append hr⟩

theorem tail (h : Reachable init step s) (hs : step s a t) : Reachable init step t :=
  h.run (Run.single_iff.2 hs)

/-- What the initial states have and every step preserves, every reachable state has. -/
theorem invariant {I : σ → Prop} (h : Reachable init step s) (hinit : ∀ s, init s → I s)
    (hstep : ∀ s a t, I s → step s a t → I t) : I s := by
  obtain ⟨s₀, as, h₀, hr⟩ := h
  exact hr.invariant (hinit s₀ h₀) hstep

end Reachable

end OsProjects
