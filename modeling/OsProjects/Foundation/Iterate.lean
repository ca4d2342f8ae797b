import Mathlib.Data.Finset.Card
import Mathlib.Data.Nat.Notation
import Mathlib.Logic.Relation

/-!
# Iterating a function that may stop

`steps f n x` makes `n` steps from `x`.  Where a cycle is ahead the iteration goes on for ever
(`ReachesCycle.steps_ne_none`), and where the points on the way are finitely many, as many steps as
there are points tell (`reachesCycle_of_steps`).
-/

namespace OsProjects

universe u

variable {σ : Type u} {f : σ → Option σ} {x y z : σ} {m n : ℕ}

/-- `n` steps of `f`. -/
def steps (f : σ → Option σ) : ℕ → σ → Option σ
  | 0, x => some x
  | n + 1, x => (f x).bind (steps f n)

/-- One step leads from `x` to `y`. -/
def Leads (f : σ → Option σ) (x y : σ) : Prop := f x = some y

/-- The iteration from `x` comes to a point that it returns to. -/
def ReachesCycle (f : σ → Option σ) (x : σ) : Prop :=
  ∃ y, Relation.ReflTransGen (Leads f) x y ∧ Relation.TransGen (Leads f) y y

@[simp] theorem steps_zero : steps f 0 x = some x := rfl

theorem steps_succ_eq_some : steps f (n + 1) x = some z ↔ ∃ y,
    f x = some y ∧ steps f n y = some z :=
  Option.bind_eq_some_iff

theorem steps_add : steps f (m + n) x = (steps f m x).bind (steps f n) := by
  induction m generalizing x with
  | zero => simp
  | succ m ih =>
    rw [Nat.succ_add, steps, steps, Option.bind_assoc]
    exact congrArg (Option.bind (f x)) (funext fun y => ih)

/-- A run of `n` steps passes through a point after each `m ≤ n` of them. -/
theorem steps_split (h : steps f (m + n) x ≠ none) :
    ∃ y, steps f m x = some y ∧ steps f (m + n) x = steps f n y := by
  rw [steps_add] at h ⊢
  cases hy : steps f m x with
  | none => simp [hy] at h
  | some y => exact ⟨y, rfl, rfl⟩

theorem reflTransGen_of_steps (h : steps f n x = some y) : Relation.ReflTransGen (Leads f) x y := by
  induction n generalizing x with
  | zero =>
    obtain rfl := Option.some.inj h
    exact .refl
  | succ n ih =>
    obtain ⟨z, hz, h⟩ := steps_succ_eq_some.1 h
    exact .head hz (ih h)

theorem steps_of_reflTransGen (h : Relation.ReflTransGen (Leads f) x y) :
    ∃ n, steps f n x = some y := by
  induction h using Relation.ReflTransGen.head_induction_on with
  | refl => exact ⟨0, rfl⟩
  | head hz _ ih =>
    obtain ⟨n, hn⟩ := ih
    exact ⟨n + 1, steps_succ_eq_some.2 ⟨_, hz, hn⟩⟩

/-- A cycle ahead stays ahead. -/
theorem ReachesCycle.step (h : ReachesCycle f x) : ∃ y, f x = some y ∧ ReachesCycle f y := by
  obtain ⟨c, hxc, hcc⟩ := h
  rcases Relation.ReflTransGen.cases_head hxc with rfl | ⟨z, hxz, hzc⟩
  · obtain ⟨z, hxz, hzx⟩ := Relation.TransGen.head'_iff.1 hcc
    exact ⟨z, hxz, x, hzx, hcc⟩
  · exact ⟨z, hxz, c, hzc, hcc⟩

/-- With a cycle ahead the iteration never stops. -/
theorem ReachesCycle.steps_ne_none (h : ReachesCycle f x) : steps f n x ≠ none := by
  induction n generalizing x with
  | zero => simp
  | succ n ih =>
    obtain ⟨y, hxy, hy⟩ := h.step
    rw [steps, hxy]
    exact ih hy

/-- Two visits to one point. -/
theorem reachesCycle_of_repeat (hm : steps f m x = some y) (hn : steps f n x = some y)
    (hlt : m < n) : ReachesCycle f x := by
  obtain ⟨k, rfl⟩ : ∃ k, n = m + (k + 1) := ⟨n - m - 1, by omega⟩
  rw [steps_add, hm, Option.bind_some] at hn
  obtain ⟨z, hyz, hzy⟩ := steps_succ_eq_some.1 hn
  exact ⟨y, reflTransGen_of_steps hm, .head' hyz (reflTransGen_of_steps hzy)⟩

/-- More steps than there are points on the way come to a point twice. -/
theorem reachesCycle_of_steps {F : Finset σ} (hF : ∀ k y, steps f k x = some y → y ∈ F)
    (hcard : F.card ≤ n) (h : steps f n x ≠ none) : ReachesCycle f x := by
  have hpoint : ∀ k ≤ n, ∃ y, steps f k x = some y := by
    intro k hk
    obtain ⟨j, rfl⟩ := Nat.exists_eq_add_of_le hk
    obtain ⟨y, hy, -⟩ := steps_split h
    exact ⟨y, hy⟩
  have hmaps : ∀ k ∈ Finset.range (n + 1), (steps f k x).getD x ∈ F := by
    intro k hk
    obtain ⟨y, hy⟩ := hpoint k (Nat.lt_succ_iff.1 (Finset.mem_range.1 hk))
    rw [hy]
    exact hF k y hy
  obtain ⟨i, hi, j, hj, hij, heq⟩ := Finset.exists_ne_map_eq_of_card_lt_of_maps_to
    (by rw [Finset.card_range]; omega) hmaps
  obtain ⟨y, hy⟩ := hpoint i (Nat.lt_succ_iff.1 (Finset.mem_range.1 hi))
  obtain ⟨z, hz⟩ := hpoint j (Nat.lt_succ_iff.1 (Finset.mem_range.1 hj))
  rw [hy, hz] at heq
  obtain rfl : y = z := heq
  rcases Nat.lt_or_gt_of_ne hij with hlt | hlt
  · exact reachesCycle_of_repeat hy hz hlt
  · exact reachesCycle_of_repeat hz hy hlt

end OsProjects
