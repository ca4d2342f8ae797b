import Mathlib.Tactic

/-!
# Ownership of cells

A memory has cells, some of them live, with contents.  Owners have disjoint sets of live cells.
What an owner does is `Confined` to its cells: it may write them, give them up and take cells that
were not live, and it leaves every other live cell as it is.

* `Confined.trans`: steps of one owner compose;
* `Confined.frame`: an owner of more cells keeps the others;
* `Separated.step`: after a step of one owner the cells are still divided between the owners.
-/

namespace OsProjects

variable {σ V C ι : Type*}

/-- The live cells of a state and the contents of cells. -/
structure CellMemory (σ V C : Type*) where
  live : σ → Set V
  content : σ → V → C

/-- From `s` to `t` an owner of the cells `F` has come to own the cells `F'`. -/
structure Confined (H : CellMemory σ V C) (s : σ) (F : Set V) (t : σ) (F' : Set V) : Prop where
  live : F' ⊆ H.live t
  fresh : ∀ v ∈ F', v ∈ H.live s → v ∈ F
  kept : ∀ v ∈ H.live s, v ∉ F → v ∈ H.live t
  content_eq : ∀ v ∈ H.live s, v ∉ F → H.content t v = H.content s v

namespace Confined

variable {H : CellMemory σ V C} {s t u : σ} {F F' F'' G : Set V}

theorem refl (hF : F ⊆ H.live s) : Confined H s F s F :=
  ⟨hF, fun _ hv _ => hv, fun _ hv _ => hv, fun _ _ _ => rfl⟩

theorem trans (h₁ : Confined H s F t F') (h₂ : Confined H t F' u F'') : Confined H s F u F'' := by
  have hnot : ∀ v ∈ H.live s, v ∉ F → v ∉ F' := fun v hv hF hF' => hF (h₁.fresh v hF' hv)
  refine ⟨h₂.live, fun v hv hs => ?_, fun v hv hF => ?_, fun v hv hF => ?_⟩
  · by_contra hF
    exact hnot v hs hF (h₂.fresh v hv (h₁.kept v hs hF))
  · exact h₂.kept v (h₁.kept v hv hF) (hnot v hv hF)
  · rw [h₂.content_eq v (h₁.kept v hv hF) (hnot v hv hF), h₁.content_eq v hv hF]

/-- Cells can be given up. -/
theorem mono (h : Confined H s F t F') (hsub : F'' ⊆ F') : Confined H s F t F'' :=
  ⟨hsub.trans h.live, fun v hv => h.fresh v (hsub hv), h.kept, h.content_eq⟩

/-- An owner of more cells keeps the others. -/
theorem frame (h : Confined H s F t F') (hG : G ⊆ H.live s) (hd : ∀ v ∈ G, v ∉ F) :
    Confined H s (F ∪ G) t (F' ∪ G) := by
  refine ⟨?_, ?_, fun v hv hF => h.kept v hv fun hm => hF (.inl hm),
    fun v hv hF => h.content_eq v hv fun hm => hF (.inl hm)⟩
  · rintro v (hv | hv)
    · exact h.live hv
    · exact h.kept v (hG hv) (hd v hv)
  · rintro v (hv | hv) hs
    · exact .inl (h.fresh v hv hs)
    · exact .inr hv

end Confined

/-- The owners have disjoint sets of live cells. -/
structure Separated (H : CellMemory σ V C) (s : σ) (own : ι → Set V) : Prop where
  live : ∀ i, own i ⊆ H.live s
  disjoint : ∀ i j, i ≠ j → ∀ v ∈ own i, v ∉ own j

namespace Separated

variable {H : CellMemory σ V C} {s t : σ} {own : ι → Set V} {F' : Set V} {i j : ι} {v : V}

/-- A step of one owner. -/
theorem step [DecidableEq ι] (h : Separated H s own) (hc : Confined H s (own i) t F') :
    Separated H t (Function.update own i F') := by
  have hother : ∀ j, j ≠ i → ∀ v ∈ own j, v ∉ F' := fun j hj v hv hF =>
    h.disjoint j i hj v hv (hc.fresh v hF (h.live j hv))
  refine ⟨fun j v hv => ?_, fun j k hjk v hv hk => ?_⟩
  · rcases eq_or_ne j i with rfl | hj
    · rw [Function.update_self] at hv
      exact hc.live hv
    · rw [Function.update_of_ne hj] at hv
      exact hc.kept v (h.live j hv) (h.disjoint j i hj v hv)
  · rcases eq_or_ne j i with rfl | hj
    · rw [Function.update_self] at hv
      rw [Function.update_of_ne hjk.symm] at hk
      exact hother k hjk.symm v hk hv
    · rw [Function.update_of_ne hj] at hv
      rcases eq_or_ne k i with rfl | hk'
      · rw [Function.update_self] at hk
        exact hother j hj v hv hk
      · rw [Function.update_of_ne hk'] at hk
        exact h.disjoint j k hjk v hv hk

end Separated

end OsProjects
