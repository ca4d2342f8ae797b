import OsProjects.Alloc.Conservation

/-!
# An empty pool and a spaced one

What the conservation of frames says about the two variants of `kalloc`: that of part_b divides by
the number of free frames before it looks whether there is one, and so never reports that the memory
is used up (`reports_iff`); that of part_a only ever hands out every second page (`spaced`).
-/

namespace OsProjects.Alloc

variable {end_ : ℕ} {mem : ℕ → ℕ} {s₀ s : Kmem} {es : List Event}

/-! ### Out of memory in part_b -/

/-- `kalloc` returns, and without a free frame it returns `NULL` and leaves the lists alone. -/
def Reports (s : Kmem) : Prop :=
  (∃ r t, PartB.kalloc s = .ok (r, t)) ∧
    (s.freelist = 0 → ∃ t, PartB.kalloc s = .ok (0, t) ∧ t.freelist = s.freelist ∧
      t.next = s.next ∧ t.allocated = s.allocated)

/-- Without a free frame `kalloc` divides by zero. -/
theorem kallocB_empty (h : s.freelist = 0) : PartB.kalloc s = .error .divideByZero := by
  have hcount : countFree s.next pointers s.freelist = .ok 0 := by
    rw [show pointers = pointers - 1 + 1 from rfl, countFree, if_pos h]
  simp only [PartB.kalloc, hcount]
  rfl

/-- **Out of memory** is reported exactly as long as there is memory left. -/
theorem reports_iff (hk : kinit end_ partB.stride (Kmem.boot mem) = .ok s₀)
    (hr : Run (Step partB end_) s₀ es s) : Reports s ↔ s.freelist ≠ 0 := by
  constructor
  · rintro ⟨⟨r, t, ht⟩, -⟩ h0
    rw [kallocB_empty h0] at ht
    cases ht
  · intro h
    obtain ⟨-, -, -, -, hcall, -⟩ := frames_conserved (.inr rfl) hk hr
    exact ⟨hcall h, fun h0 => absurd h0 h⟩

/-- The memory of one frame after boot. -/
theorem oneFrame_boot : ∃ s₀, kinit 0xFFE001 partB.stride (Kmem.boot fun _ => 0) = .ok s₀ ∧
    s₀.freelist = 0xFFF000 := ⟨_, rfl, by decide⟩

/-- With the frame free, `kalloc` returns. -/
theorem reports_one_frame : ∃ s₀, kinit 0xFFE001 partB.stride (Kmem.boot fun _ => 0) = .ok s₀ ∧
    Reports s₀ := by
  obtain ⟨s₀, hk, hfree⟩ := oneFrame_boot
  exact ⟨s₀, hk, (reports_iff hk (.nil s₀)).2 (by rw [hfree]; decide)⟩

/-- With the frame allocated, it does not. -/
theorem not_reports : ¬∀ (end_ : ℕ) (mem : ℕ → ℕ) (s₀ s : Kmem) (es : List Event),
    kinit end_ partB.stride (Kmem.boot mem) = .ok s₀ → Run (Step partB end_) s₀ es s →
      Reports s := by
  intro h
  have hboot : ∃ s₀ t, kinit 0xFFE001 partB.stride (Kmem.boot fun _ => 0) = .ok s₀ ∧
      s₀.freelist ≠ 0 ∧ PartB.kalloc s₀ = .ok (0xFFF000, t) ∧ t.freelist = 0 := by
    refine ⟨_, _, rfl, ?_, rfl, ?_⟩ <;> decide
  obtain ⟨s₀, t, hk, hcall, ht, hempty⟩ := hboot
  have hrun : Run (Step partB 0xFFE001) s₀ [.kalloc 0xFFF000] t := Run.single_iff.2 ⟨hcall, ht⟩
  obtain ⟨⟨r, u, hu⟩, -⟩ := h _ _ s₀ t _ hk hrun
  rw [kallocB_empty hempty] at hu
  cases hu

/-! ### Spacing in part_a -/

theorem mem_managedFrames_mod {stride v : ℕ} (h : v ∈ managedFrames end_ stride) :
    v % stride = pgroundup end_ % stride := by
  obtain ⟨i, -, rfl⟩ :=
    List.mem_range'.1 ((kinitPages_sublist end_ stride).subset (mem_managedFrames.1 h).1)
  exact Nat.add_mul_mod_self_left _ _ _

/-- **Spacing.**  All frames of part_a, free or allocated, are at even distances from the first one,
so that no two allocated ones are contiguous. -/
theorem spaced (hk : kinit end_ partA.stride (Kmem.boot mem) = .ok s₀)
    (hr : Run (Step partA end_) s₀ es s) :
    (∃ free, Chain 0 s.next s.freelist free ∧
      ∀ first, (managedFrames end_ partA.stride).head? = some first →
        ∀ v, v ∈ free ∨ v ∈ s.allocated → v % (2 * pgsize) = first % (2 * pgsize)) ∧
    ∀ v ∈ s.allocated, v + pgsize ∉ s.allocated := by
  obtain ⟨⟨free, hc, -, -, -, hmem⟩, -⟩ := frames_conserved (.inl rfl) hk hr
  have hmod : ∀ v, v ∈ free ∨ v ∈ s.allocated →
      v % (2 * pgsize) = pgroundup end_ % (2 * pgsize) := fun v hv => by
    have hv := mem_managedFrames_mod ((hmem v).1 hv)
    exact hv
  refine ⟨⟨free, hc, fun first hfirst v hv => ?_⟩, fun v hv hw => ?_⟩
  · have hhead := mem_managedFrames_mod (List.mem_of_mem_head? hfirst)
    exact (hmod v hv).trans hhead.symm
  · have hv := hmod v (.inr hv)
    have hw := hmod _ (.inr hw)
    unfold pgsize at *
    omega

/-- part_a with two frames, both allocated. -/
theorem spaced_two_frames :
    ∃ s : Kmem, s.allocated = [0xFFE000, 0xFFC000] ∧
      ∀ v ∈ s.allocated, v + pgsize ∉ s.allocated := by
  have hrun : ∃ s₀ s₁ s : Kmem, kinit 0xFFB001 partA.stride (Kmem.boot fun _ => 0) = .ok s₀ ∧
      PartA.kalloc s₀ = .ok (0xFFE000, s₁) ∧ PartA.kalloc s₁ = .ok (0xFFC000, s) ∧
      s.allocated = [0xFFE000, 0xFFC000] := by
    refine ⟨_, _, _, rfl, rfl, rfl, ?_⟩
    decide
  obtain ⟨s₀, s₁, s, hk, h₁, h₂, hal⟩ := hrun
  have hr : Run (Step partA 0xFFB001) s₀ [.kalloc 0xFFE000, .kalloc 0xFFC000] s :=
    .cons ⟨trivial, h₁⟩ (Run.single_iff.2 ⟨trivial, h₂⟩)
  exact ⟨s, hal, (spaced hk hr).2⟩

end OsProjects.Alloc
