import OsProjects.Alloc.Pool
import OsProjects.Foundation.Loop
import OsProjects.Foundation.Ownership

/-!
# Frames and their owners

The allocated frames as the live cells of a memory, with their words as contents.  `kalloc` and
`kfree` are confined to the frame that they hand out or take back (`kalloc_confined`,
`kfree_confined`), and writes to the frames of the writer (`writes_confined`).
-/

namespace OsProjects.Alloc

/-- The allocated frames and their words. -/
def frameMemory : CellMemory Kmem ℕ (Fin 1024 → ℕ) where
  live s := {v | v ∈ s.allocated}
  content s v := fun i => s.next (v + 4 * i)

variable {P : Part} {end_ : ℕ} {frames : List ℕ} {s t : Kmem} {v r a : ℕ} {F : Set ℕ}

theorem content_eq_iff : frameMemory.content t v = frameMemory.content s v ↔
    ∀ i < 1024, t.next (v + 4 * i) = s.next (v + 4 * i) :=
  ⟨fun h i hi => congrFun h ⟨i, hi⟩, fun h => funext fun i => h i i.isLt⟩

/-! ### Free cells -/

/-- The walk to the predecessor stays in the list. -/
theorem findPred_mem {next : ℕ → ℕ} {fuel p b : ℕ} {free : List ℕ} (hc : Chain 0 next p free)
    (h : findPred next r fuel p = .ok b) : b = 0 ∨ b ∈ free := by
  induction fuel generalizing p free with
  | zero => cases h
  | succ fuel ih =>
    rw [findPred] at h
    split at h
    · exact .inl (Except.ok.inj h).symm
    · rename_i hp
      cases free with
      | nil => exact absurd (Chain.nil_iff.1 hc) hp
      | cons c free =>
        obtain ⟨rfl, -, hrest⟩ := hc
        split at h
        · exact .inr (by rw [← Except.ok.inj h]; exact List.mem_cons_self)
        · exact (ih hrest h).imp id (List.mem_cons_of_mem _)

/-- Taking a cell out writes into the free list only. -/
theorem takeOut_next {free : List ℕ} (hc : Chain 0 s.next s.freelist free)
    (h : takeOut r s = .ok t) (ha : a ∉ free) : t.next a = s.next a := by
  rw [takeOut] at h
  split at h
  · rw [← Except.ok.inj h]
  · obtain ⟨rr, hrr, h⟩ := bind_ok.1 h
    split at h
    · cases h
    · rename_i h0
      obtain rfl := pure_ok.1 h
      refine Function.update_of_ne ?_ _ _
      rintro rfl
      exact ha ((findPred_mem hc hrr).resolve_left h0)

theorem logFrame_next (h : logFrame r s = .ok t) : t.next = s.next ∧ t.freelist = s.freelist := by
  rw [logFrame] at h
  split at h
  · rw [← Except.ok.inj h]
    exact ⟨rfl, rfl⟩
  · cases h

theorem kallocA_next (h : PartA.kalloc s = .ok (r, t)) : t.next = s.next := by
  rw [PartA.kalloc] at h
  split at h
  · obtain ⟨u, hu, h⟩ := bind_ok.1 h
    obtain ⟨-, rfl⟩ := Prod.mk.inj (pure_ok.1 h)
    exact (logFrame_next hu).1
  · obtain ⟨-, rfl⟩ := Prod.mk.inj (pure_ok.1 h)
    rfl

theorem kallocB_next {free : List ℕ} (hc : Chain 0 s.next s.freelist free)
    (h : PartB.kalloc s = .ok (r, t)) (ha : a ∉ free) : t.next a = s.next a := by
  rw [PartB.kalloc] at h
  obtain ⟨n, -, h⟩ := bind_ok.1 h
  dsimp only at h
  split at h
  · cases h
  obtain ⟨r', -, h⟩ := bind_ok.1 h
  split at h
  · obtain ⟨u, hu, h⟩ := bind_ok.1 h
    obtain ⟨w, hw, h⟩ := bind_ok.1 h
    obtain ⟨-, rfl⟩ := Prod.mk.inj (pure_ok.1 h)
    obtain ⟨hnext, hfree⟩ := logFrame_next hu
    rw [takeOut_next (by rw [hnext, hfree]; exact hc) hw ha, hnext]
  · obtain ⟨-, rfl⟩ := Prod.mk.inj (pure_ok.1 h)
    rfl

/-! ### The operations -/

/-- What a `kalloc` that returns has done. -/
theorem kalloc_ok (hP : P = partA ∨ P = partB) (hF : Frames end_ frames) (h : Conserved frames s)
    (hk : P.kalloc s = .ok (r, t)) :
    Conserved frames t ∧
      (r = 0 ∧ t = s ∨ r ≠ 0 ∧ r ∉ s.allocated ∧ t.allocated = s.allocated ++ [r]) := by
  have hcall : P.callable s := by
    rcases hP with rfl | rfl
    · trivial
    · intro h0
      change PartB.kalloc s = _ at hk
      rw [kallocB_empty h0] at hk
      cases hk
  obtain ⟨r', t', hk', hC, hcase⟩ := kalloc_conserved hP hF h hcall
  obtain ⟨rfl, rfl⟩ := Prod.mk.inj (Except.ok.inj (hk.symm.trans hk'))
  refine ⟨hC, hcase.imp id fun ⟨hr, hal⟩ => ⟨?_, hr, hal⟩⟩
  obtain ⟨free, -, hperm⟩ := hC
  exact hF.ne_zero r (hperm.subset (by simp [hal]))

/-- `kalloc` leaves the words of the allocated frames alone. -/
theorem kalloc_next (hP : P = partA ∨ P = partB) (hF : Frames end_ frames) (h : Conserved frames s)
    (hk : P.kalloc s = .ok (r, t)) (hv : v ∈ s.allocated) {i : ℕ} (hi : i < 1024) :
    t.next (v + 4 * i) = s.next (v + 4 * i) := by
  rcases hP with rfl | rfl
  · exact congrFun (kallocA_next hk) _
  · obtain ⟨free, hc, hperm⟩ := h
    refine kallocB_next hc hk fun hmem => ?_
    have hnd := List.nodup_append'.1 (hperm.nodup_iff.2 hF.nodup)
    have hfree := (hF.valid _ (hperm.subset (List.mem_append_left _ hmem))).1
    have hal := (hF.valid v (hperm.subset (List.mem_append_right _ hv))).1
    obtain rfl : i = 0 := by
      unfold pgsize at hfree hal
      omega
    exact hnd.2.2 hmem hv

/-- The caller of `kalloc` comes to own the frame that it returns. -/
theorem kalloc_confined (hP : P = partA ∨ P = partB) (hF : Frames end_ frames)
    (h : Conserved frames s) (hk : P.kalloc s = .ok (r, t)) :
    Confined frameMemory s ∅ t {v | v = r ∧ r ≠ 0} := by
  obtain ⟨-, hcase⟩ := kalloc_ok hP hF h hk
  have hwords : ∀ v ∈ s.allocated, frameMemory.content t v = frameMemory.content s v :=
    fun v hv => content_eq_iff.2 fun i hi => kalloc_next hP hF h hk hv hi
  rcases hcase with ⟨h0, rfl⟩ | ⟨hr0, hr, hal⟩
  · exact ⟨fun v hv => absurd h0 hv.2, fun v hv => absurd h0 hv.2, fun v hv _ => hv,
      fun v hv _ => rfl⟩
  · refine ⟨?_, ?_, fun v hv _ => ?_, fun v hv _ => hwords v hv⟩
    · rintro v ⟨rfl, -⟩
      show v ∈ t.allocated
      simp [hal]
    · rintro v ⟨rfl, -⟩ hv
      exact absurd hv hr
    · show v ∈ t.allocated
      rw [hal]
      exact List.mem_append_left _ hv

/-- The words of different frames are at different addresses. -/
theorem word_outside {v' i : ℕ} (hF : Frames end_ frames) (h : Conserved frames s)
    (hv : v ∈ s.allocated) (hv' : v' ∈ s.allocated) (hne : v' ≠ v) (hi : i < 1024) :
    ¬(v ≤ v' + 4 * i ∧ v' + 4 * i < v + pgsize) := by
  obtain ⟨free, -, hperm⟩ := h
  have h1 := (hF.valid v (hperm.subset (List.mem_append_right _ hv))).1
  have h2 := (hF.valid v' (hperm.subset (List.mem_append_right _ hv'))).1
  unfold pgsize at *
  omega

/-- Writes into the frames of an owner. -/
theorem writes_confined (hF : Frames end_ frames) (h : Conserved frames s)
    (hFs : F ⊆ frameMemory.live s) (next : ℕ → ℕ)
    (hw : ∀ a, (∀ v ∈ F, ¬(v ≤ a ∧ a < v + pgsize)) → next a = s.next a) :
    Conserved frames { s with next := next } ∧
      Confined frameMemory s F { s with next := next } F := by
  refine ⟨write_conserved hF h fun a ha => hw a fun v hv hin => ha ⟨v, hFs hv, hin⟩, hFs,
    fun _ hv _ => hv, fun _ hv _ => hv, fun v hv hvF => content_eq_iff.2 fun i hi => ?_⟩
  refine hw _ fun v' hv' => word_outside hF h (hFs hv') hv ?_ hi
  rintro rfl
  exact hvF hv'

/-- The owner of a frame gives it back. -/
theorem kfree_confined (hF : Frames end_ frames) (h : Conserved frames s)
    (hFs : F ⊆ frameMemory.live s) (hv : v ∈ F) (hk : kfree end_ v s = .ok t) :
    Conserved frames t ∧ Confined frameMemory s F t (F \ {v}) := by
  obtain ⟨t', hk', hC, hal⟩ := kfree_conserved hF h (hFs hv)
  obtain rfl := Except.ok.inj (hk.symm.trans hk')
  obtain ⟨free, -, hperm⟩ := id h
  have hnd := (List.nodup_append'.1 (hperm.nodup_iff.2 hF.nodup)).2.1
  have hmem : ∀ w ∈ s.allocated, w ≠ v → w ∈ t.allocated := fun w hw hne => by
    rw [hal]
    exact (List.mem_erase_of_ne hne).2 hw
  refine ⟨hC, fun w hw => hmem w (hFs hw.1) hw.2, fun w hw _ => hw.1, fun w hw hwF => ?_,
    fun w hw hwF => content_eq_iff.2 fun i hi => ?_⟩
  · exact hmem w hw fun he => hwF (he ▸ hv)
  · have hne : w ≠ v := fun he => hwF (he ▸ hv)
    have hout := word_outside hF h (hFs hv) hw hne hi
    unfold kfree at hk
    split at hk
    · cases hk
    · rw [← Except.ok.inj hk, unlogFrame_next]
      show Function.update (memsetJunk v s.next) v s.freelist (w + 4 * i) = _
      rw [Function.update_of_ne fun he => hout ⟨he.ge, by rw [he]; unfold pgsize; omega⟩,
        memsetJunk, if_neg hout]

end OsProjects.Alloc
